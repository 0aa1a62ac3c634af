import SstCompactor.Compaction.Shard

set_option autoImplicit false

namespace SstCompactor
open FixedWidth Pieces

section
variable {l : List Entry} (hs : SortedEntries l)
include hs

end

end SstCompactor
