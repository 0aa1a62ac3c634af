import SstCompactor.Sched.Pool
import SstCompactor.Compaction.Shard

/-!
The subcompactions as tasks. Each shard is compacted by a task of its own; the tasks run on the
threads of a pool, interleaved at the turns of their merge loops, and are awaited in shard order.
-/

set_option autoImplicit false

namespace SstCompactor

namespace LoserTreeMerger
variable {S : Type} [MergeSource S] (C : KeyComparator)

variable {C}

end LoserTreeMerger

variable (X : Crates)

variable {X}

end SstCompactor
