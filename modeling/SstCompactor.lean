import SstCompactor.Format.Restarts
import SstCompactor.Format.IndexDelta
import SstCompactor.Format.IndexExact
import SstCompactor.Sst.Layout
import SstCompactor.Sst.BlockSizes
import SstCompactor.Merge.Heap
import SstCompactor.Merge.Bytewise
import SstCompactor.Compaction.MergeReads
import SstCompactor.Compaction.Tasks
import SstCompactor.Compaction.AnyFile
import SstCompactor.Compaction.Balance
import SstCompactor.Compaction.Malformed
import SstCompactor.Compaction.Ties
import SstCompactor.Fuzzer
import SstCompactor.CompactFiles
