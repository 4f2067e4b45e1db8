import Shaper.RingShutdown
import Shaper.WriteOrder
import Shaper.WriteModes
import Shaper.Coherence
import Shaper.WorkloadCoverage
import Shaper.CompletionSafety
import Shaper.DmaMapping
import Shaper.AdminQueue
import Shaper.MergeTarget
import Shaper.Opcodes
import Shaper.FlushCache
import Shaper.BitonicSort
import Shaper.Ranges
import Shaper.Drain
import Shaper.TransferWindow
import Shaper.BatchQueue
import Shaper.PageHandles
import Shaper.WriteBackDurable
import Shaper.Controllers
import Shaper.HostMapping
import Shaper.PrpChain
import Shaper.WarpCopy
import Shaper.RunSummary
import Shaper.RingStorage
import Shaper.CacheMemory
