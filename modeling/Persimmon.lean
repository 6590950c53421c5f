import Persimmon.Lib.PersistentMemory
import Persimmon.Lib.Transition
import Persimmon.Lib.Pipe
import Persimmon.Lib.UndoReplay
import Persimmon.Lib.FullPeriod
import Persimmon.Lib.OpenAddressing
import Persimmon.Lib.X86
import Persimmon.Word
import Persimmon.Ranges
import Persimmon.RangesRuns
import Persimmon.MemRegion
import Persimmon.RegionTable
import Persimmon.PersistRegion
import Persimmon.FileName
import Persimmon.UndoLog
import Persimmon.Epoch
import Persimmon.EpochSafety
import Persimmon.LogTrace
import Persimmon.Rollback
import Persimmon.LoggedAddrs
import Persimmon.Dedup
import Persimmon.FastPath
import Persimmon.DedupRollback
import Persimmon.FreshRegion
import Persimmon.Cleanup
import Persimmon.LogBound
import Persimmon.Commit
import Persimmon.FreshStart
import Persimmon.RollbackRetry
import Persimmon.Lives
import Persimmon.Accesses
import Persimmon.Instrument
import Persimmon.Recovery
import Persimmon.TableSwitch
import Persimmon.TableFile
import Persimmon.HandOff
import Persimmon.HandShake
import Persimmon.HandShakeSafety
import Persimmon.Image
import Persimmon.EpochUndo
import Persimmon.Consume
import Persimmon.Startup
import Persimmon.CommandLog
import Persimmon.CommandLogLayout
import Persimmon.CommandLogInvariant
import Persimmon.CommandLogSafety
import Persimmon.CommandLogLength
import Persimmon.CommandLogReserve
import Persimmon.CommandLogProgress
import Persimmon.CommandLogReplay
import Persimmon.ClearStores
import Persimmon.SyscallEvents
import Persimmon.MyLibc
import Persimmon.RangesArray
import Persimmon.RangesHeap
