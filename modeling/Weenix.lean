import Weenix.Lib.Runs
import Weenix.Lib.Intervals
import Weenix.Lib.Layers
import Weenix.Proc.VmKmutex
import Weenix.Proc.ProcsKmutex
import Weenix.Proc.VmZombies
import Weenix.Proc.VmTurns
import Weenix.Proc.VmExit
import Weenix.Proc.VmKillAll
import Weenix.Proc.VfsExit
import Weenix.Proc.ChildLists
import Weenix.Proc.Pids
import Weenix.Warmup.Money
import Weenix.Vfs.Replay
import Weenix.Vfs.VmPaths
import Weenix.Vfs.OpenFiles
import Weenix.Vfs.Positions
import Weenix.Vfs.VmForkFiles
import Weenix.Vfs.VmDescriptorRuns
import Weenix.Vfs.VmNameLimit
import Weenix.Vfs.VmFailedOpen
import Weenix.Vfs.VmSeeks
import Weenix.Vfs.VmPathBuffer
import Weenix.Vfs.VmResolve
import Weenix.Vfs.VnodeWaits
import Weenix.Vm.System
import Weenix.Vm.AddressSpace
import Weenix.Vm.Protect
import Weenix.Vm.FileMap
import Weenix.Vm.Unmap
import Weenix.Vm.Reads
import Weenix.Vm.Ranges
import Weenix.Vm.Reclaim
import Weenix.Vm.EntryForking
import Weenix.Warmup.My402List
import Weenix.Warmup.Records
import Weenix.Warmup.Statements
import Weenix.Lib.BubbleSort
import Weenix.Warmup.Lists
import Weenix.Warmup.ListTest
import Weenix.Warmup.Exchanges
import Weenix.Warmup.ListTestRuns
import Weenix.Vm.EntryCopies
import Weenix.Vm.EntryPageout
import Weenix.Vm.Brk
import Weenix.Vm.BrkCrashes
import Weenix.Vm.BusyWait
import Weenix.Vm.FailedFills
import Weenix.Vm.Heap
import Weenix.Vm.Isolation
import Weenix.Vm.MapFailures
import Weenix.Vm.MmapFiles
import Weenix.Vm.SureFills
import Weenix.Vm.WriteBytes
import Weenix.Vm.EntryRuns
import Weenix.Vm.Evictions
import Weenix.Vm.DirCall
import Weenix.Vm.ReadCall
import Weenix.Vm.WriteCall
import Weenix.Vm.PageCache
import Weenix.Vm.SharedStores
import Weenix.Vm.Unavailable
import Weenix.Vm.UserCopies
import Weenix.Vm.VecDup
import Weenix.Vm.FlatMemory
import Weenix.Vm.Cells
import Weenix.Vm.FlatAccess
import Weenix.Vm.FlatCopies
import Weenix.Vm.FlatAreas
import Weenix.Vm.FlatForking
import Weenix.Vm.FlatMapping
import Weenix.Vm.FlatPageout
import Weenix.Vm.FlatRuns
import Weenix.Vm.WriteBack
import Weenix.Vm.SyncRuns
