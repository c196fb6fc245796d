import GaiaKernel.Memory.PmmInit
import GaiaKernel.Memory.KmallocLaw
import GaiaKernel.Loader.Lifecycle
import GaiaKernel.Sched.RefCountRuns
import GaiaKernel.Syscall.Confinement
import GaiaKernel.Syscall.FileRead
import GaiaKernel.Vfs.LookupSpec
import GaiaKernel.Fat.NamespaceLaw
import GaiaKernel.Fat.WriteThrough
import GaiaKernel.Ext2.SyncSpec
import GaiaKernel.Display.Pinned
import GaiaKernel.Syscall.BlockingSpec
import GaiaKernel.Sched.RunQueueLaw
import GaiaKernel.Net.Sockets
import GaiaKernel.Storage.RawWrite
import GaiaKernel.Vfs.Gate
import GaiaKernel.Sched.SignalReturn
import GaiaKernel.Sched.ShareContract
import GaiaKernel.Storage.Partition
import GaiaKernel.Heimdall.Windows
import GaiaKernel.Ext2.TruthfulRead
import GaiaKernel.Sched.SignalDelivery
import GaiaKernel.Sched.DispatchBounds
import GaiaKernel.Vfs.FilePosition
import GaiaKernel.Fat.LongName
import GaiaKernel.Net.Checksum
import GaiaKernel.Msg.Poll
import GaiaKernel.Msg.Wakeups
import GaiaKernel.Net.ArpOrder
import GaiaKernel.Syscall.Getdents
import GaiaKernel.Net.Netmon
import GaiaKernel.Net.TcpOptions
import GaiaKernel.Loader.Startup
import GaiaKernel.Fat.MkfsSize
