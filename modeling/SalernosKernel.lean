import SalernosKernel.AnonymousMapping
import SalernosKernel.CalloutRemoval
import SalernosKernel.ExecutedFile
import SalernosKernel.FileDescriptorAllocation
import SalernosKernel.FileReferenceCounts
import SalernosKernel.ForkIsolation
import SalernosKernel.FutexWake
import SalernosKernel.GetCwd
import SalernosKernel.Hashmap
import SalernosKernel.InitrdExtract
import SalernosKernel.IntervalTimer
import SalernosKernel.Madt
import SalernosKernel.MemoryCopy
import SalernosKernel.MutexTimeout
import SalernosKernel.NvmeQueue
import SalernosKernel.NvmeTransfer
import SalernosKernel.Pci
import SalernosKernel.PhysicalMemoryMeta
import SalernosKernel.PhysicalMemorySafety
import SalernosKernel.Pipe
import SalernosKernel.PmmCache
import SalernosKernel.Poll
import SalernosKernel.ProcessReferenceCounts
import SalernosKernel.RingBufferCounts
import SalernosKernel.RingBufferWaiters
import SalernosKernel.RingTransfer
import SalernosKernel.RwLock
import SalernosKernel.SchedExit
import SalernosKernel.SchedWait
import SalernosKernel.SetPgid
import SalernosKernel.SignalDelivery
import SalernosKernel.SignalFrame
import SalernosKernel.SignalKill
import SalernosKernel.SignalNumbers
import SalernosKernel.SignalStop
import SalernosKernel.SocketAddress
import SalernosKernel.TerminalWait
import SalernosKernel.TimedWait
import SalernosKernel.TlbShootdownDeadlock
import SalernosKernel.TmpfsDirectories
import SalernosKernel.Tty
import SalernosKernel.TtyEndOfFile
import SalernosKernel.TtyMode
import SalernosKernel.UnixAccept
import SalernosKernel.UnixSocket
import SalernosKernel.UnixStream
import SalernosKernel.VfsReferences
import SalernosKernel.WaitPidContract
import SalernosKernel.WaitPidExit
import SalernosKernel.WaitStatus
