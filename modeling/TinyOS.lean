import TinyOS.PipeQueue
import TinyOS.ChildReaping
import TinyOS.JoinHistory
import TinyOS.SocketMisuse
import TinyOS.FcbLifecycle
import TinyOS.ListenerClose
import TinyOS.ConnectPairing
import TinyOS.FullDuplex
import TinyOS.PipeBlocking
import TinyOS.KernelExclusion
import TinyOS.CondVariable
import TinyOS.TimeoutList
import TinyOS.Overtaking
import TinyOS.ThreadRelease
import TinyOS.TimedWait
import TinyOS.ChildWaits
import TinyOS.ExitAssertions
import TinyOS.ExitStatus
import TinyOS.ProcessLife
import TinyOS.SocketLifetime
import TinyOS.Deque
import TinyOS.WholeLists
import TinyOS.RemoteRequest
import TinyOS.Symposium
import TinyOS.Barrier
import TinyOS.InfoStream
import TinyOS.ShellPipeline
import TinyOS.RlistSelect
import TinyOS.FcbReserve
import TinyOS.FailedOpens
import TinyOS.SocketSlot
import TinyOS.LineSplit
import TinyOS.IntList
import TinyOS.InfoAccess
import TinyOS.Interrupts
import TinyOS.SerialDevices
import TinyOS.ReaderWakeups
import TinyOS.PipeDelivery
import TinyOS.VmLifecycle
import TinyOS.WorkConserving
import TinyOS.SymposiumEnds
import TinyOS.FidIsolation
import TinyOS.SpinMutex
import TinyOS.ServerQuit
import TinyOS.ServerLog
