import RtThread.Kernel.ThreadLife
import RtThread.Kernel.TimeSlice
import RtThread.Ipc.MutexPriority
import RtThread.Ipc.SemSystem
import RtThread.Ipc.CounterWidth
import RtThread.Timer.SoftCheck
import RtThread.Timer.TimerThread
import RtThread.Timer.CheckBound
import RtThread.Port.TimerCommand
import RtThread.Port.FmqDeque
import RtThread.Port.QueueHandle
import RtThread.Port.EventGroup
import RtThread.Port.ContextSwitch
import RtThread.Drivers.PipeWake
import RtThread.Drivers.Completion
import RtThread.Drivers.DataQueueFifo
import RtThread.Drivers.SerialDma
import RtThread.Drivers.WorkCancel
import RtThread.Wait.WaitBound
import RtThread.Mem.MallocAlign
import RtThread.Mem.SystemHeap
import RtThread.Mem.MempoolSystem
import RtThread.Pthreads.Once
import RtThread.Pthreads.RwlockWake
import RtThread.Pthreads.Destroy
import RtThread.Drivers.WlanInput
import RtThread.Dfs.MountTable
import RtThread.Dfs.WorkingDirectory
import RtThread.Dfs.Romfs
import RtThread.Dfs.FdReferences
import RtThread.Pthreads.ClockTime
import RtThread.Pthreads.Mqueue
import RtThread.Pthreads.Cleanup
import RtThread.Pthreads.LifecycleSafe
import RtThread.Pthreads.NameSpace
import RtThread.Pthreads.PosixSem
import RtThread.Finsh.MshSplit
import RtThread.Finsh.Symbols
