import RRThreadPool.Abstract.BoundedFifo
import RRThreadPool.Posix.Queue
import RRThreadPool.Posix.System
import RRThreadPool.Posix.Invariant
import RRThreadPool.Posix.Contract
import RRThreadPool.Posix.LostWakeup
import RRThreadPool.Posix.Progress
import RRThreadPool.Posix.OutParameter
import RRThreadPool.Typed.MessageQueueT
import RRThreadPool.Typed.Refinement
