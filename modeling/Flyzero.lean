import Flyzero.CircularBuffer.Stream
import Flyzero.CircularBuffer.Spsc
import Flyzero.CircularBuffer.Failure
import Flyzero.CircularBuffer.Layout
import Flyzero.CircularQueue.Capacity
import Flyzero.CircularQueue.Count
import Flyzero.TaskQueueThread.Wakeup
import Flyzero.TaskQueueThread.Handover
import Flyzero.TcpConnection
import Flyzero.EventDispatch.Unregister
import Flyzero.EventDispatch.Starvation
import Flyzero.EventDispatch.QuietCall
import Flyzero.EventDispatch.Termination
import Flyzero.EventDispatch.Nested
import Flyzero.EventDispatch.LoopRound
import Flyzero.Deadline
import Flyzero.LruCache.Exception
import Flyzero.LruCache.Ledger
import Flyzero.LruCache.Reentrant
import Flyzero.Mempool.Demand
import Flyzero.Mempool.Quarantine
import Flyzero.Mempool.Release
import Flyzero.Mempool.SizeClass
import Flyzero.Backtrace.Alloca
import Flyzero.Backtrace.Frames
import Flyzero.Backtrace.Report
import Flyzero.Backtrace.Save
import Flyzero.FileDescriptor
import Flyzero.Hash
import Flyzero.Hex
import Flyzero.EventDispatch.EdgeTriggered
import Flyzero.FileDescriptor.Leak
import Flyzero.TcpServer
import Flyzero.TcpConnection.Service
import Flyzero.TcpConnection.Lifetime
import Flyzero.TaskQueueThread.Liveness
import Flyzero.EventDispatch.Period
import Flyzero.CircularBuffer.Shared
import Flyzero.EventDispatch.Moved
import Flyzero.LruCache.Growth
import Flyzero.Backtrace.Pipeline
import Flyzero.TcpServer.Backlog
