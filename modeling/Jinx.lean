import Jinx.Sched.TaskQueue
import Jinx.Sched.ReadyList
import Jinx.Sched.Cancel
import Jinx.Sched.Wait
import Jinx.Sched.WaitReport
import Jinx.Sched.WaitStrand
import Jinx.Sched.Queues
import Jinx.Sched.Membership
import Jinx.Await.Machine
import Jinx.Await.Exception
import Jinx.Await.Resume
import Jinx.Await.Reuse
import Jinx.Await.Program
import Jinx.Await.Inline
import Jinx.Await.Nest
import Jinx.Await.Completion
import Jinx.Await.Chain
import Jinx.Await.Pause
import Jinx.Await.Join
import Jinx.Await.Bottom
import Jinx.Http.BufferView
import Jinx.Http.HTTPParser
import Jinx.Lib.Incremental
import Jinx.Http.Arrival
import Jinx.Http.MessageHead
import Jinx.Http.HTTPBuilder
import Jinx.Http.WebApp
import Jinx.Http.Connection
import Jinx.Http.KeepAlive
import Jinx.Http.ErrorResponse
import Jinx.Sync.Lock
import Jinx.Sync.Queue
import Jinx.Sync.QueueOrder
import Jinx.Sync.QueueCancel
import Jinx.Sync.BufferPool
import Jinx.Sync.Spurious
import Jinx.Await.Spliced
import Jinx.Await.HandDown
import Jinx.Await.JoinChain
import Jinx.Await.JoinWakes
import Jinx.Http.LineBounds
import Jinx.Http.RoundTrip
import Jinx.Http.ErrorHandling
import Jinx.Http.PageSlot
import Jinx.Sync.PoolCount
import Jinx.Sync.PoolLimit
import Jinx.Sync.BufferHandles
import Jinx.Sync.HandleCount
import Jinx.OpenSSL.StreamBIO
import Jinx.OpenSSL.Wakeups
import Jinx.Variant
import Jinx.VariantAgreement
import Jinx.Http.PageBuffer
import Jinx.Http.Placement
import Jinx.Await.Rethrow
import Jinx.Await.RunOrder
import Jinx.Http.RouteSlots
import Jinx.Http.RouteSafety
import Jinx.Http.BuilderCycles
import Jinx.Http.AllocateBuffers
import Jinx.Await.Planted
import Jinx.Http.HTTPClient
import Jinx.Http.ParserMemory
import Jinx.Http.ParserProgress
import Jinx.Http.Redirect
import Jinx.Lib.DoWhile
import Jinx.Lib.Storage
import Jinx.Posix.Retry
import Jinx.Posix.SocketAddress
import Jinx.Record
import Jinx.BackList
import Jinx.Posix.StreamSend
import Jinx.Sched.Spawn
import Jinx.Sync.QueueBounds
import Jinx.Sync.QueueCallbacks
import Jinx.Sync.QueueReset
import Jinx.Deque
import Jinx.Http.WordView
import Jinx.Lib.Ring
import Jinx.Sync.ArrayQueue
import Jinx.Argparse
import Jinx.ArgparseCells
import Jinx.IntegerOptions
import Jinx.ListOptions
import Jinx.PointerCount
import Jinx.PointerExact
import Jinx.Libevent.CallbackObject
import Jinx.Libevent.TLSCallback
import Jinx.Libevent.Wakeup
import Jinx.ApplyOptions
import Jinx.OpenSSL.StreamBytes
import Jinx.OpenSSL.WriteRetry
import Jinx.Posix.SocketPipe
import Jinx.Http.Exchange
import Jinx.Linearizable
import Jinx.Sched.StackOrder
import Jinx.Sched.ThreadPlaces
import Jinx.Sched.ThreadWakes
import Jinx.Http.Agreement
import Jinx.Sync.ThreadLock
import Jinx.Posix.Connect
