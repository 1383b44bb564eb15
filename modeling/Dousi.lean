import Dousi.Common.Endpoint
import Dousi.Common.LogThresholds
import Dousi.Common.LoggerStart
import Dousi.Core.ConcurrentQueue
import Dousi.Core.QueueProgress
import Dousi.Stream.OverlappingWrites
import Dousi.Stream.Segments
import Dousi.Stream.WireFormat
import Dousi.Executor.BadRequests
import Dousi.Executor.IOThreadPool
import Dousi.Client.GetObject
import Dousi.Client.ObjectIds
import Dousi.Client.DeadConnection
import Dousi.Client.NativeRpcClient
import Dousi.Client.SharedOwnership
import Dousi.Executor.HeapObjects
import Dousi.Executor.Lifetimes
import Dousi.Executor.Pipeline
import Dousi.Executor.Registering
import Dousi.Executor.Shutdown
import Dousi.System.Completion
import Dousi.System.Linearizability
import Dousi.System.LocalCalls
import Dousi.System.RemoteNames
