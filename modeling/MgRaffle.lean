import MgRaffle.Library.Collector
import MgRaffle.Library.Stepping
import MgRaffle.Library.LittleEndian
import MgRaffle.MgServer.Buffer
import MgRaffle.MgServer.ReadBuf
import MgRaffle.MgServer.Parser
import MgRaffle.MgServer.Frame
import MgRaffle.MgServer.Refinement
import MgRaffle.Library.Varint
import MgRaffle.MgServer.Chunking
import MgRaffle.MgServer.Framing
import MgRaffle.MgServer.ParserSafety
import MgRaffle.MgServer.Termination
import MgRaffle.MgServer.Queues
import MgRaffle.MgServer.Response
import MgRaffle.MgServer.Conservation
import MgRaffle.MgServer.Dispatch
import MgRaffle.MgServer.Ownership
import MgRaffle.MgServer.Windows
import MgRaffle.RbTree.Balanced
import MgRaffle.RbTree.Deletion
import MgRaffle.Core.Pool
import MgRaffle.TcpServer.Stream
import MgRaffle.TcpServer.BufferPool
import MgRaffle.TcpServer.EventLoop
import MgRaffle.Utils.BufferPool
import MgRaffle.Utils.Solution
import MgRaffle.Utils.HashMap
import MgRaffle.Utils.ConnectionPool
import MgRaffle.DdnsClient
import MgRaffle.RbTree.Mirror
import MgRaffle.RbTree.Counters
import MgRaffle.Library.Ring
import MgRaffle.Core.List
import MgRaffle.Core.PoolMemory
import MgRaffle.Core.PoolRefinement
import MgRaffle.Core.PoolReuse
import MgRaffle.Core.PoolDestroy
import MgRaffle.Utils.Removal
import MgRaffle.Utils.AlignedPool
import MgRaffle.TcpServer.BufferWindow
import MgRaffle.TcpServer.ParserWindow
import MgRaffle.TcpServer.ParserFeed
import MgRaffle.Utils.HeapSort
import MgRaffle.Utils.Bubble
import MgRaffle.Utils.FastSort
import MgRaffle.Utils.Hash
import MgRaffle.Utils.Ip
import MgRaffle.OpenrestyApp.Db
import MgRaffle.OpenrestyApp.Binding
import MgRaffle.Leetcode
import MgRaffle.MgServer.Helloworld
import MgRaffle.MgServer.MidFind
import MgRaffle.MgServer.Rotate
import MgRaffle.MgServer.Client
import MgRaffle.Utils.SharedPool
import MgRaffle.SnmpAgent
import MgRaffle.MgServer.Service
import MgRaffle.Utils.Queens
import MgRaffle.TcpServer.ReadLoop
import MgRaffle.MgServer.WatchDog
import MgRaffle.Utils.Multi
import MgRaffle.Utils.Wakeups
import MgRaffle.RbTree.Shared
import MgRaffle.Options
