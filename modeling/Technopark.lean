import Technopark.Lib.Call
import Technopark.Lib.Run
import Technopark.Lib.HeapOrder
import Technopark.Lib.Ring
import Technopark.Lib.UnorderedMap
import Technopark.Lib.Segments
import Technopark.Lib.Chain
import Technopark.Containers.DArray
import Technopark.Containers.Heap
import Technopark.Containers.Queue
import Technopark.Containers.LinkedList
import Technopark.Cache.LruCache
import Technopark.Cache.LastUsedCache
import Technopark.Net.Socket
import Technopark.Net.Engine
import Technopark.Net.PollAsync
import Technopark.Net.Poll
import Technopark.Proofs.DArray
import Technopark.Proofs.Heap
import Technopark.Proofs.Queue
import Technopark.Proofs.LinkedList
import Technopark.Proofs.CacheLog
import Technopark.Proofs.LruCache
import Technopark.Proofs.LastUsedCache
import Technopark.Proofs.SocketSend
import Technopark.Proofs.SocketRecv
import Technopark.Proofs.PollAsync
import Technopark.Proofs.Poll
import Technopark.Containers.Stack
import Technopark.Proofs.Stack
import Technopark.Patterns.Singleton
import Technopark.Proofs.Singleton
import Technopark.Lib.Backlog
import Technopark.Net.Libevent
import Technopark.Proofs.Libevent
import Technopark.Lib.Ledger
import Technopark.Net.Select
import Technopark.Proofs.Select
import Technopark.Proofs.PollLeak
import Technopark.Net.SocketLife
import Technopark.Proofs.SocketLife
import Technopark.Net.ServerPoll
import Technopark.Proofs.ServerPoll
import Technopark.Net.AsyncEngine
import Technopark.Proofs.AsyncEngine
import Technopark.Net.Epoll
import Technopark.Proofs.Epoll
import Technopark.Algorithms.ShellSort
import Technopark.Lib.Insertion
import Technopark.Proofs.ShellSort
import Technopark.Proofs.LinkedListEdit
import Technopark.Lib.StdString
import Technopark.Proofs.SocketRecvBytes
import Technopark.Net.Http
import Technopark.Proofs.ParseProtocol
import Technopark.Proofs.MakeQuery
import Technopark.Net.Options
import Technopark.Proofs.Options
import Technopark.Net.Server
import Technopark.Proofs.Server
import Technopark.Proofs.LruCacheThrow
import Technopark.Proofs.SocketConnect
import Technopark.Proofs.DArrayAt
import Technopark.Proofs.Receive
import Technopark.Lib.OrderedSet
import Technopark.Net.ServerSelect
import Technopark.Proofs.SelectRange
import Technopark.Proofs.ServerSelect
import Technopark.Proofs.PollRoom
import Technopark.Lib.Subtree
import Technopark.Proofs.SiftDown
import Technopark.Proofs.DArrayRoom
import Technopark.Proofs.QueueSizes
import Technopark.Proofs.StackDisplay
import Technopark.Lib.Exchange
import Technopark.Net.Asio
import Technopark.Proofs.Asio
import Technopark.Proofs.AsioSockets
import Technopark.Lib.Istream
import Technopark.Net.HttpResponse
import Technopark.Proofs.HttpResponse
import Technopark.Net.ServerSelectMain
import Technopark.Proofs.ServerSelectMain
import Technopark.Net.ServerMain
import Technopark.Proofs.CommandLine
import Technopark.Proofs.ServerMain
import Technopark.Net.HttpClient
import Technopark.Proofs.HttpClient
import Technopark.Proofs.SelectSessions
import Technopark.Proofs.LinkedListLife
import Technopark.Net.EchoServer
import Technopark.Proofs.EchoServer
import Technopark.Proofs.AsyncTurns
import Technopark.Proofs.AsyncSessions
