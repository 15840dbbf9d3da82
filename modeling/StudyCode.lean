import StudyCode.Lib.Machine
import StudyCode.Lib.Trace
import StudyCode.Lib.Noninterference
import StudyCode.Lib.Fifo
import StudyCode.Lib.Roster
import StudyCode.Lib.WaitSet
import StudyCode.Lib.Mutex
import StudyCode.Lib.Lease
import StudyCode.Lib.Custody
import StudyCode.Lib.ByteString
import StudyCode.Lib.StringEdit
import StudyCode.Lib.Numerals
import StudyCode.Lib.TextSearch
import StudyCode.Lib.HeaderBlock
import StudyCode.Queue.RingQueue
import StudyCode.Queue.RingQueueFifo
import StudyCode.Queue.RingQueueProgress
import StudyCode.Queue.RingQueueRaces
import StudyCode.Queue.RingQueueAtomic
import StudyCode.Queue.BlockQueue
import StudyCode.Queue.BlockQueueBounds
import StudyCode.Queue.BlockQueueSignals
import StudyCode.Queue.BlockQueueFifo
import StudyCode.Pool.ThreadPool
import StudyCode.Pool.WakeUps
import StudyCode.Pool.Drain
import StudyCode.Pool.Owner
import StudyCode.Pool.Restart
import StudyCode.Pool.ShutDown
import StudyCode.Pool.Thread
import StudyCode.Http.CookieUtil
import StudyCode.Http.SessionManager
import StudyCode.Http.SessionHistory
import StudyCode.Http.Eviction
import StudyCode.Http.SessionId
import StudyCode.Http.HttpServer
import StudyCode.Http.Authentication
import StudyCode.Http.CookiePairs
import StudyCode.Http.LoginCookie
import StudyCode.Http.CookieRoundTrip
import StudyCode.Http.Request
import StudyCode.Http.CookieSource
import StudyCode.Http.CookieLine
import StudyCode.Http.HeaderSpelling
import StudyCode.Http.ReceiveBuffer
import StudyCode.Http.Routing
import StudyCode.Http.Delivery
import StudyCode.Http.OwnSession
import StudyCode.Http.ServerPool
import StudyCode.Http.Observers
import StudyCode.Http.ResponseText
import StudyCode.Http.Visits
import StudyCode.Http.Browsers
import StudyCode.Tcp.Connection
import StudyCode.Tcp.Replies
import StudyCode.Tcp.WouldBlock
import StudyCode.Tcp.Segmentation
import StudyCode.Tcp.Dictionary
import StudyCode.Tcp.Server
import StudyCode.Tcp.ServerInvariant
import StudyCode.Tcp.Ownership
import StudyCode.Tcp.Leaks
import StudyCode.Tcp.Sockets
import StudyCode.Tcp.Registering
import StudyCode.Tcp.Statements
import StudyCode.Tcp.Lifetime
import StudyCode.Tcp.Clients
import StudyCode.Tcp.PollLoop
import StudyCode.Tcp.SelectLoop
import StudyCode.Servers.ThreadServer
import StudyCode.Servers.ThreadOwnership
import StudyCode.Servers.ThreadClosing
import StudyCode.Servers.ThreadMemory
import StudyCode.Servers.ForkServer
import StudyCode.Servers.ChildTables
import StudyCode.Servers.Reaping
import StudyCode.Udp.EchoServer
import StudyCode.Udp.EchoOrder
import StudyCode.Net.InetAddr
import StudyCode.Ipc.NamedPipe
import StudyCode.Log.LogMessage
import StudyCode.Log.Console
import StudyCode.Log.LogFile
import StudyCode.Alternation.PrintRounds
import StudyCode.Tickets.GrapTicket
