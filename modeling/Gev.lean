import Gev.Lib.Atomic
import Gev.Lib.Slices
import Gev.Lib.Runs
import Gev.EventLoop.Liveness
import Gev.EventLoop.Machine
import Gev.EventLoop.Wakeup
import Gev.Connection.State
import Gev.EventLoop.TaskQueue
import Gev.Connection.Code
import Gev.Connection.Reading
import Gev.Connection.Output
import Gev.Connection.History
import Gev.Connection.Session
import Gev.Connection.ReadPath
import Gev.Lib.BigEndian
import Gev.Websocket.Framing
import Gev.Websocket.Cipher
import Gev.Websocket.Decoder
import Gev.Websocket.HeaderCodec
import Gev.Websocket.Chunking
import Gev.Connection.Tasks
import Gev.Server.Interleaving
import Gev.Server.Invariant
import Gev.Server.LifeCycle
import Gev.Server.Ownership
import Gev.Server.Shutdown
import Gev.Connection.Counting
import Gev.Server.Count
import Gev.Server.Registration
import Gev.Poller.Kqueue
import Gev.Poller.KqueueLoop
import Gev.Connection.IdleTimer
import Gev.Lib.Streams
import Gev.Protobuf.Framing
import Gev.Server.StartStop
import Gev.Connection.Lengths
import Gev.Connection.Echo
import Gev.Websocket.Control
import Gev.Websocket.Wrap
import Gev.Websocket.Replies
import Gev.Websocket.Closing
import Gev.Connection.Windows
import Gev.Websocket.PingPong
import Gev.Connection.WindowsClose
import Gev.Connection.WindowsLoops
import Gev.Connection.WindowsWriter
import Gev.Connection.WindowsStreams
import Gev.Connection.Additions
import Gev.Server.Assignment
import Gev.Lib.Spread
import Gev.Server.Balance
import Gev.Lib.Substrings
import Gev.Websocket.Http
import Gev.Websocket.Upgrade
import Gev.Websocket.Handshake
import Gev.Websocket.Versions
import Gev.Connection.Draining
import Gev.Connection.Protocols
import Gev.Server.NewServer
import Gev.Connection.Traffic
import Gev.Server.Between
import Gev.Server.Delivery
import Gev.Server.Backpressure
import Gev.Server.Quiescence
import Gev.Connection.Behaviour
import Gev.Connection.Intake
import Gev.Server.Refinement
import Gev.Connection.Framing
import Gev.Example.Protocol
import Gev.Server.Messages
import Gev.Server.Upgrades
import Gev.Connection.Watchdog
