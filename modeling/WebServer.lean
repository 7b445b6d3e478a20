import WebServer.Lib.Calendar
import WebServer.Lib.Exec
import WebServer.Lib.Linked
import WebServer.TimeRound.Lock
import WebServer.TimeRound.Wheel
import WebServer.TimeRound.Repr
import WebServer.TimeRound.Ops
import WebServer.TimeRound.Expiry
import WebServer.Connection.Model
import WebServer.Connection.Invariant
import WebServer.Connection.Run
import WebServer.Connection.Fd
import WebServer.Connection.Timer
import WebServer.Connection.Registered
import WebServer.Coroutine.Pool
import WebServer.Coroutine.Run
import WebServer.Handoff.Model
import WebServer.Handoff.ExactlyOnce
import WebServer.Http.Request
import WebServer.Http.Response
import WebServer.Http.Session
import WebServer.Http.Stream
import WebServer.Http.Segments
import WebServer.Lib.Buffers
import WebServer.Lib.Mutex
import WebServer.Queue.Task
import WebServer.Queue.TaskFifo
import WebServer.Queue.LogFifo
import WebServer.Queue.Progress
import WebServer.TimeRound.Machine
import WebServer.Http.Framing
import WebServer.Http.WriteBuff
import WebServer.Http.KeepAlive
import WebServer.Http.Head
import WebServer.TimeRound.Update
import WebServer.TimeRound.Reach
import WebServer.TimeRound.Interleave
import WebServer.Lib.Calls
import WebServer.Socket.Loops
import WebServer.Socket.Read
import WebServer.Coroutine.Counter
import WebServer.Http.Files
import WebServer.Lib.Greedy
import WebServer.Log.Record
import WebServer.Lib.Reads
import WebServer.Socket.Write
import WebServer.Http.Confined
import WebServer.Lib.Checked
import WebServer.Log.Message
import WebServer.Libco.Link
import WebServer.Lib.Deadlines
import WebServer.Libco.EventLoop
import WebServer.Libco.Invariant
import WebServer.Libco.Resume
import WebServer.Libco.Refused
import WebServer.Libco.Hook
import WebServer.Lib.Instr
import WebServer.Libco.Context
import WebServer.Libco.Restore
import WebServer.Connection.Idle
import WebServer.Coroutine.OnLibco
import WebServer.Coroutine.Simulation
import WebServer.Handoff.RoundRobin
