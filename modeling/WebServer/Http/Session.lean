import WebServer.Http.Response
import WebServer.Lib.Exec

/-!
# A connection between requests and responses

The part of an `Httpdata` that lives longer than one event, and its steps: an event read from the
socket, each `send` of `writen` with its outcome, and what `HandleWrite` and `handle_event` do when
`writen` returns. Between two events only `Keep_Alive`, `write_buff` and `write_length` survive:
`readn` clears `read_buff` at every event, and a parser is made for each.

`sent` and `built` record what the socket accepted and the responses that `handle_http` built.
-/

namespace WebServer.Http

/-! ## The write buffer -/

/-- `sprintf(buff, "%s", s.c_str())`: the bytes up to the first NUL, and a NUL; what was there
behind it stays. -/
def sprintf (buff : ℕ → UInt8) (s : Bytes) : ℕ → UInt8 := fun i =>
  if i ≤ (cStr s).length then (cStr s).getD i 0 else buff i

/-- The bytes at `buff + off`. -/
def bytesAt (buff : ℕ → UInt8) (off length : ℕ) : Bytes :=
  (List.range length).map fun i => buff (off + i)

/-- `memcpy(buff, buff + off, length)`. Where the regions overlap, the bytes are taken as read
before any is written. -/
def memcpy (buff : ℕ → UInt8) (off length : ℕ) : ℕ → UInt8 := fun i =>
  if i < length then buff (off + i) else buff i

theorem bytesAt_add (buff : ℕ → UInt8) (off k m : ℕ) :
    bytesAt buff off (k + m) = bytesAt buff off k ++ bytesAt buff (off + k) m := by
  simp [bytesAt, List.range_add, Nat.add_assoc, Function.comp_def]

theorem cStr_eq_self {s : Bytes} (hs : 0 ∉ s) : cStr s = s := by
  rw [cStr, List.takeWhile_eq_self_iff]
  intro b hb
  have hne : b ≠ 0 := fun h => hs (h ▸ hb)
  simpa using hne

/-- What is read back from the buffer after `sprintf` of a string without NUL. -/
theorem bytesAt_sprintf {buff : ℕ → UInt8} {s : Bytes} (hs : 0 ∉ s) {off length : ℕ}
    (h : off + length ≤ s.length) :
    bytesAt (sprintf buff s) off length = (s.drop off).take length := by
  apply List.ext_getElem (by simp [bytesAt]; omega)
  intro i hi _
  have hi' : i < length := by simpa [bytesAt] using hi
  have hlt : off + i < s.length := by omega
  simp [bytesAt, sprintf, cStr_eq_self hs, hlt, Nat.le_of_lt hlt]

/-! ## The session -/

/-- Where `handle_event` stands. -/
inductive Pc
  | idle
  /-- In the loop of `writen`, with `buff` at `write_buff + off` and `length` at `left`. -/
  | writing (off left : ℕ)
  deriving DecidableEq

/-- The bytes `writen` has still to send. -/
def Pc.left : Pc → ℕ
  | .idle => 0
  | .writing _ left => left

/-- An `Httpdata` of a client. -/
structure Session where
  keepAlive : Bool
  writeBuff : ℕ → UInt8
  writeLength : ℕ
  /-- `EPOLLOUT` is among the events of the channel. -/
  epollOut : Bool
  /-- The channel is in the `Mmap` of its `Epoll`. -/
  registered : Bool
  /-- The channel is in the result of a `Poll`, to be handled. -/
  polled : Bool
  pc : Pc
  sent : Bytes
  built : List Bytes
  /-- `handle_event` called `handle_close`, the connection not being kept alive. -/
  closed : Bool

/-- A new connection; the buffer is not initialised. -/
def Session.new (buff : ℕ → UInt8) : Session :=
  ⟨false, buff, 0, false, true, false, .idle, [], [], false⟩

/-- The test of `handle_http` for a connection to be kept alive. -/
def HttpHandle.keepAlive (recvHttp : HttpHandle) : Bool :=
  recvHttp.requestHead (str "Connection") == some (str "keep-alive") ||
    recvHttp.requestHead (str "Connection") == some (str "Keep-Alive")

namespace Session

variable (s : Session)

/-- `handle_http` up to the call of `writen`. A response that does not fit in `write_buff` has no
defined effect. -/
def handleHttp (env : Env) (chunk : Bytes) : Option Session :=
  match Http.handleHttp env chunk with
  | some r =>
    if r.sendStr.length + 1 ≤ maxReadWriteBuffLength then
      some { s with
        keepAlive := s.keepAlive || (parseChunk chunk).keepAlive
        writeBuff := sprintf s.writeBuff r.sendStr
        writeLength := r.sendStr.length
        pc := .writing 0 r.sendStr.length
        built := s.built ++ [r.sendStr] }
    else none
  | none => none

/-- `handle_event` up to the call of `writen`, where `readn` received `chunk`. Nothing is done if
there was nothing to read, whatever the event was. -/
def handleEvent (env : Env) (chunk : Bytes) : Option Session :=
  if chunk = [] then some s else s.handleHttp env chunk

/-- `HandleWrite` after the call of `writen` returned `wlen`. -/
def handleWrite (wlen : ℤ) : Session :=
  if 0 < wlen ∧ wlen < s.writeLength then
    { s with
      writeBuff := memcpy s.writeBuff (s.writeLength - wlen.toNat) wlen.toNat
      writeLength := wlen.toNat
      epollOut := true }
  else { s with epollOut := false }

/-- `handle_event` after `handle_http`; the timers are left out. -/
def leave : Session :=
  if s.keepAlive then { s with pc := .idle }
  else { s with pc := .idle, registered := false, closed := true }

/-- What is left of the state when `handle_event` returns after a response. -/
theorem leave_handleWrite (wlen : ℤ) :
    (s.handleWrite wlen).leave.sent = s.sent ∧ (s.handleWrite wlen).leave.built = s.built ∧
      (s.handleWrite wlen).leave.pc = .idle ∧ (s.handleWrite wlen).leave.polled = s.polled ∧
      (s.handleWrite wlen).leave.keepAlive = s.keepAlive ∧
      (s.handleWrite wlen).leave.registered = (s.registered && s.keepAlive) ∧
      (s.handleWrite wlen).leave.closed = (s.closed || !s.keepAlive) := by
  unfold handleWrite leave
  split <;> cases s.keepAlive <;> simp

end Session

/-- The steps of a session. -/
inductive Label
  /-- The channel is in the result of a `Poll`. -/
  | poll
  /-- Its event is handled: `readn` receives `chunk`. -/
  | event (env : Env) (chunk : Bytes)
  /-- `send` accepts `k` bytes. -/
  | send (k : ℕ)
  /-- `send` fails with `EAGAIN`: `writen` returns the length that is left. -/
  | eagain
  /-- `send` fails with `EINTR`. -/
  | eintr
  /-- The loop of `writen` ends. -/
  | finish
  /-- The timer of a connection that is kept alive deregisters it. -/
  | expire

/-- A step. -/
def step (s : Session) : Label → Option Session
  | .poll => if s.registered ∧ s.pc = .idle then some { s with polled := true } else none
  | .event env chunk =>
    if s.polled ∧ s.pc = .idle ∧ chunk.length ≤ maxReadWriteBuffLength then
      { s with polled := false }.handleEvent env chunk
    else none
  | .send k =>
    match s.pc with
    | .writing off left =>
      if 0 < k ∧ k ≤ left then
        some { s with
          sent := s.sent ++ bytesAt s.writeBuff off k
          pc := .writing (off + k) (left - k) }
      else none
    | .idle => none
  | .eagain => if 0 < s.pc.left then some (s.handleWrite s.pc.left).leave else none
  | .eintr => if 0 < s.pc.left then some s else none
  | .finish =>
    match s.pc with
    | .writing _ 0 => some (s.handleWrite (-1)).leave
    | _ => none
  | .expire => if s.keepAlive then some { s with registered := false } else none

end WebServer.Http
