import Mathlib.Data.Nat.Notation
import Mathlib.Logic.Function.Basic
import WebServer.Lib.Exec

/-!
# Client connections: channels, epoll maps, handlers and timers

The life of the client channels, from `accept` to `close(fd)`, over any number of `Epoll`s. The
parties are

* the accepting side: `accept` returns a descriptor that is not open, and `Add_New_Connect`
  later wraps it in a channel and registers it in some `Epoll`;
* the loop of each `Epoll` (`EventLoop::loop`): `Poll` collects references to ready channels,
  `handle_event` runs once for each of them, and the vector of references is dropped;
* the runs of `Httpdata::handle_event`, at most one at a time for a channel, any number of them at
  once for different channels (the event-loop threads and their coroutines);
* the timer thread, which drops the wheel's reference to a `TimeRoundItem`.

A channel is reachable through its entry in `Mmap`, through the vectors of the loops, through the
`handle_event` that runs on it and through the `ptr` of a timer item; when the last of these
references goes, `~channel` closes the descriptor (`St.release`). A timer item is reachable through
its wheel node and through the local `shared_ptr`s of the handler of its channel; when the last of
these goes, `~TimeRoundItem` calls `Close` unless `ptr` was reset (`St.dropItem`).

The n-th accepted connection is number `n`, and so is its channel: descriptors are reused, numbers
are not. The listening and the event channels live as long as the server: they are the entries
`server` of the maps, and their own events are the steps of the accepting side.
-/

namespace WebServer.Connection

variable {ε : Type*}

/-! ## Data -/

/-- An entry of `Epoll::Mmap`: a listening or event channel, or the client channel `c`. -/
inductive Entry
  | server
  | client (c : ℕ)
  deriving DecidableEq

/-- A client channel: `fd`, `attach_epoll`, `Keep_Alive` and the item `wp_time_round_item` refers
to. -/
structure Chan (ε : Type*) where
  fd : ℕ
  attachEpoll : ε
  keepAlive : Bool
  wpTimeRoundItem : Option ℕ

/-- A `TimeRoundItem`: the channel its `fun` closes, whether `ptr` still holds that channel, whether
a node of the wheel holds the item, and whether the item still exists. -/
structure Item where
  chan : ℕ
  ptr : Bool
  node : Bool
  live : Bool
  deriving DecidableEq

/-- Where a call of `handle_close` returns to: the end of `handle_event`, or the rest of it after
`handle_http`. -/
inductive After
  | done
  | separate
  deriving DecidableEq

/-- The two functions that detach the timer of a channel. -/
inductive Call
  | separateTimer
  | handleClose (k : After)
  deriving DecidableEq

/-- Where a run of `handle_event` is. The items named are those its local `shared_ptr` (`temp`, or
`sp_time_round_item`) refers to. -/
inductive Pc
  /-- At `HandleRead`. -/
  | reading
  /-- Bytes were read: at `handle_http`. -/
  | http
  /-- The response is formatted: at `HandleWrite`. -/
  | sending
  /-- At `wp_time_round_item.lock()`. -/
  | lock (f : Call)
  /-- `temp` refers to the item: at `temp->reset()`. -/
  | reset (i : ℕ) (f : Call)
  /-- At the `Close()` of `handle_close`. -/
  | close (temp : Option ℕ) (k : After)
  /-- At the end of the scope of `temp`. -/
  | ret (temp : Option ℕ) (f : Call)
  /-- After `SeparateTimer`. -/
  | decide
  /-- A new item is made and recorded: at `AddTimeRoundItemNode`. -/
  | armed (i : ℕ)
  /-- At the end of the scope of `sp_time_round_item`. -/
  | added (i : ℕ)
  /-- At the `return`. -/
  | done
  deriving DecidableEq

/-- The item a local `shared_ptr` of the handler refers to. -/
def Pc.held : Pc → Option ℕ
  | .reset i _ => some i
  | .close temp _ => temp
  | .ret temp _ => temp
  | .armed i => some i
  | .added i => some i
  | _ => none

/-- Once the item is reset, or `lock()` gave none. -/
def Call.afterReset (temp : Option ℕ) : Call → Pc
  | .separateTimer => .ret temp .separateTimer
  | .handleClose k => .close temp k

/-- Where the handler goes on after the call. -/
def Call.next : Call → Pc
  | .separateTimer => .decide
  | .handleClose .separate => .lock .separateTimer
  | .handleClose .done => .done

/-- Where the loop of an `Epoll` is: in `Poll`, handling the channels it got, or dropping the vector
of them. -/
inductive LoopPc
  | polling
  | running (todo : List ℕ)
  | dropping
  deriving DecidableEq

/-- The state. The last four fields are records: the channels whose `Epoll_Add` took the error path,
the calls of `Epoll_Del` with the channel they were made through and the entry they found, the items
whose destructor called `Close`, and the channels whose destructor closed the descriptor. -/
structure St (ε : Type*) where
  chans : ℕ → Option (Chan ε)
  items : ℕ → Option Item
  nextItem : ℕ
  mmap : ε → ℕ → Option Entry
  loop : ε → LoopPc
  results : ε → List ℕ
  frame : ℕ → Option Pc
  isOpen : ℕ → Bool
  accepted : List ℕ
  pending : List ℕ
  addErrs : List ℕ
  dels : List (ℕ × Option Entry)
  fired : List ℕ
  closes : List ℕ

/-- What is there before the first connection: the listening and event channels of each `Epoll`, the
descriptors that are open, and whether `time_round` is set. -/
structure Setup (ε : Type*) where
  own : ε → ℕ → Bool
  isOpen : ℕ → Bool
  timed : Bool
  own_open : ∀ e fd, own e fd = true → isOpen fd = true

/-- No connection yet. -/
def init (S : Setup ε) : St ε where
  chans := fun _ => none
  items := fun _ => none
  nextItem := 0
  mmap := fun e fd => if S.own e fd then some .server else none
  loop := fun _ => .polling
  results := fun _ => []
  frame := fun _ => none
  isOpen := S.isOpen
  accepted := []
  pending := []
  addErrs := []
  dels := []
  fired := []
  closes := []

/-! ## Operations -/

namespace St

variable (s : St ε)

/-- A timer item still holds channel `c`. -/
def Timed (c : ℕ) : Prop :=
  ∃ i < s.nextItem, ∃ it ∈ s.items i, it.live = true ∧ it.ptr = true ∧ it.chan = c

instance (c : ℕ) : Decidable (s.Timed c) :=
  inferInstanceAs (Decidable (∃ i < s.nextItem, ∃ it ∈ s.items i, _))

/-- Some reference to the channel `c` is left: in the map, in the vector of the loop, in the handler
that runs on it or in a timer item. -/
def Referenced (c : ℕ) (ch : Chan ε) : Prop :=
  s.mmap ch.attachEpoll ch.fd = some (.client c) ∨ c ∈ s.results ch.attachEpoll ∨
    s.frame c ≠ none ∨ s.Timed c

instance (c : ℕ) (ch : Chan ε) : Decidable (s.Referenced c ch) :=
  inferInstanceAs (Decidable (_ ∨ _ ∨ _ ∨ _))

variable [DecidableEq ε]

/-- A reference to channel `c` went: if it was the last, `~channel` runs and closes `fd`. -/
def release (c : ℕ) : St ε :=
  match s.chans c with
  | none => s
  | some ch =>
    if s.Referenced c ch then s
    else { s with
      chans := Function.update s.chans c none
      isOpen := Function.update s.isOpen ch.fd false
      closes := s.closes ++ [c] }

/-- Move the handler of `c`. -/
def setFrame (c : ℕ) (pc : Pc) : St ε := { s with frame := Function.update s.frame c (some pc) }

/-- Change the channel `c`. -/
def setChan (c : ℕ) (ch : Chan ε) : St ε :=
  { s with chans := Function.update s.chans c (some ch) }

/-- Change the item `i`. -/
def setItem (i : ℕ) (it : Item) : St ε :=
  { s with items := Function.update s.items i (some it) }

/-- Move the loop of `e`. -/
def setLoop (e : ε) (pc : LoopPc) : St ε := { s with loop := Function.update s.loop e pc }

/-- Set the vector of the loop of `e`. -/
def setResults (e : ε) (cs : List ℕ) : St ε :=
  { s with results := Function.update s.results e cs }

/-- Set or erase the entry of `fd` in the map of `e`. -/
def setEntry (e : ε) (fd : ℕ) (x : Option Entry) : St ε :=
  { s with mmap := Function.update s.mmap e (Function.update (s.mmap e) fd x) }

/-- `channel::Close` of channel `c`: `attach_epoll->Epoll_Del(fd)`. The entry of `fd` is erased,
whichever channel it refers to, and that reference goes. -/
def close (c : ℕ) (ch : Chan ε) : St ε :=
  let s' := { s with dels := s.dels ++ [(c, s.mmap ch.attachEpoll ch.fd)] }
  match s.mmap ch.attachEpoll ch.fd with
  | none => s'
  | some .server => s'.setEntry ch.attachEpoll ch.fd none
  | some (.client x) => (s'.setEntry ch.attachEpoll ch.fd none).release x

/-- `~TimeRoundItem`: `Close` if `ptr` is set, then `ptr` goes. -/
def destroyItem (i : ℕ) (it : Item) : St ε :=
  let dead : Item := { it with ptr := false, live := false }
  match it.ptr, s.chans it.chan with
  | true, some ch =>
    ((({ s with fired := s.fired ++ [i] } : St ε).close it.chan ch).setItem i dead).release it.chan
  | _, _ => s.setItem i dead

/-- A reference to item `i` went: if neither its node nor its handler refers to it any more, it is
destroyed. -/
def dropItem (i : ℕ) : St ε :=
  match s.items i with
  | none => s
  | some it =>
    if it.node = true ∨ (s.frame it.chan).bind Pc.held = some i then s else s.destroyItem i it

/-- `wp_time_round_item.lock()`: the item, if it still exists. -/
def lockItem (wp : Option ℕ) : Option ℕ :=
  wp.filter fun i => (s.items i).any fun it => it.live

/-- `TimeRoundItem::reset` of item `i`: its reference to the channel goes. -/
def resetItem (i : ℕ) : St ε :=
  match s.items i with
  | none => s
  | some it => (s.setItem i { it with ptr := false }).release it.chan

/-- `Httpdata::Add_New_Connect` for connection `n` on the descriptor `fd`, with the `Epoll_Add` of
`e`: a descriptor already in the map is an error, and the new channel goes again. -/
def addNewConnect (n fd : ℕ) (e : ε) : St ε :=
  let s' := { s with pending := s.pending.erase n }
  let s' := s'.setChan n ⟨fd, e, false, none⟩
  match s.mmap e fd with
  | some _ => ({ s' with addErrs := s.addErrs ++ [n] } : St ε).release n
  | none => s'.setEntry e fd (some (.client n))

/-- One event of `Poll`: the channel of `fd`, if the map has one. -/
def pollOne (e : ε) (fd : ℕ) : St ε :=
  match s.mmap e fd with
  | some (.client c) => s.setResults e (s.results e ++ [c])
  | _ => s

/-- The branch of `handle_event` that arms a new timer: the item is made and recorded in
`wp_time_round_item` before any other thread can see it. -/
def arm (c : ℕ) (ch : Chan ε) : St ε :=
  { (s.setItem s.nextItem ⟨c, true, false, true⟩).setChan c
      { ch with wpTimeRoundItem := some s.nextItem } with nextItem := s.nextItem + 1 }

end St

/-! ## Steps -/

/-- What `HandleRead` gives: bytes, none, or the end of the stream (which calls `handle_close`). -/
inductive ReadOutcome
  | data
  | nothing
  | eof
  deriving DecidableEq

/-- The steps of a handler. -/
inductive HAct
  | read (r : ReadOutcome)
  /-- The parsing in `handle_http`; the request asks for keep-alive or not. -/
  | parse (keepAlive : Bool)
  /-- The `HandleWrite` of `handle_http`; `send` returned 0, which calls `handle_close`, or not. -/
  | send (closed : Bool)
  | lock
  | reset
  | close
  /-- The return from `SeparateTimer` or `handle_close`, where `temp` goes. -/
  | ret
  | decide
  | addNode
  | dropSp
  deriving DecidableEq

/-- The steps of the system. -/
inductive Act (ε : Type*)
  | accept (fd : ℕ)
  | addNewConnect (n : ℕ) (e : ε)
  /-- `Poll` looks at one event. -/
  | poll (e : ε) (fd : ℕ)
  | pollEnd (e : ε)
  /-- The next channel of the vector: `handle_event` is called. -/
  | start (e : ε)
  | handler (c : ℕ) (a : HAct)
  | finish (c : ℕ)
  | roundEnd (e : ε)
  /-- The next reference of the vector goes. -/
  | drop (e : ε)
  /-- The timer thread deletes the node of item `i`. -/
  | expire (i : ℕ)
  deriving DecidableEq

variable [DecidableEq ε]

/-- One step of the `handle_event` running on channel `c`. -/
def handlerStep (S : Setup ε) (s : St ε) (c : ℕ) (ch : Chan ε) : Pc → HAct → Option (St ε)
  | .reading, .read .data => some (s.setFrame c .http)
  | .reading, .read .nothing => some (s.setFrame c .done)
  | .reading, .read .eof => some (s.setFrame c (.lock (.handleClose .done)))
  | .http, .parse ka =>
    some ((s.setChan c { ch with keepAlive := ch.keepAlive || ka }).setFrame c .sending)
  | .sending, .send true => some (s.setFrame c (.lock (.handleClose .separate)))
  | .sending, .send false => some (s.setFrame c (.lock .separateTimer))
  | .lock f, .lock =>
    match s.lockItem ch.wpTimeRoundItem with
    | some i => some (s.setFrame c (.reset i f))
    | none => some (s.setFrame c (f.afterReset none))
  | .reset i f, .reset => some ((s.resetItem i).setFrame c (f.afterReset (some i)))
  | .close temp k, .close => some ((s.close c ch).setFrame c (.ret temp (.handleClose k)))
  | .ret none f, .ret => some (s.setFrame c f.next)
  | .ret (some i) f, .ret => some ((s.setFrame c f.next).dropItem i)
  | .decide, .decide =>
    if S.timed && ch.keepAlive then some ((s.arm c ch).setFrame c (.armed s.nextItem))
    else if ch.keepAlive = false then some (s.setFrame c (.lock (.handleClose .done)))
    else some (s.setFrame c .done)
  | .armed i, .addNode =>
    (s.items i).map fun it => (s.setItem i { it with node := true }).setFrame c (.added i)
  | .added i, .dropSp => some ((s.setFrame c .done).dropItem i)
  | _, _ => none

/-- One step of the system. -/
def step (S : Setup ε) (s : St ε) : Act ε → Option (St ε)
  | .accept fd =>
    if s.isOpen fd then none
    else some { s with
      isOpen := Function.update s.isOpen fd true
      accepted := s.accepted ++ [fd]
      pending := s.pending ++ [s.accepted.length] }
  | .addNewConnect n e =>
    match s.accepted[n]? with
    | some fd => if n ∈ s.pending then some (s.addNewConnect n fd e) else none
    | none => none
  | .poll e fd => if s.loop e = .polling then some (s.pollOne e fd) else none
  | .pollEnd e =>
    if s.loop e = .polling then some (s.setLoop e (.running (s.results e))) else none
  | .start e =>
    match s.loop e with
    | .running (c :: todo) =>
      if s.frame c = none then some ((s.setLoop e (.running todo)).setFrame c .reading) else none
    | _ => none
  | .handler c a =>
    match s.frame c, s.chans c with
    | some pc, some ch => handlerStep S s c ch pc a
    | _, _ => none
  | .finish c =>
    if s.frame c = some .done then
      some (({ s with frame := Function.update s.frame c none } : St ε).release c)
    else none
  | .roundEnd e =>
    if s.loop e = .running [] ∧ ∀ c ∈ s.results e, s.frame c = none then
      some (s.setLoop e .dropping)
    else none
  | .drop e =>
    match s.loop e, s.results e with
    | .dropping, [] => some (s.setLoop e .polling)
    | .dropping, c :: cs => some ((s.setResults e cs).release c)
    | _, _ => none
  | .expire i =>
    match s.items i with
    | some it =>
      if it.live = true ∧ it.node = true then
        some ((s.setItem i { it with node := false }).dropItem i)
      else none
    | none => none

/-- What a step of a handler can do, one constructor for each way through the code. -/
inductive HandlerStep (S : Setup ε) (s : St ε) (c : ℕ) (ch : Chan ε) : Pc → HAct → St ε → Prop
  | data : HandlerStep S s c ch .reading (.read .data) (s.setFrame c .http)
  | nothing : HandlerStep S s c ch .reading (.read .nothing) (s.setFrame c .done)
  | eof : HandlerStep S s c ch .reading (.read .eof) (s.setFrame c (.lock (.handleClose .done)))
  | parse (ka : Bool) : HandlerStep S s c ch .http (.parse ka)
      ((s.setChan c { ch with keepAlive := ch.keepAlive || ka }).setFrame c .sending)
  | sendClosed : HandlerStep S s c ch .sending (.send true)
      (s.setFrame c (.lock (.handleClose .separate)))
  | send : HandlerStep S s c ch .sending (.send false) (s.setFrame c (.lock .separateTimer))
  | lock {i : ℕ} {f : Call} : s.lockItem ch.wpTimeRoundItem = some i →
      HandlerStep S s c ch (.lock f) .lock (s.setFrame c (.reset i f))
  | lockNone {f : Call} : s.lockItem ch.wpTimeRoundItem = none →
      HandlerStep S s c ch (.lock f) .lock (s.setFrame c (f.afterReset none))
  | reset {i : ℕ} {f : Call} : HandlerStep S s c ch (.reset i f) .reset
      ((s.resetItem i).setFrame c (f.afterReset (some i)))
  | close {temp : Option ℕ} {k : After} : HandlerStep S s c ch (.close temp k) .close
      ((s.close c ch).setFrame c (.ret temp (.handleClose k)))
  | retNone {f : Call} : HandlerStep S s c ch (.ret none f) .ret (s.setFrame c f.next)
  | ret {i : ℕ} {f : Call} : HandlerStep S s c ch (.ret (some i) f) .ret
      ((s.setFrame c f.next).dropItem i)
  | arm : S.timed = true → ch.keepAlive = true → HandlerStep S s c ch .decide .decide
      ((s.arm c ch).setFrame c (.armed s.nextItem))
  | closeNow : ch.keepAlive = false → HandlerStep S s c ch .decide .decide
      (s.setFrame c (.lock (.handleClose .done)))
  | untimed : S.timed = false → ch.keepAlive = true → HandlerStep S s c ch .decide .decide
      (s.setFrame c .done)
  | addNode {i : ℕ} {it : Item} : s.items i = some it → HandlerStep S s c ch (.armed i) .addNode
      ((s.setItem i { it with node := true }).setFrame c (.added i))
  | dropSp {i : ℕ} : HandlerStep S s c ch (.added i) .dropSp ((s.setFrame c .done).dropItem i)

/-- What a step of the system can do. -/
inductive Step (S : Setup ε) (s : St ε) : Act ε → St ε → Prop
  | accept {fd : ℕ} : s.isOpen fd = false → Step S s (.accept fd)
      { s with
        isOpen := Function.update s.isOpen fd true
        accepted := s.accepted ++ [fd]
        pending := s.pending ++ [s.accepted.length] }
  | addNewConnect {n fd : ℕ} {e : ε} : s.accepted[n]? = some fd → n ∈ s.pending →
      Step S s (.addNewConnect n e) (s.addNewConnect n fd e)
  | poll {e : ε} {fd : ℕ} : s.loop e = .polling → Step S s (.poll e fd) (s.pollOne e fd)
  | pollEnd {e : ε} : s.loop e = .polling →
      Step S s (.pollEnd e) (s.setLoop e (.running (s.results e)))
  | start {e : ε} {c : ℕ} {todo : List ℕ} : s.loop e = .running (c :: todo) → s.frame c = none →
      Step S s (.start e) ((s.setLoop e (.running todo)).setFrame c .reading)
  | handler {c : ℕ} {ch : Chan ε} {pc : Pc} {a : HAct} {t : St ε} : s.frame c = some pc →
      s.chans c = some ch → HandlerStep S s c ch pc a t → Step S s (.handler c a) t
  | finish {c : ℕ} : s.frame c = some .done → Step S s (.finish c)
      (({ s with frame := Function.update s.frame c none } : St ε).release c)
  | roundEnd {e : ε} : s.loop e = .running [] → (∀ c ∈ s.results e, s.frame c = none) →
      Step S s (.roundEnd e) (s.setLoop e .dropping)
  | dropEnd {e : ε} : s.loop e = .dropping → s.results e = [] →
      Step S s (.drop e) (s.setLoop e .polling)
  | drop {e : ε} {c : ℕ} {cs : List ℕ} : s.loop e = .dropping → s.results e = c :: cs →
      Step S s (.drop e) ((s.setResults e cs).release c)
  | expire {i : ℕ} {it : Item} : s.items i = some it → it.live = true → it.node = true →
      Step S s (.expire i) ((s.setItem i { it with node := false }).dropItem i)

theorem handlerStep_cases {S : Setup ε} {s t : St ε} {c : ℕ} {ch : Chan ε} {pc : Pc} {a : HAct}
    (hs : handlerStep S s c ch pc a = some t) : HandlerStep S s c ch pc a t := by
  unfold handlerStep at hs
  split at hs
  case h_7 =>
    split at hs <;> obtain rfl := Option.some.inj hs
    · exact .lock ‹_›
    · exact .lockNone ‹_›
  case h_12 =>
    split at hs
    · rename_i hbranch
      obtain rfl := Option.some.inj hs
      simp only [Bool.and_eq_true] at hbranch
      exact .arm hbranch.1 hbranch.2
    · rename_i hbranch
      split at hs <;> obtain rfl := Option.some.inj hs
      · exact .closeNow ‹_›
      · rename_i hk
        have hk' : ch.keepAlive = true := by simpa using hk
        exact .untimed (by simpa [hk'] using hbranch) hk'
  case h_13 i =>
    obtain ⟨it, hi, rfl⟩ := Option.map_eq_some_iff.mp hs
    exact .addNode hi
  case h_15 => cases hs
  all_goals
    obtain rfl := Option.some.inj hs
    constructor

/-- **A step does one of these.** -/
theorem step_cases {S : Setup ε} {s t : St ε} {a : Act ε} (hs : step S s a = some t) :
    Step S s a t := by
  cases a with
  | accept fd =>
    simp only [step] at hs
    split at hs
    · cases hs
    · rename_i hfd
      obtain rfl := Option.some.inj hs
      exact .accept (by simpa using hfd)
  | addNewConnect n e =>
    simp only [step] at hs
    split at hs
    · rename_i fd hfd
      split at hs
      · rename_i hn
        obtain rfl := Option.some.inj hs
        exact .addNewConnect hfd hn
      · cases hs
    · cases hs
  | poll e fd =>
    simp only [step] at hs
    split at hs
    · obtain rfl := Option.some.inj hs
      exact .poll ‹_›
    · cases hs
  | pollEnd e =>
    simp only [step] at hs
    split at hs
    · obtain rfl := Option.some.inj hs
      exact .pollEnd ‹_›
    · cases hs
  | start e =>
    simp only [step] at hs
    split at hs
    · rename_i c todo hl
      split at hs
      · rename_i hf
        obtain rfl := Option.some.inj hs
        exact .start hl hf
      · cases hs
    · cases hs
  | handler c a =>
    simp only [step] at hs
    split at hs
    · rename_i pc ch hf hc
      exact .handler hf hc (handlerStep_cases hs)
    · cases hs
  | finish c =>
    simp only [step] at hs
    split at hs
    · obtain rfl := Option.some.inj hs
      exact .finish ‹_›
    · cases hs
  | roundEnd e =>
    simp only [step] at hs
    split at hs
    · rename_i hl
      obtain rfl := Option.some.inj hs
      exact .roundEnd hl.1 hl.2
    · cases hs
  | drop e =>
    simp only [step] at hs
    split at hs
    · rename_i hl hr
      obtain rfl := Option.some.inj hs
      exact .dropEnd hl hr
    · rename_i c cs hl hr
      obtain rfl := Option.some.inj hs
      exact .drop hl hr
    · cases hs
  | expire i =>
    simp only [step] at hs
    split at hs
    · rename_i it hi
      split at hs
      · rename_i hl
        obtain rfl := Option.some.inj hs
        exact .expire hi hl.1 hl.2
      · cases hs
    · cases hs

end WebServer.Connection
