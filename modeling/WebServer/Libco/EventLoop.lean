import WebServer.Libco.Timeout

/-!
# The scheduler of libco

The coroutines of one thread, its call stack `pCallStack`, and `co_eventloop`, which the first
coroutine of the thread runs. A coroutine gives control back by `co_yield_ct`, by ending, by
`co_poll_inner` (a poll on descriptors, with a timeout) or by `co_cond_timedwait`; in the last two
its item goes into the wheel, and the event loop resumes it when a descriptor is ready, when its
time has come, or after a signal.

A state holds the wheel with the two lists of the event loop (`WebServer.Libco.Timeout`), the lists
of the condition variables, the `stPoll_t` objects, what is registered with epoll, and what each
coroutine is doing. A `stPoll_t` is a timeout item, so it has its address; a `stCoCondItem_t` holds
one. A step is what the running coroutine does up to its next call of one of these functions; a
coroutine that is resumed in `co_poll_inner` or `co_cond_timedwait` first cleans up and returns.

A function yields `none` where the source has no defined result: freed memory is accessed, the call
stack is left or exceeded, or a coroutine is resumed that is running or has ended.
-/

namespace WebServer.Libco

open WebServer.Lib

/-- What `epoll_ctl` answers for a descriptor that is not registered. -/
inductive Ctl
  | ok
  | eperm
  | fail
  deriving DecidableEq

/-- A `pollfd` of the caller, with what the kernel says to it. -/
structure PollFd where
  fd : ℤ
  events : ℕ
  ctl : Ctl
  deriving DecidableEq

/-- The bits that `PollEvent2Epoll` and `EpollEvent2Poll` convert: `POLLIN`, `POLLOUT`, `POLLHUP`,
`POLLERR`, `POLLRDNORM`, `POLLWRNORM`. They have the same values for `poll` and for `epoll`. -/
def pollBits : List (ℕ × ℕ) := [(1, 1), (4, 4), (16, 16), (8, 8), (64, 64), (256, 256)]

/-- `PollEvent2Epoll`. -/
def pollEvent2Epoll (events : ℕ) : ℕ :=
  pollBits.foldl (fun e b => if events &&& b.1 ≠ 0 then e ||| b.2 else e) 0

/-- `EpollEvent2Poll`. -/
def epollEvent2Poll (events : ℕ) : ℕ :=
  pollBits.foldl (fun e b => if events &&& b.2 ≠ 0 then e ||| b.1 else e) 0

/-- Of `stPoll_t`, what is not in its timeout item: the descriptors of the caller, the `revents`
stored for them, whether it was taken off the wheel, and the number of events. -/
structure Poll where
  fds : List ℤ
  revents : List ℕ
  iAllEventDetach : Bool
  iRaiseCnt : ℕ
  deriving DecidableEq

/-- What a descriptor is registered with: the poll item, by its `stPoll_t` and its index there, and
the events. -/
structure Registration where
  pPoll : Ptr
  index : ℕ
  events : ℕ
  deriving DecidableEq

/-- What a coroutine is doing. -/
inductive CoState
  | ready
  | running
  /-- Suspended by `co_yield_ct`. -/
  | yielded
  /-- Suspended in `co_poll_inner`. -/
  | polling (arg : Ptr)
  /-- Suspended in `co_cond_timedwait`. -/
  | waiting (psi : Ptr) (timeout : Ptr)
  | ended
  deriving DecidableEq

/-- The item a coroutine is suspended with. -/
def CoState.item : CoState → Option Ptr
  | .polling arg => some arg
  | .waiting _ timeout => some timeout
  | _ => none

/-- Where the first coroutine of the thread is. -/
inductive Pc
  /-- Outside `co_eventloop`. -/
  | outside
  /-- At `co_epoll_wait`. -/
  | wait
  /-- In the loop over the active list. -/
  | drain
  deriving DecidableEq

/-- The state of a thread. `suspended`, `resumed` and `raised` record which coroutine was suspended
and resumed with which item, and for which item an event was handled; `results` what `co_poll_inner`
returned. -/
structure Sched where
  wheel : Timeout
  conds : Heap ℕ Ptr
  polls : Ptr → Option Poll
  epoll : ℕ → Option Registration
  co : ℕ → CoState
  numCo : ℕ
  pCallStack : List ℕ
  pc : Pc
  suspended : List (ℕ × Ptr)
  resumed : List (ℕ × Ptr)
  raised : List Ptr
  results : List (Ptr × ℕ)

namespace Sched

/-- `co_init_curr_thread_env`: the running coroutine is the first of the call stack. -/
def init (now : ℕ) : Sched where
  wheel := .allocTimeout (60 * 1000) now
  conds := .empty
  polls := fun _ => none
  epoll := fun _ => none
  co := Function.update (fun _ => .ready) 0 .running
  numCo := 1
  pCallStack := [0]
  pc := .outside
  suspended := []
  resumed := []
  raised := []
  results := []

/-- The heap of the wheel was changed. -/
def setHeap (s : Sched) (h : Heap Place TimeoutItem) : Sched :=
  { s with wheel := s.wheel.withHeap h }

/-- What a coroutine is doing was changed. -/
def setCo (s : Sched) (c : ℕ) (x : CoState) : Sched :=
  { s with co := Function.update s.co c x }

/-- `co_yield_env`: the coroutine below the running one goes on. -/
def coYield (s : Sched) (x : CoState) : Option Sched :=
  match s.pCallStack with
  | curr :: last :: rest => some { s.setCo curr x with pCallStack := last :: rest }
  | _ => none

/-- `EPOLL_CTL_DEL`. -/
def epollDel (epoll : ℕ → Option Registration) (fd : ℤ) : ℕ → Option Registration :=
  if fd > -1 then Function.update epoll fd.toNat none else epoll

/-- The registrations `co_poll_inner` makes, from index `i` on: one that exists already stays. -/
def epollAdd (arg : Ptr) : ℕ → List PollFd → (ℕ → Option Registration) → ℕ → Option Registration
  | _, [], epoll => epoll
  | i, f :: fds, epoll =>
    epollAdd arg (i + 1) fds
      (if f.fd > -1 ∧ f.ctl = .ok ∧ epoll f.fd.toNat = none then
        Function.update epoll f.fd.toNat (some ⟨arg, i, pollEvent2Epoll f.events⟩)
      else epoll)

/-- The end of `co_poll_inner`, after coroutine `c` was resumed. -/
def pollReturn (s : Sched) (c : ℕ) (arg : Ptr) : Option Sched := do
  let heap ← s.wheel.heap.removeFromLink arg
  let poll ← s.polls arg
  some { s.setHeap (heap.dealloc arg) with
    polls := Function.update s.polls arg none
    epoll := poll.fds.foldl epollDel s.epoll
    resumed := s.resumed ++ [(c, arg)]
    results := s.results ++ [(arg, poll.iRaiseCnt)] }

/-- The end of `co_cond_timedwait`, after coroutine `c` was resumed. -/
def condReturn (s : Sched) (c : ℕ) (psi timeout : Ptr) : Option Sched := do
  let conds ← s.conds.removeFromLink psi
  some { s.setHeap (s.wheel.heap.dealloc timeout) with
    conds := conds.dealloc psi
    resumed := s.resumed ++ [(c, timeout)] }

/-- `co_resume`, and what the coroutine does first. -/
def coResume (s : Sched) (c : ℕ) : Option Sched :=
  if s.pCallStack.length < 128 then
    let s' := { s.setCo c .running with pCallStack := c :: s.pCallStack }
    match s.co c with
    | .ready => some s'
    | .yielded => some s'
    | .polling arg => s'.pollReturn c arg
    | .waiting psi timeout => s'.condReturn c psi timeout
    | .running => none
    | .ended => none
  else none

/-- The time `co_poll_inner` waits for. -/
def pollExpire (timeout : ℤ) (now : ℕ) : ℕ :=
  ((now + (if timeout > 40 * 1000 then 40 * 1000 else timeout)) % 2 ^ 64).toNat

/-- `co_poll_inner`, up to its `co_yield_env`; `pollfunc` says whether there is one. -/
def coPoll (s : Sched) (fds : List PollFd) (timeout : ℤ) (pollfunc : Bool) (now : ℕ) :
    Option Sched := do
  let c ← s.pCallStack.head?
  let arg := s.wheel.heap.fresh
  let heap := s.wheel.heap.alloc ⟨pollExpire timeout now, c, false⟩
  -- `ret < 0 && errno == EPERM && nfds == 1 && pollfunc != NULL`: the poll is the one of the system
  if pollfunc ∧ fds.length = 1 ∧ fds.all fun f => f.fd > -1 ∧ f.ctl = .eperm then
    some (s.setHeap (heap.dealloc arg))
  else
    let s := { s with epoll := epollAdd arg 0 fds s.epoll }
    let r ← (s.wheel.withHeap heap).addTimeout arg now
    if r.1 ≠ 0 then some { s with wheel := r.2.withHeap (r.2.heap.dealloc arg) }
    else
      coYield { s with
        wheel := r.2
        polls := Function.update s.polls arg
          (some ⟨fds.map PollFd.fd, fds.map fun _ => 0, false, 0⟩)
        suspended := s.suspended ++ [(c, arg)] } (.polling arg)

/-- The time `co_cond_timedwait` waits for. -/
def condExpire (ms : ℤ) (now : ℕ) : ℕ := ((now + ms) % 2 ^ 64).toNat

/-- `co_cond_timedwait`, up to its `co_yield_ct`. -/
def condTimedwait (s : Sched) (link : ℕ) (ms : ℤ) (now : ℕ) : Option Sched := do
  let c ← s.pCallStack.head?
  let timeout := s.wheel.heap.fresh
  let psi := s.conds.fresh
  let expire := if ms > 0 then condExpire ms now else 0
  let wheel := s.wheel.withHeap (s.wheel.heap.alloc ⟨expire, c, false⟩)
  let r ← if ms > 0 then wheel.addTimeout timeout now else some (0, wheel)
  if r.1 ≠ 0 then some { s with wheel := r.2.withHeap (r.2.heap.dealloc timeout) }
  else do
    let conds ← (s.conds.alloc timeout).addTail link psi
    coYield { s with
      wheel := r.2
      conds := conds
      suspended := s.suspended ++ [(c, timeout)] } (.waiting psi timeout)

/-- Move an item to the active list: `RemoveFromLink` and `AddTail`. -/
def activate (s : Sched) (x : Ptr) : Option Sched := do
  let heap ← s.wheel.heap.removeFromLink x
  let heap ← heap.addTail .active x
  some (s.setHeap heap)

/-- `co_cond_pop` and what `co_cond_signal` and `co_cond_broadcast` do with its result, if any. -/
def wakeOne (s : Sched) (si : ℕ) (sp : Ptr) : Option Sched := do
  let conds ← s.conds.popHead si
  let node ← conds.item sp
  activate { s with conds := conds } node.data

/-- `co_cond_signal`. -/
def condSignal (s : Sched) (si : ℕ) : Option Sched :=
  match (s.conds.link si).head with
  | none => some s
  | some sp => s.wakeOne si sp

/-- The loop of `co_cond_broadcast`. The number bounds its turns. -/
def broadcastLoop (si : ℕ) : ℕ → Sched → Option Sched
  | n, s =>
    match (s.conds.link si).head with
    | none => some s
    | some sp =>
      match n with
      | 0 => none
      | n + 1 => (s.wakeOne si sp).bind (broadcastLoop si n)

/-- `co_cond_broadcast`. A list without a cycle has at most `fresh` nodes. -/
def condBroadcast (s : Sched) (si : ℕ) : Option Sched := broadcastLoop si s.conds.fresh s

/-- `OnPollPreparePfn`, for an event of a descriptor. -/
def prepare (s : Sched) (event : ℕ × ℕ) : Option Sched := do
  let r ← s.epoll event.1
  let poll ← s.polls r.pPoll
  let poll' : Poll :=
    { poll with
      revents := poll.revents.set r.index (epollEvent2Poll event.2)
      iRaiseCnt := poll.iRaiseCnt + 1
      iAllEventDetach := true }
  let s := { s with
    polls := Function.update s.polls r.pPoll (some poll')
    raised := s.raised ++ [r.pPoll] }
  if poll.iAllEventDetach then some s else s.activate r.pPoll

/-- The loop that sets `bTimeout`, from `lp` on. The number bounds the items it can meet. -/
def markTimeout : ℕ → Option Ptr → Heap Place TimeoutItem → Option (Heap Place TimeoutItem)
  | _, none, h => some h
  | 0, some _, _ => none
  | n + 1, some lp, h => do
    let node ← h.item lp
    let h ← h.write lp fun n => { n with data := { n.data with bTimeout := true } }
    markTimeout n node.pNext h

/-- A round of `co_eventloop` up to the loop over the active list: the events `epoll_wait` returned,
and the clock reading after it. -/
def round (s : Sched) (events : List (ℕ × ℕ)) (now : ℕ) : Option Sched := do
  let s := s.setHeap (s.wheel.heap.setLink .timeout ⟨none, none⟩)
  let s ← events.foldlM prepare s
  let wheel ← s.wheel.takeAllTimeout now .timeout
  let heap ← markTimeout wheel.heap.fresh (wheel.heap.link .timeout).head wheel.heap
  let heap ← heap.join .active .timeout
  some { s with wheel := wheel.withHeap heap, pc := .drain }

/-- A turn of the loop over the active list: `PopHead`, and `pfnProcess`. -/
def pop (s : Sched) : Option Sched := do
  let lp ← (s.wheel.heap.link .active).head
  let heap ← s.wheel.heap.popHead .active
  let item ← heap.item lp
  (s.setHeap heap).coResume item.data.pArg

/-! ## Steps -/

/-- The steps. -/
inductive Act
  /-- The first coroutine calls `co_eventloop`. -/
  | enter
  /-- `epoll_wait` returns `events`, and the clock then shows `now`. -/
  | round (events : List (ℕ × ℕ)) (now : ℕ)
  | pop
  /-- The active list is empty; `pfn` returns -1, and the loop is left, or does not. -/
  | endRound (leave : Bool)
  | create
  | resume (c : ℕ)
  | yield
  | finish
  | poll (fds : List PollFd) (timeout : ℤ) (pollfunc : Bool) (now : ℕ)
  | condWait (link : ℕ) (ms : ℤ) (now : ℕ)
  | signal (si : ℕ)
  | broadcast (si : ℕ)
  /-- The kernel forgets a descriptor that is closed. -/
  | close (fd : ℕ)

/-- What a step does. -/
def step (s : Sched) : Act → Option Sched
  | .enter => some { s with pc := .wait }
  | .round events now => s.round events now
  | .pop => s.pop
  | .endRound leave => some { s with pc := if leave then .outside else .wait }
  | .create => some { s with numCo := s.numCo + 1 }
  | .resume c => s.coResume c
  | .yield => s.coYield .yielded
  | .finish => s.coYield .ended
  | .poll fds timeout pollfunc now => s.coPoll fds timeout pollfunc now
  | .condWait link ms now => s.condTimedwait link ms now
  | .signal si => s.condSignal si
  | .broadcast si => s.condBroadcast si
  | .close fd => some { s with epoll := Function.update s.epoll fd none }

/-- The code of a coroutine, not the event loop, has control. -/
def User (s : Sched) : Prop := 2 ≤ s.pCallStack.length ∨ s.pc = .outside

instance (s : Sched) : Decidable s.User := inferInstanceAs (Decidable (_ ∨ _))

/-- `AddTimeout` accepts an item that expires at `expire`. -/
def Accepts (s : Sched) (expire now : ℕ) : Prop :=
  s.wheel.ullStart ≤ now ∧ now ≤ expire ∧ expire < s.wheel.ullStart + s.wheel.iItemSize

instance (s : Sched) (expire now : ℕ) : Decidable (s.Accepts expire now) :=
  inferInstanceAs (Decidable (_ ∧ _))

/-- When a step can be taken, and what libco requires for it: a coroutine suspends itself inside a
coroutine, what is resumed by name was not suspended with an item and has an entry of `pCallStack`,
the times are before 2^31 ms after the start of the wheel, and the wheel accepts the timeout of a
poll on descriptors. -/
def Allowed (s : Sched) : Act → Prop
  | .enter => s.pCallStack.length = 1 ∧ s.pc = .outside
  | .round events now =>
    s.pCallStack.length = 1 ∧ s.pc = .wait ∧ (events.map Prod.fst).Nodup ∧
      (∀ e ∈ events, s.epoll e.1 ≠ none) ∧ events.length ≤ 1024 * 10 ∧
      now + 1 < s.wheel.ullStart + 2 ^ 31
  | .pop => s.pCallStack.length = 1 ∧ s.pc = .drain ∧ (s.wheel.heap.link .active).head ≠ none
  | .endRound _ =>
    s.pCallStack.length = 1 ∧ s.pc = .drain ∧ (s.wheel.heap.link .active).head = none
  | .create => s.User
  | .resume c =>
    s.User ∧ c < s.numCo ∧ (s.co c = .ready ∨ s.co c = .yielded) ∧ s.pCallStack.length < 128
  | .yield => 2 ≤ s.pCallStack.length
  | .finish => 2 ≤ s.pCallStack.length
  | .poll fds timeout _ now =>
    2 ≤ s.pCallStack.length ∧ pollExpire timeout now < s.wheel.ullStart + 2 ^ 31 ∧
      (s.Accepts (pollExpire timeout now) now ∨ ∀ f ∈ fds, f.fd ≤ -1)
  | .condWait _ ms now =>
    2 ≤ s.pCallStack.length ∧ (0 < ms → condExpire ms now < s.wheel.ullStart + 2 ^ 31)
  | .signal _ => s.User
  | .broadcast _ => s.User
  | .close _ => s.User

instance (s : Sched) : (a : Act) → Decidable (s.Allowed a)
  | .enter => inferInstanceAs (Decidable (_ ∧ _))
  | .round _ _ => inferInstanceAs (Decidable (_ ∧ _))
  | .pop => inferInstanceAs (Decidable (_ ∧ _))
  | .endRound _ => inferInstanceAs (Decidable (_ ∧ _))
  | .create => inferInstanceAs (Decidable s.User)
  | .resume _ => inferInstanceAs (Decidable (_ ∧ _))
  | .yield => inferInstanceAs (Decidable (2 ≤ _))
  | .finish => inferInstanceAs (Decidable (2 ≤ _))
  | .poll _ _ _ _ => inferInstanceAs (Decidable (_ ∧ _))
  | .condWait _ _ _ => inferInstanceAs (Decidable (_ ∧ _))
  | .signal _ => inferInstanceAs (Decidable s.User)
  | .broadcast _ => inferInstanceAs (Decidable s.User)
  | .close _ => inferInstanceAs (Decidable s.User)

end Sched

end WebServer.Libco
