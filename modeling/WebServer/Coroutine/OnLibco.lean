import WebServer.Coroutine.Counter
import WebServer.Libco.Invariant

/-!
# The pool on libco

`WebServer.Coroutine.Pool` takes of libco two lists of coroutines, and lets an oracle say which of
them the event loop finds ready. Here the pool runs on the scheduler of libco itself
(`WebServer.Libco.EventLoop`): `cond` is a list of `stCoCondItem_t`, a coroutine suspended in
`handle_event` has a `stPoll_t` in the wheel, and what is resumed is read off the active list. The
steps are those of the thread, one call of a function of libco at most in each; what `handle_event`
does is left open but for its polls.

* `Sim`: the nodes of the list of `cond` and of the active list are those of the two lists of a
  state that the model of the pool reaches.
* `pool_on_libco`: this holds in every run whose steps are `Allowed`, and every call of a function
  of libco that the pool makes is defined.
* `run_returns_idle`: where `Run` has returned in such a run, all coroutines are in the list of
  `cond`, and the wheel and the active list are empty.

How often a call of `handle_event` yields is known in the model of the pool when it starts, and here
only when it returns. So a state stands for a state of the model for every guess `y` of the yields
to come (`Machine.abs`).
-/

namespace WebServer.Coroutine

open WebServer.Lib Libco

variable {α : Type*}

/-- The pool and the libco of its thread. Coroutine `c` of the pool is coroutine `c + 1` of the
thread; `inside c` is the element whose `handle_event` it is in. -/
structure Machine (α : Type*) where
  sched : Sched
  freeCoNum : ℕ
  inside : ℕ → Option ℕ
  task : List (ℕ × α)
  started : List (ℕ × ℕ × α)
  puts : ℕ
  pc : Pc

namespace Machine

/-- The constructor of `CoroutinePool`; list 0 is that of `cond`. -/
def init (now : ℕ) : Machine α := ⟨.init now, 0, fun _ => none, [], [], 0, .idle⟩

/-- The coroutine of the pool that has control. -/
def control (m : Machine α) : Option ℕ :=
  match m.sched.pCallStack with
  | (c + 1) :: _ => some c
  | _ => none

/-- A turn of the loop of `CoroutineFun`, in coroutine `c`. -/
def turn (m : Machine α) (c : ℕ) : Option (Machine α) :=
  match m.task with
  | [] =>
    (m.sched.step (.condWait 0 (-1) 0)).map fun s =>
      { m with sched := s, freeCoNum := m.freeCoNum + 1 }
  | x :: task =>
    some { m with
      task := task
      started := m.started ++ [(c, x)]
      inside := Function.update m.inside c (some x.1) }

/-- A turn of the loop of `Start`: `co_create`, and `co_resume` until the coroutine parks. -/
def startOne (m : Machine α) (i : ℕ) : Option (Machine α) :=
  (m.sched.step .create).bind fun s =>
    (s.step (.resume (i + 1))).bind fun s => { m with sched := s }.turn i

/-- `Start`, at `now`. -/
def start (coNum now : ℕ) : Option (Machine α) := (List.range coNum).foldlM startOne (init now)

/-- The next thing that `Run` does, or `co_eventloop` for it, but for `co_epoll_wait`. -/
def next (coNum : ℕ) (m : Machine α) : Option (Machine α) :=
  match m.pc with
  | .idle => none
  | .outer n => some { m with pc := if n > 0 then .inner n else .idle }
  | .inner n =>
    if m.freeCoNum > 0 ∧ n > 0 then
      (m.sched.step (.signal 0)).map fun s =>
        { m with sched := s, freeCoNum := m.freeCoNum - 1, pc := .inner (n - 1) }
    else some { m with pc := .test n }
  | .test n =>
    if m.freeCoNum < coNum then
      (m.sched.step .enter).map fun s => { m with sched := s, pc := .wait n }
    else some { m with pc := .outer n }
  | .wait _ => none
  | .process n =>
    match (m.sched.wheel.heap.link .active).head with
    | some _ => (m.sched.step .pop).map fun s => { m with sched := s }
    -- `CheckFinish`
    | none =>
      (m.sched.step (.endRound (decide (m.freeCoNum = coNum)))).map fun s =>
        { m with sched := s, pc := if m.freeCoNum = coNum then .outer n else .wait n }

/-- The steps of the thread. -/
inductive Act (α : Type*)
  /-- `PutTask`. -/
  | put (channel : α)
  /-- The call of `Run`. -/
  | run
  | next
  /-- `epoll_wait` returns `events` to `co_eventloop`, and the clock then shows `now`. -/
  | round (events : List (ℕ × ℕ)) (now : ℕ)
  /-- The coroutine that has control is at the head of the loop of `CoroutineFun`. -/
  | turn
  /-- `handle_event` polls. -/
  | poll (fds : List PollFd) (timeout : ℤ) (pollfunc : Bool) (now : ℕ)
  /-- `handle_event` returns. -/
  | handled
  /-- A descriptor is closed, by this thread or by another one. -/
  | close (fd : ℕ)

/-- What a step does. -/
def step (coNum : ℕ) (m : Machine α) : Act α → Option (Machine α)
  | .put channel =>
    some { m with task := m.task ++ [(m.puts, channel)], puts := m.puts + 1 }
  | .run => some { m with pc := .outer (m.task.length % 2 ^ 32) }
  | .next => m.next coNum
  | .round events now =>
    match m.pc with
    | .wait n =>
      (m.sched.step (.round events now)).map fun s => { m with sched := s, pc := .process n }
    | _ => none
  | .turn => m.control.bind m.turn
  | .poll fds timeout pollfunc now =>
    (m.sched.step (.poll fds timeout pollfunc now)).map fun s => { m with sched := s }
  | .handled =>
    m.control.map fun c => { m with inside := Function.update m.inside c none }
  | .close fd => (m.sched.step (.close fd)).map fun s => { m with sched := s }

/-- A coroutine of the pool has control, and is inside `handle_event` (`b`) or not. -/
def Within (m : Machine α) (b : Bool) : Prop :=
  m.control.any (fun c => (m.inside c).isSome == b) = true

instance (m : Machine α) (b : Bool) : Decidable (m.Within b) :=
  inferInstanceAs (Decidable (_ = true))

/-- When a step can be taken, and what the kernel and `handle_event` are asked for: the descriptors
`epoll_wait` returns are registered, the times are before 2^31 ms after the start of the wheel, and
the wheel accepts the timeout of a poll on descriptors. -/
def Allowed (m : Machine α) : Act α → Prop
  | .put _ => m.control = none ∧ m.pc = .idle
  | .run => m.control = none ∧ m.pc = .idle
  | .next => m.control = none ∧ m.pc ≠ .idle ∧ m.sched.pc ≠ .wait
  | .round events now =>
    m.control = none ∧ m.sched.pc = .wait ∧ (events.map Prod.fst).Nodup ∧
      (∀ e ∈ events, m.sched.epoll e.1 ≠ none) ∧ events.length ≤ 1024 * 10 ∧
      now + 1 < m.sched.wheel.ullStart + 2 ^ 31
  | .turn => m.Within false
  | .poll fds timeout _ now =>
    m.Within true ∧ Sched.pollExpire timeout now < m.sched.wheel.ullStart + 2 ^ 31 ∧
      (m.sched.Accepts (Sched.pollExpire timeout now) now ∨ ∀ f ∈ fds, f.fd ≤ -1)
  | .handled => m.Within true
  | .close _ => True

instance (m : Machine α) : (a : Act α) → Decidable (m.Allowed a)
  | .put _ => inferInstanceAs (Decidable (_ ∧ _))
  | .run => inferInstanceAs (Decidable (_ ∧ _))
  | .next => inferInstanceAs (Decidable (_ ∧ _))
  | .round _ _ => inferInstanceAs (Decidable (_ ∧ _))
  | .turn => inferInstanceAs (Decidable (m.Within false))
  | .poll _ _ _ _ => inferInstanceAs (Decidable (_ ∧ _))
  | .handled => inferInstanceAs (Decidable (m.Within true))
  | .close _ => inferInstanceAs (Decidable True)

end Machine

/-! ## The lists of libco -/

section

variable {β γ : Type*} {R S : β → γ → Prop} {l : List β} {l' : List γ}

theorem exists_of_forall₂ (h : List.Forall₂ R l l') {y : γ} (hy : y ∈ l') : ∃ x ∈ l, R x y := by
  induction h with
  | nil => cases hy
  | cons hr _ ih =>
    rcases List.mem_cons.mp hy with rfl | hy
    · exact ⟨_, List.mem_cons_self, hr⟩
    · obtain ⟨x, hx, hxy⟩ := ih hy
      exact ⟨x, List.mem_cons_of_mem _ hx, hxy⟩

theorem forall₂_imp (h : List.Forall₂ R l l') (himp : ∀ x ∈ l, ∀ y, R x y → S x y) :
    List.Forall₂ S l l' := by
  induction h with
  | nil => exact .nil
  | cons hr _ ih =>
    exact .cons (himp _ List.mem_cons_self _ hr)
      (ih fun x hx => himp x (List.mem_cons_of_mem _ hx))

end

/-- Where `co_eventloop` is while `Run` is at a place. -/
def Pc.loop : Pc → Libco.Pc
  | .wait _ => .wait
  | .process _ => .drain
  | _ => .outside

/-- What libco holds for the pool: the list of `cond` is that of the coroutines `cond`, the active
list that of the coroutines `active`, and the wheel has the items of coroutines suspended in
`handle_event`. -/
structure Holds (m : Machine α) (q : Queues) (lists : ℕ → List Ptr) (cond active : List ℕ) :
    Prop where
  inv : m.sched.Inv q lists
  cond : List.Forall₂ (fun c psi => ∃ x, m.sched.co (c + 1) = .waiting psi x) cond (lists 0)
  active : List.Forall₂ (fun c x => (m.sched.co (c + 1)).item = some x) active q.active
  polling : ∀ c x, m.sched.co (c + 1) = .polling x → m.inside c ≠ none
  waiting : ∀ c psi x, m.sched.co (c + 1) = .waiting psi x → m.inside c = none
  pending : ∀ e ∈ q.pending, ∃ c, m.sched.co (c + 1) = .polling e.1
  stack : m.sched.pCallStack = [0] ∨ ∃ c, m.sched.pCallStack = [c + 1, 0]
  pc : m.sched.pc = m.pc.loop

namespace Holds

variable {m : Machine α} {q q' : Queues} {lists lists' : ℕ → List Ptr} {cond active : List ℕ}
  {c d : ℕ} {x : Ptr} {s : Sched}

theorem control_none (h : Holds m q lists cond active) :
    m.control = none ↔ m.sched.pCallStack = [0] := by
  rcases h.stack with hs | ⟨c, hs⟩ <;> simp [Machine.control, hs]

theorem control_some (h : Holds m q lists cond active) :
    m.control = some c ↔ m.sched.pCallStack = [c + 1, 0] := by
  rcases h.stack with hs | ⟨c, hs⟩ <;> simp [Machine.control, hs]

/-- The first coroutine of the thread is not suspended. -/
theorem item_zero (h : Holds m q lists cond active) : (m.sched.co 0).item = none := by
  refine h.inv.item_of_mem ?_
  rcases h.stack with hs | ⟨c, hs⟩ <;> simp [hs]

/-- A `stPoll_t` is that of a coroutine of the pool. -/
theorem exists_polling (h : Holds m q lists cond active) (hx : (m.sched.polls x).isSome) :
    ∃ c, m.sched.co (c + 1) = .polling x := by
  obtain ⟨c, hc⟩ := (h.inv.polls_iff x).mp hx
  rcases c with _ | c
  · have hzero := h.item_zero
    rw [hc] at hzero
    cases hzero
  · exact ⟨c, hc⟩

/-- Each coroutine has its own item. -/
theorem item_inj (h : Holds m q lists cond active) (hc : (m.sched.co (c + 1)).item = some x)
    (hd : (m.sched.co (d + 1)).item = some x) : c = d :=
  Nat.succ_injective (h.inv.item_unique hc hd)

/-- A coroutine is in `cond` if its `stCoCondItem_t` is in the list. -/
theorem mem_cond_of (h : Holds m q lists cond active) {psi : Ptr}
    (hc : m.sched.co (c + 1) = .waiting psi x) (hpsi : psi ∈ lists 0) : c ∈ cond := by
  obtain ⟨d, hd, y, hy⟩ := exists_of_forall₂ h.cond hpsi
  have htag := (h.inv.psi_iff psi x).mpr ⟨c + 1, hc⟩
  have htag' := (h.inv.psi_iff psi y).mpr ⟨d + 1, hy⟩
  obtain rfl := Option.some.inj (htag.symm.trans htag')
  obtain rfl := h.item_inj (c := c) (d := d) (x := x) (by simp [hc, CoState.item])
    (by simp [hy, CoState.item])
  exact hd

/-- A coroutine is in `active` if its item is on the active list. -/
theorem mem_active_of (h : Holds m q lists cond active)
    (hc : (m.sched.co (c + 1)).item = some x) (hx : x ∈ q.active) : c ∈ active := by
  obtain ⟨d, hd, hy⟩ := exists_of_forall₂ h.active hx
  obtain rfl := h.item_inj hc hy
  exact hd

/-- Nothing that libco holds was changed. -/
theorem congr {m' : Machine α} (h : Holds m q lists cond active) (hs : m'.sched = m.sched)
    (hi : m'.inside = m.inside) (hpc : m'.pc.loop = m.pc.loop) : Holds m' q lists cond active := by
  constructor
  case inv => rw [hs]; exact h.inv
  case cond => rw [hs]; exact h.cond
  case active => rw [hs]; exact h.active
  case polling => rw [hs, hi]; exact h.polling
  case waiting => rw [hs, hi]; exact h.waiting
  case pending => rw [hs]; exact h.pending
  case stack => rw [hs]; exact h.stack
  case pc => rw [hs, hpc]; exact h.pc

/-- A coroutine that has control. -/
theorem running (h : Holds m q lists cond active) (hc : m.control = some c) :
    m.sched.co (c + 1) = .running := by
  refine (h.inv.stack.running (c + 1)).mp ?_
  rw [h.control_some.mp hc]
  exact List.mem_cons_self

/-- The coroutine that has control goes into `handle_event`, or out of it. -/
theorem setInside (h : Holds m q lists cond active) (hc : m.control = some c) (k : Option ℕ) :
    Holds { m with inside := Function.update m.inside c k } q lists cond active := by
  have hne : ∀ d, m.sched.co (d + 1) ≠ .running → d ≠ c := by
    rintro d hd rfl
    exact hd (h.running hc)
  refine { h with polling := fun d x hd => ?_, waiting := fun d psi x hd => ?_ }
  · show Function.update m.inside c k d ≠ none
    rw [Function.update_of_ne (hne d (by rw [hd]; simp))]
    exact h.polling d x hd
  · show Function.update m.inside c k d = none
    rw [Function.update_of_ne (hne d (by rw [hd]; simp))]
    exact h.waiting d psi x hd

/-- `co_resume` of a coroutine that has not run yet. -/
theorem resume (h : Holds m q lists cond active) (hmain : m.control = none)
    (hc : m.sched.co (c + 1) = .ready) :
    ∃ s, m.sched.coResume (c + 1) = some s ∧ Holds { m with sched := s } q lists cond active ∧
      s.pCallStack = [c + 1, 0] ∧ ∀ d ≠ c, s.co (d + 1) = m.sched.co (d + 1) := by
  have hstack := h.control_none.mp hmain
  obtain ⟨s, e, hi, -, hco, hstack', hpc⟩ := h.inv.resume (.inl hc) (by rw [hstack]; simp)
  rw [hstack] at hstack'
  have hother : ∀ d ≠ c, s.co (d + 1) = m.sched.co (d + 1) := by
    intro d hd
    rw [hco, Function.update_of_ne (by omega)]
  have hitem : ∀ d, (s.co (d + 1)).item = (m.sched.co (d + 1)).item := by
    intro d
    by_cases hd : d = c
    · rw [hd, hc, hco, Function.update_self]
      rfl
    · rw [hother d hd]
  have hback : ∀ d st, st ≠ .running → s.co (d + 1) = st → m.sched.co (d + 1) = st := by
    intro d st hst hd
    have hdc : d ≠ c := by
      rintro rfl
      rw [hco, Function.update_self] at hd
      exact hst hd.symm
    rwa [hother d hdc] at hd
  have hforth : ∀ d st, st ≠ .ready → m.sched.co (d + 1) = st → s.co (d + 1) = st := by
    intro d st hst hd
    have hdc : d ≠ c := by
      rintro rfl
      exact hst (hd.symm.trans hc)
    rwa [hother d hdc]
  refine ⟨s, e, {
    inv := hi
    cond := h.cond.imp fun d psi ⟨x, hx⟩ => ⟨x, hforth d _ (by simp) hx⟩
    active := h.active.imp fun d x hx => (hitem d).trans hx
    polling := fun d x hd => h.polling d x (hback d _ (by simp) hd)
    waiting := fun d psi x hd => h.waiting d psi x (hback d _ (by simp) hd)
    pending := fun e he => (h.pending e he).imp fun d hd => hforth d _ (by simp) hd
    stack := .inr ⟨c, hstack'⟩
    pc := hpc.trans h.pc }, hstack', hother⟩

/-- **`co_cond_signal`** moves the first coroutine of `cond` to the end of the active list. -/
theorem signal (h : Holds m q lists (c :: cond) active) (hc : c ∉ active) :
    ∃ s q' lists', m.sched.condSignal 0 = some s ∧
      Holds { m with sched := s } q' lists' cond (active ++ [c]) ∧
      s.pCallStack = m.sched.pCallStack := by
  obtain ⟨psi, l, ⟨y, hy⟩, hcond, hl⟩ := List.forall₂_cons_left_iff.mp h.cond
  obtain ⟨s, x, e, hi, -, htag, -, hco, hstack, hpc⟩ := h.inv.wakeOne hl
  have hyx : y = x := by
    have := (h.inv.psi_iff psi y).mpr ⟨c + 1, hy⟩
    exact Option.some.inj (this.symm.trans htag)
  have hitem : (m.sched.co (c + 1)).item = some x := by simp [hy, hyx, CoState.item]
  have hx : x ∉ q.active := fun hm => hc (h.mem_active_of hitem hm)
  refine ⟨s, _, _, ?_, {
    inv := hi
    cond := ?cond
    active := ?active
    polling := ?polling
    waiting := ?waiting
    pending := ?pending
    stack := ?stack
    pc := hpc.trans h.pc }, hstack⟩
  · rw [Sched.condSignal, h.inv.head_link, hl, List.head?_cons]
    exact e
  case cond =>
    rw [Function.update_self, hco]
    exact hcond
  case active =>
    rw [Queues.activate, Queues.remove, List.erase_of_not_mem hx, hco]
    exact List.rel_append h.active (.cons hitem .nil)
  case polling => rw [hco]; exact h.polling
  case waiting => rw [hco]; exact h.waiting
  case pending =>
    intro e he
    rw [hco]
    exact h.pending e (List.mem_filter.mp he).1
  case stack => rw [hstack]; exact h.stack

/-- **A round of `co_eventloop`** appends coroutines to the active list that are suspended in
`handle_event`. -/
theorem round (h : Holds m q lists cond active) {events : List (ℕ × ℕ)} {now : ℕ}
    (he : ∀ e ∈ events, m.sched.epoll e.1 ≠ none)
    (hgap : now + 1 < m.sched.wheel.ullStart + 2 ^ 31)
    (hset : ∀ c ∈ active, m.inside c = none) (n : ℕ) :
    ∃ s q' ready, m.sched.round events now = some s ∧
      Holds { m with sched := s, pc := .process n } q' lists cond (active ++ ready) ∧
      s.pCallStack = m.sched.pCallStack ∧ ready.Nodup ∧ ∀ c ∈ ready, m.inside c ≠ none := by
  obtain ⟨s, q', e, hi, -, -, -, -, hg, hpc⟩ := h.inv.round he hgap
  have hdetached : m.sched.ActiveDetached q := by
    intro x hx p hp
    obtain ⟨c, hc⟩ := h.exists_polling (x := x) (by simp [hp])
    have hm := h.mem_active_of (c := c) (by simp [hc, CoState.item]) hx
    exact absurd (hset c hm) (h.polling c x hc)
  obtain ⟨new, hnew⟩ := hg.append hdetached
  have hnodup := hi.waits.active_nodup
  rw [hnew] at hnodup
  -- a new item is that of a coroutine in `co_poll_inner`
  have hpoll : ∀ x ∈ new, ∃ c, m.sched.co (c + 1) = .polling x := by
    intro x hx
    rcases hg.source x (by rw [hnew]; exact List.mem_append_right _ hx) with hm | ⟨c, hc⟩ | hm
    · exact absurd rfl ((List.nodup_append.mp hnodup).2.2 x hm x hx)
    · exact h.exists_polling ((h.inv.polls_iff x).mpr ⟨c, hc⟩)
    · obtain ⟨e, he', rfl⟩ := List.mem_map.mp hm
      exact h.pending e he'
  choose! f hf using hpoll
  refine ⟨s, q', new.map f, e, {
    inv := hi
    cond := ?cond
    active := ?active
    polling := ?polling
    waiting := ?waiting
    pending := ?pending
    stack := ?stack
    pc := hpc }, hg.stack, ?nodup, ?inside⟩
  case cond => rw [hg.co]; exact h.cond
  case active =>
    rw [hg.co, hnew]
    refine List.rel_append h.active (List.forall₂_map_left_iff.mpr (List.forall₂_same.mpr ?_))
    intro x hx
    rw [hf x hx]
    rfl
  case polling => rw [hg.co]; exact h.polling
  case waiting => rw [hg.co]; exact h.waiting
  case pending =>
    intro e he'
    rw [hg.co]
    exact h.pending e (hg.pending e he')
  case stack => rw [hg.stack]; exact h.stack
  case nodup =>
    refine List.Nodup.map_on (fun x hx y hy hxy => ?_) (List.nodup_append.mp hnodup).2.1
    have := hf x hx
    rw [hxy, hf y hy] at this
    exact (CoState.polling.inj this).symm
  case inside =>
    intro c hc
    obtain ⟨x, hx, rfl⟩ := List.mem_map.mp hc
    exact h.polling _ x (hf x hx)

/-- **A turn of the loop over the active list** gives control to the first coroutine of it. -/
theorem pop (h : Holds m q lists cond (c :: active)) (hmain : m.control = none) (hcond : c ∉ cond)
    (hactive : c ∉ active) :
    ∃ s q' lists', m.sched.pop = some s ∧ Holds { m with sched := s } q' lists' cond active ∧
      s.pCallStack = [c + 1, 0] := by
  obtain ⟨x, l, hx, hl, hq⟩ := List.forall₂_cons_left_iff.mp h.active
  have hstack := h.control_none.mp hmain
  obtain ⟨s, q', lists', d, e, hi, -, -, -, -, hr⟩ := h.inv.pop hq (by rw [hstack]; rfl)
  obtain rfl : d = c + 1 := h.inv.item_unique hr.item hx
  have hql : q'.active = l := by
    have := hr.active
    rw [hq] at this
    exact (List.cons.inj this).2.symm
  have hco : ∀ d ≠ c, s.co (d + 1) = m.sched.co (d + 1) := by
    intro d hd
    rw [hr.co, Function.update_of_ne (by omega)]
  have hself : s.co (c + 1) = .running := by rw [hr.co, Function.update_self]
  have hne : ∀ d, s.co (d + 1) ≠ .running → d ≠ c := by
    rintro d hd rfl
    exact hd hself
  -- the `stCoCondItem_t` of the coroutine has left the list
  have hlists : lists' 0 = lists 0 := by
    rcases hr.lists 0 with h0 | ⟨psi, hpsi, h0⟩
    · exact h0
    · rw [h0]
      exact List.erase_of_not_mem fun hm => hcond (h.mem_cond_of hpsi hm)
  have hstack' : s.pCallStack = [c + 1, 0] := by rw [hr.stack, hstack]
  refine ⟨s, q', lists', e, {
    inv := hi
    cond := ?cond
    active := ?active
    polling := ?polling
    waiting := ?waiting
    pending := ?pending
    stack := .inr ⟨c, hstack'⟩
    pc := hr.pc.trans h.pc }, hstack'⟩
  case cond =>
    rw [hlists]
    refine forall₂_imp h.cond fun d hd psi hpsi => ?_
    rw [hco d (ne_of_mem_of_not_mem hd hcond)]
    exact hpsi
  case active =>
    rw [hql]
    refine forall₂_imp hl fun d hd y hy => ?_
    rw [hco d (ne_of_mem_of_not_mem hd hactive)]
    exact hy
  case polling =>
    intro d y hd
    have hdc := hne d (by rw [hd]; simp)
    rw [hco d hdc] at hd
    exact h.polling d y hd
  case waiting =>
    intro d psi y hd
    have hdc := hne d (by rw [hd]; simp)
    rw [hco d hdc] at hd
    exact h.waiting d psi y hd
  case pending =>
    intro e he
    obtain ⟨d, hd⟩ := h.pending e (hr.pending e he)
    have hdc : d ≠ c := by
      rintro rfl
      rw [hd] at hx
      have hex : e.1 = x := Option.some.inj hx
      refine (h.inv.waits.not_mem_of_active (x := x) (by rw [hq]; simp)).1 ?_
      exact List.mem_map.mpr ⟨e, hr.pending e he, hex⟩
    exact ⟨d, (hco d hdc).trans hd⟩

/-- The coroutine that has control is suspended: what the others hold. -/
theorem suspended_co (h : Holds m q lists cond active) (hc : m.control = some c) {st : CoState}
    {d : ℕ} (hs : m.sched.Suspended s d st) :
    d = c + 1 ∧ s.pCallStack = [0] ∧ s.co (c + 1) = st ∧
      (∀ e ≠ c, s.co (e + 1) = m.sched.co (e + 1)) ∧
      ∀ e, m.sched.co (e + 1) ≠ .running → s.co (e + 1) = m.sched.co (e + 1) := by
  have hstack := hs.stack
  rw [h.control_some.mp hc] at hstack
  obtain ⟨rfl, hrest⟩ := List.cons.inj hstack
  have hco : ∀ e ≠ c, s.co (e + 1) = m.sched.co (e + 1) := by
    intro e he
    rw [hs.co, Function.update_of_ne (by omega)]
  refine ⟨rfl, hrest.symm, by rw [hs.co, Function.update_self], hco, fun e he => hco e ?_⟩
  rintro rfl
  exact he (h.running hc)

/-- What libco holds for the other coroutines stays when the one that has control is suspended. -/
theorem kept (h : Holds m q lists cond active)
    (hrun : ∀ e, m.sched.co (e + 1) ≠ .running → s.co (e + 1) = m.sched.co (e + 1)) :
    List.Forall₂ (fun c psi => ∃ x, s.co (c + 1) = .waiting psi x) cond (lists 0) ∧
      List.Forall₂ (fun c x => (s.co (c + 1)).item = some x) active q.active ∧
      ∀ e ∈ q.pending, ∃ c, s.co (c + 1) = .polling e.1 := by
  refine ⟨h.cond.imp fun d psi hpsi => ?_, h.active.imp fun d x hx => ?_, fun e he => ?_⟩
  · obtain ⟨x, hx⟩ := hpsi
    exact ⟨x, (hrun d (by rw [hx]; simp)).trans hx⟩
  · rwa [hrun d (by intro e; rw [e] at hx; cases hx)]
  · obtain ⟨d, hd⟩ := h.pending e he
    exact ⟨d, (hrun d (by rw [hd]; simp)).trans hd⟩

/-- **`co_cond_timedwait`** parks the coroutine at the end of `cond`. -/
theorem park (h : Holds m q lists cond active) (hc : m.control = some c) (hin : m.inside c = none) :
    ∃ s lists', m.sched.condTimedwait 0 (-1) 0 = some s ∧
      Holds { m with sched := s } q lists' (cond ++ [c]) active ∧ s.pCallStack = [0] ∧
      ∀ d ≠ c, s.co (d + 1) = m.sched.co (d + 1) := by
  have hms : ¬(0 : ℤ) < -1 := by decide
  have hlen : 2 ≤ m.sched.pCallStack.length := by rw [h.control_some.mp hc]; simp
  obtain ⟨s, q', lists', e, hi, -, -, hpark⟩ : ∃ s q' lists',
      m.sched.condTimedwait 0 (-1) 0 = some s ∧ s.Inv q' lists' ∧ _ ∧ _ ∧ _ :=
    h.inv.condWait hlen fun hpos => absurd hpos hms
  obtain ⟨rfl, d, psi, x, hs, rfl⟩ := hpark hms
  obtain ⟨rfl, hstack, hself, hco, hrun⟩ := h.suspended_co hc hs
  obtain ⟨hcond, hactive, hpending⟩ := h.kept hrun
  refine ⟨s, _, e, {
    inv := hi
    cond := ?cond
    active := hactive
    polling := ?polling
    waiting := ?waiting
    pending := hpending
    stack := .inl hstack
    pc := hs.pc.trans h.pc }, hstack, hco⟩
  case cond =>
    rw [Function.update_self]
    exact List.rel_append hcond (.cons ⟨x, hself⟩ .nil)
  case polling =>
    intro d y hd
    by_cases hdc : d = c
    · rw [hdc, hself] at hd
      cases hd
    · rw [hco d hdc] at hd
      exact h.polling d y hd
  case waiting =>
    intro d φ y hd
    by_cases hdc : d = c
    · rw [hdc]
      exact hin
    · rw [hco d hdc] at hd
      exact h.waiting d φ y hd

/-- **`co_poll_inner`** suspends the coroutine in `handle_event`, or returns. -/
theorem poll (h : Holds m q lists cond active) (hc : m.control = some c) (hin : m.inside c ≠ none)
    {fds : List PollFd} {timeout : ℤ} {now : ℕ} (pollfunc : Bool)
    (hgap : Sched.pollExpire timeout now < m.sched.wheel.ullStart + 2 ^ 31)
    (ha : m.sched.Accepts (Sched.pollExpire timeout now) now ∨ ∀ f ∈ fds, f.fd ≤ -1) :
    ∃ s q', m.sched.coPoll fds timeout pollfunc now = some s ∧
      Holds { m with sched := s } q' lists cond active ∧
      (s.pCallStack = [0] ∨ s.pCallStack = m.sched.pCallStack) := by
  have hlen : 2 ≤ m.sched.pCallStack.length := by rw [h.control_some.mp hc]; simp
  obtain ⟨s, q', e, hi, -, -, hret | ⟨d, x, t, hs, rfl⟩⟩ : ∃ s q',
      m.sched.coPoll fds timeout pollfunc now = some s ∧ s.Inv q' lists ∧ _ ∧ _ ∧ _ :=
    h.inv.poll hlen hgap ha
  · obtain ⟨rfl, hco, hstack, hpc⟩ := hret
    refine ⟨s, _, e, {
      inv := hi
      cond := by rw [hco]; exact h.cond
      active := by rw [hco]; exact h.active
      polling := by rw [hco]; exact h.polling
      waiting := by rw [hco]; exact h.waiting
      pending := by rw [hco]; exact h.pending
      stack := by rw [hstack]; exact h.stack
      pc := hpc.trans h.pc }, .inr hstack⟩
  · obtain ⟨rfl, hstack, hself, hco, hrun⟩ := h.suspended_co hc hs
    obtain ⟨hcond, hactive, hpending⟩ := h.kept hrun
    refine ⟨s, _, e, {
      inv := hi
      cond := hcond
      active := hactive
      polling := ?polling
      waiting := ?waiting
      pending := ?pending
      stack := .inl hstack
      pc := hs.pc.trans h.pc }, .inl hstack⟩
    case polling =>
      intro d y hd
      by_cases hdc : d = c
      · rw [hdc]
        exact hin
      · rw [hco d hdc] at hd
        exact h.polling d y hd
    case waiting =>
      intro d φ y hd
      by_cases hdc : d = c
      · rw [hdc, hself] at hd
        cases hd
      · rw [hco d hdc] at hd
        exact h.waiting d φ y hd
    case pending =>
      intro e he
      rcases mem_enqueue.mp he with rfl | he
      · exact ⟨c, hself⟩
      · exact hpending e he

end Holds

end WebServer.Coroutine
