import WebServer.Lib.Update
import WebServer.Libco.EventLoop

/-!
# The invariant of the scheduler

Every suspended coroutine is found by its item. `Inv` says so of a state: the items that are
allocated are those of the coroutines suspended in `co_poll_inner` and `co_cond_timedwait`, one for
each; such an item is in the wheel or on the active list, or its coroutine is in the list of a
condition variable; and what is registered with epoll belongs to a `stPoll_t` that is there.

Each function of the scheduler has a lemma: where libco allows the call, it is defined, keeps the
invariant, and has one of three effects on the coroutines (`Effect`).
-/

namespace WebServer.Libco

open WebServer.Lib

namespace Sched

/-- The coroutine an item belongs to. -/
def arg (s : Sched) (x : Ptr) : Option ℕ := (s.wheel.heap.item x).map fun n => n.data.pArg

/-- The timeout item of a `stCoCondItem_t`. -/
def tag (s : Sched) (psi : Ptr) : Option Ptr := (s.conds.item psi).map Item.data

/-- The call stack holds the running coroutines, the first coroutine of the thread below them. -/
structure Stack (stack : List ℕ) (co : ℕ → CoState) : Prop where
  nodup : stack.Nodup
  last : stack.getLast? = some 0
  running : ∀ c, c ∈ stack ↔ co c = .running

namespace Stack

variable {stack : List ℕ} {co : ℕ → CoState} {c : ℕ} {st : CoState}

theorem push (h : Stack stack co) (hc : co c ≠ .running) :
    Stack (c :: stack) (Function.update co c .running) where
  nodup := List.nodup_cons.mpr ⟨fun hm => hc ((h.running c).mp hm), h.nodup⟩
  last := by
    have hne : stack ≠ [] := by
      rintro rfl
      simpa using h.last
    rw [List.getLast?_cons_of_ne_nil hne, h.last]
  running := by
    intro d
    by_cases hd : d = c
    · simp [hd]
    · rw [Function.update_of_ne hd, List.mem_cons, h.running d, or_iff_right hd]

theorem pop (h : Stack (c :: stack) co) (hne : stack ≠ []) (hst : st ≠ .running) :
    Stack stack (Function.update co c st) where
  nodup := (List.nodup_cons.mp h.nodup).2
  last := by
    have := h.last
    rwa [List.getLast?_cons_of_ne_nil hne] at this
  running := by
    intro d
    by_cases hd : d = c
    · have hc : c ∉ stack := (List.nodup_cons.mp h.nodup).1
      simp [hd, hc, hst]
    · rw [Function.update_of_ne hd, ← h.running d, List.mem_cons, or_iff_right hd]

end Stack

/-- The invariant. -/
structure Inv (s : Sched) (q : Queues) (lists : ℕ → List Ptr) : Prop where
  waits : s.wheel.Waits q
  conds : s.conds.Represents lists
  timeout_nil : q.timeout = []
  stack : Stack s.pCallStack s.co
  item_iff : ∀ c x, (s.co c).item = some x ↔ s.arg x = some c
  psi_iff : ∀ psi x, s.tag psi = some x ↔ ∃ c, s.co c = .waiting psi x
  polls_iff : ∀ x, (s.polls x).isSome ↔ ∃ c, s.co c = .polling x
  polling_has : ∀ c x, s.co c = .polling x → q.Has x
  waiting_has : ∀ c psi x, s.co c = .waiting psi x → q.Has x ∨ ∃ k, psi ∈ lists k
  detached : ∀ x p, s.polls x = some p → p.iAllEventDetach = true → x ∈ q.active
  registered : ∀ fd r, s.epoll fd = some r → ∃ p, s.polls r.pPoll = some p ∧ (fd : ℤ) ∈ p.fds
  raiseCnt : ∀ x p, s.polls x = some p → p.iRaiseCnt = s.raised.count x
  raised_lt : ∀ x ∈ s.raised, x < s.wheel.heap.fresh
  results : ∀ x n, (x, n) ∈ s.results →
    n = s.raised.count x ∧ x < s.wheel.heap.fresh ∧ s.polls x = none

/-- No coroutine is suspended with an item, or resumed from it. -/
structure Neutral (s s' : Sched) : Prop where
  suspended : s'.suspended = s.suspended
  resumed : s'.resumed = s.resumed
  fresh : s.wheel.heap.fresh ≤ s'.wheel.heap.fresh
  item : ∀ c, (s'.co c).item = (s.co c).item

theorem Neutral.refl (s : Sched) : Neutral s s := ⟨rfl, rfl, le_rfl, fun _ => rfl⟩

theorem Neutral.trans {s₁ s₂ s₃ : Sched} (h : Neutral s₁ s₂) (h' : Neutral s₂ s₃) :
    Neutral s₁ s₃ :=
  ⟨h'.suspended.trans h.suspended, h'.resumed.trans h.resumed, h.fresh.trans h'.fresh,
    fun c => (h'.item c).trans (h.item c)⟩

/-- What a step does to the coroutines: suspend one with a new item, resume one, or neither. -/
inductive Effect (s s' : Sched) : Prop
  | neutral (h : Neutral s s')
  | suspends (c : ℕ) (x : Ptr) (hs : s'.suspended = s.suspended ++ [(c, x)])
      (hr : s'.resumed = s.resumed) (hx : x = s.wheel.heap.fresh)
      (hf : s.wheel.heap.fresh < s'.wheel.heap.fresh) (hc : (s.co c).item = none)
      (hi : ∀ d, (s'.co d).item = if d = c then some x else (s.co d).item)
  | resumes (c : ℕ) (x : Ptr) (hs : s'.suspended = s.suspended)
      (hr : s'.resumed = s.resumed ++ [(c, x)]) (hf : s'.wheel.heap.fresh = s.wheel.heap.fresh)
      (hc : (s.co c).item = some x)
      (hi : ∀ d, (s'.co d).item = if d = c then none else (s.co d).item)

/-- The `stPoll_t` of an active item is detached. -/
def ActiveDetached (s : Sched) (q : Queues) : Prop :=
  ∀ x ∈ q.active, ∀ p, s.polls x = some p → p.iAllEventDetach = true

/-- Items were moved to the active list, for events or because their time had come. -/
structure Grown (s s' : Sched) (q q' : Queues) : Prop where
  co : s'.co = s.co
  stack : s'.pCallStack = s.pCallStack
  pending : ∀ e ∈ q'.pending, e ∈ q.pending
  source : ∀ y ∈ q'.active,
    y ∈ q.active ∨ (∃ c, s.co c = .polling y) ∨ y ∈ q.pending.map Prod.fst
  append : ActiveDetached s q → ∃ new, q'.active = q.active ++ new

/-- The running coroutine `c` gave control back. -/
structure Suspended (s s' : Sched) (c : ℕ) (st : CoState) : Prop where
  stack : s.pCallStack = c :: s'.pCallStack
  co : s'.co = Function.update s.co c st
  pc : s'.pc = s.pc

/-- Coroutine `c` was resumed with the first item of the active list. -/
structure Resumed (s s' : Sched) (q q' : Queues) (lists lists' : ℕ → List Ptr) (c : ℕ) (x : Ptr) :
    Prop where
  item : (s.co c).item = some x
  co : s'.co = Function.update s.co c .running
  stack : s'.pCallStack = c :: s.pCallStack
  pc : s'.pc = s.pc
  active : q.active = x :: q'.active
  pending : ∀ e ∈ q'.pending, e ∈ q.pending
  lists : ∀ k, lists' k = lists k ∨
    ∃ psi, s.co c = .waiting psi x ∧ lists' k = (lists k).erase psi

variable {s s' : Sched} {q q' : Queues} {lists : ℕ → List Ptr} {c : ℕ} {x y psi : Ptr}
  {h' : Heap Place TimeoutItem}

theorem Grown.refl (s : Sched) (q : Queues) : Grown s s q q :=
  ⟨rfl, rfl, fun _ h => h, fun _ h => .inl h, fun _ => ⟨[], (List.append_nil _).symm⟩⟩

/-- One after the other, if the items of the first are detached. -/
theorem Grown.trans {s₁ : Sched} {q₁ : Queues} (h : Grown s s₁ q q₁) (h' : Grown s₁ s' q₁ q')
    (hd : ActiveDetached s q → ActiveDetached s₁ q₁) : Grown s s' q q' where
  co := h'.co.trans h.co
  stack := h'.stack.trans h.stack
  pending := fun e he => h.pending e (h'.pending e he)
  source := by
    intro y hy
    rcases h'.source y hy with hy | hy | hy
    · exact h.source y hy
    · rw [h.co] at hy
      exact .inr (.inl hy)
    · obtain ⟨e, he, rfl⟩ := List.mem_map.mp hy
      exact .inr (.inr (List.mem_map.mpr ⟨e, h.pending e he, rfl⟩))
  append := by
    intro hs
    obtain ⟨new, hnew⟩ := h.append hs
    obtain ⟨new', hnew'⟩ := h'.append (hd hs)
    exact ⟨new ++ new', by rw [hnew', hnew, List.append_assoc]⟩

theorem arg_setHeap (hk : s.wheel.heap.Keeps h') (x : Ptr) : (s.setHeap h').arg x = s.arg x := by
  have := congrArg (Option.map TimeoutItem.pArg) (hk.data x)
  rw [Option.map_map, Option.map_map] at this
  exact this

theorem live_iff_arg : s.wheel.heap.Live x ↔ ∃ c, s.arg x = some c := by
  simp [arg, Heap.Live, Option.isSome_iff_exists]

/-- The invariant for the start. -/
theorem init_inv {now : ℕ} (hnow : 0 < now) :
    Inv (init now) ⟨[], [], [], now⟩ fun _ => [] where
  waits := .alloc (by decide) (by decide) hnow
  conds := .empty
  timeout_nil := rfl
  stack := by
    refine ⟨List.nodup_singleton 0, rfl, fun c => ?_⟩
    by_cases hc : c = 0 <;> simp [init, hc]
  item_iff := by
    intro c x
    by_cases hc : c = 0 <;> simp [init, hc, CoState.item, arg, Timeout.allocTimeout, Heap.empty]
  psi_iff := by
    intro psi x
    simp only [tag, init, Heap.empty, Option.map_none, reduceCtorEq, false_iff, not_exists]
    intro c
    by_cases hc : c = 0 <;> simp [hc]
  polls_iff := by
    intro x
    simp only [init, Option.isSome_none, Bool.false_eq_true, false_iff, not_exists]
    intro c
    by_cases hc : c = 0 <;> simp [hc]
  polling_has := by
    intro c x hx
    by_cases hc : c = 0 <;> simp [init, hc] at hx
  waiting_has := by
    intro c psi x hx
    by_cases hc : c = 0 <;> simp [init, hc] at hx
  detached := by simp [init]
  registered := by simp [init]
  raiseCnt := by simp [init]
  raised_lt := by simp [init]
  results := by simp [init]

namespace Inv

theorem item_unique (hi : Inv s q lists) {d : ℕ} (hc : (s.co c).item = some x)
    (hd : (s.co d).item = some x) : c = d :=
  Option.some.inj (((hi.item_iff c x).mp hc).symm.trans ((hi.item_iff d x).mp hd))

theorem live (hi : Inv s q lists) (hc : (s.co c).item = some x) : s.wheel.heap.Live x :=
  live_iff_arg.mpr ⟨c, (hi.item_iff c x).mp hc⟩

theorem lt_fresh (hi : Inv s q lists) (hc : (s.co c).item = some x) : x < s.wheel.heap.fresh :=
  hi.waits.lt_fresh (hi.live hc)

/-- An item in a queue is that of a suspended coroutine. -/
theorem exists_item (hi : Inv s q lists) (hx : q.Has x) : ∃ c, (s.co c).item = some x := by
  obtain ⟨c, hc⟩ := live_iff_arg.mp (hi.waits.live hx)
  exact ⟨c, (hi.item_iff c x).mpr hc⟩

/-- A running coroutine is not suspended. -/
theorem item_of_mem (hi : Inv s q lists) (hc : c ∈ s.pCallStack) : (s.co c).item = none := by
  rw [(hi.stack.running c).mp hc]
  rfl

/-! ## Steps that leave the items alone -/

/-- A coroutine that is not suspended with an item goes on, or stops. -/
theorem setState (hi : Inv s q lists) {st : CoState} {stack : List ℕ} (hc : (s.co c).item = none)
    (hst : st.item = none) (hstack : Stack stack (Function.update s.co c st)) :
    Inv { s.setCo c st with pCallStack := stack } q lists := by
  have hne : ∀ x, s.co c ≠ .polling x := by
    intro x e
    simp [e, CoState.item] at hc
  have hne' : ∀ psi x, s.co c ≠ .waiting psi x := by
    intro psi x e
    simp [e, CoState.item] at hc
  have hst₁ : ∀ x, st ≠ .polling x := by
    rintro x rfl
    simp [CoState.item] at hst
  have hst₂ : ∀ psi x, st ≠ .waiting psi x := by
    rintro psi x rfl
    simp [CoState.item] at hst
  -- nobody else changes
  have hco : ∀ d v, (v = st → v = s.co c) → (s.co c = v → v = st) →
      (Function.update s.co c st d = v ↔ s.co d = v) := by
    intro d v h₁ h₂
    by_cases hd : d = c
    · subst hd
      rw [Function.update_self]
      exact ⟨fun e => (h₁ e.symm).symm, fun e => (h₂ e).symm⟩
    · rw [Function.update_of_ne hd]
  have hpoll : ∀ d x, Function.update s.co c st d = .polling x ↔ s.co d = .polling x := fun d x =>
    hco d _ (fun e => absurd e.symm (hst₁ x)) fun e => absurd e (hne x)
  have hwait : ∀ d psi x, Function.update s.co c st d = .waiting psi x ↔ s.co d = .waiting psi x :=
    fun d psi x => hco d _ (fun e => absurd e.symm (hst₂ psi x)) fun e => absurd e (hne' psi x)
  exact { hi with
    stack := hstack
    item_iff := by
      intro d x
      refine Iff.trans ?_ (hi.item_iff d x)
      show (Function.update s.co c st d).item = some x ↔ _
      by_cases hd : d = c
      · subst hd
        rw [Function.update_self, hst, hc]
      · rw [Function.update_of_ne hd]
    psi_iff := fun psi x => (hi.psi_iff psi x).trans (exists_congr fun d => (hwait d psi x).symm)
    polls_iff := fun x => (hi.polls_iff x).trans (exists_congr fun d => (hpoll d x).symm)
    polling_has := fun d x hd => hi.polling_has d x ((hpoll d x).mp hd)
    waiting_has := fun d psi x hd => hi.waiting_has d psi x ((hwait d psi x).mp hd) }

/-- The kernel forgets a descriptor. -/
theorem close (hi : Inv s q lists) (fd : ℕ) :
    Inv { s with epoll := Function.update s.epoll fd none } q lists := by
  refine { hi with registered := fun f r hr => ?_ }
  dsimp only at hr
  by_cases hf : f = fd
  · simp [hf] at hr
  · rw [Function.update_of_ne hf] at hr
    exact hi.registered f r hr

/-- A coroutine is resumed by name. -/
theorem resume (hi : Inv s q lists) (hc : s.co c = .ready ∨ s.co c = .yielded)
    (hlen : s.pCallStack.length < 128) :
    ∃ s', s.coResume c = some s' ∧ Inv s' q lists ∧ Neutral s s' ∧
      s'.co = Function.update s.co c .running ∧ s'.pCallStack = c :: s.pCallStack ∧
      s'.pc = s.pc := by
  have hrun : s.co c ≠ .running := by
    rcases hc with hc | hc <;> simp [hc]
  have hitem : (s.co c).item = none := by
    rcases hc with hc | hc <;> simp [hc, CoState.item]
  refine ⟨{ s.setCo c .running with pCallStack := c :: s.pCallStack }, ?_,
    hi.setState hitem rfl (hi.stack.push hrun), ⟨rfl, rfl, le_rfl, fun d => ?_⟩, rfl, rfl, rfl⟩
  · rcases hc with hc | hc <;> simp [coResume, hlen, hc]
  · show (Function.update s.co c .running d).item = _
    by_cases hd : d = c
    · subst hd
      rw [Function.update_self, hitem]
      rfl
    · rw [Function.update_of_ne hd]

/-- A coroutine gives control back without an item. -/
theorem yieldPlain (hi : Inv s q lists) {st : CoState} (hst : st.item = none)
    (hrun : st ≠ .running) (hlen : 2 ≤ s.pCallStack.length) :
    ∃ s', s.coYield st = some s' ∧ Inv s' q lists ∧ Neutral s s' := by
  obtain ⟨c, d, l, hl⟩ : ∃ c d l, s.pCallStack = c :: d :: l := by
    match hs : s.pCallStack, hlen with
    | c :: d :: l, _ => exact ⟨c, d, l, rfl⟩
  have hitem : (s.co c).item = none := hi.item_of_mem (by rw [hl]; simp)
  have hstack := hi.stack
  rw [hl] at hstack
  refine ⟨{ s.setCo c st with pCallStack := d :: l }, by simp [coYield, hl],
    hi.setState hitem hst (hstack.pop (by simp) hrun), ⟨rfl, rfl, le_rfl, fun e => ?_⟩⟩
  show (Function.update s.co c st e).item = _
  by_cases he : e = c
  · subst he
    rw [Function.update_self, hitem, hst]
  · rw [Function.update_of_ne he]

/-! ## Moving items -/

/-- Items were moved between the queues. -/
theorem move {r : Queues} (hi : Inv s q lists) {w : Timeout}
    (hf : s.wheel.heap.fresh ≤ w.heap.fresh)
    (ha : ∀ x, arg { s with wheel := w } x = s.arg x) (hw : w.Waits r) (ht : r.timeout = [])
    (hhas : ∀ y, q.Has y → r.Has y) (hact : ∀ y ∈ q.active, y ∈ r.active) :
    Inv { s with wheel := w } r lists :=
  { hi with
    waits := hw
    timeout_nil := ht
    item_iff := fun c x => by
      rw [ha]
      exact hi.item_iff c x
    polling_has := fun c x hc => hhas x (hi.polling_has c x hc)
    waiting_has := fun c psi x hc => (hi.waiting_has c psi x hc).imp (hhas x) id
    detached := fun x p hp hd => hact x (hi.detached x p hp hd)
    raised_lt := fun x hx => (hi.raised_lt x hx).trans_le hf
    results := fun x n hx => (hi.results x n hx).imp_right (And.imp_left fun h => h.trans_le hf) }

end Inv

/-- `RemoveFromLink` and `AddTail` put an item at the end of the active list. -/
theorem activate_spec (hw : s.wheel.Waits q) (hx : s.wheel.heap.Live x) :
    ∃ h', s.activate x = some (s.setHeap h') ∧
      (s.wheel.withHeap h').Waits ((q.remove x).activate x) ∧ s.wheel.heap.Keeps h' := by
  obtain ⟨h₁, e₁, hw₁, hk₁⟩ := hw.remove hx
  have ho : h₁.owner x = none := by
    have hno : ¬(q.remove x).Has x := fun h => (hw.has_remove.mp h).1 rfl
    by_contra hne
    exact hno (hw₁.has_iff.mpr hne)
  obtain ⟨h₂, e₂, hw₂, hk₂⟩ := hw₁.activate (hk₁.live.mpr hx) ho
  have e₂' : h₁.addTail .active x = some h₂ := e₂
  refine ⟨h₂, ?_, hw₂, hk₁.trans hk₂⟩
  simp [activate, e₁, e₂']

/-- What the queues hold after an item was moved to the active list. -/
theorem has_activated (hw : s.wheel.Waits q) :
    ((q.remove x).activate x).Has y ↔ y = x ∨ q.Has y := by
  rw [Queues.has_activate, hw.has_remove]
  by_cases hy : y = x <;> simp [hy]

theorem mem_activated (hw : s.wheel.Waits q) :
    y ∈ ((q.remove x).activate x).active ↔ y = x ∨ y ∈ q.active := by
  rw [Queues.activate, List.mem_append, hw.mem_remove_active, List.mem_singleton]
  by_cases hy : y = x <;> simp [hy]

/-- Moving an item does not depend on what else the state holds. -/
theorem activate_with (s : Sched) (x : Ptr) (polls : Ptr → Option Poll) (raised : List Ptr) :
    Sched.activate { s with polls := polls, raised := raised } x =
      (s.activate x).map fun s => { s with polls := polls, raised := raised } := by
  simp only [Sched.activate, Option.bind_eq_bind]
  cases s.wheel.heap.removeFromLink x with
  | none => rfl
  | some h =>
    simp only [Option.bind_some]
    cases h.addTail .active x <;> rfl

/-- Moving an item does not depend on the condition variables. -/
theorem activate_conds (s : Sched) (x : Ptr) (conds : Heap ℕ Ptr) :
    Sched.activate { s with conds := conds } x =
      (s.activate x).map fun s => { s with conds := conds } := by
  simp only [Sched.activate, Option.bind_eq_bind]
  cases s.wheel.heap.removeFromLink x with
  | none => rfl
  | some h =>
    simp only [Option.bind_some]
    cases h.addTail .active x <;> rfl

namespace Inv

/-- The item of a suspended coroutine is moved to the active list. -/
theorem activate (hi : Inv s q lists) (hc : (s.co c).item = some x) :
    ∃ h', s.activate x = some (s.setHeap h') ∧
      Inv (s.setHeap h') ((q.remove x).activate x) lists ∧ s.wheel.heap.Keeps h' := by
  obtain ⟨h', e, hw, hk⟩ := activate_spec hi.waits (hi.live hc)
  refine ⟨h', e, hi.move hk.fresh.ge (arg_setHeap hk) hw ?_
    (fun y hy => (has_activated hi.waits).mpr (.inr hy)) fun y hy =>
      (mem_activated hi.waits).mpr (.inr hy), hk⟩
  simp [Queues.activate, Queues.remove, hi.timeout_nil]

/-- An event was counted for a `stPoll_t` whose item is active. -/
theorem raise (hi : Inv s q lists) {p u : Poll} (hp : s.polls x = some p) (hx : x ∈ q.active)
    (hfds : u.fds = p.fds) (hcnt : u.iRaiseCnt = p.iRaiseCnt + 1) :
    Inv { s with polls := Function.update s.polls x (some u), raised := s.raised ++ [x] } q
      lists := by
  have hlive : x < s.wheel.heap.fresh := hi.waits.lt_fresh (hi.waits.live (.inr (.inr hx)))
  have hcases : ∀ y p₁, Function.update s.polls x (some u) y = some p₁ →
      y = x ∧ p₁ = u ∨ y ≠ x ∧ s.polls y = some p₁ := fun y p₁ hy => update_some_cases hy
  exact { hi with
    polls_iff := by
      intro y
      rw [← hi.polls_iff y]
      by_cases hy : y = x
      · simp [hy, hp]
      · simp [Function.update_of_ne hy]
    detached := by
      intro y p₁ hy hd
      rcases hcases y p₁ hy with ⟨rfl, -⟩ | ⟨-, hy⟩
      · exact hx
      · exact hi.detached y p₁ hy hd
    registered := by
      intro fd r hr
      obtain ⟨p₁, hp₁, hfd⟩ := hi.registered fd r hr
      by_cases hrx : r.pPoll = x
      · rw [hrx] at hp₁
        obtain rfl := Option.some.inj (hp.symm.trans hp₁)
        exact ⟨u, by simp [hrx], by rwa [hfds]⟩
      · exact ⟨p₁, by simp [Function.update_of_ne hrx, hp₁], hfd⟩
    raiseCnt := by
      intro y p₁ hy
      rcases hcases y p₁ hy with ⟨rfl, rfl⟩ | ⟨hne, hy⟩
      · rw [hcnt, hi.raiseCnt y p hp, List.count_append, List.count_singleton_self]
      · rw [hi.raiseCnt y p₁ hy, List.count_append, List.count_singleton]
        simp [Ne.symm hne]
    raised_lt := by
      intro y hy
      rcases List.mem_append.mp hy with hy | hy
      · exact hi.raised_lt y hy
      · obtain rfl := List.mem_singleton.mp hy
        exact hlive
    results := by
      intro y n hy
      obtain ⟨h₁, h₂, h₃⟩ := hi.results y n hy
      have hne : y ≠ x := by
        rintro rfl
        rw [hp] at h₃
        cases h₃
      refine ⟨?_, h₂, by simp [Function.update_of_ne hne, h₃]⟩
      rw [h₁, List.count_append, List.count_singleton]
      simp [Ne.symm hne] }

/-- **`OnPollPreparePfn`**, for a registered descriptor. -/
theorem prepare (hi : Inv s q lists) {e : ℕ × ℕ} {r : Registration} (he : s.epoll e.1 = some r) :
    ∃ s' q', s.prepare e = some s' ∧ Inv s' q' lists ∧ Neutral s s' ∧ s'.epoll = s.epoll ∧
      s'.wheel.ullStart = s.wheel.ullStart ∧ (∀ y ∈ q.active, y ∈ q'.active) ∧
      r.pPoll ∈ q'.active ∧
      (∀ y e, (y, e) ∈ q.pending → (y, e) ∈ q'.pending ∨ y ∈ q'.active) ∧
      Grown s s' q q' ∧ (ActiveDetached s q → ActiveDetached s' q') := by
  obtain ⟨p, hp, -⟩ := hi.registered _ r he
  obtain ⟨c, hc⟩ := (hi.polls_iff r.pPoll).mp (by simp [hp])
  have hitem : (s.co c).item = some r.pPoll := by simp [hc, CoState.item]
  let p' : Poll :=
    { p with
      revents := p.revents.set r.index (epollEvent2Poll e.2)
      iRaiseCnt := p.iRaiseCnt + 1
      iAllEventDetach := true }
  have hdetached : ∀ {r' : Queues}, (∀ y ∈ r'.active, y = r.pPoll ∨ y ∈ q.active) →
      ActiveDetached s q → ∀ y ∈ r'.active, ∀ u,
        Function.update s.polls r.pPoll (some p') y = some u → u.iAllEventDetach = true := by
    intro r' hr' hs y hy u hu
    by_cases hyx : y = r.pPoll
    · rw [hyx, Function.update_self] at hu
      rw [← Option.some.inj hu]
    · rw [Function.update_of_ne hyx] at hu
      exact hs y ((hr' y hy).resolve_left hyx) u hu
  by_cases hd : p.iAllEventDetach
  · have hx := hi.detached _ p hp hd
    exact ⟨_, q, by simp [Sched.prepare, he, hp, hd, p'], hi.raise (u := p') hp hx rfl rfl,
      ⟨rfl, rfl, le_rfl, fun _ => rfl⟩, rfl, rfl, fun _ hy => hy, hx, fun _ _ h => .inl h,
      { Grown.refl s q with }, hdetached fun _ => .inr⟩
  · obtain ⟨h', e', hi', hk⟩ := hi.activate hitem
    have hx : r.pPoll ∈ ((q.remove r.pPoll).activate r.pPoll).active :=
      (mem_activated hi.waits).mpr (.inl rfl)
    refine ⟨_, _, ?_, hi'.raise (u := p') hp hx rfl rfl, ⟨rfl, rfl, hk.fresh.ge, fun _ => rfl⟩,
      rfl, rfl, ?_, hx, ?_, ⟨rfl, rfl, ?_, ?_, ?_⟩, hdetached fun _ => (mem_activated hi.waits).mp⟩
    · simp only [Sched.prepare, he, hp, hd, Option.bind_eq_bind, Option.bind_some,
        Bool.false_eq_true, if_false, activate_with, e']
      rfl
    · exact fun y hy => (mem_activated hi.waits).mpr (.inr hy)
    · intro y e hy
      by_cases hyx : y = r.pPoll
      · exact .inr (hyx ▸ hx)
      · left
        simp [Queues.activate, Queues.remove, hy, hyx]
    · exact fun e he => (List.mem_filter.mp he).1
    · intro y hy
      rcases (mem_activated hi.waits).mp hy with rfl | hy
      · exact .inr (.inl ⟨c, hc⟩)
      · exact .inl hy
    · intro hs
      have hno : r.pPoll ∉ q.active := fun hm => hd (hs _ hm p hp)
      exact ⟨[r.pPoll], by simp [Queues.activate, Queues.remove, List.erase_of_not_mem hno]⟩

/-! ## Condition variables -/

/-- **`co_cond_pop`** of a list that is not empty, and moving the item to the active list. -/
theorem wakeOne (hi : Inv s q lists) {k : ℕ} {l : List Ptr} (hl : lists k = psi :: l) :
    ∃ s' x, s.wakeOne k psi = some s' ∧
      Inv s' ((q.remove x).activate x) (Function.update lists k l) ∧ Neutral s s' ∧
      s.tag psi = some x ∧ (∀ φ, s'.tag φ = s.tag φ) ∧
      s'.co = s.co ∧ s'.pCallStack = s.pCallStack ∧ s'.pc = s.pc := by
  obtain ⟨conds, ec, hr, hkc⟩ := hi.conds.popHead_repr hl
  have hpsi : s.conds.Live psi := hi.conds.live (k := k) (by rw [hl]; simp)
  obtain ⟨m, hm⟩ := Heap.live_iff.mp (hkc.live.mpr hpsi)
  have htag : s.tag psi = some m.data := by
    rw [tag, ← hkc.data psi, hm]
    rfl
  obtain ⟨c, hc⟩ := (hi.psi_iff psi m.data).mp htag
  obtain ⟨h', e', hi', hk⟩ := hi.activate (x := m.data) (c := c) (by simp [hc, CoState.item])
  refine ⟨{ s.setHeap h' with conds := conds }, m.data, ?_, { hi' with
    conds := hr
    psi_iff := ?_
    waiting_has := ?_ }, ⟨rfl, rfl, hk.fresh.ge, fun _ => rfl⟩, htag, hkc.data, rfl, rfl, rfl⟩
  · simp only [Sched.wakeOne, ec, hm, Option.bind_eq_bind, Option.bind_some, activate_conds, e']
    rfl
  · intro φ x
    refine Iff.trans ?_ (hi.psi_iff φ x)
    exact iff_of_eq (congrArg (· = some x) (hkc.data φ))
  · intro d φ x hd
    rcases hi.waiting_has d φ x hd with hx' | ⟨j, hj⟩
    · exact .inl ((has_activated hi.waits).mpr (.inr hx'))
    · by_cases hφ : φ = psi
      · subst hφ
        obtain rfl : x = m.data := by
          have := (hi.psi_iff φ x).mpr ⟨d, hd⟩
          rw [htag] at this
          exact (Option.some.inj this).symm
        exact .inl ((has_activated hi.waits).mpr (.inl rfl))
      · refine .inr ⟨j, ?_⟩
        by_cases hjk : j = k
        · subst hjk
          rw [hl, List.mem_cons, or_iff_right hφ] at hj
          rwa [Function.update_self]
        · rwa [Function.update_of_ne hjk]

/-- The first of a list, read off its ends. -/
theorem head_link (hi : Inv s q lists) (k : ℕ) : (s.conds.link k).head = (lists k).head? :=
  (hi.conds.double k).head_eq

/-- **`co_cond_signal`.** -/
theorem signal (hi : Inv s q lists) (k : ℕ) :
    ∃ s' q' lists', s.condSignal k = some s' ∧ Inv s' q' lists' ∧ Neutral s s' ∧
      (∀ y ∈ q.active, y ∈ q'.active) ∧
      ∀ psi x, (lists k).head? = some psi → s.tag psi = some x → x ∈ q'.active := by
  rcases hl : lists k with _ | ⟨psi, l⟩
  · refine ⟨s, q, lists, ?_, hi, .refl s, fun _ hy => hy, by simp⟩
    rw [condSignal, hi.head_link, hl, List.head?_nil]
  · obtain ⟨s', x, e, hi', he, htag, -⟩ := hi.wakeOne hl
    refine ⟨s', _, _, ?_, hi', he, fun y hy => (mem_activated hi.waits).mpr (.inr hy),
      fun φ y hφ hy => ?_⟩
    · rw [condSignal, hi.head_link, hl, List.head?_cons]
      exact e
    · obtain rfl : psi = φ := by simpa using hφ
      obtain rfl := Option.some.inj (htag.symm.trans hy)
      exact (mem_activated hi.waits).mpr (.inl rfl)

/-- The loop of `co_cond_broadcast`. -/
theorem broadcastLoop (hi : Inv s q lists) {k n : ℕ} (hn : (lists k).length ≤ n) :
    ∃ s' q' lists', Sched.broadcastLoop k n s = some s' ∧ Inv s' q' lists' ∧ Neutral s s' ∧
      (∀ y ∈ q.active, y ∈ q'.active) ∧
      ∀ psi x, psi ∈ lists k → s.tag psi = some x → x ∈ q'.active := by
  induction n generalizing s q lists with
  | zero =>
    obtain hl : lists k = [] := List.length_eq_zero_iff.mp (by omega)
    refine ⟨s, q, lists, ?_, hi, .refl s, fun _ hy => hy, by simp [hl]⟩
    rw [Sched.broadcastLoop, hi.head_link, hl, List.head?_nil]
  | succ n ih =>
    rcases hl : lists k with _ | ⟨psi, l⟩
    · refine ⟨s, q, lists, ?_, hi, .refl s, fun _ hy => hy, by simp⟩
      rw [Sched.broadcastLoop, hi.head_link, hl, List.head?_nil]
    · obtain ⟨s₁, x, e, hi₁, hn₁, htag, htags, -⟩ := hi.wakeOne hl
      have hlen : (Function.update lists k l k).length ≤ n := by
        rw [hl, List.length_cons] at hn
        rw [Function.update_self]
        omega
      obtain ⟨s', q', lists', e', hi', hn', hact', hall⟩ := ih hi₁ hlen
      refine ⟨s', q', lists', ?_, hi', hn₁.trans hn',
        fun y hy => hact' y ((mem_activated hi.waits).mpr (.inr hy)), fun φ y hφ hy => ?_⟩
      · rw [Sched.broadcastLoop, hi.head_link, hl, List.head?_cons]
        show (s.wakeOne k psi).bind _ = _
        rw [e, Option.bind_some, e']
      · rcases List.mem_cons.mp hφ with rfl | hφ
        · obtain rfl := Option.some.inj (htag.symm.trans hy)
          exact hact' x ((mem_activated hi.waits).mpr (.inl rfl))
        · refine hall φ y ?_ ((htags φ).trans hy)
          rwa [Function.update_self]

/-- **`co_cond_broadcast`.** -/
theorem broadcast (hi : Inv s q lists) (k : ℕ) :
    ∃ s' q' lists', s.condBroadcast k = some s' ∧ Inv s' q' lists' ∧ Neutral s s' ∧
      (∀ y ∈ q.active, y ∈ q'.active) ∧
      ∀ psi x, psi ∈ lists k → s.tag psi = some x → x ∈ q'.active :=
  hi.broadcastLoop (hi.conds.length_le_fresh k)

/-! ## A round of the event loop -/

/-- The loop over the events. -/
theorem prepareAll (hi : Inv s q lists) {events : List (ℕ × ℕ)}
    (he : ∀ e ∈ events, s.epoll e.1 ≠ none) :
    ∃ s' q', events.foldlM Sched.prepare s = some s' ∧ Inv s' q' lists ∧ Neutral s s' ∧
      s'.wheel.ullStart = s.wheel.ullStart ∧ (∀ y ∈ q.active, y ∈ q'.active) ∧
      (∀ e ∈ events, ∀ r, s.epoll e.1 = some r → r.pPoll ∈ q'.active) ∧
      (∀ y e, (y, e) ∈ q.pending → (y, e) ∈ q'.pending ∨ y ∈ q'.active) ∧ Grown s s' q q' := by
  induction events generalizing s q with
  | nil =>
    exact ⟨s, q, rfl, hi, .refl s, rfl, fun _ hy => hy, by simp, fun _ _ h => .inl h, .refl s q⟩
  | cons e events ih =>
    obtain ⟨r, hr⟩ := Option.ne_none_iff_exists'.mp (he e (by simp))
    obtain ⟨s₁, q₁, e₁, hi₁, hn₁, hepoll, hstart, hact, hx, hpend, hg, hd⟩ := hi.prepare hr
    obtain ⟨s', q', e', hi', hn', hstart', hact', hx', hpend', hg'⟩ := ih hi₁ fun e' he' => by
      rw [hepoll]
      exact he e' (by simp [he'])
    refine ⟨s', q', ?_, hi', hn₁.trans hn', hstart'.trans hstart, fun y hy => hact' y (hact y hy),
      ?_, ?_, hg.trans hg' hd⟩
    · rw [List.foldlM_cons, e₁]
      exact e'
    · intro e₂ he₂ r₂ hr₂
      rcases List.mem_cons.mp he₂ with rfl | he₂
      · obtain rfl := Option.some.inj (hr.symm.trans hr₂)
        exact hact' _ hx
      · exact hx' e₂ he₂ r₂ (by rw [hepoll]; exact hr₂)
    · intro y e hy
      rcases hpend y e hy with hy | hy
      · exact hpend' y e hy
      · exact .inr (hact' y hy)

end Inv

/-- The loop that sets `bTimeout` goes over the list, and changes nothing else. -/
theorem markTimeout_spec {t : Timeout} {h : Heap Place TimeoutItem} {l : List Ptr} {m : ℕ}
    (hw : (t.withHeap h).Waits q) (hc : Chain h.next l none) (hl : ∀ a ∈ l, h.Live a)
    (hm : l.length ≤ m) :
    ∃ h', markTimeout m l.head? h = some h' ∧ (t.withHeap h').Waits q ∧ h'.fresh = h.fresh ∧
      ∀ x, (h'.item x).map (fun n => n.data.pArg) = (h.item x).map fun n => n.data.pArg := by
  induction l generalizing h m with
  | nil => exact ⟨h, by simp [markTimeout], hw, rfl, fun _ => rfl⟩
  | cons a l ih =>
    obtain ⟨m, rfl⟩ : ∃ m', m = m' + 1 := ⟨m - 1, by simp at hm; omega⟩
    have ha : h.Live a := hl a (by simp)
    obtain ⟨n, hn⟩ := Heap.live_iff.mp ha
    have hnn : n.pNext = l.head? := by simpa [Heap.next, hn] using hc.1
    let h₁ := h.modify a fun n => { n with data := { n.data with bTimeout := true } }
    have hw₁ : (t.withHeap h₁).Waits q :=
      hw.modifyData (x := a) (f := fun d => { d with bTimeout := true }) (.inr fun _ => rfl)
    have hnext : h₁.next = h.next := funext (Heap.modify_next_of_eq fun _ => by rfl)
    obtain ⟨h', e, hw', hf, harg⟩ := ih hw₁ (by rw [hnext]; exact hc.2)
      (fun b hb => Heap.modify_live.mpr (hl b (by simp [hb]))) (by simpa using hm)
    refine ⟨h', ?_, hw', hf, fun x => (harg x).trans ?_⟩
    · rw [← hnn] at e
      simpa [markTimeout, hn, Heap.write_eq ha] using e
    · rw [Heap.modify_item]
      by_cases hx : x = a
      · rw [if_pos hx, hx, Option.map_map]
        rfl
      · rw [if_neg hx]

namespace Inv

/-- **A round** of `co_eventloop` moves to the active list the items for which it found an event,
and those whose time has come. -/
theorem round (hi : Inv s q lists) {events : List (ℕ × ℕ)} {now : ℕ}
    (he : ∀ e ∈ events, s.epoll e.1 ≠ none) (hgap : now + 1 < s.wheel.ullStart + 2 ^ 31) :
    ∃ s' q', s.round events now = some s' ∧ Inv s' q' lists ∧ Neutral s s' ∧
      (∀ y ∈ q.active, y ∈ q'.active) ∧
      (∀ e ∈ events, ∀ r, s.epoll e.1 = some r → r.pPoll ∈ q'.active) ∧
      (s.wheel.ullStart ≤ now → ∀ y e, (y, e) ∈ q.pending → e ≤ now → y ∈ q'.active) ∧
      Grown s s' q q' ∧ s'.pc = .drain := by
  -- the timeout list is empty already
  have hset : s.setHeap (s.wheel.heap.setLink .timeout ⟨none, none⟩) = s := by
    obtain ⟨ls, hh, rfl⟩ := hi.waits
    have hnil : ls .timeout = [] := hi.timeout_nil
    have hd := hh.repr.double .timeout
    have hlink : s.wheel.heap.link .timeout = ⟨none, none⟩ := by
      have h₁ := hd.head_eq
      have h₂ := hd.tail_eq
      rw [hnil] at h₁ h₂
      cases hl : s.wheel.heap.link .timeout
      rw [hl] at h₁ h₂
      exact congrArg₂ Link.mk h₁ h₂
    have e : s.wheel.heap.setLink .timeout ⟨none, none⟩ = s.wheel.heap := by
      rw [Heap.setLink, ← hlink, Function.update_eq_self]
    rw [e]
    rfl
  obtain ⟨s₁, q₁, e₁, hi₁, hn₁, hstart, hact, hev, hpend, hg⟩ := hi.prepareAll he
  have hst₁ := hi₁.waits.start_eq
  obtain ⟨t, e₂, hw₂, hk₂, -⟩ := hi₁.waits.takeAllTimeout now (by
    rw [hst₁, hstart]
    exact hgap)
  obtain ⟨h₃, e₃, hw₃, hf₃, harg₃⟩ : ∃ h',
      markTimeout t.heap.fresh (t.heap.link .timeout).head t.heap = some h' ∧
        (t.withHeap h').Waits (q₁.take now) ∧ h'.fresh = t.heap.fresh ∧
        ∀ x, (h'.item x).map (fun n => n.data.pArg) =
          (t.heap.item x).map fun n => n.data.pArg := by
    have hw := hw₂
    obtain ⟨ls, hh, -⟩ := hw₂
    have hd := hh.repr.double .timeout
    rw [hd.head_eq]
    exact markTimeout_spec hw hd.chain (fun a ha => hh.repr.live ha) (hh.repr.length_le_fresh _)
  obtain ⟨h₄, e₄, hw₄, hk₄⟩ := hw₃.joinTimeout
  have e₄' : h₃.join .active .timeout = some h₄ := e₄
  have hfresh : h₄.fresh = s₁.wheel.heap.fresh := (hk₄.fresh.trans hf₃).trans hk₂.fresh
  have hactive : ∀ y ∈ q₁.active, y ∈ (q₁.take now).joinTimeout.active := by
    intro y hy
    rw [Queues.joinTimeout, List.mem_append]
    left
    rw [Queues.take]
    split <;> exact hy
  have hi' := hi₁.move (w := t.withHeap h₄) (r := (q₁.take now).joinTimeout) hfresh.ge (fun x => by
    have a₁ := congrArg (Option.map TimeoutItem.pArg) (hk₂.data x)
    have a₂ := congrArg (Option.map TimeoutItem.pArg) (hk₄.data x)
    rw [Option.map_map, Option.map_map] at a₁ a₂
    exact a₂.trans ((harg₃ x).trans a₁)) hw₄ rfl
    (fun y hy => Queues.has_joinTimeout.mpr (Queues.has_take.mpr hy)) hactive
  refine ⟨{ s₁ with wheel := t.withHeap h₄, pc := .drain }, _, ?_, { hi' with }, ?_,
    fun y hy => hactive y (hact y hy), fun e he' r hr => hactive _ (hev e he' r hr), ?_,
    ⟨hg.co, hg.stack, ?_, ?_, ?_⟩, rfl⟩
  · simp only [Sched.round, hset, e₁, e₂, e₃, e₄', Option.bind_eq_bind, Option.bind_some]
  · exact ⟨hn₁.suspended, hn₁.resumed, hn₁.fresh.trans hfresh.ge, hn₁.item⟩
  · intro hle y e hy hnow
    rcases hpend y e hy with hy | hy
    · rw [Queues.joinTimeout, List.mem_append]
      right
      rw [Queues.take, if_neg (by rw [hst₁, hstart]; omega)]
      refine List.mem_append_right _ (List.mem_map.mpr ⟨(y, e), mem_due.mpr ⟨hy, ?_⟩, rfl⟩)
      simpa [deadline] using hnow
    · exact hactive y hy
  · intro e he'
    apply hg.pending
    rw [Queues.joinTimeout, Queues.take] at he'
    split at he'
    · exact he'
    · exact (mem_later.mp he').1
  · intro y hy
    rcases Queues.mem_taken hi₁.timeout_nil hy with hy | hy
    · exact hg.source y hy
    · obtain ⟨e, he', rfl⟩ := List.mem_map.mp hy
      exact .inr (.inr (List.mem_map.mpr ⟨e, hg.pending e he', rfl⟩))
  · intro hs
    obtain ⟨new, hnew⟩ := hg.append hs
    have hj : (q₁.take now).active = q₁.active := by
      rw [Queues.take]
      split <;> rfl
    exact ⟨new ++ (q₁.take now).timeout, by
      rw [Queues.joinTimeout, hj, hnew, List.append_assoc]⟩

/-! ## Resuming from the active list -/

/-- Other coroutines are suspended with other items. -/
theorem ne_of_item (hi : Inv s q lists) {d : ℕ} (hc : (s.co c).item = some x) (hd : d ≠ c)
    (hy : (s.co d).item = some y) : y ≠ x := by
  rintro rfl
  exact hd (hi.item_unique hy hc)

/-- The items that are left when one is freed and its coroutine goes on. -/
theorem item_iff_resumed (hi : Inv s q lists) (hc : (s.co c).item = some x) (d : ℕ) (y : Ptr) :
    (Function.update s.co c .running d).item = some y ↔
      (if y = x then none else s.arg y) = some d := by
  by_cases hd : d = c
  · subst hd
    rw [Function.update_self]
    refine ⟨fun h => (by simp [CoState.item] at h), fun h => ?_⟩
    split at h
    · cases h
    · rename_i hy
      have := (hi.item_iff d y).mpr h
      rw [hc] at this
      exact absurd (Option.some.inj this).symm hy
  · rw [Function.update_of_ne hd]
    constructor
    · intro h
      rw [if_neg (hi.ne_of_item hc hd h)]
      exact (hi.item_iff d y).mp h
    · intro h
      split at h
      · cases h
      · exact (hi.item_iff d y).mpr h

end Inv

/-- What is registered after a poll has been undone. -/
theorem foldl_epollDel {fds : List ℤ} {epoll : ℕ → Option Registration} {fd : ℕ}
    {r : Registration} (h : fds.foldl epollDel epoll fd = some r) :
    epoll fd = some r ∧ (fd : ℤ) ∉ fds := by
  induction fds generalizing epoll with
  | nil => exact ⟨h, by simp⟩
  | cons f fds ih =>
    rw [List.foldl_cons] at h
    obtain ⟨h₁, h₂⟩ := ih h
    rw [epollDel] at h₁
    split at h₁
    · rename_i hf
      by_cases hfd : fd = f.toNat
      · rw [hfd, Function.update_self] at h₁
        cases h₁
      · rw [Function.update_of_ne hfd] at h₁
        refine ⟨h₁, ?_⟩
        rw [List.mem_cons, not_or]
        exact ⟨by omega, h₂⟩
    · refine ⟨h₁, ?_⟩
      rw [List.mem_cons, not_or]
      exact ⟨by omega, h₂⟩

theorem arg_dealloc (h : Heap Place TimeoutItem) (x y : Ptr) :
    ((h.dealloc x).item y).map (fun n => n.data.pArg) =
      if y = x then none else (h.item y).map fun n => n.data.pArg := by
  rw [Heap.dealloc_item]
  split <;> rfl

/-- An item in no queue is in no list. -/
theorem owner_of_not_has {t : Timeout} (hw : t.Waits q) (hx : ¬q.Has x) :
    t.heap.owner x = none := by
  by_contra hne
  exact hx (hw.has_iff.mpr hne)

/-- A coroutine that took its item off the active list, with a wheel that no longer has it. -/
structure Popped (s : Sched) (w : Timeout) (q q' : Queues) (x : Ptr) : Prop where
  waits : w.Waits q'
  fresh : w.heap.fresh = s.wheel.heap.fresh
  arg : ∀ y, (w.heap.item y).map (fun n => n.data.pArg) = if y = x then none else s.arg y
  timeout_nil : q'.timeout = []
  has : ∀ y, q'.Has y ↔ y ≠ x ∧ q.Has y
  active : ∀ y, y ∈ q'.active ↔ y ≠ x ∧ y ∈ q.active

namespace Inv

/-- **The end of `co_poll_inner`.** -/
theorem pollReturned (hi : Inv s q lists) {w : Timeout} {p : Poll} (hc : s.co c = .polling x)
    (hw : Popped s w q q' x) (hp : s.polls x = some p) :
    Inv { s with
      wheel := w
      co := Function.update s.co c .running
      pCallStack := c :: s.pCallStack
      polls := Function.update s.polls x none
      epoll := p.fds.foldl epollDel s.epoll
      resumed := s.resumed ++ [(c, x)]
      results := s.results ++ [(x, p.iRaiseCnt)] } q' lists := by
  have hitem : (s.co c).item = some x := by simp [hc, CoState.item]
  have hrun : s.co c ≠ .running := by simp [hc]
  have hne : ∀ d y, s.co d = .polling y → d ≠ c → y ≠ x := fun d y hd hdc =>
    hi.ne_of_item hitem hdc (by simp [hd, CoState.item])
  exact
    { waits := hw.waits
      conds := hi.conds
      timeout_nil := hw.timeout_nil
      stack := hi.stack.push hrun
      item_iff := fun d y => by
        rw [Sched.arg, hw.arg]
        exact hi.item_iff_resumed hitem d y
      psi_iff := fun psi y => by
        refine (hi.psi_iff psi y).trans (exists_congr fun d => ?_)
        dsimp only
        by_cases hd : d = c
        · simp [hd, hc]
        · rw [Function.update_of_ne hd]
      polls_iff := fun y => by
        dsimp only
        by_cases hy : y = x
        · simp only [hy, Function.update_self, Option.isSome_none, Bool.false_eq_true, false_iff,
            not_exists]
          intro d hd
          by_cases hdc : d = c
          · simp [hdc] at hd
          · rw [Function.update_of_ne hdc] at hd
            exact hne d x hd hdc rfl
        · rw [Function.update_of_ne hy, hi.polls_iff y]
          refine exists_congr fun d => ?_
          by_cases hd : d = c
          · simp [hd, hc, Ne.symm hy]
          · rw [Function.update_of_ne hd]
      polling_has := fun d y hd => by
        dsimp only at hd
        by_cases hdc : d = c
        · simp [hdc] at hd
        · rw [Function.update_of_ne hdc] at hd
          exact (hw.has y).mpr ⟨hne d y hd hdc, hi.polling_has d y hd⟩
      waiting_has := fun d psi y hd => by
        dsimp only at hd
        by_cases hdc : d = c
        · simp [hdc] at hd
        · rw [Function.update_of_ne hdc] at hd
          have hyx : y ≠ x := hi.ne_of_item hitem hdc (by simp [hd, CoState.item])
          exact (hi.waiting_has d psi y hd).imp_left fun h => (hw.has y).mpr ⟨hyx, h⟩
      detached := fun y p₁ hy hd => by
        dsimp only at hy
        by_cases hyx : y = x
        · simp [hyx] at hy
        · rw [Function.update_of_ne hyx] at hy
          exact (hw.active y).mpr ⟨hyx, hi.detached y p₁ hy hd⟩
      registered := fun fd r hr => by
        obtain ⟨hr, hfd⟩ := foldl_epollDel hr
        obtain ⟨p₁, hp₁, hm⟩ := hi.registered fd r hr
        have hrx : r.pPoll ≠ x := by
          intro e
          rw [e, hp] at hp₁
          obtain rfl := Option.some.inj hp₁
          exact hfd hm
        exact ⟨p₁, (Function.update_of_ne hrx ..).trans hp₁, hm⟩
      raiseCnt := fun y p₁ hy => by
        dsimp only at hy
        by_cases hyx : y = x
        · simp [hyx] at hy
        · rw [Function.update_of_ne hyx] at hy
          exact hi.raiseCnt y p₁ hy
      raised_lt := fun y hy => hw.fresh ▸ hi.raised_lt y hy
      results := fun y n hy => by
        rcases List.mem_append.mp hy with hy | hy
        · obtain ⟨h₁, h₂, h₃⟩ := hi.results y n hy
          refine ⟨h₁, hw.fresh ▸ h₂, ?_⟩
          dsimp only
          by_cases hyx : y = x
          · simp [hyx]
          · rw [Function.update_of_ne hyx, h₃]
        · obtain ⟨rfl, rfl⟩ := Prod.mk.inj (List.mem_singleton.mp hy)
          exact ⟨hi.raiseCnt _ p hp, hw.fresh ▸ hi.lt_fresh hitem, by simp⟩ }

/-- **The end of `co_cond_timedwait`.** -/
theorem condReturned (hi : Inv s q lists) {w : Timeout} {conds : Heap ℕ Ptr}
    {lists' : ℕ → List Ptr} (hc : s.co c = .waiting psi x) (hw : Popped s w q q' x)
    (hr : conds.Represents lists')
    (htag : ∀ φ, (conds.item φ).map Item.data = if φ = psi then none else s.tag φ)
    (hl : ∀ φ k, φ ≠ psi → φ ∈ lists k → φ ∈ lists' k) :
    Inv { s with
      wheel := w
      co := Function.update s.co c .running
      pCallStack := c :: s.pCallStack
      conds := conds
      resumed := s.resumed ++ [(c, x)] } q' lists' := by
  have hitem : (s.co c).item = some x := by simp [hc, CoState.item]
  have hrun : s.co c ≠ .running := by simp [hc]
  have htagx : s.tag psi = some x := (hi.psi_iff psi x).mpr ⟨c, hc⟩
  -- each coroutine waits with its own `stCoCondItem_t`
  have hpsi : ∀ d φ y, s.co d = .waiting φ y → d ≠ c → φ ≠ psi := by
    rintro d φ y hd hdc rfl
    have := (hi.psi_iff φ y).mpr ⟨d, hd⟩
    rw [htagx] at this
    obtain rfl := Option.some.inj this
    exact hi.ne_of_item hitem hdc (by simp [hd, CoState.item]) rfl
  exact
    { waits := hw.waits
      conds := hr
      timeout_nil := hw.timeout_nil
      stack := hi.stack.push hrun
      item_iff := fun d y => by
        rw [Sched.arg, hw.arg]
        exact hi.item_iff_resumed hitem d y
      psi_iff := fun φ y => by
        rw [tag, htag]
        dsimp only
        by_cases hφ : φ = psi
        · simp only [hφ, if_true, reduceCtorEq, false_iff, not_exists]
          intro d hd
          by_cases hdc : d = c
          · simp [hdc] at hd
          · rw [Function.update_of_ne hdc] at hd
            exact hpsi d psi y hd hdc rfl
        · rw [if_neg hφ, hi.psi_iff φ y]
          refine exists_congr fun d => ?_
          by_cases hd : d = c
          · simp [hd, hc, Ne.symm hφ]
          · rw [Function.update_of_ne hd]
      polls_iff := fun y => by
        refine (hi.polls_iff y).trans (exists_congr fun d => ?_)
        dsimp only
        by_cases hd : d = c
        · simp [hd, hc]
        · rw [Function.update_of_ne hd]
      polling_has := fun d y hd => by
        dsimp only at hd
        by_cases hdc : d = c
        · simp [hdc] at hd
        · rw [Function.update_of_ne hdc] at hd
          exact (hw.has y).mpr
            ⟨hi.ne_of_item hitem hdc (by simp [hd, CoState.item]), hi.polling_has d y hd⟩
      waiting_has := fun d φ y hd => by
        dsimp only at hd
        by_cases hdc : d = c
        · simp [hdc] at hd
        · rw [Function.update_of_ne hdc] at hd
          have hyx : y ≠ x := hi.ne_of_item hitem hdc (by simp [hd, CoState.item])
          rcases hi.waiting_has d φ y hd with h | ⟨k, hk⟩
          · exact .inl ((hw.has y).mpr ⟨hyx, h⟩)
          · exact .inr ⟨k, hl φ k (hpsi d φ y hd hdc) hk⟩
      detached := fun y p hy hd => by
        have hyx : y ≠ x := by
          rintro rfl
          have hp : s.polls y = some p := hy
          obtain ⟨d, hd⟩ := (hi.polls_iff y).mp (by simp [hp])
          have hdi : (s.co d).item = some y := by simp [hd, CoState.item]
          rw [hi.item_unique hdi hitem, hc] at hd
          cases hd
        exact (hw.active y).mpr ⟨hyx, hi.detached y p hy hd⟩
      registered := hi.registered
      raiseCnt := hi.raiseCnt
      raised_lt := fun y hy => hw.fresh ▸ hi.raised_lt y hy
      results := fun y n hy => hw.fresh ▸ hi.results y n hy }

/-- The item was taken off the active list, and freed. -/
theorem popped (hi : Inv s q lists) {l : List Ptr} (hq : q.active = x :: l)
    (hw : (s.wheel.withHeap h').Waits q') (hk : s.wheel.heap.Keeps h')
    (hhas : ∀ y, q'.Has y ↔ y ≠ x ∧ q.Has y) (hact : q'.active = l) (ht : q'.timeout = []) :
    Popped s (s.wheel.withHeap (h'.dealloc x)) q q' x where
  waits := hw.freeItem (owner_of_not_has hw fun h => ((hhas x).mp h).1 rfl)
  fresh := hk.fresh
  arg := by
    intro y
    have e : (h'.item y).map (fun n => n.data.pArg) = s.arg y := arg_setHeap hk y
    rw [← e]
    exact arg_dealloc h' x y
  timeout_nil := ht
  has := hhas
  active := by
    intro y
    have hl : x ∉ l := by
      have := hi.waits.active_nodup
      rw [hq] at this
      exact (List.nodup_cons.mp this).1
    rw [hact, hq, List.mem_cons]
    by_cases hy : y = x
    · simp [hy, hl]
    · simp [hy]

/-- The first of the active list, read off its ends. -/
theorem head_active (hi : Inv s q lists) :
    (s.wheel.heap.link .active).head = q.active.head? := by
  obtain ⟨ls, hh, rfl⟩ := hi.waits
  exact (hh.repr.double .active).head_eq

/-- **A turn of the loop over the active list** resumes the coroutine of its first item. -/
theorem pop (hi : Inv s q lists) {l : List Ptr} (hq : q.active = x :: l)
    (hlen : s.pCallStack.length = 1) :
    ∃ s' q' lists' c, s.pop = some s' ∧ Inv s' q' lists' ∧ Effect s s' ∧ (c, x) ∈ s'.resumed ∧
      (∀ d y, (d, y) ∈ s.resumed → (d, y) ∈ s'.resumed) ∧
      (∀ y ∈ q.active, y ≠ x → y ∈ q'.active) ∧ Resumed s s' q q' lists lists' c x := by
  have hhead : (s.wheel.heap.link .active).head = some x := by
    rw [hi.head_active, hq, List.head?_cons]
  have hx : q.Has x := .inr (.inr (by rw [hq]; simp))
  obtain ⟨c, hc⟩ := hi.exists_item hx
  obtain ⟨h₁, e₁, hw₁, hk₁⟩ := hi.waits.popActive
  have e₁' : s.wheel.heap.popHead .active = some h₁ := e₁
  -- the item names its coroutine
  obtain ⟨n, hn, hnc⟩ : ∃ n, h₁.item x = some n ∧ n.data.pArg = c := by
    have ha := (arg_setHeap hk₁ x).trans ((hi.item_iff c x).mp hc)
    exact Option.map_eq_some_iff.mp ha
  have hhas₁ : ∀ y, q.popActive.Has y ↔ y ≠ x ∧ q.Has y := fun y => hi.waits.has_popActive hq
  have hact₁ : q.popActive.active = l := by simp [Queues.popActive, hq]
  have hlen' : s.pCallStack.length < 128 := by omega
  have hpop : s.pop = (s.setHeap h₁).coResume c := by
    simp [Sched.pop, hhead, e₁', hn, hnc]
  have heff : ∀ s', s'.suspended = s.suspended → s'.resumed = s.resumed ++ [(c, x)] →
      s'.wheel.heap.fresh = s.wheel.heap.fresh → s'.co = Function.update s.co c .running →
      Effect s s' := by
    intro s' h₁ h₂ h₃ h₄
    refine .resumes c x h₁ h₂ h₃ hc fun d => ?_
    rw [h₄]
    by_cases hd : d = c
    · simp [hd, CoState.item]
    · rw [Function.update_of_ne hd, if_neg hd]
  rcases hst : s.co c with _ | _ | _ | y | ⟨psi, y⟩ | _
  case polling =>
    obtain rfl : y = x := by
      rw [hst] at hc
      exact Option.some.inj hc
    obtain ⟨p, hp⟩ := Option.isSome_iff_exists.mp ((hi.polls_iff y).mpr ⟨c, hst⟩)
    obtain ⟨h₂, e₂, hw₂, hk₂⟩ := hw₁.remove (x := y) (hk₁.live.mpr (hi.live hc))
    have e₂' : h₁.removeFromLink y = some h₂ := e₂
    have hhas₂ : ∀ z, (q.popActive.remove y).Has z ↔ z ≠ y ∧ q.Has z := by
      intro z
      rw [hw₁.has_remove, hhas₁]
      tauto
    have hyl : y ∉ l := by
      have := hi.waits.active_nodup
      rw [hq] at this
      exact (List.nodup_cons.mp this).1
    have hact₂ : (q.popActive.remove y).active = l := by
      rw [Queues.remove]
      show q.popActive.active.erase y = l
      rw [hact₁, List.erase_of_not_mem hyl]
    have ht₂ : (q.popActive.remove y).timeout = [] := by
      simp [Queues.remove, Queues.popActive, hi.timeout_nil]
    have hpopped := hi.popped hq hw₂ (hk₁.trans hk₂) hhas₂ hact₂ ht₂
    refine ⟨_, _, lists, c, ?_, hi.pollReturned hst hpopped hp, heff _ rfl rfl hpopped.fresh rfl,
      by simp, fun d z hd => by simp [hd], fun z hz hzx => (hpopped.active z).mpr ⟨hzx, hz⟩,
      ⟨hc, rfl, rfl, rfl, by rw [hact₂, hq], fun e he => (List.mem_filter.mp he).1,
        fun _ => .inl rfl⟩⟩
    rw [hpop]
    simp [coResume, hlen', hst, pollReturn, setHeap, setCo, Timeout.withHeap, e₂', hp]
  case waiting =>
    obtain rfl : y = x := by
      rw [hst] at hc
      exact Option.some.inj hc
    have ht₁ : q.popActive.timeout = [] := hi.timeout_nil
    have hpopped := hi.popped hq hw₁ hk₁ hhas₁ hact₁ ht₁
    have htag : s.tag psi = some y := (hi.psi_iff psi y).mpr ⟨c, hst⟩
    have hpsi : s.conds.Live psi := by
      cases hm : s.conds.item psi with
      | none => simp [tag, hm] at htag
      | some m => simp [Heap.Live, hm]
    obtain ⟨conds, ec, hrc, hkc⟩ := hi.conds.removeFromLink_repr hpsi
    have hno : conds.owner psi = none := by
      by_contra hne
      obtain ⟨k, hk⟩ := Option.ne_none_iff_exists'.mp hne
      have := (hrc.owner k psi).mpr hk
      exact absurd rfl ((hi.conds.nodup k).mem_erase_iff.mp this).1
    refine ⟨_, _, _, c, ?_, hi.condReturned hst hpopped (hrc.dealloc_repr hno) (fun φ => ?_)
      (fun φ k hφ hk => (hi.conds.nodup k).mem_erase_iff.mpr ⟨hφ, hk⟩),
      heff _ rfl rfl hpopped.fresh rfl, by simp, fun d z hd => by simp [hd],
      fun z hz hzx => (hpopped.active z).mpr ⟨hzx, hz⟩,
      ⟨hc, rfl, rfl, rfl, by rw [hact₁, hq], fun _ he => he, fun _ => .inr ⟨psi, hst, rfl⟩⟩⟩
    · rw [hpop]
      simp [coResume, hlen', hst, condReturn, setHeap, setCo, Timeout.withHeap, ec]
    · rw [Heap.dealloc_item]
      by_cases hφ : φ = psi
      · rw [if_pos hφ, if_pos hφ]
        rfl
      · rw [if_neg hφ, if_neg hφ]
        exact hkc.data φ
  all_goals simp [hst, CoState.item] at hc

end Inv

/-! ## Suspending -/

theorem arg_alloc (h : Heap Place TimeoutItem) (d : TimeoutItem) (y : Ptr) :
    ((h.alloc d).item y).map (fun n => n.data.pArg) =
      if y = h.fresh then some d.pArg else (h.item y).map fun n => n.data.pArg := by
  rw [Heap.alloc_item]
  split <;> rfl

/-- The registrations of a poll. -/
theorem epollAdd_cases {fds : List PollFd} {i : ℕ} {epoll : ℕ → Option Registration} {fd : ℕ}
    {r : Registration} (h : epollAdd x i fds epoll fd = some r) :
    epoll fd = some r ∨ r.pPoll = x ∧ (fd : ℤ) ∈ fds.map PollFd.fd := by
  induction fds generalizing i epoll with
  | nil => exact .inl h
  | cons f fds ih =>
    rw [epollAdd] at h
    rcases ih h with h | ⟨hx, hfd⟩
    · split at h
      · rename_i hf
        by_cases hfd : fd = f.fd.toNat
        · rw [hfd, Function.update_self] at h
          obtain rfl := Option.some.inj h
          refine .inr ⟨rfl, ?_⟩
          rw [List.map_cons, List.mem_cons]
          have := hf.1
          exact .inl (by omega)
        · rw [Function.update_of_ne hfd] at h
          exact .inl h
      · exact .inl h
    · exact .inr ⟨hx, by simp [hfd]⟩

/-- Without descriptors nothing is registered. -/
theorem epollAdd_eq_self {fds : List PollFd} {i : ℕ} {epoll : ℕ → Option Registration}
    (h : ∀ f ∈ fds, f.fd ≤ -1) : epollAdd x i fds epoll = epoll := by
  induction fds generalizing i with
  | nil => rfl
  | cons f fds ih =>
    have hf : ¬(f.fd > -1) := not_lt.mpr (h f (by simp))
    rw [epollAdd, if_neg fun hh => hf hh.1]
    exact ih fun f' hf' => h f' (by simp [hf'])

/-- A wheel with a new item of coroutine `c`. -/
structure Armed (s : Sched) (w : Timeout) (q q' : Queues) (c : ℕ) (x : Ptr) : Prop where
  waits : w.Waits q'
  fresh : x < w.heap.fresh
  new : x = s.wheel.heap.fresh
  arg : ∀ y, (w.heap.item y).map (fun n => n.data.pArg) = if y = x then some c else s.arg y
  timeout_nil : q'.timeout = []
  has : ∀ y, q.Has y → q'.Has y
  active : ∀ y ∈ q.active, y ∈ q'.active

namespace Inv

/-- No coroutine is suspended with an item that is not allocated yet. -/
theorem item_ne_fresh (hi : Inv s q lists) (d : ℕ) : (s.co d).item ≠ some s.wheel.heap.fresh :=
  fun h => Nat.lt_irrefl _ (hi.lt_fresh h)

theorem arg_fresh (hi : Inv s q lists) : s.arg s.wheel.heap.fresh = none := by
  by_contra hne
  obtain ⟨c, hc⟩ := Option.ne_none_iff_exists'.mp hne
  exact hi.item_ne_fresh c ((hi.item_iff c _).mpr hc)

/-- The items when a running coroutine is suspended with a new one. -/
theorem item_iff_suspended (hi : Inv s q lists) (hc : (s.co c).item = none)
    {st : CoState} (hst : st.item = some s.wheel.heap.fresh) (d : ℕ) (y : Ptr) :
    (Function.update s.co c st d).item = some y ↔
      (if y = s.wheel.heap.fresh then some c else s.arg y) = some d := by
  by_cases hd : d = c
  · subst hd
    rw [Function.update_self, hst]
    by_cases hy : y = s.wheel.heap.fresh
    · simp [hy]
    · rw [if_neg hy, ← hi.item_iff d y, hc]
      simp [Ne.symm hy]
  · rw [Function.update_of_ne hd]
    by_cases hy : y = s.wheel.heap.fresh
    · subst hy
      simp [hi.item_ne_fresh d, Ne.symm hd]
    · rw [if_neg hy, hi.item_iff d y]

/-- **`co_poll_inner` suspends the coroutine.** -/
theorem pollSuspended (hi : Inv s q lists) {w : Timeout} {d : ℕ} {l : List ℕ} {p : Poll}
    {epoll : ℕ → Option Registration} (hs : s.pCallStack = c :: d :: l)
    (hw : Armed s w q q' c x) (hx : q'.Has x) (hp : p.iRaiseCnt = 0)
    (hd : p.iAllEventDetach = false)
    (he : ∀ fd r, epoll fd = some r → s.epoll fd = some r ∨ r.pPoll = x ∧ (fd : ℤ) ∈ p.fds) :
    Inv { s with
      wheel := w
      co := Function.update s.co c (.polling x)
      pCallStack := d :: l
      polls := Function.update s.polls x (some p)
      epoll := epoll
      suspended := s.suspended ++ [(c, x)] } q' lists := by
  obtain rfl := hw.new
  have hstack := hi.stack
  rw [hs] at hstack
  have hcr : s.co c = .running := (hi.stack.running c).mp (by rw [hs]; simp)
  have hitem : (s.co c).item = none := hi.item_of_mem (by rw [hs]; simp)
  have hfresh : ∀ n ∈ s.raised, n ≠ s.wheel.heap.fresh := fun n hn e =>
    Nat.lt_irrefl _ (e ▸ hi.raised_lt n hn)
  have hpolls : s.polls s.wheel.heap.fresh = none := by
    by_contra hne
    obtain ⟨e, he⟩ := (hi.polls_iff _).mp (Option.isSome_iff_ne_none.mpr hne)
    exact hi.item_ne_fresh e (by simp [he, CoState.item])
  have hcases : ∀ y p₁, Function.update s.polls s.wheel.heap.fresh (some p) y = some p₁ →
      y = s.wheel.heap.fresh ∧ p₁ = p ∨ y ≠ s.wheel.heap.fresh ∧ s.polls y = some p₁ :=
    fun y p₁ hy => update_some_cases hy
  exact
    { waits := hw.waits
      conds := hi.conds
      timeout_nil := hw.timeout_nil
      stack := hstack.pop (by simp) (by simp)
      item_iff := fun e y => by
        rw [Sched.arg, hw.arg]
        exact hi.item_iff_suspended hitem rfl e y
      psi_iff := fun psi y => by
        refine (hi.psi_iff psi y).trans (exists_congr fun e => ?_)
        dsimp only
        by_cases hec : e = c
        · simp [hec, hcr]
        · rw [Function.update_of_ne hec]
      polls_iff := fun y => by
        dsimp only
        by_cases hy : y = s.wheel.heap.fresh
        · rw [hy, Function.update_self]
          exact iff_of_true rfl ⟨c, by simp⟩
        · rw [Function.update_of_ne hy, hi.polls_iff y]
          refine exists_congr fun e => ?_
          by_cases hec : e = c
          · simp [hec, hcr, Ne.symm hy]
          · rw [Function.update_of_ne hec]
      polling_has := fun e y hy => by
        dsimp only at hy
        by_cases hec : e = c
        · rw [hec, Function.update_self] at hy
          obtain rfl := CoState.polling.inj hy
          exact hx
        · rw [Function.update_of_ne hec] at hy
          exact hw.has y (hi.polling_has e y hy)
      waiting_has := fun e psi y hy => by
        dsimp only at hy
        by_cases hec : e = c
        · simp [hec] at hy
        · rw [Function.update_of_ne hec] at hy
          exact (hi.waiting_has e psi y hy).imp_left (hw.has y)
      detached := fun y p₁ hy hd₁ => by
        rcases hcases y p₁ hy with ⟨-, rfl⟩ | ⟨-, hy⟩
        · rw [hd] at hd₁
          cases hd₁
        · exact hw.active y (hi.detached y p₁ hy hd₁)
      registered := fun fd r hr => by
        rcases he fd r hr with hr | ⟨hr, hfd⟩
        · obtain ⟨p₁, hp₁, hm⟩ := hi.registered fd r hr
          have hne : r.pPoll ≠ s.wheel.heap.fresh := by
            intro e
            rw [e, hpolls] at hp₁
            cases hp₁
          exact ⟨p₁, (Function.update_of_ne hne ..).trans hp₁, hm⟩
        · exact ⟨p, by rw [hr]; exact Function.update_self .., hfd⟩
      raiseCnt := fun y p₁ hy => by
        rcases hcases y p₁ hy with ⟨rfl, rfl⟩ | ⟨-, hy⟩
        · rw [hp, List.count_eq_zero_of_not_mem fun h => hfresh _ h rfl]
        · exact hi.raiseCnt y p₁ hy
      raised_lt := fun y hy => (hi.raised_lt y hy).trans hw.fresh
      results := fun y n hy => by
        obtain ⟨h₁, h₂, h₃⟩ := hi.results y n hy
        exact ⟨h₁, h₂.trans hw.fresh, (Function.update_of_ne (Nat.ne_of_lt h₂) ..).trans h₃⟩ }

/-- **`co_cond_timedwait` suspends the coroutine.** -/
theorem condSuspended (hi : Inv s q lists) {w : Timeout} {d k : ℕ} {l : List ℕ}
    {conds : Heap ℕ Ptr} {lists' : ℕ → List Ptr} (hs : s.pCallStack = c :: d :: l)
    (hw : Armed s w q q' c x) (hr : conds.Represents lists')
    (htag : ∀ φ, (conds.item φ).map Item.data = if φ = psi then some x else s.tag φ)
    (hpsi : s.tag psi = none) (hl : ∀ φ j, φ ∈ lists j → φ ∈ lists' j) (hk : psi ∈ lists' k) :
    Inv { s with
      wheel := w
      co := Function.update s.co c (.waiting psi x)
      pCallStack := d :: l
      conds := conds
      suspended := s.suspended ++ [(c, x)] } q' lists' := by
  obtain rfl := hw.new
  have hstack := hi.stack
  rw [hs] at hstack
  have hcr : s.co c = .running := (hi.stack.running c).mp (by rw [hs]; simp)
  have hitem : (s.co c).item = none := hi.item_of_mem (by rw [hs]; simp)
  exact
    { waits := hw.waits
      conds := hr
      timeout_nil := hw.timeout_nil
      stack := hstack.pop (by simp) (by simp)
      item_iff := fun e y => by
        rw [Sched.arg, hw.arg]
        exact hi.item_iff_suspended hitem rfl e y
      psi_iff := fun φ y => by
        rw [tag, htag]
        dsimp only
        by_cases hφ : φ = psi
        · subst hφ
          rw [if_pos rfl]
          constructor
          · intro e
            obtain rfl := Option.some.inj e
            exact ⟨c, by simp⟩
          · rintro ⟨e, he⟩
            by_cases hec : e = c
            · rw [hec, Function.update_self] at he
              rw [(CoState.waiting.inj he).2]
            · rw [Function.update_of_ne hec] at he
              rw [(hi.psi_iff φ y).mpr ⟨e, he⟩] at hpsi
              cases hpsi
        · rw [if_neg hφ, hi.psi_iff φ y]
          refine exists_congr fun e => ?_
          by_cases hec : e = c
          · simp [hec, hcr, Ne.symm hφ]
          · rw [Function.update_of_ne hec]
      polls_iff := fun y => by
        refine (hi.polls_iff y).trans (exists_congr fun e => ?_)
        dsimp only
        by_cases hec : e = c
        · simp [hec, hcr]
        · rw [Function.update_of_ne hec]
      polling_has := fun e y hy => by
        dsimp only at hy
        by_cases hec : e = c
        · simp [hec] at hy
        · rw [Function.update_of_ne hec] at hy
          exact hw.has y (hi.polling_has e y hy)
      waiting_has := fun e φ y hy => by
        dsimp only at hy
        by_cases hec : e = c
        · rw [hec, Function.update_self] at hy
          rw [← (CoState.waiting.inj hy).1]
          exact .inr ⟨k, hk⟩
        · rw [Function.update_of_ne hec] at hy
          exact (hi.waiting_has e φ y hy).imp (hw.has y) fun ⟨j, hj⟩ => ⟨j, hl φ j hj⟩
      detached := fun y p hy hd => hw.active y (hi.detached y p hy hd)
      registered := hi.registered
      raiseCnt := hi.raiseCnt
      raised_lt := fun y hy => (hi.raised_lt y hy).trans hw.fresh
      results := fun y n hy =>
        (hi.results y n hy).imp_right (And.imp_left fun h => h.trans hw.fresh) }

/-- What a wheel with the new item says of the items. -/
theorem arg_allocated {w : Timeout} {item : TimeoutItem}
    (hk : (s.wheel.heap.alloc item).Keeps w.heap) (y : Ptr) :
    (w.heap.item y).map (fun n => n.data.pArg) =
      if y = s.wheel.heap.fresh then some item.pArg else s.arg y := by
  have h := congrArg (Option.map TimeoutItem.pArg) (hk.data y)
  rw [Option.map_map, Option.map_map] at h
  exact h.trans (arg_alloc _ _ y)

/-- The new item is freed again. -/
theorem freed (hi : Inv s q lists) {w : Timeout} {item : TimeoutItem} (hw : w.Waits q)
    (hk : (s.wheel.heap.alloc item).Keeps w.heap) :
    Inv { s with wheel := w.withHeap (w.heap.dealloc s.wheel.heap.fresh) } q lists ∧
      Neutral s { s with wheel := w.withHeap (w.heap.dealloc s.wheel.heap.fresh) } := by
  have hno : ¬q.Has s.wheel.heap.fresh := by
    intro h
    obtain ⟨d, hd⟩ := hi.exists_item h
    exact hi.item_ne_fresh d hd
  have hf : s.wheel.heap.fresh ≤ w.heap.fresh := by
    rw [hk.fresh]
    exact Nat.le_succ _
  refine ⟨hi.move hf (fun y => ?_) (hw.freeItem (owner_of_not_has hw hno)) hi.timeout_nil
    (fun _ h => h) fun _ h => h, ⟨rfl, rfl, hf, fun _ => rfl⟩⟩
  refine (arg_dealloc w.heap _ y).trans ?_
  rw [arg_allocated hk]
  by_cases hy : y = s.wheel.heap.fresh
  · rw [if_pos hy, hy, hi.arg_fresh]
  · rw [if_neg hy, if_neg hy]

/-- The wheel took the new item. -/
theorem armed (hi : Inv s q lists) {w : Timeout} (item : TimeoutItem) (hw : w.Waits q')
    (hk : (s.wheel.heap.alloc item).Keeps w.heap) (ht : q'.timeout = q.timeout)
    (hhas : ∀ y, q.Has y → q'.Has y) (hact : q'.active = q.active) :
    Armed s w q q' item.pArg s.wheel.heap.fresh where
  waits := hw
  fresh := by
    rw [hk.fresh]
    exact Nat.lt_succ_self _
  new := rfl
  arg := arg_allocated hk
  timeout_nil := ht.trans hi.timeout_nil
  has := hhas
  active := fun y hy => hact ▸ hy

/-- `AddTimeout` of a new item. -/
theorem addTimeout_new (hi : Inv s q lists) (item : TimeoutItem) (now : ℕ)
    (hgap : item.ullExpireTime < s.wheel.ullStart + 2 ^ 31) :
    ∃ r w, (s.wheel.withHeap (s.wheel.heap.alloc item)).addTimeout s.wheel.heap.fresh now =
        some (r, w) ∧ (s.wheel.heap.alloc item).Keeps w.heap ∧
      (r ≠ 0 ∧ ¬s.Accepts item.ullExpireTime now ∧ w.Waits q ∨
        r = 0 ∧ s.Accepts item.ullExpireTime now ∧
          w.Waits (q.add s.wheel.heap.fresh item.ullExpireTime)) := by
  have hstart := hi.waits.start_eq
  have hn : (s.wheel.withHeap (s.wheel.heap.alloc item)).heap.item s.wheel.heap.fresh =
      some ⟨none, none, none, item⟩ := by
    refine (Heap.alloc_item ..).trans ?_
    rw [if_pos rfl]
  obtain ⟨r, w, e, hk, -, hr, hw⟩ := (hi.waits.allocItem item).addTimeout now hn rfl (by
    rw [hstart]
    exact hgap)
  have hw : w.Waits (if q.Accepts s.wheel.iItemSize item.ullExpireTime now then
      q.add s.wheel.heap.fresh item.ullExpireTime else q) := hw
  refine ⟨r, w, e, hk, ?_⟩
  have hacc : q.Accepts s.wheel.iItemSize item.ullExpireTime now ↔
      s.Accepts item.ullExpireTime now := by
    rw [Queues.Accepts, Sched.Accepts, hstart]
  by_cases ha : q.Accepts s.wheel.iItemSize item.ullExpireTime now
  · right
    refine ⟨hr.mpr ha, hacc.mp ha, ?_⟩
    rwa [if_pos ha] at hw
  · left
    refine ⟨fun h => ha (hr.mp h), fun h => ha (hacc.mpr h), ?_⟩
    rwa [if_neg ha] at hw

/-- The call stack of a coroutine that can give control back. -/
theorem exists_stack (hlen : 2 ≤ s.pCallStack.length) : ∃ c d l, s.pCallStack = c :: d :: l := by
  match hs : s.pCallStack, hlen with
  | c :: d :: l, _ => exact ⟨c, d, l, rfl⟩

/-- **`co_poll_inner`**, up to its `co_yield_env`. -/
theorem poll (hi : Inv s q lists) {fds : List PollFd} {timeout : ℤ} {pollfunc : Bool} {now : ℕ}
    (hlen : 2 ≤ s.pCallStack.length)
    (hgap : pollExpire timeout now < s.wheel.ullStart + 2 ^ 31)
    (ha : s.Accepts (pollExpire timeout now) now ∨ ∀ f ∈ fds, f.fd ≤ -1) :
    ∃ s' q', s.coPoll fds timeout pollfunc now = some s' ∧ Inv s' q' lists ∧ Effect s s' ∧
      (∀ y ∈ q.active, y ∈ q'.active) ∧
      (q' = q ∧ s'.co = s.co ∧ s'.pCallStack = s.pCallStack ∧ s'.pc = s.pc ∨
        ∃ c x e, Suspended s s' c (.polling x) ∧ q' = q.add x e) := by
  obtain ⟨c, d, l, hs⟩ := exists_stack hlen
  have hhead : s.pCallStack.head? = some c := by rw [hs, List.head?_cons]
  let item : TimeoutItem := ⟨pollExpire timeout now, c, false⟩
  by_cases hp : pollfunc = true ∧ fds.length = 1 ∧
      (fds.all fun f => decide (f.fd > -1 ∧ f.ctl = .eperm)) = true
  · obtain ⟨hi', hn⟩ := hi.freed (w := s.wheel.withHeap (s.wheel.heap.alloc item))
      (hi.waits.allocItem item) (.refl _)
    refine ⟨_, q, ?_, hi', .neutral hn, fun _ h => h, .inl ⟨rfl, rfl, rfl, rfl⟩⟩
    simp only [coPoll, hhead, Option.bind_eq_bind, Option.bind_some, if_pos hp]
    rfl
  · obtain ⟨r, w, e, hk, h⟩ := hi.addTimeout_new item now hgap
    rcases h with ⟨hr, hna, hw⟩ | ⟨rfl, -, hw⟩
    · obtain ⟨hi', hn⟩ := hi.freed hw hk
      refine ⟨_, q, ?_, hi', .neutral hn, fun _ h => h, .inl ⟨rfl, rfl, rfl, rfl⟩⟩
      simp only [coPoll, hhead, Option.bind_eq_bind, Option.bind_some, if_neg hp]
      rw [e, Option.bind_some, if_pos hr, epollAdd_eq_self (ha.resolve_left hna)]
    · have harmed := hi.armed item hw hk rfl (fun y hy => Queues.has_add.mpr (.inr hy)) rfl
      have hreg : ∀ fd r, epollAdd s.wheel.heap.fresh 0 fds s.epoll fd = some r →
          s.epoll fd = some r ∨ r.pPoll = s.wheel.heap.fresh ∧ (fd : ℤ) ∈ fds.map PollFd.fd :=
        fun fd r hr => epollAdd_cases hr
      refine ⟨_, _, ?_, hi.pollSuspended (p := ⟨fds.map PollFd.fd, fds.map fun _ => 0, false, 0⟩) hs
        harmed (Queues.has_add.mpr (.inl rfl)) rfl rfl hreg,
        .suspends c s.wheel.heap.fresh rfl rfl rfl harmed.fresh
          (hi.item_of_mem (by rw [hs]; simp)) fun f => ?_, fun _ h => h,
        .inr ⟨c, s.wheel.heap.fresh, item.ullExpireTime, ⟨hs, rfl, rfl⟩, rfl⟩⟩
      · simp only [coPoll, hhead, Option.bind_eq_bind, Option.bind_some, if_neg hp]
        rw [e]
        simp [coYield, hs, setCo]
      · dsimp only
        by_cases hf : f = c
        · rw [hf, Function.update_self, if_pos rfl]
          rfl
        · rw [Function.update_of_ne hf, if_neg hf]

/-- **`co_cond_timedwait`**, up to its `co_yield_ct`. -/
theorem condWait (hi : Inv s q lists) {k : ℕ} {ms : ℤ} {now : ℕ}
    (hlen : 2 ≤ s.pCallStack.length)
    (hgap : 0 < ms → condExpire ms now < s.wheel.ullStart + 2 ^ 31) :
    ∃ s' q' lists', s.condTimedwait k ms now = some s' ∧ Inv s' q' lists' ∧ Effect s s' ∧
      (∀ y ∈ q.active, y ∈ q'.active) ∧
      (¬0 < ms → q' = q ∧ ∃ c psi x, Suspended s s' c (.waiting psi x) ∧
        lists' = Function.update lists k (lists k ++ [psi])) := by
  obtain ⟨c, d, l, hs⟩ := exists_stack hlen
  have hhead : s.pCallStack.head? = some c := by rw [hs, List.head?_cons]
  let item : TimeoutItem := ⟨if ms > 0 then condExpire ms now else 0, c, false⟩
  -- the new `stCoCondItem_t` at the end of its list
  have hpsi : s.conds.item s.conds.fresh = none := hi.conds.item_fresh
  have hal := hi.conds.alloc_repr s.wheel.heap.fresh
  have hlive : (s.conds.alloc s.wheel.heap.fresh).Live s.conds.fresh := by
    simp [Heap.Live, Heap.alloc_item]
  have hown : (s.conds.alloc s.wheel.heap.fresh).owner s.conds.fresh = none := by
    simp [Heap.owner, Heap.alloc_item]
  obtain ⟨conds, ec, hrc, hkc⟩ := hal.addTail_repr hlive hown k
  have htag : ∀ φ, (conds.item φ).map Item.data =
      if φ = s.conds.fresh then some s.wheel.heap.fresh else s.tag φ := by
    intro φ
    rw [hkc.data φ, Heap.alloc_item]
    split <;> rfl
  have hsusp : ∀ {w : Timeout} {q' : Queues}, Armed s w q q' c s.wheel.heap.fresh →
      ∃ s' lists', coYield { s with
          wheel := w
          conds := conds
          suspended := s.suspended ++ [(c, s.wheel.heap.fresh)] }
            (.waiting s.conds.fresh s.wheel.heap.fresh) = some s' ∧
        Inv s' q' lists' ∧ Effect s s' ∧ (∀ y ∈ q.active, y ∈ q'.active) ∧
        Suspended s s' c (.waiting s.conds.fresh s.wheel.heap.fresh) ∧
        lists' = Function.update lists k (lists k ++ [s.conds.fresh]) := by
    intro w q' hw
    refine ⟨_, _, ?_, hi.condSuspended hs hw hrc htag (by simp [tag, hpsi]) (fun φ j hj => ?_)
      (k := k) (by simp), .suspends c s.wheel.heap.fresh rfl rfl rfl hw.fresh
        (hi.item_of_mem (by rw [hs]; simp)) fun f => ?_, hw.active, ⟨hs, rfl, rfl⟩, rfl⟩
    · simp [coYield, hs, setCo]
    · by_cases hjk : j = k
      · subst hjk
        simp [hj]
      · rwa [Function.update_of_ne hjk]
    · dsimp only
      by_cases hf : f = c
      · rw [hf, Function.update_self, if_pos rfl]
        rfl
      · rw [Function.update_of_ne hf, if_neg hf]
  by_cases hms : ms > 0
  · have hexp : item.ullExpireTime = condExpire ms now := if_pos hms
    obtain ⟨r, w, e, hk, h⟩ := hi.addTimeout_new item now (by
      rw [hexp]
      exact hgap hms)
    rcases h with ⟨hr, -, hw⟩ | ⟨rfl, -, hw⟩
    · obtain ⟨hi', hn⟩ := hi.freed hw hk
      refine ⟨_, q, lists, ?_, hi', .neutral hn, fun _ h => h, fun hms' => absurd hms hms'⟩
      simp only [condTimedwait, hhead, Option.bind_eq_bind, Option.bind_some, if_pos hms]
      simp only [item, if_pos hms] at e
      rw [e, Option.bind_some, if_pos hr]
    · obtain ⟨s', lists', e', hi', he, hact, -⟩ :=
        hsusp (hi.armed item hw hk rfl (fun y hy => Queues.has_add.mpr (.inr hy)) rfl)
      refine ⟨s', _, lists', ?_, hi', he, hact, fun hms' => absurd hms hms'⟩
      simp only [condTimedwait, hhead, Option.bind_eq_bind, Option.bind_some, if_pos hms]
      simp only [item, if_pos hms] at e
      rw [e, Option.bind_some, if_neg (by simp), ec]
      exact e'
  · obtain ⟨s', lists', e', hi', he, hact, hs', hl'⟩ := hsusp (hi.armed item
      (w := s.wheel.withHeap (s.wheel.heap.alloc item)) (hi.waits.allocItem item) (.refl _) rfl
      (fun _ h => h) rfl)
    refine ⟨s', q, lists', ?_, hi', he, hact, fun _ => ⟨rfl, c, _, _, hs', hl'⟩⟩
    simp only [item, if_neg hms] at e'
    simp only [condTimedwait, hhead, Option.bind_eq_bind, Option.bind_some, if_neg hms]
    rw [if_neg (by simp), ec]
    exact e'

end Inv

end Sched

end WebServer.Libco
