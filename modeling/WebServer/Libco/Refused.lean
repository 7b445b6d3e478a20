import WebServer.Libco.Resume

/-!
# A poll that is refused

`co_poll_inner` registers the descriptors with `epoll` before it calls `AddTimeout`. Where that
refuses the timeout, the `stPoll_t` is freed and the call returns, but the descriptors stay
registered, each with a pointer to its poll item, which is gone, and points to the `stPoll_t`.
`AddTimeout` refuses every negative timeout, with which `poll` waits without a limit
(`not_accepts_of_neg`).

* `step_keepsFreed`: no step brings a freed `stPoll_t` back.
* `refused_poll_dangles`: when this happens for the first time in a run, then from there on,
  whatever the steps are, an event for such a descriptor makes `co_eventloop` access freed memory,
  unless the registration is gone by then.
-/

namespace WebServer.Libco

open WebServer.Lib

/-! ## No function takes back an address -/

namespace Heap

variable {κ δ : Type} {h h' : Heap κ δ} {x : Ptr} {f : Item κ δ → Item κ δ}

theorem write_fresh (e : h.write x f = some h') : h'.fresh = h.fresh := by
  unfold write at e
  split at e
  · obtain rfl := Option.some.inj e
    rfl
  · cases e

variable [DecidableEq κ] {k l : κ}

theorem unlinkFront_fresh (e : h.unlinkFront k x = some h') : h'.fresh = h.fresh := by
  obtain ⟨node, -, e⟩ := Option.bind_eq_some_iff.mp e
  split at e
  · dsimp only at e
    split at e
    · simpa using write_fresh e
    · obtain rfl := Option.some.inj e
      rfl
  · split at e
    · exact write_fresh e
    · obtain rfl := Option.some.inj e
      rfl

theorem unlinkBack_fresh (e : h.unlinkBack k x = some h') : h'.fresh = h.fresh := by
  obtain ⟨node, -, e⟩ := Option.bind_eq_some_iff.mp e
  split at e
  · dsimp only at e
    split at e
    · simpa using write_fresh e
    · obtain rfl := Option.some.inj e
      rfl
  · split at e
    · exact write_fresh e
    · cases e

theorem removeFromLink_fresh (e : h.removeFromLink x = some h') : h'.fresh = h.fresh := by
  obtain ⟨node, -, e⟩ := Option.bind_eq_some_iff.mp e
  split at e
  · obtain rfl := Option.some.inj e
    rfl
  · split at e
    · obtain ⟨h₁, e₁, e⟩ := Option.bind_eq_some_iff.mp e
      obtain ⟨h₂, e₂, e⟩ := Option.bind_eq_some_iff.mp e
      rw [write_fresh e, unlinkBack_fresh e₂, unlinkFront_fresh e₁]
    · cases e

theorem addTail_fresh (e : h.addTail k x = some h') : h'.fresh = h.fresh := by
  obtain ⟨node, -, e⟩ := Option.bind_eq_some_iff.mp e
  split at e
  · obtain rfl := Option.some.inj e
    rfl
  · split at e
    · obtain ⟨h₁, e₁, e⟩ := Option.bind_eq_some_iff.mp e
      obtain ⟨h₂, e₂, e⟩ := Option.bind_eq_some_iff.mp e
      exact (write_fresh e).trans ((write_fresh e₂).trans (write_fresh e₁))
    · simpa using write_fresh e

theorem popHead_fresh (e : h.popHead k = some h') : h'.fresh = h.fresh := by
  unfold popHead at e
  split at e
  · obtain rfl := Option.some.inj e
    rfl
  · obtain ⟨node, -, e⟩ := Option.bind_eq_some_iff.mp e
    obtain ⟨h₁, e₁, e⟩ := Option.bind_eq_some_iff.mp e
    have hf : h₁.fresh = h.fresh := by simpa using write_fresh e₁
    split at e
    · exact (write_fresh e).trans hf
    · obtain rfl := Option.some.inj e
      exact hf

omit [DecidableEq κ] in
theorem relabel_fresh {n : ℕ} {p : Option Ptr} (e : relabel k n p h = some h') :
    h'.fresh = h.fresh := by
  induction n generalizing p h with
  | zero =>
    cases p with
    | none =>
      obtain rfl := Option.some.inj e
      rfl
    | some _ => cases e
  | succ n ih =>
    cases p with
    | none =>
      obtain rfl := Option.some.inj e
      rfl
    | some lp =>
      obtain ⟨node, -, e⟩ := Option.bind_eq_some_iff.mp e
      obtain ⟨h₁, e₁, e⟩ := Option.bind_eq_some_iff.mp e
      exact (ih e).trans (write_fresh e₁)

theorem join_fresh (e : h.join k l = some h') : h'.fresh = h.fresh := by
  unfold join at e
  split at e
  · obtain rfl := Option.some.inj e
    rfl
  · obtain ⟨h₁, e₁, e⟩ := Option.bind_eq_some_iff.mp e
    have hf := relabel_fresh e₁
    split at e
    · obtain ⟨h₂, e₂, e⟩ := Option.bind_eq_some_iff.mp e
      obtain ⟨h₃, e₃, e⟩ := Option.bind_eq_some_iff.mp e
      obtain rfl := Option.some.inj e
      exact (write_fresh e₃).trans ((write_fresh e₂).trans hf)
    · obtain rfl := Option.some.inj e
      exact hf

end Heap

namespace Timeout

variable {t t' : Timeout} {x : Ptr} {now : ℕ}

theorem started_fresh (t : Timeout) (now : ℕ) : (t.started now).heap = t.heap := by
  unfold started
  split <;> rfl

theorem addTimeout_fresh {r : ℤ} (e : t.addTimeout x now = some (r, t')) :
    t'.heap.fresh = t.heap.fresh := by
  obtain ⟨item, -, e⟩ := Option.bind_eq_some_iff.mp e
  have hs := started_fresh t now
  dsimp only at e
  split at e
  · obtain ⟨-, rfl⟩ := Prod.mk.inj (Option.some.inj e)
    rw [hs]
  · split at e
    · obtain ⟨-, rfl⟩ := Prod.mk.inj (Option.some.inj e)
      rw [hs]
    · split at e
      · obtain ⟨-, rfl⟩ := Prod.mk.inj (Option.some.inj e)
        rw [hs]
      · obtain ⟨i, -, e⟩ := Option.bind_eq_some_iff.mp e
        obtain ⟨heap, eh, e⟩ := Option.bind_eq_some_iff.mp e
        obtain ⟨-, rfl⟩ := Prod.mk.inj (Option.some.inj e)
        rw [← hs]
        exact Heap.addTail_fresh eh

theorem takeLoop_fresh {place : Place} {i n : ℕ} {h h' : Heap Place TimeoutItem}
    (e : t.takeLoop place i n h = some h') : h'.fresh = h.fresh := by
  induction n generalizing i h with
  | zero =>
    obtain rfl := Option.some.inj e
    rfl
  | succ n ih =>
    obtain ⟨idx, -, e⟩ := Option.bind_eq_some_iff.mp e
    obtain ⟨h₁, e₁, e⟩ := Option.bind_eq_some_iff.mp e
    exact (ih e).trans (Heap.join_fresh e₁)

theorem takeAllTimeout_fresh {place : Place} (e : t.takeAllTimeout now place = some t') :
    t'.heap.fresh = t.heap.fresh := by
  unfold takeAllTimeout at e
  have hs := started_fresh t now
  dsimp only at e
  split at e
  · obtain rfl := Option.some.inj e
    rw [hs]
  · obtain ⟨cnt, e⟩ : ∃ cnt : ℤ, (if cnt < 0 then some (t.started now)
        else do
          let heap ← (t.started now).takeLoop place 0 cnt.toNat (t.started now).heap
          some { t.started now with
            heap := heap
            ullStart := now
            llStartIdx := (t.started now).llStartIdx + (cnt - 1) }) = some t' := ⟨_, e⟩
    split at e
    · obtain rfl := Option.some.inj e
      rw [hs]
    · obtain ⟨h, eh, e⟩ := Option.bind_eq_some_iff.mp e
      obtain rfl := Option.some.inj e
      rw [← hs]
      exact takeLoop_fresh eh

end Timeout

namespace Sched

/-! ## A `stPoll_t` that was freed -/

/-- No address below `fresh` gets a `stPoll_t` again. -/
structure KeepsFreed (s s' : Sched) : Prop where
  fresh : s.wheel.heap.fresh ≤ s'.wheel.heap.fresh
  polls : ∀ x < s.wheel.heap.fresh, s.polls x = none → s'.polls x = none

variable {s s' t : Sched} {c : ℕ} {x : Ptr}

namespace KeepsFreed

theorem refl (s : Sched) : KeepsFreed s s := ⟨le_rfl, fun _ _ h => h⟩

theorem trans (h : KeepsFreed s s') (h' : KeepsFreed s' t) : KeepsFreed s t :=
  ⟨h.fresh.trans h'.fresh, fun x hx hp => h'.polls x (hx.trans_le h.fresh) (h.polls x hx hp)⟩

theorem of_eq (hf : s'.wheel.heap.fresh = s.wheel.heap.fresh) (hp : s'.polls = s.polls) :
    KeepsFreed s s' :=
  ⟨hf.ge, fun x _ h => by rw [hp, h]⟩

theorem of_alloc (hf : s'.wheel.heap.fresh = s.wheel.heap.fresh + 1) (hp : s'.polls = s.polls) :
    KeepsFreed s s' :=
  ⟨by rw [hf]; exact Nat.le_succ _, fun x _ h => by rw [hp, h]⟩

end KeepsFreed

theorem coYield_keepsFreed {st : CoState} (e : s.coYield st = some s') : KeepsFreed s s' := by
  unfold coYield at e
  split at e
  · obtain rfl := Option.some.inj e
    exact .of_eq rfl rfl
  · cases e

theorem pollReturn_keepsFreed (e : s.pollReturn c x = some s') : KeepsFreed s s' := by
  obtain ⟨heap, eh, e⟩ := Option.bind_eq_some_iff.mp e
  obtain ⟨poll, -, e⟩ := Option.bind_eq_some_iff.mp e
  obtain rfl := Option.some.inj e
  refine ⟨(Heap.removeFromLink_fresh eh).ge, fun y _ hy => ?_⟩
  change Function.update s.polls x none y = none
  by_cases hyx : y = x
  · rw [hyx, Function.update_self]
  · rw [Function.update_of_ne hyx, hy]

theorem condReturn_keepsFreed {psi : Ptr} (e : s.condReturn c psi x = some s') :
    KeepsFreed s s' := by
  obtain ⟨conds, -, e⟩ := Option.bind_eq_some_iff.mp e
  obtain rfl := Option.some.inj e
  exact .of_eq rfl rfl

theorem coResume_keepsFreed (e : s.coResume c = some s') : KeepsFreed s s' := by
  unfold coResume at e
  split at e
  · have h : KeepsFreed s { s.setCo c .running with pCallStack := c :: s.pCallStack } :=
      .of_eq rfl rfl
    dsimp only at e
    split at e
    · obtain rfl := Option.some.inj e
      exact h
    · obtain rfl := Option.some.inj e
      exact h
    · exact h.trans (pollReturn_keepsFreed e)
    · exact h.trans (condReturn_keepsFreed e)
    · cases e
    · cases e
  · cases e

theorem activate_keepsFreed (e : s.activate x = some s') : KeepsFreed s s' := by
  obtain ⟨h₁, e₁, e⟩ := Option.bind_eq_some_iff.mp e
  obtain ⟨h₂, e₂, e⟩ := Option.bind_eq_some_iff.mp e
  obtain rfl := Option.some.inj e
  exact .of_eq ((Heap.addTail_fresh e₂).trans (Heap.removeFromLink_fresh e₁)) rfl

theorem wakeOne_keepsFreed {si : ℕ} {sp : Ptr} (e : s.wakeOne si sp = some s') :
    KeepsFreed s s' := by
  obtain ⟨conds, -, e⟩ := Option.bind_eq_some_iff.mp e
  obtain ⟨node, -, e⟩ := Option.bind_eq_some_iff.mp e
  have h : KeepsFreed s { s with conds := conds } := .of_eq rfl rfl
  exact h.trans (activate_keepsFreed e)

theorem condSignal_keepsFreed {si : ℕ} (e : s.condSignal si = some s') : KeepsFreed s s' := by
  unfold condSignal at e
  split at e
  · obtain rfl := Option.some.inj e
    exact .refl s
  · exact wakeOne_keepsFreed e

theorem broadcastLoop_keepsFreed {si n : ℕ} (e : broadcastLoop si n s = some s') :
    KeepsFreed s s' := by
  induction n generalizing s with
  | zero =>
    unfold broadcastLoop at e
    split at e
    · obtain rfl := Option.some.inj e
      exact .refl s
    · cases e
  | succ n ih =>
    unfold broadcastLoop at e
    split at e
    · obtain rfl := Option.some.inj e
      exact .refl s
    · obtain ⟨u, eu, e⟩ := Option.bind_eq_some_iff.mp e
      exact (wakeOne_keepsFreed eu).trans (ih e)

/-- A poll takes a new address. -/
theorem coPoll_keepsFreed {fds : List PollFd} {timeout : ℤ} {pollfunc : Bool} {now : ℕ}
    (e : s.coPoll fds timeout pollfunc now = some s') : KeepsFreed s s' := by
  obtain ⟨c, -, e⟩ := Option.bind_eq_some_iff.mp e
  dsimp only at e
  split at e
  · obtain rfl := Option.some.inj e
    exact .of_alloc rfl rfl
  · obtain ⟨⟨r, w⟩, er, e⟩ := Option.bind_eq_some_iff.mp e
    have hf : w.heap.fresh = s.wheel.heap.fresh + 1 := Timeout.addTimeout_fresh er
    dsimp only at e
    split at e
    · obtain rfl := Option.some.inj e
      exact .of_alloc hf rfl
    · refine KeepsFreed.trans ?_ (coYield_keepsFreed e)
      refine ⟨by rw [hf]; exact Nat.le_succ _, fun x hx hp => ?_⟩
      exact (Function.update_of_ne (ne_of_lt hx) ..).trans hp

theorem condTimedwait_keepsFreed {link : ℕ} {ms : ℤ} {now : ℕ}
    (e : s.condTimedwait link ms now = some s') : KeepsFreed s s' := by
  obtain ⟨c, -, e⟩ := Option.bind_eq_some_iff.mp e
  obtain ⟨⟨r, w⟩, hf, e⟩ : ∃ r : ℤ × Timeout, r.2.heap.fresh = s.wheel.heap.fresh + 1 ∧
      (if r.1 ≠ 0 then
          some { s with wheel := r.2.withHeap (r.2.heap.dealloc s.wheel.heap.fresh) }
        else do
          let conds ← (s.conds.alloc s.wheel.heap.fresh).addTail link s.conds.fresh
          coYield { s with
            wheel := r.2
            conds := conds
            suspended := s.suspended ++ [(c, s.wheel.heap.fresh)] }
              (.waiting s.conds.fresh s.wheel.heap.fresh)) = some s' := by
    split at e
    · obtain ⟨r, er, e⟩ := Option.bind_eq_some_iff.mp e
      exact ⟨r, Timeout.addTimeout_fresh er, e⟩
    · exact ⟨(0, s.wheel.withHeap (s.wheel.heap.alloc ⟨0, c, false⟩)), rfl, e⟩
  dsimp only at e
  split at e
  · obtain rfl := Option.some.inj e
    exact .of_alloc hf rfl
  · obtain ⟨conds, -, e⟩ := Option.bind_eq_some_iff.mp e
    refine KeepsFreed.trans ?_ (coYield_keepsFreed e)
    exact .of_alloc hf rfl

/-! ## The events -/

variable {r : Registration} {event : ℕ × ℕ} {events : List (ℕ × ℕ)}

theorem prepare_epoll (e : s.prepare event = some s') : s'.epoll = s.epoll := by
  obtain ⟨r, -, e⟩ := Option.bind_eq_some_iff.mp e
  obtain ⟨poll, -, e⟩ := Option.bind_eq_some_iff.mp e
  dsimp only at e
  split at e
  · obtain rfl := Option.some.inj e
    rfl
  · obtain ⟨h₁, -, e⟩ := Option.bind_eq_some_iff.mp e
    obtain ⟨h₂, -, e⟩ := Option.bind_eq_some_iff.mp e
    obtain rfl := Option.some.inj e
    rfl

theorem prepare_keepsFreed (e : s.prepare event = some s') : KeepsFreed s s' := by
  obtain ⟨r, -, e⟩ := Option.bind_eq_some_iff.mp e
  obtain ⟨poll, hp, e⟩ := Option.bind_eq_some_iff.mp e
  have hpolls : ∀ u : Poll, ∀ y, s.polls y = none →
      Function.update s.polls r.pPoll (some u) y = none := by
    intro u y hy
    rw [Function.update_of_ne (fun h => by rw [h, hp] at hy; cases hy), hy]
  dsimp only at e
  split at e
  · obtain rfl := Option.some.inj e
    exact ⟨le_rfl, fun y _ hy => hpolls _ y hy⟩
  · have h := activate_keepsFreed e
    exact ⟨h.fresh, fun y hy hn => h.polls y hy (hpolls _ y hn)⟩

theorem prepareAll_keepsFreed (e : events.foldlM prepare s = some s') : KeepsFreed s s' := by
  induction events generalizing s with
  | nil =>
    obtain rfl := Option.some.inj e
    exact .refl s
  | cons event events ih =>
    rw [List.foldlM_cons] at e
    obtain ⟨u, eu, e⟩ := Option.bind_eq_some_iff.mp e
    exact (prepare_keepsFreed eu).trans (ih e)

/-- An event whose `stPoll_t` was freed. -/
theorem prepareAll_eq_none {fd : ℕ} (hr : s.epoll fd = some r) (hx : r.pPoll < s.wheel.heap.fresh)
    (hp : s.polls r.pPoll = none) (hm : fd ∈ events.map Prod.fst) :
    events.foldlM prepare s = none := by
  induction events generalizing s with
  | nil => cases hm
  | cons event events ih =>
    rw [List.foldlM_cons, Option.bind_eq_bind, Option.bind_eq_none_iff]
    intro u eu
    have hk := prepare_keepsFreed eu
    rcases List.mem_cons.mp hm with rfl | hm
    · have hnone : s.prepare event = none := by simp [prepare, hr, hp]
      rw [hnone] at eu
      cases eu
    · exact ih (by rw [prepare_epoll eu, hr]) (hx.trans_le hk.fresh) (hk.polls _ hx hp) hm

theorem markTimeout_fresh {n : ℕ} {p : Option Ptr} {h h' : Heap Place TimeoutItem}
    (e : markTimeout n p h = some h') : h'.fresh = h.fresh := by
  induction n generalizing p h with
  | zero =>
    cases p with
    | none =>
      obtain rfl := Option.some.inj e
      rfl
    | some _ => cases e
  | succ n ih =>
    cases p with
    | none =>
      obtain rfl := Option.some.inj e
      rfl
    | some lp =>
      obtain ⟨node, -, e⟩ := Option.bind_eq_some_iff.mp e
      obtain ⟨h₁, e₁, e⟩ := Option.bind_eq_some_iff.mp e
      exact (ih e).trans (Heap.write_fresh e₁)

theorem round_keepsFreed {now : ℕ} (e : s.round events now = some s') : KeepsFreed s s' := by
  obtain ⟨u, eu, e⟩ := Option.bind_eq_some_iff.mp e
  obtain ⟨w, ew, e⟩ := Option.bind_eq_some_iff.mp e
  obtain ⟨h₁, e₁, e⟩ := Option.bind_eq_some_iff.mp e
  obtain ⟨h₂, e₂, e⟩ := Option.bind_eq_some_iff.mp e
  obtain rfl := Option.some.inj e
  have hu := prepareAll_keepsFreed eu
  have hf : h₂.fresh = u.wheel.heap.fresh :=
    (Heap.join_fresh e₂).trans ((markTimeout_fresh e₁).trans (Timeout.takeAllTimeout_fresh ew))
  exact KeepsFreed.trans ⟨hu.fresh, hu.polls⟩ (.of_eq hf rfl)

theorem pop_keepsFreed (e : s.pop = some s') : KeepsFreed s s' := by
  obtain ⟨lp, -, e⟩ := Option.bind_eq_some_iff.mp e
  obtain ⟨heap, eh, e⟩ := Option.bind_eq_some_iff.mp e
  obtain ⟨item, -, e⟩ := Option.bind_eq_some_iff.mp e
  have h : KeepsFreed s (s.setHeap heap) := .of_eq (Heap.popHead_fresh eh) rfl
  exact h.trans (coResume_keepsFreed e)

/-- No step brings a freed `stPoll_t` back. -/
theorem step_keepsFreed {a : Act} (e : s.step a = some s') : KeepsFreed s s' := by
  cases a with
  | enter | endRound | create | close =>
    obtain rfl := Option.some.inj e
    exact .of_eq rfl rfl
  | round => exact round_keepsFreed e
  | pop => exact pop_keepsFreed e
  | resume => exact coResume_keepsFreed e
  | yield | finish => exact coYield_keepsFreed e
  | poll => exact coPoll_keepsFreed e
  | condWait => exact condTimedwait_keepsFreed e
  | signal => exact condSignal_keepsFreed e
  | broadcast => exact broadcastLoop_keepsFreed e

/-! ## A poll that is refused -/

/-- What is registered stays. -/
theorem epollAdd_of_some {fds : List PollFd} {i fd : ℕ} {epoll : ℕ → Option Registration}
    (h : epoll fd = some r) : epollAdd x i fds epoll fd = some r := by
  induction fds generalizing i epoll with
  | nil => exact h
  | cons f fds ih =>
    rw [epollAdd]
    apply ih
    split
    · rename_i hf
      rw [Function.update_of_ne, h]
      rintro rfl
      rw [h] at hf
      cases hf.2.2
    · exact h

/-- A descriptor that `epoll_ctl` accepts is registered. -/
theorem epollAdd_new {fds : List PollFd} {f : PollFd} {i : ℕ} {epoll : ℕ → Option Registration}
    (hf : f ∈ fds) (hfd : f.fd > -1) (hctl : f.ctl = .ok) (hnew : epoll f.fd.toNat = none) :
    ∃ r, epollAdd x i fds epoll f.fd.toNat = some r ∧ r.pPoll = x := by
  induction fds generalizing i epoll with
  | nil => cases hf
  | cons g fds ih =>
    rw [epollAdd]
    by_cases hg : g.fd > -1 ∧ g.ctl = .ok ∧ epoll g.fd.toNat = none
    · rw [if_pos hg]
      by_cases hgf : f.fd.toNat = g.fd.toNat
      · exact ⟨_, epollAdd_of_some (by rw [hgf, Function.update_self]), rfl⟩
      · have hf' : f ∈ fds := (List.mem_cons.mp hf).resolve_left fun h => hgf (h ▸ rfl)
        exact ih hf' (by rw [Function.update_of_ne hgf, hnew])
    · rw [if_neg hg]
      have hf' : f ∈ fds := (List.mem_cons.mp hf).resolve_left fun h =>
        hg (h ▸ ⟨hfd, hctl, hnew⟩)
      exact ih hf' hnew

/-- **`co_poll_inner`**, where `AddTimeout` refuses the timeout: the registrations stay. -/
theorem Inv.refused {q : Queues} {lists : ℕ → List Ptr} (hi : Inv s q lists) {fds : List PollFd}
    {timeout : ℤ} {pollfunc : Bool} {now : ℕ} (hlen : 2 ≤ s.pCallStack.length)
    (hgap : pollExpire timeout now < s.wheel.ullStart + 2 ^ 31)
    (hna : ¬s.Accepts (pollExpire timeout now) now)
    (hp : ¬(pollfunc = true ∧ fds.length = 1 ∧
      (fds.all fun f => decide (f.fd > -1 ∧ f.ctl = .eperm)) = true)) :
    ∃ s', s.coPoll fds timeout pollfunc now = some s' ∧
      s'.epoll = epollAdd s.wheel.heap.fresh 0 fds s.epoll ∧ s'.polls = s.polls ∧
      s.wheel.heap.fresh < s'.wheel.heap.fresh := by
  obtain ⟨c, d, l, hs⟩ := exists_stack hlen
  have hhead : s.pCallStack.head? = some c := by rw [hs, List.head?_cons]
  obtain ⟨r, w, e, -, h⟩ := hi.addTimeout_new ⟨pollExpire timeout now, c, false⟩ now hgap
  rcases h with ⟨hr, -, -⟩ | ⟨-, ha, -⟩
  · have hf : w.heap.fresh = s.wheel.heap.fresh + 1 := Timeout.addTimeout_fresh e
    refine ⟨{ s with
      wheel := w.withHeap (w.heap.dealloc s.wheel.heap.fresh)
      epoll := epollAdd s.wheel.heap.fresh 0 fds s.epoll }, ?_, rfl, rfl,
      hf ▸ Nat.lt_succ_self _⟩
    simp only [coPoll, hhead, Option.bind_eq_bind, Option.bind_some, if_neg hp]
    rw [e, Option.bind_some, if_pos hr]
  · exact absurd ha hna

/-- A negative timeout, with which `poll` waits without a limit, is refused. -/
theorem not_accepts_of_neg {timeout : ℤ} {now : ℕ} (h : timeout < 0) (hle : -timeout ≤ now)
    (hlt : now < 2 ^ 64) : ¬s.Accepts (pollExpire timeout now) now := by
  rintro ⟨-, hexp, -⟩
  have ht : ¬timeout > 40 * 1000 := by omega
  rw [pollExpire, if_neg ht, Int.emod_eq_of_lt (by omega) (by omega)] at hexp
  omega

/-- **A poll that is refused dangles.** When a coroutine polls after a run whose steps are allowed,
and `AddTimeout` refuses the timeout, which is before 2^31 ms after the start of the wheel, each of
the descriptors that was not registered before is registered from then on with a `stPoll_t` that was
freed: in every later run, whatever its steps are, an event for the descriptor makes `co_eventloop`
access freed memory, as long as this registration is there. -/
theorem refused_poll_dangles (pollfunc : Bool) {now : ℕ} (hnow : 0 < now) {acts : List Act}
    (hrun : Exec step Allowed (init now) acts s) {fds : List PollFd} {f : PollFd} {timeout : ℤ}
    {now' : ℕ} (hlen : 2 ≤ s.pCallStack.length)
    (hgap : pollExpire timeout now' < s.wheel.ullStart + 2 ^ 31)
    (hna : ¬s.Accepts (pollExpire timeout now') now')
    (hf : f ∈ fds) (hfd : f.fd > -1) (hctl : f.ctl = .ok) (hnew : s.epoll f.fd.toNat = none) :
    ∃ s' r, s.step (.poll fds timeout pollfunc now') = some s' ∧ s'.epoll f.fd.toNat = some r ∧
      ∀ acts' t, Exec step Always s' acts' t → t.epoll f.fd.toNat = some r →
        ∀ events now'', f.fd.toNat ∈ events.map Prod.fst →
          t.step (.round events now'') = none := by
  obtain ⟨q, lists, hi, -⟩ := run_inv hnow hrun
  have hp : ¬(pollfunc = true ∧ fds.length = 1 ∧
      (fds.all fun f => decide (f.fd > -1 ∧ f.ctl = .eperm)) = true) := by
    rintro ⟨-, -, hall⟩
    have := List.all_eq_true.mp hall f hf
    simp [hctl] at this
  obtain ⟨s', e, hepoll, hpolls, hlt⟩ := hi.refused hlen hgap hna hp
  obtain ⟨r, hr, hx⟩ := epollAdd_new (x := s.wheel.heap.fresh) (i := 0) hf hfd hctl hnew
  -- the new address is that of no `stPoll_t`
  have hnone : s'.polls r.pPoll = none := by
    rw [hpolls, hx]
    by_contra hne
    obtain ⟨c, hc⟩ := (hi.polls_iff _).mp (Option.isSome_iff_ne_none.mpr hne)
    exact hi.item_ne_fresh c (by rw [hc]; rfl)
  refine ⟨s', r, e, by rw [hepoll, hr], fun acts' t ht hrt events now'' hm => ?_⟩
  have hk : KeepsFreed s' t := ht.invariant (.refl s') fun u a v hu _ hs =>
    hu.trans (step_keepsFreed hs)
  have hxt : r.pPoll < s'.wheel.heap.fresh := hx ▸ hlt
  have hev : events.foldlM prepare (t.setHeap (t.wheel.heap.setLink .timeout ⟨none, none⟩)) =
      none := prepareAll_eq_none hrt (hxt.trans_le hk.fresh) (hk.polls _ hxt hnone) hm
  simp only [step, round, hev, Option.bind_eq_bind, Option.bind_none]

/-- `refused_poll_dangles` for a coroutine that polls on a descriptor without a limit, and then
yields: `co_eventloop` accesses freed memory in the first round that finds an event for it. -/
theorem refused_poll_dangles_unlimited :
    ∃ s s' t, runIf step Allowed (init 1000) [.create, .resume 1] = some s ∧
      s.step (.poll [⟨5, 1, .ok⟩] (-1) true 1000) = some s' ∧
      runIf step Allowed s' [.yield, .enter] = some t ∧
      t.Allowed (.round [(5, 1)] 1010) ∧ t.step (.round [(5, 1)] 1010) = none := by
  let s := (runIf step Allowed (init 1000) [.create, .resume 1]).get (by decide)
  have hs : runIf step Allowed (init 1000) [.create, .resume 1] = some s :=
    (Option.some_get _).symm
  let s' := (s.step (.poll [⟨5, 1, .ok⟩] (-1) true 1000)).get (by decide)
  have hs' : s.step (.poll [⟨5, 1, .ok⟩] (-1) true 1000) = some s' := (Option.some_get _).symm
  let t := (runIf step Allowed s' [.yield, .enter]).get (by decide)
  have ht : runIf step Allowed s' [.yield, .enter] = some t := (Option.some_get _).symm
  have hna : ¬s.Accepts (pollExpire (-1) 1000) 1000 :=
    not_accepts_of_neg (by decide) (by decide) (by decide)
  obtain ⟨u, r, e, hr, hdangles⟩ := refused_poll_dangles (f := ⟨5, 1, .ok⟩) true (by decide)
    (exec_of_runIf hs) (by decide) (by decide) hna (List.mem_singleton.mpr rfl) (by decide)
    (by decide) (by decide)
  obtain rfl := Option.some.inj (hs'.symm.trans e)
  have hr' : s'.epoll 5 = some ⟨0, 0, 1⟩ := by decide
  have htr : t.epoll 5 = some r := by
    obtain rfl := Option.some.inj (hr'.symm.trans hr)
    decide
  exact ⟨s, s', t, hs, hs', ht, by decide,
    hdangles _ t (exec_of_runIf ht).always htr _ _ (by simp)⟩

end Sched

end WebServer.Libco
