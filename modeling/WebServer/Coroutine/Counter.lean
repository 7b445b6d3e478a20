import Mathlib.Data.List.Perm.Basic
import WebServer.Coroutine.Run

/-!
# The idle counter of the pool

`free_co_num` is incremented by a coroutine before it parks and decremented by `Run` after it has
signalled one. `counter_exact`: wherever control changes or `Run` tests a condition, after `Start`
and any sequence of `PutTask` and `Run`, it is the number of the coroutines parked on `cond`; with
those that are signalled and not yet resumed, and those that are inside `handle_event`, these are
all coroutines of the pool. So `co_cond_signal` always finds a coroutine, and `CheckFinish` ends
`co_eventloop` only when nothing is left to do.

Each step has an oracle of its own: nothing is assumed about how often a handler yields and when it
is resumed. The states between two rounds of the event loop are among the reachable ones
(`Between.reachable`), and the test of `co_eventloop` is that of `CheckFinish`
(`step_checkFinish`).
-/

namespace WebServer.Coroutine

variable {α : Type*} {coNum : ℕ} {o : Oracle coNum} {s : St α}

/-! ## Counting -/

/-- The coroutines signalled and not yet resumed. -/
def signalled (s : St α) : List ℕ := s.active.filter fun c => (s.inside c).isNone

/-- The coroutines resumed and not parked again: the one that has control, if any, and those
suspended inside `handle_event`. -/
def resumed (coNum : ℕ) (r : Option ℕ) (s : St α) : List ℕ :=
  (List.range coNum).filter fun c => (s.inside c).isSome || r == some c

/-- The counter is exact, while the coroutine `r` has control (`none`: while `Run` has). -/
structure Exact (coNum : ℕ) (r : Option ℕ) (s : St α) : Prop where
  cond_nodup : s.cond.Nodup
  free_eq : s.freeCoNum = s.cond.length
  free_le : s.freeCoNum ≤ coNum
  sum_eq : s.freeCoNum + (signalled s).length + (resumed coNum r s).length = coNum

/-- `CheckFinish`. -/
def checkFinish (coNum : ℕ) (s : St α) : ℤ := if s.freeCoNum ≠ coNum then 0 else -1

theorem checkFinish_eq_neg_one_iff : checkFinish coNum s = -1 ↔ s.freeCoNum = coNum := by
  by_cases hfree : s.freeCoNum = coNum <;> simp [checkFinish, hfree]

/-- Where `co_eventloop` calls it. -/
theorem step_checkFinish {n : ℕ} (hpc : s.pc = .process n) (ha : s.active = []) :
    step o s = { s with pc := if checkFinish coNum s = -1 then .outer n else .wait n } := by
  simp only [step_process_nil hpc ha, checkFinish_eq_neg_one_iff]

theorem mem_signalled {c : ℕ} : c ∈ signalled s ↔ c ∈ s.active ∧ s.inside c = none := by
  simp [signalled]

theorem mem_resumed {r : Option ℕ} {c : ℕ} :
    c ∈ resumed coNum r s ↔ c < coNum ∧ (s.inside c ≠ none ∨ r = some c) := by
  simp [resumed, Option.isSome_iff_ne_none]

/-- Coroutines that are parked, on the active list, or resumed, and never two of these, are counted
exactly. -/
theorem exact_of_cover {r : Option ℕ} (hcond : s.cond.Nodup) (hactive : s.active.Nodup)
    (hfree : s.freeCoNum = s.cond.length)
    (hcond_lt : ∀ {c}, c ∈ s.cond → c < coNum) (hactive_lt : ∀ {c}, c ∈ s.active → c < coNum)
    (hcover : ∀ {c}, c < coNum → c ∈ s.cond ∨ c ∈ s.active ∨ s.inside c ≠ none ∨ r = some c)
    (hparked : ∀ {c}, c ∈ s.cond → c ∉ s.active ∧ s.inside c = none ∧ r ≠ some c)
    (hrunning : ∀ {c}, c ∈ s.active → r ≠ some c) : Exact coNum r s := by
  have hnodup : (s.cond ++ signalled s ++ resumed coNum r s).Nodup := by
    refine List.nodup_append.mpr ⟨List.nodup_append.mpr ⟨hcond, hactive.filter _, ?_⟩,
      List.nodup_range.filter _, ?_⟩
    · rintro c hc d hd rfl
      exact (hparked hc).1 (mem_signalled.mp hd).1
    · rintro c hc d hd rfl
      rcases (mem_resumed.mp hd).2 with hin | hrun <;> rcases List.mem_append.mp hc with hc | hc
      · exact hin (hparked hc).2.1
      · exact hin (mem_signalled.mp hc).2
      · exact (hparked hc).2.2 hrun
      · exact hrunning (mem_signalled.mp hc).1 hrun
  have hmem : ∀ c, c ∈ s.cond ++ signalled s ++ resumed coNum r s ↔ c ∈ List.range coNum := by
    intro c
    simp only [List.mem_append, mem_signalled, mem_resumed, List.mem_range]
    constructor
    · rintro ((hc | hc) | hc)
      · exact hcond_lt hc
      · exact hactive_lt hc.1
      · exact hc.1
    · intro hc
      by_cases hin : s.inside c = none
      · rcases hcover hc with h | h | h | h
        · exact .inl (.inl h)
        · exact .inl (.inr ⟨h, hin⟩)
        · exact absurd hin h
        · exact .inr ⟨hc, .inr h⟩
      · exact .inr ⟨hc, .inl hin⟩
  have hperm := (List.perm_ext_iff_of_nodup hnodup List.nodup_range).mpr hmem
  have hlen := hperm.length_eq
  rw [List.length_append, List.length_append, List.length_range, ← hfree] at hlen
  exact ⟨hcond, hfree, by omega, hlen⟩

/-- While `Run` has control. -/
theorem Inv.exact (h : Inv coNum none s) : Exact coNum none s := by
  apply exact_of_cover h.cond_nodup h.active_nodup h.free_eq h.cond_lt h.active_lt
  · intro c hc
    obtain h1 | h2 | h3 := h.cover hc (by simp)
    · exact .inl h1
    · exact .inr (.inl h2)
    · exact .inr (.inr (.inl h3))
  · intro c hc
    exact ⟨h.cond_not_active hc, h.cond_not_inside hc, by simp⟩
  · simp

/-- When the head of the active list is given control. -/
theorem Inv.exact_resumed {c : ℕ} {active : List ℕ} (h : Inv coNum none s)
    (ha : s.active = c :: active) : Exact coNum (some c) { s with active := active } := by
  have hnodup := h.active_nodup
  rw [ha, List.nodup_cons] at hnodup
  refine exact_of_cover h.cond_nodup hnodup.2 h.free_eq h.cond_lt ?_ ?_ ?_ ?_
  · intro d hd
    exact h.active_lt (by simp [ha, show d ∈ active from hd])
  · intro d hd
    obtain h1 | h2 | h3 := h.cover hd (by simp)
    · exact .inl h1
    · rw [ha] at h2
      rcases List.mem_cons.mp h2 with rfl | h2
      · exact .inr (.inr (.inr rfl))
      · exact .inr (.inl h2)
    · exact .inr (.inr (.inl h3))
  · intro d hd
    have hd' : d ∈ s.cond := hd
    refine ⟨fun hm => h.cond_not_active hd' (by simp [ha, show d ∈ active from hm]),
      h.cond_not_inside hd', ?_⟩
    rintro ⟨⟩
    exact h.cond_not_active hd' (by simp [ha])
  · rintro d hd ⟨⟩
    exact hnodup.1 hd

/-- A coroutine on the active list is not counted. -/
theorem Inv.free_lt (h : Inv coNum none s) (ha : s.active ≠ []) : s.freeCoNum < coNum := by
  obtain ⟨c, active, hc⟩ := List.exists_cons_of_ne_nil ha
  have hsum := (h.exact_resumed hc).sum_eq
  have hmem : c ∈ resumed coNum (some c) { s with active := active } :=
    mem_resumed.mpr ⟨h.active_lt (by simp [hc]), .inr rfl⟩
  have hpos := List.length_pos_of_mem hmem
  have hfree : ({ s with active := active } : St α).freeCoNum = s.freeCoNum := rfl
  omega

/-! ## Reachable states -/

/-- The call of `Run`; `task_size` is a `uint32_t`. -/
def St.run (s : St α) : St α := { s with pc := .outer (s.task.length % 2 ^ 32) }

/-- A round of the event loop is some calls of `PutTask` and one of `Run`. -/
theorem enter_eq_run (channels : List α) (s : St α) :
    enter channels s = (channels.foldl St.putTask s).run := rfl

/-- The states after `Start`, at which control changes or `Run` tests its conditions. -/
inductive Reachable (coNum : ℕ) : St α → Prop
  | start (o : Oracle coNum) : Reachable coNum (start o)
  | put {s : St α} (channel : α) : Reachable coNum s → s.pc = .idle →
      Reachable coNum (s.putTask channel)
  | run {s : St α} : Reachable coNum s → s.pc = .idle → Reachable coNum s.run
  | step {s : St α} (o : Oracle coNum) : Reachable coNum s → Reachable coNum (step o s)

theorem foldl_putTask_reachable (channels : List α) (h : Reachable coNum s) (hpc : s.pc = .idle) :
    Reachable coNum (channels.foldl St.putTask s) ∧ (channels.foldl St.putTask s).pc = .idle := by
  induction channels generalizing s with
  | nil => exact ⟨h, hpc⟩
  | cons channel channels ih => exact ih (.put channel h hpc) hpc

/-- After `Start` and any sequence of rounds. -/
theorem Between.reachable (h : Between o s) : Reachable coNum s ∧ s.pc = .idle := by
  induction h with
  | start => exact ⟨.start o, (start_parked o).pc_eq⟩
  | @round s t channels _ _ hl hpc ih =>
    obtain ⟨hput, hidle⟩ := foldl_putTask_reachable channels ih.1 ih.2
    have henter : Reachable coNum (enter channels s) := by
      rw [enter_eq_run]
      exact .run hput hidle
    exact ⟨hl.invariant (fun _ hu => .step o hu) henter, hpc⟩

/-- What holds at each place of `Run`: outside `co_eventloop` nobody is resumed; there, somebody is
on the active list, or inside `handle_event`, or the queue is empty. -/
def Settled (coNum : ℕ) (s : St α) : Prop :=
  match s.pc with
  | .idle => s.active = [] ∧ s.freeCoNum = coNum
  | .outer _ => s.active = [] ∧ s.freeCoNum = coNum
  | .inner n => s.active ≠ [] ∨ s.freeCoNum = coNum ∧ 0 < n
  | .test _ => s.active ≠ []
  | .wait _ => s.active ≠ [] ∨ Busy s
  | .process _ => s.active ≠ [] ∨ Busy s

theorem putTask_good (h : Good coNum s) (channel : α) : Good coNum (s.putTask channel) := by
  refine ⟨{ h.inv with numbered := ?_ }, h.settled⟩
  have hnum := h.inv.numbered
  have hhistory : history (s.putTask channel) = history s ++ [(s.puts, channel)] := by
    simp [history, St.putTask]
  rw [hhistory, List.map_append, hnum]
  exact List.range_succ.symm

/-- **A step leads from one of these places to another.** -/
theorem step_settled (hco : 0 < coNum) (hG : Good coNum s) (h : Settled coNum s) :
    Settled coNum (step o s) := by
  cases hpc : s.pc with
  | idle => rwa [step_idle hpc]
  | outer n =>
    have hall : s.active = [] ∧ s.freeCoNum = coNum := by simpa only [Settled, hpc] using h
    by_cases hn : n > 0
    · simp only [step, hpc, if_pos hn, Settled]
      exact .inr ⟨hall.2, hn⟩
    · simp only [step, hpc, if_neg hn, Settled]
      exact hall
  | inner n =>
    simp only [Settled, hpc] at h
    by_cases hsignal : s.freeCoNum > 0 ∧ n > 0
    · -- a coroutine is parked, and goes to the active list
      obtain ⟨c, cond, hcond⟩ : ∃ c cond, s.cond = c :: cond := by
        refine List.exists_cons_of_ne_nil (List.ne_nil_of_length_pos ?_)
        rw [← hG.inv.free_eq]
        exact hsignal.1
      simp only [step, hpc, if_pos hsignal, St.condSignal, hcond, Settled]
      exact .inl (by simp)
    · simp only [step, hpc, if_neg hsignal, Settled]
      rcases h with h | h
      · exact h
      · exact absurd ⟨by omega, h.2⟩ hsignal
  | test n =>
    have hactive : s.active ≠ [] := by simpa only [Settled, hpc] using h
    simp only [step, hpc, if_pos (hG.inv.free_lt hactive), Settled]
    exact .inl hactive
  | wait n =>
    have hwait : s.active ≠ [] ∨ Busy s := by simpa only [Settled, hpc] using h
    simp only [step, hpc, Settled]
    rcases hwait with hactive | hbusy
    · exact .inl (by simp [hactive])
    · exact .inr hbusy
  | process n =>
    have hprocess : s.active ≠ [] ∨ Busy s := by simpa only [Settled, hpc] using h
    cases ha : s.active with
    | nil =>
      rw [step_checkFinish hpc ha]
      by_cases hfinish : checkFinish coNum s = -1
      · simp only [if_pos hfinish, Settled]
        exact ⟨ha, checkFinish_eq_neg_one_iff.mp hfinish⟩
      · simp only [if_neg hfinish, Settled]
        exact .inr (hprocess.resolve_left (absurd ha))
    | cons c active =>
      have hpc' : (step o s).pc = .process n := by
        rw [step_process_cons hpc ha]
        exact (coResume_frame o c { s with active := active }).2.2.2.1.trans hpc
      have hbusy : Busy (step o s) := by
        rw [step_process_cons hpc ha]
        exact (coResume_busy o c { s with active := active }).imp id fun hin => ⟨c, hin⟩
      simp only [Settled, hpc']
      exact .inr hbusy

/-- Both invariants hold in every reachable state. -/
theorem Reachable.invariant (hco : 0 < coNum) (h : Reachable coNum s) :
    Good coNum s ∧ Settled coNum s := by
  induction h with
  | start o =>
    have hstart : Parked coNum .idle (Coroutine.start o : St α) := start_parked o
    refine ⟨hstart.good, ?_⟩
    simp only [Settled, hstart.pc_eq]
    exact ⟨hstart.active_nil, hstart.free_eq⟩
  | @put s channel _ hpc ih =>
    have hidle : s.active = [] ∧ s.freeCoNum = coNum := by simpa only [Settled, hpc] using ih.2
    have hpc' : (s.putTask channel).pc = .idle := hpc
    refine ⟨putTask_good ih.1 channel, ?_⟩
    simp only [Settled, hpc']
    exact hidle
  | @run s _ hpc ih =>
    have hidle : s.active = [] ∧ s.freeCoNum = coNum := by simpa only [Settled, hpc] using ih.2
    exact ⟨⟨{ ih.1.inv with }, fun _ => ih.1.settled (by simp [hpc])⟩, hidle⟩
  | step o _ ih => exact ⟨step_good ih.1, step_settled hco ih.1 ih.2⟩

/-- **The idle counter is exact.** In every reachable state, and when control goes to the coroutine
at the head of the active list, `free_co_num` is the number of parked coroutines, at most `co_num`,
and with the signalled and the resumed ones these are all; `co_cond_signal` finds a coroutine, and
when `CheckFinish` returns -1, no coroutine is inside `handle_event` and the queue is empty. -/
theorem counter_exact (coNum : ℕ) (hco : 1 ≤ coNum) (s : St α) (h : Reachable coNum s) :
    Exact coNum none s ∧
    (∀ n c active, s.pc = .process n → s.active = c :: active →
      Exact coNum (some c) { s with active := active }) ∧
    (∀ n, s.pc = .inner n → s.freeCoNum > 0 → n > 0 → s.cond ≠ []) ∧
    ∀ n, s.pc = .process n → s.active = [] → checkFinish coNum s = -1 →
      (∀ c, s.inside c = none) ∧ s.task = [] := by
  obtain ⟨hG, hsettled⟩ := h.invariant hco
  refine ⟨hG.inv.exact, fun n c active _ ha => hG.inv.exact_resumed ha, ?_, ?_⟩
  · intro n _ hfree _
    apply List.ne_nil_of_length_pos
    rw [← hG.inv.free_eq]
    exact hfree
  · intro n hpc ha hfinish
    have hfree := checkFinish_eq_neg_one_iff.mp hfinish
    have hinside : ∀ c, s.inside c = none := by
      intro c
      by_contra hin
      exact hin (hG.inv.cond_not_inside (hG.inv.mem_cond hfree (hG.inv.inside_lt hin)))
    have hbusy : Busy s := by
      simp only [Settled, hpc] at hsettled
      exact hsettled.resolve_left (absurd ha)
    refine ⟨hinside, hbusy.resolve_right ?_⟩
    rintro ⟨c, hc⟩
    exact hc (hinside c)

/-- Three elements on two coroutines, when both have been signalled. -/
theorem counter_exact_two :
    ∃ s : St ℕ, Reachable 2 s ∧ s.pc = .process 1 ∧ s.active = [0, 1] ∧ Exact 2 none s ∧
      Exact 2 (some 0) { s with active := [1] } := by
  have hstart : Reachable 2 (((start twoCoroutines).putTask 7).putTask 7 |>.putTask 8) :=
    .put 8 (.put 7 (.put 7 (.start twoCoroutines) rfl) rfl) rfl
  have hrun : Reachable 2 ((step twoCoroutines)^[6]
      (((start twoCoroutines).putTask 7).putTask 7 |>.putTask 8).run) :=
    .step _ (.step _ (.step _ (.step _ (.step _ (.step _ (.run hstart rfl))))))
  obtain ⟨hexact, hswitch, -, -⟩ := counter_exact 2 (by decide) _ hrun
  exact ⟨_, hrun, rfl, rfl, hexact, hswitch 1 0 [1] rfl rfl⟩

end WebServer.Coroutine
