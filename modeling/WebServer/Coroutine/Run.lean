import Mathlib.Algebra.BigOperators.Intervals
import WebServer.Coroutine.Pool
import WebServer.Lib.Exec
import WebServer.Lib.Update

/-!
# `Run` returns

One pass of `co_eventloop` keeps the invariant of the pool, never adds to the yields still to come
(`work`) and takes from them as soon as a suspended coroutine is found ready. As every coroutine is
found ready again and again, `co_eventloop` returns, with every coroutine parked and the queue empty
(`eventloop_returns`); `task_size` drops with every turn of the outer loop, so `Run` returns
(`run_returns`). `Between` is the state between two rounds, after any sequence of them.
-/

namespace WebServer.Coroutine

open WebServer.Lib

variable {α : Type*} {coNum : ℕ} {o : Oracle coNum} {s t : St α} {c n : ℕ}

/-! ## Resuming a coroutine -/

/-- `co_resume` changes the state as `CoroutineFun` does. -/
theorem coResume_frame (o : Oracle coNum) (c : ℕ) (s : St α) :
    (coResume o c s).active = s.active ∧ (coResume o c s).puts = s.puts ∧
      (coResume o c s).passes = s.passes ∧ (coResume o c s).pc = s.pc ∧
      ∀ d ≠ c, (coResume o c s).inside d = s.inside d := by
  unfold coResume
  split
  · exact ⟨rfl, rfl, rfl, rfl, fun d hd => Function.update_of_ne hd ..⟩
  · obtain ⟨h1, h2, h3, h4, h5⟩ := coroutineFun_frame (o := o) (c := c) s.task
      { s with inside := Function.update s.inside c none }
    exact ⟨h1, h2, h3, h4, fun d hd => (h5 d hd).trans (Function.update_of_ne hd ..)⟩
  · exact coroutineFun_frame s.task s

theorem coResume_history (o : Oracle coNum) (c : ℕ) (s : St α) :
    history (coResume o c s) = history s := by
  unfold coResume
  split
  · rfl
  · exact coroutineFun_history _ _ rfl
  · exact coroutineFun_history _ _ rfl

theorem coResume_busy (o : Oracle coNum) (c : ℕ) (s : St α) :
    (coResume o c s).task = [] ∨ (coResume o c s).inside c ≠ none := by
  unfold coResume
  split
  · exact .inr (by simp)
  · exact coroutineFun_busy _ _
  · exact coroutineFun_busy _ _

/-- Resuming the head of the active list keeps the invariant. -/
theorem coResume_inv {active : List ℕ} (h : Inv coNum none s) (ha : s.active = c :: active) :
    Inv coNum none (coResume o c { s with active := active }) := by
  have hlt : c < coNum := h.active_lt (by simp [ha])
  have hnodup := h.active_nodup
  rw [ha, List.nodup_cons] at hnodup
  have hcond : c ∉ s.cond := fun hm => h.cond_not_active hm (by simp [ha])
  -- the head has left the active list
  have hcover : ∀ {d}, d < coNum → d ≠ c → d ∈ s.cond ∨ d ∈ active ∨ s.inside d ≠ none := by
    intro d hd hdc
    obtain h1 | h2 | h3 := h.cover hd (by simp)
    · exact .inl h1
    · rw [ha] at h2
      exact .inr (.inl ((List.mem_cons.mp h2).resolve_left hdc))
    · exact .inr (.inr h3)
  have hactive : ∀ {d}, d ∈ active → d < coNum := fun hd => h.active_lt (by simp [ha, hd])
  have hca : ∀ {d}, d ∈ s.cond → d ∉ active := fun hd hm => h.cond_not_active hd (by simp [ha, hm])
  unfold coResume
  split
  · rename_i k y hc
    exact { h with
      active_nodup := hnodup.2
      active_lt := hactive
      inside_lt := by
        intro d hd
        by_cases hdc : d = c
        · rw [hdc]; exact hlt
        · exact h.inside_lt (by simpa [hdc] using hd)
      cover := by
        intro d hd _
        by_cases hdc : d = c
        · exact .inr (.inr (by simp [hdc]))
        · simpa [hdc] using hcover hd hdc
      cond_not_active := hca
      cond_not_inside := by
        intro d hd
        have hdc : d ≠ c := fun e => hcond (e ▸ hd)
        simpa [hdc] using h.cond_not_inside hd
      control := by simp
      inside_started := by
        intro d k' y' hd
        by_cases hdc : d = c
        · subst hdc
          simp only [Function.update_self, Option.some.injEq, Prod.mk.injEq] at hd
          rw [← hd.1]
          exact h.inside_started hc
        · exact h.inside_started (by simpa [hdc] using hd) }
  · rename_i k hc
    refine coroutineFun_inv _ _ rfl ?_
    exact { h with
      active_nodup := hnodup.2
      active_lt := hactive
      inside_lt := by
        intro d hd
        by_cases hdc : d = c
        · rw [hdc]; exact hlt
        · exact h.inside_lt (by simpa [hdc] using hd)
      cover := by
        intro d hd hne
        have hdc : d ≠ c := fun e => hne (by rw [e])
        simpa [hdc] using hcover hd hdc
      cond_not_active := hca
      cond_not_inside := by
        intro d hd
        have hdc : d ≠ c := fun e => hcond (e ▸ hd)
        simpa [hdc] using h.cond_not_inside hd
      control := by
        rintro d ⟨⟩
        exact ⟨hlt, hcond, hnodup.1, by simp⟩
      inside_started := by
        intro d k' y' hd
        have hdc : d ≠ c := by
          rintro rfl
          simp at hd
        exact h.inside_started (by simpa [hdc] using hd) }
  · rename_i hc
    apply coroutineFun_inv _ _ rfl
    exact { h with
      active_nodup := hnodup.2
      active_lt := hactive
      cover := by
        intro d hd hne
        exact hcover hd fun e => hne (by rw [e])
      cond_not_active := hca
      control := by
        rintro d ⟨⟩
        exact ⟨hlt, hcond, hnodup.1, hc⟩ }

/-! ## Steps -/

/-- Signalling moves the first parked coroutine to the end of the active list. -/
theorem condSignal_inv (h : Inv coNum none s) (hf : s.freeCoNum > 0) (pc : Pc) :
    Inv coNum none { s.condSignal with freeCoNum := s.freeCoNum - 1, pc := pc } := by
  obtain ⟨c, cond, hcond⟩ : ∃ c cond, s.cond = c :: cond := by
    cases hc : s.cond with
    | nil => simp [h.free_eq, hc] at hf
    | cons c cond => exact ⟨c, cond, rfl⟩
  have hnodup := h.cond_nodup
  rw [hcond, List.nodup_cons] at hnodup
  have hold : ∀ {d}, d ∈ cond → d ∈ s.cond := fun hd => by simp [hcond, hd]
  simp only [St.condSignal, hcond]
  exact { h with
    cond_nodup := hnodup.2
    active_nodup := by
      refine List.nodup_append.mpr ⟨h.active_nodup, by simp, ?_⟩
      rintro a ha b hb rfl
      exact h.cond_not_active (c := c) (by simp [hcond]) (List.mem_singleton.mp hb ▸ ha)
    free_eq := by simp [h.free_eq, hcond]
    cond_lt := fun hd => h.cond_lt (hold hd)
    active_lt := by
      intro d hd
      rcases List.mem_append.mp hd with hd | hd
      · exact h.active_lt hd
      · rw [List.mem_singleton.mp hd]
        exact h.cond_lt (by simp [hcond])
    cover := by
      intro d hd _
      obtain h1 | h2 | h3 := h.cover hd (by simp)
      · rw [hcond] at h1
        rcases List.mem_cons.mp h1 with rfl | h1
        · exact .inr (.inl (by simp))
        · exact .inl h1
      · exact .inr (.inl (List.mem_append_left _ h2))
      · exact .inr (.inr h3)
    cond_not_active := by
      intro d hd hm
      rcases List.mem_append.mp hm with hm | hm
      · exact h.cond_not_active (hold hd) hm
      · exact hnodup.1 (List.mem_singleton.mp hm ▸ hd)
    cond_not_inside := fun hd => h.cond_not_inside (hold hd)
    control := by simp }

/-- The coroutines whose event has come join the active list. -/
theorem wait_inv (h : Inv coNum none s) (hset : ∀ c ∈ s.active, s.inside c = none)
    {ready : List ℕ} (hready : ready.Nodup) (p : ℕ) (pc : Pc) :
    Inv coNum none { s with
      active := s.active ++ ready.filter fun c => (s.inside c).isSome
      passes := p
      pc := pc } := by
  have hin : ∀ {d}, d ∈ ready.filter (fun c => (s.inside c).isSome) → s.inside d ≠ none := by
    intro d hd
    exact Option.isSome_iff_ne_none.mp (List.mem_filter.mp hd).2
  exact { h with
    active_nodup := by
      refine List.nodup_append.mpr ⟨h.active_nodup, hready.filter _, ?_⟩
      rintro a ha b hb rfl
      exact hin hb (hset a ha)
    active_lt := by
      intro d hd
      rcases List.mem_append.mp hd with hd | hd
      · exact h.active_lt hd
      · exact h.inside_lt (hin hd)
    cover := by
      intro d hd hne
      obtain h1 | h2 | h3 := h.cover hd hne
      · exact .inl h1
      · exact .inr (.inl (List.mem_append_left _ h2))
      · exact .inr (.inr h3)
    cond_not_active := by
      intro d hd hm
      rcases List.mem_append.mp hm with hm | hm
      · exact h.cond_not_active hd hm
      · exact hin hm (h.cond_not_inside hd)
    control := by simp }

/-- The invariant between two steps; outside the processing of the active list, no coroutine on it
is suspended inside `handle_event`. -/
structure Good (coNum : ℕ) (s : St α) : Prop where
  inv : Inv coNum none s
  settled : (∀ n, s.pc ≠ .process n) → ∀ c ∈ s.active, s.inside c = none

theorem step_process_cons {active : List ℕ} (hpc : s.pc = .process n)
    (ha : s.active = c :: active) :
    step o s = coResume o c { s with active := active } := by
  unfold step
  rw [hpc]
  dsimp only
  rw [ha]

theorem step_process_nil (hpc : s.pc = .process n) (ha : s.active = []) :
    step o s = { s with pc := if s.freeCoNum = coNum then .outer n else .wait n } := by
  unfold step
  rw [hpc]
  dsimp only
  rw [ha]

/-- **A step keeps the invariant.** -/
theorem step_good (h : Good coNum s) : Good coNum (step o s) := by
  cases hpc : s.pc with
  | idle => simpa [step, hpc] using h
  | outer n =>
    simp only [step, hpc]
    exact ⟨{ h.inv with }, fun _ => h.settled (by simp [hpc])⟩
  | inner n =>
    simp only [step, hpc]
    split
    · rename_i hcond
      refine ⟨condSignal_inv h.inv hcond.1 _, fun _ c hc => ?_⟩
      have hset := h.settled (by simp [hpc])
      cases hs : s.cond with
      | nil =>
        simp only [St.condSignal, hs] at hc ⊢
        exact hset c hc
      | cons d cond =>
        simp only [St.condSignal, hs] at hc ⊢
        rcases List.mem_append.mp hc with hc | hc
        · exact hset c hc
        · rw [List.mem_singleton.mp hc]
          exact h.inv.cond_not_inside (by simp [hs])
    · exact ⟨{ h.inv with }, fun _ => h.settled (by simp [hpc])⟩
  | test n =>
    simp only [step, hpc]
    exact ⟨{ h.inv with }, fun _ => h.settled (by simp [hpc])⟩
  | wait n =>
    simp only [step, hpc]
    exact ⟨wait_inv h.inv (h.settled (by simp [hpc])) (o.ready_nodup _) _ _,
      fun hn => absurd rfl (hn n)⟩
  | process n =>
    cases ha : s.active with
    | nil =>
      rw [step_process_nil hpc ha]
      exact ⟨{ h.inv with }, fun _ => by simp [ha]⟩
    | cons c active =>
      rw [step_process_cons hpc ha]
      refine ⟨coResume_inv h.inv ha, fun hn => ?_⟩
      exact absurd ((coResume_frame o c { s with active := active }).2.2.2.1.trans hpc) (hn n)

theorem step_history (o : Oracle coNum) (s : St α) : history (step o s) = history s := by
  unfold step
  split
  · rfl
  · rfl
  · split
    · unfold St.condSignal
      split <;> rfl
    · rfl
  · rfl
  · rfl
  · split
    · exact coResume_history ..
    · rfl

/-! ## The yields still to come -/

/-- The number of resumptions a suspended coroutine needs. -/
def weight : Option (ℕ × ℕ) → ℕ
  | some (_, y) => y + 1
  | none => 0

theorem weight_some (k y : ℕ) : weight (some (k, y)) = y + 1 := rfl

theorem weight_none : weight none = 0 := rfl

/-- The number of resumptions that the calls of `handle_event` still need, those suspended and those
of the queue. -/
def work (o : Oracle coNum) (s : St α) : ℕ :=
  ∑ c ∈ Finset.range coNum, weight (s.inside c) +
    ∑ j ∈ Finset.range s.task.length, o.yields (s.started.length + j)

/-- `CoroutineFun` changes where the yields are, not how many are to come. -/
theorem coroutineFun_work (hc : c < coNum) (task : List (ℕ × α)) (s : St α) (ht : s.task = task)
    (hin : s.inside c = none) : work o (coroutineFun o c task s) = work o s := by
  induction task generalizing s with
  | nil => simp [coroutineFun, work, ht]
  | cons x task ih =>
    have hsum : ∑ j ∈ Finset.range (task.length + 1), o.yields (s.started.length + j) =
        o.yields s.started.length +
          ∑ j ∈ Finset.range task.length, o.yields (s.started.length + 1 + j) := by
      rw [Finset.sum_range_succ']
      simp only [Nat.add_zero, Nat.add_comm, Nat.add_left_comm]
    have hlen : (s.started ++ [(c, x)]).length = s.started.length + 1 := List.length_append ..
    unfold coroutineFun
    dsimp only
    split
    · rename_i hy
      have hih := ih { s with task := task, started := s.started ++ [(c, x)] } rfl hin
      rw [hih]
      simp only [work, ht, hlen, List.length_cons, hsum, hy]
      omega
    · rename_i y hy
      have hup := sum_range_update weight s.inside hc (some (x.1, y))
      rw [hin, weight_none, weight_some] at hup
      simp only [work, ht, hlen, List.length_cons, hsum, hy]
      omega

/-- Resuming a suspended coroutine takes one from the yields to come; resuming a signalled one takes
none. -/
theorem coResume_work (hc : c < coNum) (s : St α) :
    work o (coResume o c s) + (if s.inside c = none then 0 else 1) = work o s := by
  unfold coResume
  split
  · rename_i k y hin
    have hup := sum_range_update weight s.inside hc (some (k, y))
    rw [hin, weight_some, weight_some] at hup
    simp only [work, hin, reduceCtorEq, if_false]
    omega
  · rename_i k hin
    have hfun := coroutineFun_work (o := o) hc s.task
      { s with inside := Function.update s.inside c none } rfl (by simp)
    rw [hfun]
    have hup := sum_range_update weight s.inside hc none
    rw [hin, weight_some, weight_none] at hup
    simp only [work, hin, reduceCtorEq, if_false]
    omega
  · rename_i hin
    rw [coroutineFun_work hc _ _ rfl hin]
    simp [hin]

/-! ## `co_eventloop` returns -/

/-- The queue is empty, or some coroutine is inside `handle_event` and will look at it again. -/
def Busy (s : St α) : Prop := s.task = [] ∨ ∃ c, s.inside c ≠ none

/-- When all coroutines are free, all are parked. -/
theorem Inv.mem_cond (h : Inv coNum none s) (hf : s.freeCoNum = coNum) (hc : c < coNum) :
    c ∈ s.cond := by
  have hsub : s.cond.Subperm (List.range coNum) :=
    h.cond_nodup.subperm fun d hd => List.mem_range.mpr (h.cond_lt hd)
  have hperm := hsub.perm_of_length_le (by rw [List.length_range, ← h.free_eq, hf])
  exact hperm.mem_iff.mpr (List.mem_range.mpr hc)

/-- When the active list is empty and not all coroutines are free, one is inside `handle_event`. -/
theorem Inv.exists_inside (h : Inv coNum none s) (ha : s.active = []) (hf : s.freeCoNum ≠ coNum) :
    ∃ c, s.inside c ≠ none := by
  by_contra hno
  have hall : List.range coNum ⊆ s.cond := by
    intro c hc
    obtain h1 | h2 | h3 := h.cover (List.mem_range.mp hc) (by simp)
    · exact h1
    · simp [ha] at h2
    · exact absurd ⟨c, h3⟩ hno
  have hle := (List.nodup_range.subperm hall).length_le
  have hge := (h.cond_nodup.subperm
    fun d hd => List.mem_range.mpr (h.cond_lt hd) : s.cond.Subperm (List.range coNum)).length_le
  rw [List.length_range, ← h.free_eq] at hle hge
  exact hf (Nat.le_antisymm hge hle)

/-- The active list is worked off; a suspended coroutine on it takes from the yields to come. -/
theorem process_leads (active : List ℕ) (s : St α) (hG : Good coNum s) (hpc : s.pc = .process n)
    (ha : s.active = active) :
    ∃ t, Leads (step o) s t ∧ Good coNum t ∧ t.pc = .process n ∧ t.active = [] ∧
      t.passes = s.passes ∧ work o t ≤ work o s ∧
      ((∃ c ∈ active, s.inside c ≠ none) → work o t < work o s) ∧
      (active ≠ [] ∨ Busy s → Busy t) ∧ (active = [] → t = s) := by
  induction active generalizing s with
  | nil =>
    refine ⟨s, .refl s, hG, hpc, ha, rfl, le_rfl, by simp, ?_, fun _ => rfl⟩
    rintro (h | h)
    · exact absurd rfl h
    · exact h
  | cons c active ih =>
    have hstep := step_process_cons (o := o) hpc ha
    obtain ⟨f1, -, f3, f4, f5⟩ := coResume_frame o c { s with active := active }
    rw [← hstep] at f1 f3 f4 f5
    have hlt : c < coNum := hG.inv.active_lt (by simp [ha])
    have hwork := coResume_work (o := o) hlt { s with active := active }
    rw [← hstep] at hwork
    have hsame : work o { s with active := active } = work o s := rfl
    have hnodup := hG.inv.active_nodup
    rw [ha, List.nodup_cons] at hnodup
    have hbusy : Busy (step o s) := by
      have := coResume_busy o c { s with active := active }
      rw [← hstep] at this
      exact this.imp id fun h => ⟨c, h⟩
    obtain ⟨t, hl, hGt, hpct, hat, hpass, hle, hlt', hb, -⟩ :=
      ih (step o s) (step_good hG) (f4.trans hpc) f1
    refine ⟨t, hl.head, hGt, hpct, hat, hpass.trans f3, ?_, ?_, fun _ => hb (.inr hbusy), by simp⟩
    · omega
    · rintro ⟨d, hd, hin⟩
      rcases List.mem_cons.mp hd with rfl | hd
      · have : (({ s with active := active } : St α).inside d = none) = False := eq_false hin
        simp only [this, if_false] at hwork
        omega
      · have hne : d ≠ c := fun e => hnodup.1 (e ▸ hd)
        have := hlt' ⟨d, hd, by rw [f5 d hne]; exact hin⟩
        omega

/-- One pass of `co_eventloop`. -/
theorem pass_leads (hG : Good coNum s) (hpc : s.pc = .wait n) :
    ∃ t, Leads (step o) s t ∧ Good coNum t ∧ t.active = [] ∧ t.passes = s.passes + 1 ∧
      work o t ≤ work o s ∧
      ((∃ c ∈ o.ready s.passes, s.inside c ≠ none) → work o t < work o s) ∧
      (s.active ≠ [] ∨ Busy s → Busy t) ∧
      (s.active = [] → (¬ ∃ c ∈ o.ready s.passes, s.inside c ≠ none) → t.inside = s.inside) ∧
      (t.freeCoNum = coNum ∧ t.pc = .outer n ∨ t.freeCoNum ≠ coNum ∧ t.pc = .wait n) := by
  have hstep : step o s = { s with
      active := s.active ++ (o.ready s.passes).filter fun c => (s.inside c).isSome
      passes := s.passes + 1
      pc := .process n } := by
    unfold step
    rw [hpc]
  have hG' := step_good (o := o) hG
  rw [hstep] at hG'
  obtain ⟨t, hl, hGt, hpct, hat, hpass, hle, hlt, hb, heq⟩ := process_leads (o := o) _ _ hG' rfl rfl
  have hready : (∃ c ∈ o.ready s.passes, s.inside c ≠ none) →
      ∃ c ∈ s.active ++ (o.ready s.passes).filter (fun c => (s.inside c).isSome),
        s.inside c ≠ none := by
    rintro ⟨c, hc, hin⟩
    refine ⟨c, List.mem_append_right _ (List.mem_filter.mpr ⟨hc, ?_⟩), hin⟩
    exact Option.isSome_iff_ne_none.mpr hin
  have hlast := step_process_nil (o := o) hpct hat
  have hlead : Leads (step o) s (step o t) :=
    (Leads.head (by rw [hstep]; exact hl)).trans (.head (.refl _))
  rw [hlast] at hlead
  refine ⟨_, hlead, ⟨{ hGt.inv with }, fun _ => by simp [hat]⟩, hat, hpass, hle,
    fun h => hlt (hready h), ?_, ?_, ?_⟩
  · rintro (h | h)
    · exact hb (.inl (by simp [h]))
    · exact hb (.inr h)
  · intro ha hno
    have hempty : s.active ++ (o.ready s.passes).filter (fun c => (s.inside c).isSome) = [] := by
      rw [ha, List.nil_append, List.filter_eq_nil_iff]
      intro c hc hin
      exact hno ⟨c, hc, Option.isSome_iff_ne_none.mp hin⟩
    show t.inside = s.inside
    rw [heq hempty]
  · by_cases hf : t.freeCoNum = coNum
    · exact .inl ⟨hf, by simp [hf]⟩
    · exact .inr ⟨hf, by simp [hf]⟩

/-- In `co_eventloop`, between two passes, with some coroutine inside `handle_event`. -/
structure Waiting (coNum n : ℕ) (s : St α) : Prop where
  good : Good coNum s
  pc_eq : s.pc = .wait n
  active_nil : s.active = []
  exists_inside : ∃ c, s.inside c ≠ none

/-- `co_eventloop` has returned: every coroutine is parked and the queue is empty. -/
structure Parked (coNum : ℕ) (pc : Pc) (s : St α) : Prop where
  good : Good coNum s
  pc_eq : s.pc = pc
  active_nil : s.active = []
  free_eq : s.freeCoNum = coNum
  task_nil : s.task = []

/-- After a pass the event loop returns or waits. -/
theorem pass_cases (hG : Good coNum s) (hpc : s.pc = .wait n) (hb : s.active ≠ [] ∨ Busy s) :
    ∃ t, Leads (step o) s t ∧ t.passes = s.passes + 1 ∧ work o t ≤ work o s ∧
      ((∃ c ∈ o.ready s.passes, s.inside c ≠ none) → work o t < work o s) ∧
      (s.active = [] → (¬ ∃ c ∈ o.ready s.passes, s.inside c ≠ none) → t.inside = s.inside) ∧
      (Parked coNum (.outer n) t ∨ Waiting coNum n t) := by
  obtain ⟨t, hl, hGt, hat, hpass, hle, hlt, hbt, hsame, hend⟩ := pass_leads (o := o) hG hpc
  refine ⟨t, hl, hpass, hle, hlt, hsame, ?_⟩
  obtain ⟨hf, hpct⟩ | ⟨hf, hpct⟩ := hend
  · refine .inl ⟨hGt, hpct, hat, hf, ?_⟩
    obtain htask | ⟨c, hc⟩ := hbt hb
    · exact htask
    · have hmem := hGt.inv.mem_cond hf (hGt.inv.inside_lt hc)
      exact absurd (hGt.inv.cond_not_inside hmem) hc
  · exact .inr ⟨hGt, hpct, hat, hGt.inv.exists_inside hat hf⟩

/-- While the event loop waits, the next pass that finds the coroutine `c` ready comes: until then
nothing happens, or some other coroutine takes from the yields to come. -/
theorem waiting_progress (d : ℕ) (s : St α) (h : Waiting coNum n s) (hc : s.inside c ≠ none)
    (hready : c ∈ o.ready (s.passes + d)) :
    ∃ t, Leads (step o) s t ∧
      (Parked coNum (.outer n) t ∨ Waiting coNum n t ∧ work o t < work o s) := by
  induction d generalizing s with
  | zero =>
    obtain ⟨t, hl, -, -, hlt, -, hend⟩ := pass_cases (o := o) h.good h.pc_eq (.inr (.inr ⟨c, hc⟩))
    exact ⟨t, hl, hend.imp id fun hw => ⟨hw, hlt ⟨c, hready, hc⟩⟩⟩
  | succ d ih =>
    obtain ⟨t, hl, hpass, hle, hlt, hsame, hend⟩ :=
      pass_cases (o := o) h.good h.pc_eq (.inr (.inr ⟨c, hc⟩))
    by_cases hany : ∃ c ∈ o.ready s.passes, s.inside c ≠ none
    · exact ⟨t, hl, hend.imp id fun hw => ⟨hw, hlt hany⟩⟩
    · obtain hp | hw := hend
      · exact ⟨t, hl, .inl hp⟩
      · have hin := hsame h.active_nil hany
        obtain ⟨u, hl', hu⟩ := ih t hw (by rw [hin]; exact hc)
          (by rw [hpass, Nat.add_assoc, Nat.add_comm 1]; exact hready)
        refine ⟨u, hl.trans hl', hu.imp id fun hw' => ⟨hw'.1, ?_⟩⟩
        exact lt_of_lt_of_le hw'.2 hle

/-- From a waiting state the event loop returns. -/
theorem waiting_returns (w : ℕ) (s : St α) (h : Waiting coNum n s) (hw : work o s = w) :
    ∃ t, Leads (step o) s t ∧ Parked coNum (.outer n) t := by
  induction w using Nat.strong_induction_on generalizing s with
  | _ w ih =>
    obtain ⟨c, hc⟩ := h.exists_inside
    obtain ⟨q, hq, hready⟩ := o.ready_fair c (h.good.inv.inside_lt hc) s.passes
    obtain ⟨d, rfl⟩ := Nat.exists_eq_add_of_le hq
    obtain ⟨t, hl, hp | ⟨hwt, hlt⟩⟩ := waiting_progress d s h hc hready
    · exact ⟨t, hl, hp⟩
    · obtain ⟨u, hl', hu⟩ := ih (work o t) (hw ▸ hlt) t hwt rfl
      exact ⟨u, hl.trans hl', hu⟩

/-- **`co_eventloop` returns**, with every coroutine parked and the queue empty. -/
theorem eventloop_returns (o : Oracle coNum) (hG : Good coNum s) (hpc : s.pc = .wait n)
    (hb : s.active ≠ [] ∨ Busy s) :
    ∃ t, Leads (step o) s t ∧ Parked coNum (.outer n) t := by
  obtain ⟨t, hl, -, -, -, -, hp | hw⟩ := pass_cases (o := o) hG hpc hb
  · exact ⟨t, hl, hp⟩
  · obtain ⟨u, hl', hu⟩ := waiting_returns (work o t) t hw rfl
    exact ⟨u, hl.trans hl', hu⟩

/-! ## `Run` returns -/

/-- The inner loop of `Run` signals coroutines, at least one if one is free and `task_size` is
positive. -/
theorem inner_leads (n : ℕ) (s : St α) (hG : Good coNum s) (hpc : s.pc = .inner n) :
    ∃ t m, Leads (step o) s t ∧ Good coNum t ∧ t.pc = .test m ∧ m ≤ n ∧
      t.freeCoNum ≤ s.freeCoNum ∧ s.active.length ≤ t.active.length ∧
      (s.freeCoNum > 0 → n > 0 →
        m < n ∧ t.freeCoNum < s.freeCoNum ∧ s.active.length < t.active.length) := by
  induction n generalizing s with
  | zero =>
    have hstep : step o s = { s with pc := .test 0 } := by
      unfold step
      rw [hpc]
      simp
    have hG' := step_good (o := o) hG
    refine ⟨step o s, 0, .head (.refl _), hG', ?_, le_rfl, ?_, ?_, by simp⟩ <;> simp [hstep]
  | succ n ih =>
    by_cases hf : s.freeCoNum > 0
    · have hstep : step o s =
          { s.condSignal with freeCoNum := s.freeCoNum - 1, pc := .inner n } := by
        unfold step
        rw [hpc]
        simp [hf]
      obtain ⟨c, cond, hcond⟩ : ∃ c cond, s.cond = c :: cond := by
        cases hc : s.cond with
        | nil => simp [hG.inv.free_eq, hc] at hf
        | cons c cond => exact ⟨c, cond, rfl⟩
      have hG' := step_good (o := o) hG
      obtain ⟨t, m, hl, hGt, hpct, hm, hfree, hact, -⟩ := ih (step o s) hG' (by rw [hstep])
      have hfree' : (step o s).freeCoNum = s.freeCoNum - 1 := by rw [hstep]
      have hact' : (step o s).active.length = s.active.length + 1 := by
        rw [hstep]
        simp [St.condSignal, hcond]
      refine ⟨t, m, hl.head, hGt, hpct, by omega, by omega, by omega, fun _ _ => ?_⟩
      exact ⟨by omega, by omega, by omega⟩
    · have hstep : step o s = { s with pc := .test (n + 1) } := by
        unfold step
        rw [hpc]
        simp [hf]
      have hG' := step_good (o := o) hG
      refine ⟨step o s, n + 1, .head (.refl _), hG', ?_, le_rfl, ?_, ?_, ?_⟩
      · rw [hstep]
      · rw [hstep]
      · rw [hstep]
      · exact fun h => absurd h hf

/-- **`Run` returns** from the test of its outer loop, if all coroutines are parked there and the
queue is empty when `task_size` is 0. -/
theorem outer_returns (hco : 0 < coNum) (n : ℕ) (s : St α) (hG : Good coNum s)
    (hpc : s.pc = .outer n) (ha : s.active = []) (hf : s.freeCoNum = coNum)
    (htask : n = 0 → s.task = []) :
    ∃ t, Leads (step o) s t ∧ Parked coNum .idle t := by
  induction n using Nat.strong_induction_on generalizing s with
  | _ n ih =>
    have hstep : step o s = { s with pc := if n > 0 then .inner n else .idle } := by
      unfold step
      rw [hpc]
    have hG' := step_good (o := o) hG
    rcases Nat.eq_zero_or_pos n with rfl | hn
    · refine ⟨step o s, .head (.refl _), hG', ?_, ?_, ?_, ?_⟩
      · simp [hstep]
      · rw [hstep]; exact ha
      · rw [hstep]; exact hf
      · rw [hstep]; exact htask rfl
    · have hinner : (step o s).pc = .inner n := by simp [hstep, hn]
      obtain ⟨t, m, hl, hGt, hpct, -, -, -, hpos⟩ := inner_leads (o := o) n (step o s) hG' hinner
      have hfree : (step o s).freeCoNum = coNum := by rw [hstep]; exact hf
      obtain ⟨hm, hlt, hact⟩ := hpos (by omega) hn
      have htest : step o t = { t with pc := .wait m } := by
        have hlt' : t.freeCoNum < coNum := by omega
        unfold step
        rw [hpct]
        simp [hlt']
      have hne : t.active ≠ [] := by
        intro he
        simp [he] at hact
      have hGw := step_good (o := o) hGt
      rw [htest] at hGw
      obtain ⟨u, hl', hu⟩ := eventloop_returns o hGw rfl (.inl hne)
      have hsu : Leads (step o) s u := by
        refine hl.head.trans (.head ?_)
        rw [htest]
        exact hl'
      obtain ⟨v, hl'', hv⟩ :=
        ih m hm u hu.good hu.pc_eq hu.active_nil hu.free_eq fun _ => hu.task_nil
      exact ⟨v, hsu.trans hl'', hv⟩

/-! ## Rounds -/

/-- After `Start` every coroutine is parked. -/
theorem start_eq (o : Oracle coNum) :
    (start o : St α) = ⟨coNum, List.range coNum, [], fun _ => none, [], [], 0, 0, .idle⟩ := by
  have key : ∀ k, (List.range k).foldl (fun s c => coResume o c s)
      (⟨0, [], [], fun _ => none, [], [], 0, 0, .idle⟩ : St α) =
        ⟨k, List.range k, [], fun _ => none, [], [], 0, 0, .idle⟩ := by
    intro k
    induction k with
    | zero => rfl
    | succ k ih =>
      rw [List.range_succ, List.foldl_append, ih]
      rfl
  exact key coNum

theorem start_parked (o : Oracle coNum) : Parked coNum .idle (start o : St α) := by
  rw [start_eq]
  refine ⟨⟨?_, by simp⟩, rfl, rfl, rfl, rfl⟩
  constructor <;> simp [List.nodup_range, history]

/-- The elements put are numbered on from those put before. -/
theorem putTask_foldl (channels : List α) (s : St α) :
    ∃ xs, xs.map Prod.snd = channels ∧ xs.map Prod.fst = List.range' s.puts channels.length ∧
      channels.foldl St.putTask s =
        { s with task := s.task ++ xs, puts := s.puts + channels.length } := by
  induction channels generalizing s with
  | nil => exact ⟨[], rfl, rfl, by simp⟩
  | cons x channels ih =>
    obtain ⟨xs, h1, h2, h3⟩ := ih (s.putTask x)
    refine ⟨(s.puts, x) :: xs, by simp [h1], ?_, ?_⟩
    · simp only [List.map_cons, h2, List.length_cons, List.range'_succ]
      rfl
    · rw [List.foldl_cons, h3]
      simp [St.putTask, Nat.add_assoc, Nat.add_comm 1]

/-- The channels whose `handle_event` was started, in order. -/
def handled (s : St α) : List α := s.started.map fun x => x.2.2

theorem plainLoop_eq (hs channels : List α) : plainLoop hs channels = hs ++ channels := by
  unfold plainLoop
  induction channels generalizing hs with
  | nil => simp
  | cons x channels ih => simp [ih]

theorem enter_good (h : Parked coNum .idle s) (channels : List α) :
    Good coNum (enter channels s) := by
  obtain ⟨xs, -, hnum, hput⟩ := putTask_foldl channels s
  unfold enter
  rw [hput]
  refine ⟨{ h.good.inv with numbered := ?_ }, fun _ => by simp [h.active_nil]⟩
  have hold := h.good.inv.numbered
  simp only [history, h.task_nil, List.append_nil, List.nil_append, List.map_append] at hold ⊢
  have happ := List.range'_append_1 (s := 0) (m := s.puts) (n := channels.length)
  rw [Nat.zero_add] at happ
  rw [hold, hnum, List.range_eq_range', List.range_eq_range']
  exact happ

/-- **A round.** `Run` returns with every coroutine parked, having started `handle_event` for the
elements of the queue in order. -/
theorem round_returns (hco : 0 < coNum) (h : Parked coNum .idle s) {channels : List α}
    (hlen : channels.length < 2 ^ 31) :
    ∃ t, Leads (step o) (enter channels s) t ∧ Parked coNum .idle t ∧
      t.started.map Prod.snd = s.started.map Prod.snd ++ (enter channels s).task := by
  obtain ⟨xs, hxs, -, hput⟩ := putTask_foldl channels s
  have htask : (enter channels s).task = xs := by
    simp [enter, hput, h.task_nil]
  have hxl : xs.length = channels.length := by
    rw [← hxs, List.length_map]
  have hsize : (enter channels s).pc = .outer channels.length := by
    have hpc : (enter channels s).pc = .outer (xs.length % 2 ^ 32) := by
      simp [enter, hput, h.task_nil]
    rw [hpc, hxl, Nat.mod_eq_of_lt (by omega)]
  have hact : (enter channels s).active = [] := by
    simp [enter, hput, h.active_nil]
  have hfree : (enter channels s).freeCoNum = coNum := by
    simp [enter, hput, h.free_eq]
  have hzero : channels.length = 0 → (enter channels s).task = [] := by
    intro h0
    rw [htask]
    exact List.eq_nil_of_length_eq_zero (hxl.trans h0)
  obtain ⟨t, hl, ht⟩ :=
    outer_returns (o := o) hco _ _ (enter_good h channels) hsize hact hfree hzero
  refine ⟨t, hl, ht, ?_⟩
  have hhist : history t = history (enter channels s) :=
    hl.invariant (I := fun u => history u = history (enter channels s))
      (fun u hu => (step_history o u).trans hu) rfl
  have hstart : (enter channels s).started = s.started := by
    simp [enter, hput]
  simpa [history, ht.task_nil, hstart] using hhist

/-- The states between two rounds of the event loop, after `Start` and any sequence of rounds. The
vector of a round comes from `Poll`, which has room for `int`-many events. -/
inductive Between (o : Oracle coNum) : St α → Prop
  | start : Between o (start o)
  | round {s t : St α} {channels : List α} : Between o s → channels.length < 2 ^ 31 →
      Leads (step o) (enter channels s) t → t.pc = .idle → Between o t

theorem step_idle (h : s.pc = .idle) : step o s = s := by
  unfold step
  rw [h]

theorem Between.parked (hco : 0 < coNum) (h : Between o s) : Parked coNum .idle s := by
  induction h with
  | start => exact start_parked o
  | round _ hlen hl hpc ih =>
    obtain ⟨t', hl', ht', -⟩ := round_returns (o := o) hco ih hlen
    obtain rfl := hl.eq_of_fixed hl' (step_idle hpc) (step_idle ht'.pc_eq)
    exact ht'

/-! ## The pool against the plain loop -/

/-- A call of `handle_event`, once started, stays on the record. -/
theorem coroutineFun_started (task : List (ℕ × α)) (s : St α) :
    s.started ⊆ (coroutineFun o c task s).started := by
  induction task generalizing s with
  | nil => exact List.Subset.refl _
  | cons x task ih =>
    have hmore : s.started ⊆ s.started ++ [(c, x)] := List.subset_append_left ..
    unfold coroutineFun
    dsimp only
    split
    · have hih := ih { s with task := task, started := s.started ++ [(c, x)] }
      exact List.Subset.trans hmore hih
    · exact hmore

theorem step_started (o : Oracle coNum) (s : St α) : s.started ⊆ (step o s).started := by
  have hresume : ∀ c (u : St α), u.started ⊆ (coResume o c u).started := by
    intro c u
    unfold coResume
    split
    · exact List.Subset.refl _
    · exact coroutineFun_started u.task { u with inside := Function.update u.inside c none }
    · exact coroutineFun_started u.task u
  unfold step
  split
  · exact List.Subset.refl _
  · exact List.Subset.refl _
  · split
    · unfold St.condSignal
      split <;> exact List.Subset.refl _
    · exact List.Subset.refl _
  · exact List.Subset.refl _
  · exact List.Subset.refl _
  · split
    · rename_i c active _
      exact hresume c { s with active := active }
    · exact List.Subset.refl _

/-- An element is handled inside one coroutine, now and later. -/
theorem inside_unique_later {c' k y y' : ℕ} (hG : Good coNum s) (hl : Leads (step o) s t)
    (hc : s.inside c = some (k, y)) (hc' : t.inside c' = some (k, y')) : c = c' := by
  have hGt : Good coNum t := hl.invariant (fun _ hu => step_good hu) hG
  have hsub : s.started ⊆ t.started :=
    hl.invariant (I := fun u => s.started ⊆ u.started)
      (fun u hu => List.Subset.trans hu (step_started o u)) (List.Subset.refl _)
  obtain ⟨x, hx⟩ := hG.inv.inside_started hc
  obtain ⟨x', hx'⟩ := hGt.inv.inside_started hc'
  exact (Prod.mk.inj (List.inj_on_of_nodup_map hGt.inv.started_nodup (hsub hx) hx' rfl)).1

/-- **The coroutine pool handles exactly what the plain loop handles.** After `Start` and any
sequence of rounds, `Run` returns from the next round with an empty queue and all coroutines free;
the calls of `handle_event` started in the round are those of the elements put, once each and in
order, so that the channels handled are those of the plain loop; and during the round an element is
never inside two coroutines, whatever the moments. -/
theorem pool_handles_as_plain_loop (hco : 1 ≤ coNum) (o : Oracle coNum) {s : St α}
    (hs : Between o s) {channels : List α} (hlen : channels.length < 2 ^ 31) :
    (∃ t, Leads (step o) (enter channels s) t ∧ t.pc = .idle ∧ t.task = [] ∧
        t.freeCoNum = coNum ∧
        t.started.map Prod.snd = s.started.map Prod.snd ++ (enter channels s).task ∧
        (t.started.map fun x => x.2.1).Nodup ∧
        handled t = plainLoop (handled s) channels) ∧
      ∀ m n c c' k y y', ((step o)^[m] (enter channels s)).inside c = some (k, y) →
        ((step o)^[n] (enter channels s)).inside c' = some (k, y') → c = c' := by
  have hp := hs.parked hco
  have hG := enter_good hp channels
  refine ⟨?_, ?_⟩
  · obtain ⟨t, hl, ht, hstarted⟩ := round_returns (o := o) hco hp hlen
    refine ⟨t, hl, ht.pc_eq, ht.task_nil, ht.free_eq, hstarted, ht.good.inv.started_nodup, ?_⟩
    obtain ⟨xs, hxs, -, hput⟩ := putTask_foldl channels s
    have htask : (enter channels s).task = xs := by simp [enter, hput, hp.task_nil]
    have hmap := congrArg (List.map Prod.snd) hstarted
    rw [htask, List.map_append, List.map_map, List.map_map, hxs] at hmap
    rw [plainLoop_eq]
    exact hmap
  · intro m n c c' k y y' hm hn
    have reach : ∀ i, Good coNum ((step o)^[i] (enter channels s)) := by
      intro i
      have hl : Leads (step o) (enter channels s) ((step o)^[i] (enter channels s)) := ⟨i, rfl⟩
      exact hl.invariant (fun _ hu => step_good hu) hG
    rcases Nat.le_total m n with hmn | hmn
    · obtain ⟨d, rfl⟩ := Nat.exists_eq_add_of_le hmn
      refine inside_unique_later (o := o) (reach m) ⟨d, ?_⟩ hm hn
      rw [← Function.iterate_add_apply, Nat.add_comm]
    · obtain ⟨d, rfl⟩ := Nat.exists_eq_add_of_le hmn
      refine (inside_unique_later (o := o) (reach n) ⟨d, ?_⟩ hn hm).symm
      rw [← Function.iterate_add_apply, Nat.add_comm]

/-- Two coroutines; every second call of `handle_event` yields twice. -/
def twoCoroutines : Oracle 2 where
  yields := fun k => 2 * (k % 2)
  ready := fun _ => [1, 0]
  ready_nodup := fun _ => by decide
  ready_fair := by
    intro c hc p
    exact ⟨p, le_rfl, by simp; omega⟩

theorem pool_handles_as_plain_loop_three :
    ∃ t, Leads (step twoCoroutines) (enter [7, 7, 8] (start twoCoroutines)) t ∧ t.pc = .idle ∧
      t.task = [] ∧ t.freeCoNum = 2 ∧ handled t = [7, 7, 8] := by
  obtain ⟨⟨t, hl, hpc, htask, hfree, -, -, hhandled⟩, -⟩ :=
    pool_handles_as_plain_loop (by decide) twoCoroutines Between.start
      (show [7, 7, 8].length < 2 ^ 31 by decide)
  exact ⟨t, hl, hpc, htask, hfree, by rw [hhandled, start_eq]; rfl⟩

end WebServer.Coroutine
