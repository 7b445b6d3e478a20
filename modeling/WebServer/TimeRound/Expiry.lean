import WebServer.Lib.Exec
import WebServer.TimeRound.Ops

/-!
# When a node expires

Runs of the wheel: additions of new nodes and passes of `TimeRound::fun`, in any order and with any
clock readings. A run keeps two records next to the wheel: for each node, by its number, the
threshold it was added with, `cur_time` at that moment and how many passes had been made; for each
pass, its clock reading and the nodes it deleted.

`expires_exactly` is the result about whole runs in which no reading is `max_time` or more ahead of
`cur_time`: a node added with threshold `t` at time `c` is deleted in the first pass whose reading
is at least `c + min(t, max_time - 1) + 1`, and in no other; a pass deletes in the order of the
deadlines, and nodes of one deadline in the order of their addition. No operation of such a run
dereferences a null pointer or a deleted node, and every pass ends.
-/

namespace WebServer.TimeRound

open WebServer.Lib Wheel Represents

/-- How a node was added. -/
structure Birth where
  timeThreod : ℤ
  curTime : ℤ
  /-- The number of passes made before. -/
  passes : ℕ
  deriving DecidableEq

/-- A pass: its clock reading and what it deleted. -/
structure PassRecord where
  now : ℤ
  deleted : List Ptr
  deriving DecidableEq

/-- A wheel with the records of its run. -/
structure Hist where
  wheel : Wheel
  births : List Birth
  passes : List PassRecord

/-- The operations of a run. -/
inductive Op
  | add (timeThreod : ℤ)
  | pass (now : ℤ)
  deriving DecidableEq

namespace Hist

/-- A wheel with `max_time` places, started at `now`. -/
def init (maxTime : ℕ) (now : ℤ) : Hist := ⟨start maxTime now, [], []⟩

/-- One operation. -/
def step (s : Hist) : Op → Option Hist
  | .add t => do
    let w ← (s.wheel.newNode t).addTimeRoundItemNode (some s.wheel.fresh)
    some { s with
      wheel := w
      births := s.births ++ [⟨t, s.wheel.curTime, s.passes.length⟩] }
  | .pass now => do
    let w ← s.wheel.pass now
    some { s with
      wheel := w
      passes := s.passes ++ [⟨now, w.deleted.drop s.wheel.deleted.length⟩] }

/-- No reading is `max_time` or more ahead of `cur_time`. -/
def Near (s : Hist) : Op → Prop
  | .add _ => True
  | .pass now => now - s.wheel.curTime < s.wheel.maxTime

instance (s : Hist) (a : Op) : Decidable (Near s a) := by
  cases a <;> unfold Near <;> infer_instance

end Hist

open Hist

/-- The clock reading at which a node is due. -/
def deadline (maxTime : ℕ) (b : Birth) : ℤ := b.curTime + min b.timeThreod (maxTime - 1) + 1

/-- The deadlines of the nodes of a run, by number. -/
def deadlines (maxTime : ℕ) (births : List Birth) (p : Ptr) : ℤ :=
  ((births[p]?).map (deadline maxTime)).getD 0

/-- None of the passes from the node's addition on and before the `j`-th reached its deadline. -/
def NotDueBefore (maxTime : ℕ) (passes : List PassRecord) (b : Birth) (j : ℕ) : Prop :=
  ∀ (i : ℕ) (r : PassRecord), b.passes ≤ i → i < j → passes[i]? = some r →
    r.now < deadline maxTime b

/-- The nodes the `j`-th pass, at clock reading `now`, has to delete. -/
def ExpiresIn (maxTime : ℕ) (births : List Birth) (passes : List PassRecord) (j : ℕ) (now : ℤ)
    (p : Ptr) : Prop :=
  ∃ b, births[p]? = some b ∧ 1 ≤ b.timeThreod ∧ b.passes ≤ j ∧ deadline maxTime b ≤ now ∧
    NotDueBefore maxTime passes b j

/-- The order in which a pass has to delete. -/
def Before (maxTime : ℕ) (births : List Birth) (p q : Ptr) : Prop :=
  deadlines maxTime births p < deadlines maxTime births q ∨
    deadlines maxTime births p = deadlines maxTime births q ∧ p < q

/-- A pass deleted what it had to, in the order it had to. -/
def Correct (maxTime : ℕ) (births : List Birth) (passes : List PassRecord) (j : ℕ)
    (r : PassRecord) : Prop :=
  (∀ p, p ∈ r.deleted ↔ ExpiresIn maxTime births passes j r.now p) ∧
    r.deleted.Pairwise (Before maxTime births)

/-! ## The invariant of runs -/

/-- The invariant: between the operations the wheel represents a calendar of the nodes that were
not due in any pass yet, each at the bucket of its deadline, in the order of addition. -/
structure RunInv (s : Hist) (slots : Calendar Ptr) : Prop where
  repr : Represents s.wheel slots []
  fresh : s.wheel.fresh = s.births.length
  mem_iff : ∀ p, p ∈ slots.flatten ↔ ∃ b, s.births[p]? = some b ∧ 1 ≤ b.timeThreod ∧
    NotDueBefore s.wheel.maxTime s.passes b s.passes.length
  timed : Calendar.Timed (deadlines s.wheel.maxTime s.births) (calendar s.wheel slots)
    s.wheel.curTime
  ordered : Calendar.Ordered (· < ·) (calendar s.wheel slots)
  births_le : ∀ b ∈ s.births, b.passes ≤ s.passes.length
  correct : ∀ (j : ℕ) (r : PassRecord), s.passes[j]? = some r →
    Correct s.wheel.maxTime s.births s.passes j r

theorem deadlines_append {maxTime : ℕ} {births : List Birth} {b : Birth} {p : Ptr}
    (hp : p < births.length) :
    deadlines maxTime (births ++ [b]) p = deadlines maxTime births p := by
  rw [deadlines, deadlines, List.getElem?_append_left hp]

theorem deadlines_of_getElem? {maxTime : ℕ} {births : List Birth} {b : Birth} {p : Ptr}
    (hp : births[p]? = some b) : deadlines maxTime births p = deadline maxTime b := by
  simp [deadlines, hp]

section

variable {s : Hist} {slots : Calendar Ptr} {p : Ptr}

theorem RunInv.lt_births (h : RunInv s slots) (hp : p ∈ slots.flatten) : p < s.births.length := by
  obtain ⟨b, hb, -⟩ := (h.mem_iff p).mp hp
  exact (List.getElem?_eq_some_iff.mp hb).1

theorem init_runInv {maxTime : ℕ} (now : ℤ) (h : 1 ≤ maxTime) :
    RunInv (init maxTime now) (List.replicate maxTime []) := by
  have hrot : calendar (init maxTime now).wheel (List.replicate maxTime []) =
      List.replicate maxTime [] := by
    simp [calendar, init, start]
  refine ⟨start_repr now h, rfl, by simp [init], ?_, ?_, by simp [init], by simp [init]⟩
  · rw [hrot]
    intro k b hb p hp
    obtain rfl := List.eq_of_mem_replicate (List.mem_of_getElem? hb)
    simp at hp
  · rw [hrot]
    intro b hb
    obtain rfl := List.eq_of_mem_replicate hb
    exact List.Pairwise.nil

/-- Earlier passes stay correct when a node is added: the new node concerns none of them. -/
theorem Correct.append_birth {maxTime : ℕ} {births : List Birth} {passes : List PassRecord} {j : ℕ}
    {r : PassRecord} {b : Birth} (h : Correct maxTime births passes j r) (hj : j < b.passes) :
    Correct maxTime (births ++ [b]) passes j r := by
  have hlt : ∀ p ∈ r.deleted, p < births.length := by
    intro p hp
    obtain ⟨b', hb', -⟩ := (h.1 p).mp hp
    exact (List.getElem?_eq_some_iff.mp hb').1
  refine ⟨fun p => (h.1 p).trans ⟨?_, ?_⟩, ?_⟩
  · rintro ⟨b', hb', hrest⟩
    have hp := (List.getElem?_eq_some_iff.mp hb').1
    exact ⟨b', by rw [List.getElem?_append_left hp, hb'], hrest⟩
  · rintro ⟨b', hb', ht, hbj, hrest⟩
    rw [List.getElem?_append] at hb'
    split at hb'
    · exact ⟨b', hb', ht, hbj, hrest⟩
    · -- the new node was added after the pass
      obtain rfl := List.mem_singleton.mp (List.mem_of_getElem? hb')
      omega
  · refine h.2.imp_of_mem fun {p q} hp hq hpq => ?_
    rw [Before, deadlines_append (hlt p hp), deadlines_append (hlt q hq)]
    exact hpq

/-- Earlier passes stay correct when a pass is made. -/
theorem Correct.append_pass {maxTime : ℕ} {births : List Birth} {passes : List PassRecord} {j : ℕ}
    {r r' : PassRecord} (h : Correct maxTime births passes j r) (hj : j ≤ passes.length) :
    Correct maxTime births (passes ++ [r']) j r := by
  have hnd : ∀ b, NotDueBefore maxTime (passes ++ [r']) b j ↔ NotDueBefore maxTime passes b j := by
    intro b
    refine forall_congr' fun i => forall_congr' fun r'' => forall_congr' fun _ =>
      forall_congr' fun hi => ?_
    rw [List.getElem?_append_left (by omega)]
  refine ⟨fun p => (h.1 p).trans ?_, h.2⟩
  simp only [ExpiresIn, hnd]

/-- Being due in no pass, after one more pass. -/
theorem notDueBefore_append {maxTime : ℕ} {passes : List PassRecord} {b : Birth} {r : PassRecord}
    (hb : b.passes ≤ passes.length) :
    NotDueBefore maxTime (passes ++ [r]) b (passes ++ [r]).length ↔
      NotDueBefore maxTime passes b passes.length ∧ r.now < deadline maxTime b := by
  constructor
  · intro h
    refine ⟨fun i r' hbi hi hr' => h i r' hbi (by simp; omega) ?_, ?_⟩
    · rw [List.getElem?_append_left hi, hr']
    · exact h passes.length r hb (by simp) (by simp)
  · rintro ⟨h, hr⟩ i r' hbi hi hr'
    rw [List.getElem?_append] at hr'
    split at hr'
    · exact h i r' hbi (by assumption) hr'
    · obtain rfl := List.mem_singleton.mp (List.mem_of_getElem? hr')
      exact hr

/-- An addition keeps the invariant. -/
theorem add_runInv (h : RunInv s slots) (t : ℤ) :
    ∃ s' slots', step s (.add t) = some s' ∧ RunInv s' slots' ∧
      s'.wheel.maxTime = s.wheel.maxTime := by
  have hfresh := h.fresh
  have hnew : (s.births ++ [⟨t, s.wheel.curTime, s.passes.length⟩])[s.wheel.fresh]? =
      some ⟨t, s.wheel.curTime, s.passes.length⟩ := by simp [hfresh]
  have hold : ∀ p ∈ slots.flatten, p < s.births.length := fun p hp => h.lt_births hp
  -- the new node is due in no pass so far, and it is the only new one
  have hmem : ∀ p, (∃ b, (s.births ++ [⟨t, s.wheel.curTime, s.passes.length⟩])[p]? = some b ∧
      1 ≤ b.timeThreod ∧ NotDueBefore s.wheel.maxTime s.passes b s.passes.length) ↔
      p ∈ slots.flatten ∨ p = s.wheel.fresh ∧ 1 ≤ t := by
    intro p
    rw [h.mem_iff p]
    constructor
    · rintro ⟨b, hb, hrest⟩
      rw [List.getElem?_append] at hb
      split at hb
      · exact Or.inl ⟨b, hb, hrest⟩
      · rename_i hge
        have hb' := List.mem_singleton.mp (List.mem_of_getElem? hb)
        have hlen := (List.getElem?_eq_some_iff.mp hb).1
        have hp : p = s.births.length :=
          Nat.le_antisymm (Nat.sub_eq_zero_iff_le.mp (Nat.lt_one_iff.mp hlen)) (not_lt.mp hge)
        rw [hb'] at hrest
        exact Or.inr ⟨hp.trans hfresh.symm, hrest.1⟩
    · rintro (⟨b, hb, hrest⟩ | ⟨rfl, ht⟩)
      · have hp := (List.getElem?_eq_some_iff.mp hb).1
        exact ⟨b, by rw [List.getElem?_append_left hp, hb], hrest⟩
      · exact ⟨_, hnew, ht, fun i r hi hi' => absurd hi' (not_lt.mpr hi)⟩
  have hbirths : ∀ b ∈ s.births ++ [⟨t, s.wheel.curTime, s.passes.length⟩],
      b.passes ≤ s.passes.length := by
    intro b hb
    rcases List.mem_append.mp hb with hb | hb
    · exact h.births_le b hb
    · obtain rfl := List.mem_singleton.mp hb
      exact le_rfl
  have hcorrect : ∀ (j : ℕ) (r : PassRecord), s.passes[j]? = some r → Correct s.wheel.maxTime
      (s.births ++ [⟨t, s.wheel.curTime, s.passes.length⟩]) s.passes j r := fun j r hj =>
    (h.correct j r hj).append_birth (List.getElem?_eq_some_iff.mp hj).1
  have htimed : Calendar.Timed
      (deadlines s.wheel.maxTime (s.births ++ [⟨t, s.wheel.curTime, s.passes.length⟩]))
      (calendar s.wheel slots) s.wheel.curTime := by
    intro k b hb p hp
    have hp' := hold p (mem_calendar.mp (mem_flatten_of_getElem? hb hp))
    rw [deadlines_append hp']
    exact h.timed k b hb p hp
  by_cases ht : 1 ≤ t
  · obtain ⟨w', slots', hw', hr, hcal, hc, -⟩ := h.repr.addTimeRoundItemNode_repr ht
    have hmax : w'.maxTime = s.wheel.maxTime := hc.maxTime
    have hcur : w'.curTime = s.wheel.curTime := hc.curTime
    have hahead : ahead s.wheel.maxTime t < (calendar s.wheel slots).length := by
      rw [h.repr.length_calendar, ahead]
      have := h.repr.curIndex_lt
      have := h.repr.curIndex_nonneg
      omega
    refine ⟨_, slots', by simp only [step, hw']; rfl, ?_, hmax⟩
    refine ⟨hr, ?_, ?_, ?_, ?_, hbirths, ?_⟩
    · simp [hc.fresh, newNode, hfresh]
    · intro p
      dsimp only
      rw [hmax, hmem p, ← mem_calendar (w := w'), hcal, Calendar.mem_flatten_add hahead,
        mem_calendar, or_comm, and_iff_left ht]
    · dsimp only
      rw [hmax, hcur, hcal]
      apply htimed.add
      rw [deadlines_of_getElem? hnew]
      show s.wheel.curTime + min t (s.wheel.maxTime - 1) + 1 = s.wheel.curTime + ahead _ t + 1
      rw [ahead]
      have := h.repr.curIndex_lt
      have := h.repr.curIndex_nonneg
      omega
    · dsimp only
      rw [hcal]
      refine h.ordered.add fun p hp => ?_
      rw [hfresh]
      exact hold p (mem_calendar.mp hp)
    · dsimp only
      rw [hmax]
      exact hcorrect
  · obtain ⟨w', hw', hr, hc, hcuri, -⟩ := h.repr.addTimeRoundItemNode_nonpos (by omega : t ≤ 0)
    have hmax : w'.maxTime = s.wheel.maxTime := hc.maxTime
    have hcur : w'.curTime = s.wheel.curTime := hc.curTime
    have hcal : calendar w' slots = calendar s.wheel slots := by rw [calendar, calendar, hcuri]
    refine ⟨_, slots, by simp only [step, hw']; rfl, ?_, hmax⟩
    refine ⟨hr, ?_, ?_, ?_, ?_, hbirths, ?_⟩
    · simp [hc.fresh, newNode, hfresh]
    · intro p
      dsimp only
      rw [hmax, hmem p]
      simp [ht]
    · dsimp only
      rw [hmax, hcur, hcal]
      exact htimed
    · dsimp only
      rw [hcal]
      exact h.ordered
    · dsimp only
      rw [hmax]
      exact hcorrect

/-- What a pass makes of the invariant, given what it does to the calendar. -/
theorem RunInv.afterPass (h : RunInv s slots) {now : ℤ} {w' : Wheel} {slots' : Calendar Ptr} {d : ℕ}
    (hr : Represents w' slots' [])
    (hcal : calendar w' slots' = (calendar s.wheel slots).advance d)
    (hdel : w'.deleted = s.wheel.deleted ++ (calendar s.wheel slots).due d)
    (hmax : w'.maxTime = s.wheel.maxTime) (hfresh : w'.fresh = s.wheel.fresh)
    (hcur : w'.curTime = s.wheel.curTime + d)
    (hdue : ∀ p ∈ slots.flatten,
      deadlines s.wheel.maxTime s.births p ≤ now ↔
        deadlines s.wheel.maxTime s.births p ≤ s.wheel.curTime + d) :
    RunInv { s with
      wheel := w'
      passes := s.passes ++ [⟨now, w'.deleted.drop s.wheel.deleted.length⟩] } slots' := by
  have hdrop : w'.deleted.drop s.wheel.deleted.length = (calendar s.wheel slots).due d := by
    rw [hdel, List.drop_left]
  rw [hdrop]
  -- a node of the wheel, with its deadline
  have hnode : ∀ p ∈ slots.flatten, ∃ b, s.births[p]? = some b ∧
      deadlines s.wheel.maxTime s.births p = deadline s.wheel.maxTime b := by
    intro p hp
    obtain ⟨b, hb, -⟩ := (h.mem_iff p).mp hp
    exact ⟨b, hb, deadlines_of_getElem? hb⟩
  -- what is left are the nodes whose deadline the reading did not reach
  have hleft : ∀ p, p ∈ slots'.flatten ↔
      p ∈ slots.flatten ∧ now < deadlines s.wheel.maxTime s.births p := by
    intro p
    rw [← mem_calendar (w := w'), hcal]
    constructor
    · intro hp
      have hp' : p ∈ slots.flatten := by
        rw [← mem_calendar (w := s.wheel), ← Calendar.due_append_flatten_advance _ d]
        exact List.mem_append_right _ hp
      have hlt := Calendar.lt_of_mem_advance h.timed hp
      have := hdue p hp'
      exact ⟨hp', by omega⟩
    · rintro ⟨hp, hlt⟩
      have hp' := mem_calendar (w := s.wheel) |>.mpr hp
      rw [← Calendar.due_append_flatten_advance _ d] at hp'
      rcases List.mem_append.mp hp' with hm | hm
      · have := ((Calendar.mem_due_iff h.timed).mp hm).2
        have := hdue p hp
        omega
      · exact hm
  refine ⟨hr, by rw [hfresh]; exact h.fresh, ?_, ?_, ?_, ?_, ?_⟩
  · intro p
    dsimp only
    rw [hmax, hleft p]
    constructor
    · rintro ⟨hp, hlt⟩
      obtain ⟨b, hb, ht, hnd⟩ := (h.mem_iff p).mp hp
      rw [deadlines_of_getElem? hb] at hlt
      have hbp := h.births_le b (List.mem_of_getElem? hb)
      exact ⟨b, hb, ht, (notDueBefore_append hbp).mpr ⟨hnd, hlt⟩⟩
    · rintro ⟨b, hb, ht, hnd⟩
      have hbp := h.births_le b (List.mem_of_getElem? hb)
      obtain ⟨hnd, hlt⟩ := (notDueBefore_append hbp).mp hnd
      refine ⟨(h.mem_iff p).mpr ⟨b, hb, ht, hnd⟩, ?_⟩
      rw [deadlines_of_getElem? hb]
      exact hlt
  · dsimp only
    rw [hmax, hcal, hcur]
    exact h.timed.advance
  · dsimp only
    rw [hcal]
    exact h.ordered.advance
  · intro b hb
    apply (h.births_le b hb).trans
    simp
  · intro j r hj
    dsimp only at hj ⊢
    rw [hmax]
    rw [List.getElem?_append] at hj
    split at hj
    · rename_i hlt
      exact (h.correct j r hj).append_pass hlt.le
    · -- the new pass
      rename_i hge
      have hlen := (List.getElem?_eq_some_iff.mp hj).1
      have hr := List.mem_singleton.mp (List.mem_of_getElem? hj)
      simp only [List.length_singleton] at hlen
      obtain rfl : j = s.passes.length := by omega
      subst hr
      refine Correct.append_pass ⟨fun p => ?_, Calendar.due_pairwise h.timed h.ordered⟩ le_rfl
      dsimp only
      rw [Calendar.mem_due_iff h.timed, mem_calendar]
      constructor
      · rintro ⟨hp, hle⟩
        obtain ⟨b, hb, ht, hnd⟩ := (h.mem_iff p).mp hp
        have := (hdue p hp).mpr hle
        rw [deadlines_of_getElem? hb] at this
        exact ⟨b, hb, ht, h.births_le b (List.mem_of_getElem? hb), this, hnd⟩
      · rintro ⟨b, hb, ht, -, hle, hnd⟩
        have hp := (h.mem_iff p).mpr ⟨b, hb, ht, hnd⟩
        refine ⟨hp, (hdue p hp).mp ?_⟩
        rw [deadlines_of_getElem? hb]
        exact hle

/-- A pass keeps the invariant. -/
theorem pass_runInv (h : RunInv s slots) {now : ℤ} (hn : Near s (.pass now)) :
    ∃ s' slots', step s (.pass now) = some s' ∧ RunInv s' slots' ∧
      s'.wheel.maxTime = s.wheel.maxTime := by
  by_cases hle : now ≤ s.wheel.curTime
  · -- the clock is not ahead of the wheel: nothing is due, and nothing happens
    have hw := pass_of_le (w := s.wheel) hle
    refine ⟨_, slots, by simp only [step, hw]; rfl, ?_, ?_⟩
    swap
    · rfl
    refine h.afterPass (d := 0) h.repr (Calendar.advance_zero _).symm ?_ rfl rfl (by simp) ?_
    · rw [Calendar.due_zero, List.append_nil]
    · intro p hp
      have hp' := mem_calendar (w := s.wheel) |>.mpr hp
      rw [← Calendar.advance_zero (calendar s.wheel slots)] at hp'
      have := Calendar.lt_of_mem_advance h.timed hp'
      omega
  · obtain ⟨w', slots', hw', hr, hcal, hdel, hmax, hfresh, hcur⟩ :=
      h.repr.pass_repr hn (not_le.mp hle)
    refine ⟨_, slots', by simp only [step, hw']; rfl, ?_, hmax⟩
    have hd : s.wheel.curTime + ((now - s.wheel.curTime).toNat : ℤ) = now := by omega
    exact h.afterPass hr hcal hdel hmax hfresh (hcur.trans hd.symm) fun p _ => by rw [hd]

/-- **One operation** that is near keeps the invariant, and is defined. -/
theorem step_runInv (h : RunInv s slots) {a : Op} (hn : Near s a) :
    ∃ s' slots', step s a = some s' ∧ RunInv s' slots' ∧
      s'.wheel.maxTime = s.wheel.maxTime := by
  cases a with
  | add t => exact add_runInv h t
  | pass now => exact pass_runInv h hn

end

/-- Every run of near operations keeps the invariant. -/
theorem exists_runInv {maxTime : ℕ} (hmax : 1 ≤ maxTime) {now : ℤ} {ops : List Op} {s : Hist}
    (h : Exec step Near (init maxTime now) ops s) :
    s.wheel.maxTime = maxTime ∧ ∃ slots, RunInv s slots := by
  refine h.invariant (I := fun s => s.wheel.maxTime = maxTime ∧ ∃ slots, RunInv s slots)
    ⟨rfl, _, init_runInv now hmax⟩ ?_
  rintro u a v ⟨rfl, slots, hu⟩ hn hs
  obtain ⟨v', slots', hs', hv, hmax⟩ := step_runInv hu hn
  obtain rfl := Option.some.inj (hs.symm.trans hs')
  exact ⟨hmax, slots', hv⟩

/-- **Exact expiry.** In every run of additions and passes whose readings are less than `max_time`
ahead of `cur_time`: the next such operation is always defined; the `j`-th pass deletes exactly the
nodes that were added with a positive threshold, whose deadline its reading has reached and whose
deadline no pass since their addition had reached; and it deletes them in the order of their
deadlines, in the order of addition for equal ones. -/
theorem expires_exactly {maxTime : ℕ} (hmax : 2 ≤ maxTime) {now : ℤ} {ops : List Op} {s : Hist}
    (h : Exec step Near (init maxTime now) ops s) :
    (∀ a, Near s a → (step s a).isSome) ∧
      ∀ (j : ℕ) (r : PassRecord), s.passes[j]? = some r →
        (∀ p, p ∈ r.deleted ↔ ExpiresIn maxTime s.births s.passes j r.now p) ∧
          r.deleted.Pairwise (Before maxTime s.births) := by
  obtain ⟨rfl, slots, hinv⟩ := exists_runInv (by omega) h
  refine ⟨fun a ha => ?_, fun j r hj => hinv.correct j r hj⟩
  obtain ⟨s', -, hs', -⟩ := step_runInv hinv ha
  rw [hs']
  rfl

/-- A wheel of four places over a wrap of its index: two nodes of one deadline, one capped at
`max_time - 1`, one of a later deadline, and a clock that goes back in between. -/
theorem expires_exactly_four_places :
    ∃ s, Exec step Near (init 4 100) [.add 2, .pass 102, .add 9, .add 3, .pass 101, .add 1,
        .pass 103, .pass 106] s ∧
      s.passes.map (·.deleted) = [[], [], [0], [3, 1, 2]] ∧
      ∀ (j : ℕ) (r : PassRecord), s.passes[j]? = some r →
        ∀ p, p ∈ r.deleted ↔ ExpiresIn 4 s.births s.passes j r.now p := by
  have hrun : ∃ s, runIf step Near (init 4 100) [.add 2, .pass 102, .add 9, .add 3, .pass 101,
      .add 1, .pass 103, .pass 106] = some s ∧
      s.passes.map (·.deleted) = [[], [], [0], [3, 1, 2]] := ⟨_, rfl, by decide⟩
  obtain ⟨s, hs, hdel⟩ := hrun
  have h := exec_of_runIf hs
  exact ⟨s, h, hdel, fun j r hj => ((expires_exactly (by decide) h).2 j r hj).1⟩

end WebServer.TimeRound
