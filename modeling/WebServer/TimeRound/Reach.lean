import WebServer.Lib.Exec
import WebServer.TimeRound.Update

/-!
# Runs with updates

Runs of additions, updates and passes, with any thresholds, times and clock readings. `Sound w
slots` is their invariant: the wheel represents `slots`, with nothing in the time-out list, and
every node that was not deleted is in one of the slots.

* `update_relinks`: an update without interference takes one node to the end of its new bucket, and
  the node then becomes due with a node that is added with that time.
* `update_inside_iff`: an update stays inside the allocated buckets exactly when the bucket it
  computes is the one the node is in, or is allocated.
* `stall_expires_iff`: a pass after a stall deletes every node exactly when the last bucket has
  none.
-/

namespace WebServer.TimeRound

open WebServer.Lib Wheel Represents

namespace Wheel

variable {w w' : Wheel} {i : ℤ} {p : Ptr}

/-- Linking a node in makes no node live or dead, and keeps the places. -/
theorem linkNode_frame (h : w.linkNode p i = some w') :
    (∀ q, (w'.heap q).isSome = (w.heap q).isSome) ∧
      w'.timeRoundVector.length = w.timeRoundVector.length := by
  rw [linkNode] at h
  rcases hb : w.bucket i with _ | _ | ⟨_ | head, tail⟩
  · rw [hb] at h
    cases h
  · rw [hb] at h
    obtain rfl := Option.some.inj h
    exact ⟨fun q => rfl, List.length_set⟩
  · rw [hb] at h
    obtain rfl := Option.some.inj h
    exact ⟨fun q => rfl, List.length_set⟩
  · rw [hb] at h
    obtain ⟨last, -, h⟩ := Option.bind_eq_some_iff.mp h
    obtain ⟨lastNode, hlast, h⟩ := Option.bind_eq_some_iff.mp h
    obtain ⟨node, hnode, h⟩ := Option.bind_eq_some_iff.mp h
    obtain rfl := Option.some.inj h
    refine ⟨fun q => ?_, List.length_set⟩
    rw [setBucket_heap, setNode_isSome hnode, setNode_isSome hlast]

/-- Adding a node makes no other node live or dead, and keeps the places. -/
theorem addTimeRoundItemNode_frame (h : w.addTimeRoundItemNode (some p) = some w') :
    (∀ q, q ≠ p → (w'.heap q).isSome = (w.heap q).isSome) ∧
      w'.timeRoundVector.length = w.timeRoundVector.length := by
  obtain ⟨node, hnode, h⟩ := Option.bind_eq_some_iff.mp h
  split at h
  · obtain rfl := Option.some.inj h
    exact ⟨fun q hq => by rw [deleteNode_heap_of_ne w p hq], rfl⟩
  · obtain ⟨hlive, hlen⟩ := linkNode_frame h
    exact ⟨fun q _ => by rw [hlive, setNode_isSome hnode], hlen⟩

end Wheel

/-! ## The invariant -/

/-- The calls of a run. -/
inductive Call
  | add (timeThreod : ℤ)
  | update (p : Ptr) (time : ℤ)
  | pass (now : ℤ)
  deriving DecidableEq

namespace Wheel

/-- A call, run without interference. -/
def call (w : Wheel) : Call → Option Wheel
  | .add t => (w.newNode t).addTimeRoundItemNode (some w.fresh)
  | .update p time => w.updateTimeRoundItemNode p time
  | .pass now => w.pass now

/-- Only a node that is still there is updated. -/
def Linked (w : Wheel) : Call → Prop
  | .add _ => True
  | .update p _ => (w.heap p).isSome
  | .pass _ => True

/-- Only a node that is still there is updated, and not with a negative time. -/
def Forward (w : Wheel) : Call → Prop
  | .add _ => True
  | .update p time => (w.heap p).isSome ∧ 0 ≤ time
  | .pass _ => True

instance (w : Wheel) (c : Call) : Decidable (w.Linked c) := by
  cases c <;> unfold Linked <;> infer_instance

instance (w : Wheel) (c : Call) : Decidable (w.Forward c) := by
  cases c <;> unfold Forward <;> infer_instance

theorem Forward.linked {w : Wheel} {c : Call} (h : w.Forward c) : w.Linked c := by
  cases c with
  | add t => trivial
  | update p time => exact h.1
  | pass now => trivial

end Wheel

/-- The invariant of runs: the wheel represents `slots`, its live nodes are those of `slots`, and
the vector has `max_time` places. -/
structure Sound (w : Wheel) (slots : Calendar Ptr) : Prop where
  repr : Represents w slots []
  linked : ∀ p, (w.heap p).isSome → p ∈ slots.flatten
  places : w.timeRoundVector.length = w.maxTime

namespace Sound

variable {w w' : Wheel} {slots : Calendar Ptr} {p : Ptr}

theorem start_sound {maxTime : ℕ} (hmax : 1 ≤ maxTime) (now : ℤ) :
    Sound (start maxTime now) (List.replicate maxTime []) := by
  refine ⟨start_repr now hmax, fun p hp => ?_, by simp [start]⟩
  simp [start] at hp

/-- The live nodes are those of the slots. -/
theorem isSome_iff (h : Sound w slots) : (w.heap p).isSome ↔ p ∈ slots.flatten :=
  ⟨h.linked p, fun hp => h.repr.live (Or.inl hp)⟩

/-- Where a live node is. -/
theorem exists_slot (h : Sound w slots) (hp : (w.heap p).isSome) :
    ∃ (i : ℕ) (l₁ l₂ : List Ptr) (n : Node), slots[i]? = some (l₁ ++ p :: l₂) ∧
      w.heap p = some n ∧ n.index = i := by
  obtain ⟨l, hl, hpl⟩ := List.mem_flatten.mp (h.linked p hp)
  obtain ⟨i, hi⟩ := List.mem_iff_getElem?.mp hl
  obtain ⟨n, hn, hni⟩ := h.repr.index i l hi p hpl
  obtain ⟨l₁, l₂, rfl⟩ := List.append_of_mem hpl
  exact ⟨i, l₁, l₂, n, hi, hn, hni⟩

/-- An addition keeps the invariant. -/
theorem add_sound (h : Sound w slots) (t : ℤ) :
    ∃ w' slots', w.call (.add t) = some w' ∧ Sound w' slots' ∧ w'.maxTime = w.maxTime := by
  have hold : ∀ {w'}, w.call (.add t) = some w' → ∀ p, p ≠ w.fresh → (w'.heap p).isSome →
      p ∈ slots.flatten := by
    intro w' hw' p hpf hp
    rw [(addTimeRoundItemNode_frame hw').1 p hpf, newNode_heap_of_ne hpf] at hp
    exact h.linked p hp
  by_cases ht : 1 ≤ t
  · obtain ⟨w', slots', hw', hr, hcal, hc, -⟩ := h.repr.addTimeRoundItemNode_repr ht
    refine ⟨w', slots', hw', ⟨hr, fun p hp => ?_, ?_⟩, hc.maxTime⟩
    swap
    · exact ((addTimeRoundItemNode_frame hw').2.trans h.places).trans hc.maxTime.symm
    have hahead : ahead w.maxTime t < (calendar w slots).length := by
      have := h.repr.curIndex_nonneg
      have := h.repr.curIndex_lt
      rw [h.repr.length_calendar, ahead]
      omega
    rw [← mem_calendar (w := w'), hcal, Calendar.mem_flatten_add hahead, mem_calendar]
    by_cases hpf : p = w.fresh
    · exact Or.inl hpf
    · exact Or.inr (hold hw' p hpf hp)
  · have hw' : w.call (.add t) = some ((w.newNode t).deleteNode w.fresh) := by
      simp [call, addTimeRoundItemNode, newNode_heap, show t ≤ 0 by omega]
    obtain ⟨w'', hw'', hr, -⟩ := h.repr.addTimeRoundItemNode_nonpos (t := t) (by omega)
    obtain rfl := Option.some.inj (hw''.symm.trans hw')
    refine ⟨_, slots, hw', ⟨hr, fun p hp => ?_, h.places⟩, rfl⟩
    by_cases hpf : p = w.fresh
    · simp [deleteNode, hpf] at hp
    · exact hold hw' p hpf hp

/-- A pass keeps the invariant. -/
theorem pass_sound (h : Sound w slots) (now : ℤ) :
    ∃ w' slots', w.pass now = some w' ∧ Sound w' slots' ∧ w'.maxTime = w.maxTime ∧
      w'.deleted = w.deleted ++ (calendar w slots).due (ticks w now) := by
  obtain ⟨w', slots', hw', hr, hcal, hdel, hlive, hlen, hmax, -, -⟩ := h.repr.pass_ticks now
  refine ⟨w', slots', hw', ⟨hr, fun p hp => ?_, (hlen.trans h.places).trans hmax.symm⟩, hmax, hdel⟩
  obtain ⟨hp, hdue⟩ := hlive p hp
  have hmem := mem_calendar (w := w).mpr (h.linked p hp)
  rw [← Calendar.due_append_flatten_advance _ (ticks w now)] at hmem
  rw [← mem_calendar (w := w'), hcal]
  exact (List.mem_append.mp hmem).resolve_left hdue

/-- An update that is defined keeps the invariant. -/
theorem update_sound (h : Sound w slots) {time : ℤ} (hp : (w.heap p).isSome)
    (hu : w.updateTimeRoundItemNode p time = some w') :
    ∃ slots', Sound w' slots' ∧ w'.maxTime = w.maxTime := by
  obtain ⟨i, l₁, l₂, n, hi, hn, -⟩ := h.exists_slot hp
  rw [h.repr.update_eq hi] at hu
  split at hu
  · obtain rfl := Option.some.inj hu
    exact ⟨slots, h, rfl⟩
  · rename_i hne
    by_cases ha : w.Allocated (w.newIndex time)
    · obtain ⟨j, l, hj, hl⟩ := h.repr.exists_slot_of_allocated ha
      rw [hj] at hu hne ha
      have hij : i ≠ j := by omega
      rw [h.repr.relocate_eq hi hl hij hn ha] at hu
      obtain rfl := Option.some.inj hu
      refine ⟨_, ⟨h.repr.relocated_repr hi hl hij rfl, fun q hq => ?_, ?_⟩, rfl⟩
      · rw [relocated_isSome hp] at hq
        exact (h.repr.mem_flatten_move hi hl).mpr (h.linked q hq)
      · simp [relocated, placed, setBucket, h.places]
    · rw [relocate_eq_none ha] at hu
      cases hu

end Sound

/-- **The invariant of runs** whose updates are on nodes that are still there. -/
theorem exec_sound {maxTime : ℕ} (hmax : 1 ≤ maxTime) {now : ℤ} {calls : List Call} {w : Wheel}
    (h : Exec call Linked (start maxTime now) calls w) :
    w.maxTime = maxTime ∧ ∃ slots, Sound w slots := by
  refine h.invariant (I := fun w => w.maxTime = maxTime ∧ ∃ slots, Sound w slots)
    ⟨rfl, _, Sound.start_sound hmax now⟩ ?_
  rintro u c v ⟨rfl, slots, hu⟩ hlinked hstep
  cases c with
  | add t =>
    obtain ⟨v', slots', hv', hs, hmax⟩ := hu.add_sound t
    obtain rfl := Option.some.inj (hstep.symm.trans hv')
    exact ⟨hmax, slots', hs⟩
  | update p time =>
    obtain ⟨slots', hs, hmax⟩ := hu.update_sound hlinked hstep
    exact ⟨hmax, slots', hs⟩
  | pass now =>
    obtain ⟨v', slots', hv', hs, hmax, -⟩ := hu.pass_sound now
    obtain rfl := Option.some.inj (hstep.symm.trans hv')
    exact ⟨hmax, slots', hs⟩

/-! ## Updates without interference -/

/-- The place `time` seconds ahead, and the bucket of the calendar it stands for. -/
theorem getElem?_calendar {w : Wheel} {slots : Calendar Ptr} {out b : List Ptr} {j : ℕ} {time : ℤ}
    (h : Represents w slots out) (hj : slots[j]? = some b) (ht : 0 ≤ time)
    (hjt : (j : ℤ) = (w.curIndex + min time (w.maxTime - 1)) % w.maxTime) :
    (calendar w slots)[ahead w.maxTime time]? = some b := by
  have hnn := h.curIndex_nonneg
  have hlt := h.curIndex_lt
  have hsize := h.size
  have hahead : ahead w.maxTime time < slots.length := by
    rw [ahead]
    omega
  rw [calendar, List.getElem?_rotate hahead, ← hj]
  congr 1
  zify
  rw [hjt, hsize, ahead, Int.toNat_of_nonneg hnn, Int.toNat_of_nonneg (by omega), add_comm]

/-- A node `time` places ahead becomes due with a new node that is added with that time. -/
theorem due_with_added {w : Wheel} {slots : Calendar Ptr} {b : List Ptr} {p : Ptr} {time : ℤ}
    (h : Represents w slots []) (hb : (calendar w slots)[ahead w.maxTime time]? = some b)
    (hp : p ∈ b) (ht : 1 ≤ time) :
    ∃ w', w.call (.add time) = some w' ∧ ∀ d ≤ w.maxTime, ∃ w'' slots'' out,
      tickLoop d w' = some w'' ∧ Represents w'' slots'' out ∧
        (p ∈ out ↔ ahead w.maxTime time < d) ∧ (w.fresh ∈ out ↔ ahead w.maxTime time < d) := by
  obtain ⟨w', slots', hw', h', hcal, hc, -⟩ := h.addTimeRoundItemNode_repr ht
  have hmax : w'.maxTime = w.maxTime := hc.maxTime
  refine ⟨w', hw', fun d hd => ?_⟩
  obtain ⟨w'', slots'', hw'', h'', -⟩ := h'.tickLoop_repr (d := d) (by omega)
  have hb' : (calendar w' slots')[ahead w.maxTime time]? = some (b ++ [w.fresh]) := by
    rw [hcal, Calendar.getElem?_add, hb]
    simp
  have hnd := h'.nodup_calendar
  refine ⟨w'', slots'', _, hw'', h'', ?_, ?_⟩
  · exact Calendar.mem_due_iff_lt hnd hb' (by simp [hp])
  · exact Calendar.mem_due_iff_lt hnd hb' (by simp)

/-- An update whose bucket is allocated: the node is in that bucket, and nothing else moved. -/
theorem update_repr {w : Wheel} {slots : Calendar Ptr} {out l₁ l₂ : List Ptr} {i j : ℕ} {p : Ptr}
    {time : ℤ} (h : Represents w slots out) (hi : slots[i]? = some (l₁ ++ p :: l₂))
    (hnew : w.newIndex time = j) (ha : w.Allocated j) :
    ∃ w', w.updateTimeRoundItemNode p time = some w' ∧
      Represents w' (if j = i then slots else slots.move i j p) out ∧
      SameClock w w' ∧ w'.curIndex = w.curIndex ∧ w'.deleted = w.deleted ∧
      ∃ b, (if j = i then slots else slots.move i j p)[j]? = some b ∧ p ∈ b := by
  have hupd := h.update_eq hi time
  obtain ⟨j', l, hj', hl⟩ := h.exists_slot_of_allocated (hnew.symm ▸ ha)
  obtain rfl : j = j' := by omega
  rw [hnew] at hupd
  by_cases hij : j = i
  · subst hij
    rw [if_pos rfl] at hupd ⊢
    exact ⟨w, hupd, h, .refl w, rfl, rfl, _, hi, by simp⟩
  · obtain ⟨n, hn, -⟩ := h.index i _ hi p (by simp)
    rw [if_neg (by omega), h.relocate_eq hi hl (Ne.symm hij) hn ha] at hupd
    rw [if_neg hij]
    refine ⟨_, hupd, h.relocated_repr hi hl (Ne.symm hij) rfl, ⟨rfl, rfl, rfl⟩, rfl, rfl,
      l ++ [p], ?_, by simp⟩
    rw [h.move_eq hi, Calendar.getElem?_add, List.getElem?_set_ne (Ne.symm hij), hl]
    simp

/-- **Update relinks one node and nothing else.** In every state reached by additions, passes and
updates of nodes that are still there with a time that is not negative, the wheel represents its
live nodes, in buckets. There, an update of the node `p` of bucket `i` with a time that is not
negative, whose bucket `j` is allocated: the wheel represents the same slots when `j = i`, and
otherwise the slots with `p` taken out of bucket `i` and put at the end of bucket `j`. When the time
is positive, `p` then becomes due at the same tick as a new node that is added with that time. -/
theorem update_relinks {maxTime : ℕ} (hmax : 1 ≤ maxTime) {now : ℤ} {calls : List Call} {w : Wheel}
    (h : Exec call Forward (start maxTime now) calls w) :
    ∃ slots, Represents w slots [] ∧ (∀ p, (w.heap p).isSome ↔ p ∈ slots.flatten) ∧
      ∀ (i j : ℕ) (l : List Ptr) (p : Ptr) (time : ℤ), slots[i]? = some l → p ∈ l → 0 ≤ time →
        (j : ℤ) = (w.curIndex + min time (maxTime - 1)) % maxTime → w.Allocated j →
        ∃ w', w.updateTimeRoundItemNode p time = some w' ∧
          Represents w' (if j = i then slots else slots.move i j p) [] ∧
          SameClock w w' ∧ w'.curIndex = w.curIndex ∧ w'.deleted = w.deleted ∧
          (1 ≤ time → ∃ w'', w'.call (.add time) = some w'' ∧
            ∀ d ≤ maxTime, ∃ v slots' out, tickLoop d w'' = some v ∧ Represents v slots' out ∧
              (p ∈ out ↔ ahead maxTime time < d) ∧ (w'.fresh ∈ out ↔ ahead maxTime time < d)) := by
  obtain ⟨rfl, slots, hs⟩ := exec_sound hmax (h.mono fun _ _ => Forward.linked)
  refine ⟨slots, hs.repr, fun p => hs.isSome_iff, ?_⟩
  intro i j l p time hi hp ht hjt ha
  obtain ⟨l₁, l₂, rfl⟩ := List.append_of_mem hp
  have hnew : w.newIndex time = j := by
    have := hs.repr.curIndex_nonneg
    rw [newIndex_eq, hjt, Int.tmod_eq_emod_of_nonneg (by omega)]
  obtain ⟨w', hw', h', hc, hcur, hdel, b, hb, hpb⟩ := update_repr hs.repr hi hnew ha
  refine ⟨w', hw', h', hc, hcur, hdel, fun ht1 => ?_⟩
  rw [← hc.maxTime]
  refine due_with_added h' (getElem?_calendar h' hb ht ?_) hpb ht1
  rw [hcur, hc.maxTime, hjt]

/-- A node between two others of its bucket is moved to a bucket that holds a node already. -/
theorem update_relinks_three_places :
    ∃ w slots w', Exec call Forward (start 3 0) [.add 1, .add 1, .add 2, .add 1] w ∧
      Represents w slots [] ∧ w.updateTimeRoundItemNode 1 2 = some w' ∧
      Represents w' (slots.move 1 2 1) [] := by
  have hrun : ∃ w, runIf call Forward (start 3 0) [.add 1, .add 1, .add 2, .add 1] = some w ∧
      w.heap 1 = some ⟨some 0, some 3, 1, 1⟩ ∧ w.Allocated 2 ∧ w.curIndex = 0 :=
    ⟨_, rfl, by decide, by decide, by decide⟩
  obtain ⟨w, hw, hnode, ha, hcur⟩ := hrun
  have h := exec_of_runIf hw
  obtain ⟨slots, hr, hlive, hall⟩ := update_relinks (by decide) h
  obtain ⟨l, hl, hp⟩ := List.mem_flatten.mp ((hlive 1).mp (by rw [hnode]; rfl))
  obtain ⟨i, hi⟩ := List.mem_iff_getElem?.mp hl
  obtain ⟨n, hn, hni⟩ := hr.index i l hi 1 hp
  obtain rfl : i = 1 := by
    obtain rfl := Option.some.inj (hnode.symm.trans hn)
    dsimp only at hni
    omega
  obtain ⟨w', hw', hr', -⟩ := hall 1 2 l 1 2 hi hp (by decide) (by rw [hcur]; decide) ha
  exact ⟨w, slots, w', h, hr, hw', hr'⟩

/-! ## Missing buckets -/

/-- The places of the vector that `UpdateTimeRoundItemNode` looks at. -/
def Wheel.accessed (w : Wheel) (p : Ptr) (time : ℤ) : List ℤ :=
  match w.heap p with
  | none => []
  | some node =>
    let index := node.index
    let newIndex := w.newIndex time
    if newIndex = index then [] else [index, newIndex]

/-- **When an update touches existing buckets only.** In every state reached by additions, passes
and updates of nodes that are still there, an update of a live node, with any time, looks at places
of the vector only, and at allocated ones, exactly when the place it computes is the one the node is
in or is allocated; and exactly then it has a defined result. -/
theorem update_inside_iff {maxTime : ℕ} (hmax : 1 ≤ maxTime) {now : ℤ} {calls : List Call}
    {w : Wheel} (h : Exec call Linked (start maxTime now) calls w) {p : Ptr} {n : Node}
    (hn : w.heap p = some n) (time : ℤ) :
    ((∀ i ∈ w.accessed p time, 0 ≤ i ∧ i < maxTime ∧ w.Allocated i) ↔
      (w.curIndex + min time (maxTime - 1)).tmod maxTime = n.index ∨
        w.Allocated ((w.curIndex + min time (maxTime - 1)).tmod maxTime)) ∧
    ((w.updateTimeRoundItemNode p time).isSome ↔
      (w.curIndex + min time (maxTime - 1)).tmod maxTime = n.index ∨
        w.Allocated ((w.curIndex + min time (maxTime - 1)).tmod maxTime)) := by
  obtain ⟨rfl, slots, hs⟩ := exec_sound hmax h
  obtain ⟨i, l₁, l₂, n', hi, hn', hni⟩ := hs.exists_slot (p := p) (by simp [hn])
  obtain rfl := Option.some.inj (hn.symm.trans hn')
  have haccessed : w.accessed p time =
      if w.newIndex time = i then [] else [(i : ℤ), w.newIndex time] := by
    rw [accessed, hn]
    dsimp only
    rw [hni]
  -- the place the node is in
  have hown : 0 ≤ (i : ℤ) ∧ (i : ℤ) < w.maxTime ∧ w.Allocated i := by
    have hlt := (List.getElem?_eq_some_iff.mp hi).1
    have hsize := hs.repr.size
    obtain ⟨b, hb, -⟩ := hs.repr.exists_bucket hi (by simp)
    exact ⟨by omega, by omega, b, by rw [bucket_natCast, hb]⟩
  rw [← newIndex_eq, haccessed, hs.repr.update_eq hi, hni]
  by_cases hnew : w.newIndex time = i
  · simp [hnew]
  · rw [if_neg hnew, if_neg hnew]
    simp only [hnew, false_or]
    by_cases ha : w.Allocated (w.newIndex time)
    · obtain ⟨j, l, hj, hl⟩ := hs.repr.exists_slot_of_allocated ha
      have hlt := hs.repr.newIndex_lt time
      rw [hj] at ha hnew hlt ⊢
      rw [hs.repr.relocate_eq hi hl (by omega) hn ha]
      refine ⟨iff_of_true ?_ ha, iff_of_true rfl ha⟩
      simp only [List.forall_mem_cons, List.not_mem_nil, false_implies, implies_true, and_true]
      exact ⟨hown, by omega, hlt, ha⟩
    · rw [relocate_eq_none ha]
      refine ⟨iff_of_false (fun hall => ha ?_) ha, iff_of_false (by simp) ha⟩
      exact (hall (w.newIndex time) (by simp)).2.2

/-- The bucket three places ahead is allocated by an addition. -/
theorem update_inside_iff_allocated :
    ∃ w, Exec call Linked (start 4 0) [.add 1, .add 3] w ∧
      (∀ i ∈ w.accessed 0 3, 0 ≤ i ∧ i < (4 : ℕ) ∧ w.Allocated i) ∧
      (w.updateTimeRoundItemNode 0 3).isSome := by
  have hrun : ∃ w, runIf call Linked (start 4 0) [.add 1, .add 3] = some w ∧
      w.heap 0 = some ⟨none, none, 1, 1⟩ ∧ w.Allocated ((w.curIndex + min 3 (4 - 1)).tmod 4) :=
    ⟨_, rfl, by decide, by decide⟩
  obtain ⟨w, hw, hnode, ha⟩ := hrun
  have h := exec_of_runIf hw
  obtain ⟨hinside, hdefined⟩ := update_inside_iff (by decide) h hnode 3
  exact ⟨w, h, hinside.mpr (Or.inr ha), hdefined.mpr (Or.inr ha)⟩

/-- No node was ever added two places ahead: the pointer there is null, and is dereferenced. -/
theorem update_null_bucket :
    ∃ w, Exec call Linked (start 3 0) [.add 1] w ∧ (w.heap 0).isSome ∧
      ¬(∀ i ∈ w.accessed 0 2, 0 ≤ i ∧ i < (3 : ℕ) ∧ w.Allocated i) ∧
      w.updateTimeRoundItemNode 0 2 = none := by
  have hrun : ∃ w, runIf call Linked (start 3 0) [.add 1] = some w ∧ (w.heap 0).isSome ∧
      ¬(∀ i ∈ w.accessed 0 2, 0 ≤ i ∧ i < (3 : ℕ) ∧ w.Allocated i) ∧
      (w.updateTimeRoundItemNode 0 2).isSome = false :=
    ⟨_, rfl, by decide, by decide, by decide⟩
  obtain ⟨w, hw, hlive, hout, hnone⟩ := hrun
  exact ⟨w, exec_of_runIf hw, hlive, hout, by simpa using hnone⟩

/-! ## A stall -/

/-- **When a pass after a stall expires everything.** In every state reached, a pass whose reading
is `max_time` seconds or more ahead of `cur_time` deletes every node that was there exactly when the
place before `cur_index`, which its `max_time - 1` ticks do not come to, holds no node. -/
theorem stall_expires_iff {maxTime : ℕ} (hmax : 2 ≤ maxTime) {now : ℤ} {calls : List Call}
    {w : Wheel} (h : Exec call Linked (start maxTime now) calls w) {reading : ℤ}
    (hstall : w.curTime + maxTime ≤ reading) :
    ∃ w', w.pass reading = some w' ∧
      ((∀ p, (w.heap p).isSome → p ∈ w'.deleted.drop w.deleted.length) ↔
        ∀ b, w.bucket ((w.curIndex + maxTime - 1) % maxTime) = some (some b) → b.head = none) := by
  obtain ⟨rfl, slots, hs⟩ := exec_sound (by omega) h
  obtain ⟨w', slots', hw', -, -, hdel⟩ := hs.pass_sound reading
  refine ⟨w', hw', ?_⟩
  have hnn := hs.repr.curIndex_nonneg
  have hlt := hs.repr.curIndex_lt
  have hsize := hs.repr.size
  have hticks : ticks w reading = w.maxTime - 1 := by
    rw [ticks]
    omega
  rw [hdel, List.drop_left, hticks]
  -- the place the ticks do not come to is the last bucket of the calendar
  obtain ⟨k, hk⟩ : ∃ k : ℕ, (k : ℤ) = (w.curIndex + w.maxTime - 1) % w.maxTime :=
    ⟨_, Int.toNat_of_nonneg (Int.emod_nonneg _ (by omega))⟩
  have hklt : k < slots.length := by
    have := Int.emod_lt_of_pos (w.curIndex + w.maxTime - 1) (show (0 : ℤ) < w.maxTime by omega)
    omega
  have hk' : slots[k]? = some slots[k] := List.getElem?_eq_getElem hklt
  have hlast : (calendar w slots)[w.maxTime - 1]? = some slots[k] := by
    have hmin : min ((w.maxTime : ℤ) - 1) (w.maxTime - 1) = w.maxTime - 1 := min_self _
    have hplace : (k : ℤ) =
        (w.curIndex + min ((w.maxTime : ℤ) - 1) (w.maxTime - 1)) % w.maxTime := by
      rw [hk, hmin, add_sub_assoc]
    have hcal := getElem?_calendar hs.repr hk' (by omega) hplace
    rw [ahead, hmin] at hcal
    rw [← hcal]
    congr 1
    omega
  have hempty : (∀ b, w.bucket ((w.curIndex + w.maxTime - 1) % w.maxTime) = some (some b) →
      b.head = none) ↔ slots[k] = [] := by
    rw [← hk, bucket_natCast]
    rcases hs.repr.bucket_cases hk' with ⟨hv, hnil⟩ | ⟨b, hv, hd⟩
    · simp [hv, hnil]
    · simp [hv, hd.head_eq]
  rw [hempty]
  constructor
  · intro hall
    by_contra hne
    obtain ⟨p, hp⟩ := List.exists_mem_of_ne_nil _ hne
    have hdue := hall p (hs.isSome_iff.mpr (mem_flatten_of_getElem? hk' hp))
    exact lt_irrefl _ ((Calendar.mem_due_iff_lt hs.repr.nodup_calendar hlast hp).mp hdue)
  · intro hnil p hp
    obtain ⟨b, hb, hpb⟩ := List.mem_flatten.mp (mem_calendar (w := w).mpr (hs.linked p hp))
    obtain ⟨m, hm⟩ := List.mem_iff_getElem?.mp hb
    have hmlt := (List.getElem?_eq_some_iff.mp hm).1
    rw [hs.repr.length_calendar] at hmlt
    apply (Calendar.mem_due_iff_lt hs.repr.nodup_calendar hm hpb).mpr
    by_contra hge
    obtain rfl : m = w.maxTime - 1 := by omega
    rw [hlast, hnil] at hm
    obtain rfl := Option.some.inj hm
    simp at hpb

/-- A node for one second, and a stall of four. -/
theorem stall_expires_iff_short :
    ∃ w w', Exec call Linked (start 3 100) [.add 1, .pass 101] w ∧ w.pass 105 = some w' ∧
      ∀ p, (w.heap p).isSome → p ∈ w'.deleted.drop w.deleted.length := by
  have hrun : ∃ w, runIf call Linked (start 3 100) [.add 1, .pass 101] = some w ∧
      w.curTime = 101 ∧ w.bucket ((w.curIndex + (3 : ℕ) - 1) % (3 : ℕ)) = some none :=
    ⟨_, rfl, by decide, by decide⟩
  obtain ⟨w, hw, htime, hlast⟩ := hrun
  have h := exec_of_runIf hw
  have hstall : w.curTime + (3 : ℕ) ≤ 105 := by
    rw [htime]
    decide
  obtain ⟨w', hw', hiff⟩ := stall_expires_iff (by decide) h hstall
  refine ⟨w, w', h, hw', hiff.mpr ?_⟩
  rw [hlast]
  intro b hb
  cases hb

/-- The constructor is called for one second, so there are two places. A node that is added for one
second is due two seconds later, and a pass three seconds later does not delete it. -/
theorem stall_keeps_last :
    ∃ w w', Exec call Linked (start 2 100) [.add 1] w ∧ w.curTime + 2 ≤ 103 ∧
      w.pass 103 = some w' ∧ ¬∀ p, (w.heap p).isSome → p ∈ w'.deleted.drop w.deleted.length := by
  have hrun : ∃ w w', runIf call Linked (start 2 100) [.add 1] = some w ∧ w.curTime + 2 ≤ 103 ∧
      w.pass 103 = some w' ∧ (w.heap 0).isSome ∧ w'.deleted = [] :=
    ⟨_, _, rfl, by decide, rfl, by decide, by decide⟩
  obtain ⟨w, w', hw, htime, hw', hlive, hdel⟩ := hrun
  refine ⟨w, w', exec_of_runIf hw, htime, hw', fun hall => ?_⟩
  have hmem := hall 0 hlive
  rw [hdel, List.drop_nil] at hmem
  exact List.not_mem_nil hmem

end WebServer.TimeRound
