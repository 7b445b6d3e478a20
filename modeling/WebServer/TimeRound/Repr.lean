import Mathlib.Data.List.Perm.Subperm
import Mathlib.Tactic.Linarith
import WebServer.Lib.Calendar
import WebServer.Lib.Linked
import WebServer.TimeRound.Wheel

/-!
# The wheel represents a calendar

`Represents w slots out` relates the pointers of a wheel to the lists they stand for: place `i` of
the vector is a null pointer or a well-formed doubly linked list of the nodes `slots[i]`, each of
which carries the index `i`, and `time_out_event_list` is a forward chain of the nodes `out`. No
node occurs twice.

Each operation is defined on a represented wheel, and its effect is read off the lists:

* `addToTimeOutList_repr`: the list at a place moves to the end of the time-out list;
* `tickLoop_repr`: seen from `cur_index`, the slots are a calendar, and the tick loop advances it;
* `handleTimeOutList_repr`: the time-out list is deleted, in its order;
* `addTimeRoundItemNode_repr`: a new node goes to the end of the list `min(t, max_time - 1)` places
  ahead.
-/

namespace WebServer.TimeRound

open WebServer.Lib Wheel

/-- What a place of the vector stands for. -/
def IsBucket (w : Wheel) (l : List Ptr) : Option (Option ItemList) → Prop
  | none => False
  | some none => l = []
  | some (some b) => Double w.pre w.next b.head b.tail l

/-- The representation invariant. -/
structure Represents (w : Wheel) (slots : Calendar Ptr) (out : List Ptr) : Prop where
  size : slots.length = w.maxTime
  curIndex_nonneg : 0 ≤ w.curIndex
  curIndex_lt : w.curIndex < w.maxTime
  bucket : ∀ (i : ℕ) (l : List Ptr), slots[i]? = some l → IsBucket w l w.timeRoundVector[i]?
  timeOut : Single w.next w.timeOutEventList.head w.timeOutEventList.tail out
  index : ∀ (i : ℕ) (l : List Ptr), slots[i]? = some l →
    ∀ p ∈ l, ∃ n, w.heap p = some n ∧ n.index = i
  out_live : ∀ p ∈ out, (w.heap p).isSome
  nodup : (slots.flatten ++ out).Nodup
  lt_fresh : ∀ p, (w.heap p).isSome → p < w.fresh

/-- The parts of a wheel that moving nodes between its lists leaves alone. -/
structure SameClock (w w' : Wheel) : Prop where
  maxTime : w'.maxTime = w.maxTime
  curTime : w'.curTime = w.curTime
  fresh : w'.fresh = w.fresh

theorem SameClock.refl (w : Wheel) : SameClock w w := ⟨rfl, rfl, rfl⟩

theorem SameClock.trans {w₁ w₂ w₃ : Wheel} (h : SameClock w₁ w₂) (h' : SameClock w₂ w₃) :
    SameClock w₁ w₃ :=
  ⟨h'.maxTime.trans h.maxTime, h'.curTime.trans h.curTime, h'.fresh.trans h.fresh⟩

theorem IsBucket.congr {w w' : Wheel} {l : List Ptr} {b : Option (Option ItemList)}
    (h : IsBucket w l b) (hn : ∀ p ∈ l, w'.next p = w.next p) (hp : ∀ p ∈ l, w'.pre p = w.pre p) :
    IsBucket w' l b := by
  match b with
  | none => exact h
  | some none => exact h
  | some (some b) => exact Double.congr h hn hp

namespace Represents

variable {w : Wheel} {slots : Calendar Ptr} {out : List Ptr} {i j : ℕ} {l l' : List Ptr} {p : Ptr}

theorem start_repr {maxTime : ℕ} (now : ℤ) (h : 1 ≤ maxTime) :
    Represents (start maxTime now) (List.replicate maxTime []) [] where
  size := by simp [start]
  curIndex_nonneg := le_rfl
  curIndex_lt := by
    simp only [start]
    exact_mod_cast h
  bucket := by
    intro i l hl
    obtain ⟨hi, rfl⟩ : i < maxTime ∧ [] = l := by simpa [List.getElem?_replicate] using hl
    simp [start, hi, IsBucket]
  timeOut := .nil
  index := by
    intro i l hl p hp
    obtain rfl := List.eq_of_mem_replicate (List.mem_of_getElem? hl)
    simp at hp
  out_live := by simp
  nodup := by simp
  lt_fresh := by simp [start]

theorem mem_flatten_of_getElem? (hi : slots[i]? = some l) (hp : p ∈ l) : p ∈ slots.flatten :=
  List.mem_flatten_of_mem (List.mem_of_getElem? hi) hp

/-- Nodes of the slots are not in the time-out list. -/
theorem not_mem_out (h : Represents w slots out) (hp : p ∈ slots.flatten) : p ∉ out := fun ho =>
  (List.nodup_append.mp h.nodup).2.2 p hp p ho rfl

/-- A node is in one slot only. -/
theorem slot_unique (h : Represents w slots out) (hi : slots[i]? = some l)
    (hj : slots[j]? = some l') (hp : p ∈ l) (hp' : p ∈ l') : i = j := by
  obtain ⟨n, hn, hni⟩ := h.index i l hi p hp
  obtain ⟨n', hn', hnj⟩ := h.index j l' hj p hp'
  obtain rfl := Option.some.inj (hn.symm.trans hn')
  omega

theorem live (h : Represents w slots out) (hp : p ∈ slots.flatten ∨ p ∈ out) :
    (w.heap p).isSome := by
  rcases hp with hp | hp
  · obtain ⟨l, hl, hpl⟩ := List.mem_flatten.mp hp
    obtain ⟨i, hi⟩ := List.mem_iff_getElem?.mp hl
    obtain ⟨n, hn, -⟩ := h.index i l hi p hpl
    simp [hn]
  · exact h.out_live p hp

theorem fresh_not_mem (h : Represents w slots out) : w.fresh ∉ slots.flatten ∧ w.fresh ∉ out :=
  ⟨fun hp => lt_irrefl _ (h.lt_fresh _ (h.live (Or.inl hp))),
    fun hp => lt_irrefl _ (h.lt_fresh _ (h.live (Or.inr hp)))⟩

/-- The place `cur_index` points at. -/
theorem exists_curIndex (h : Represents w slots out) :
    ∃ i : ℕ, w.curIndex = i ∧ i < slots.length := by
  obtain ⟨i, hi⟩ := Int.eq_ofNat_of_zero_le h.curIndex_nonneg
  have := h.curIndex_lt
  have := h.size
  exact ⟨i, hi, by omega⟩

theorem bucket_natCast (w : Wheel) (i : ℕ) : w.bucket i = w.timeRoundVector[i]? := by
  simp [Wheel.bucket]

/-! ## Moving a list to the time-out list -/

/-- Emptying a slot into the time-out list keeps nodes distinct. -/
theorem nodup_move (hd : (slots.flatten ++ out).Nodup) (hi : slots[i]? = some l) :
    ((slots.set i []).flatten ++ (out ++ l)).Nodup := by
  obtain ⟨hlt, rfl⟩ := List.getElem?_eq_some_iff.mp hi
  have e₁ : slots = slots.take i ++ slots[i] :: slots.drop (i + 1) := by simp
  have e₂ : slots.set i [] = slots.take i ++ [] :: slots.drop (i + 1) := by
    rw [List.set_eq_take_append_cons_drop, if_pos hlt]
  refine (List.Perm.nodup_iff ?_).mp hd
  rw [e₂]
  conv_lhs => rw [e₁]
  simp only [List.flatten_append, List.flatten_cons, List.nil_append, List.append_assoc]
  refine List.Perm.append_left _ (List.perm_append_comm.trans ?_)
  rw [List.append_assoc]

theorem getElem?_set_nil (hj : (slots.set i [])[j]? = some l) :
    (j = i ∧ l = []) ∨ (j ≠ i ∧ slots[j]? = some l) := by
  rw [List.getElem?_set] at hj
  split at hj
  · rename_i e
    split at hj
    · exact Or.inl ⟨e.symm, (Option.some.inj hj).symm⟩
    · cases hj
  · rename_i e
    exact Or.inr ⟨Ne.symm e, hj⟩

/-- A node of a slot keeps its links when the end of the time-out list is relinked. -/
theorem next_setNode_of_mem (h : Represents w slots out) {last : Ptr} (hlast : last ∈ out)
    (n : Node) (hp : p ∈ slots.flatten) : (w.setNode last n).next p = w.next p := by
  have hne : p ≠ last := fun e => h.not_mem_out hp (e ▸ hlast)
  rw [setNode_next, Function.update_of_ne hne]

/-- The wheel whose place `i` was emptied and whose heap and time-out list were relinked. -/
def moved (w : Wheel) (i : ℤ) (heap : Ptr → Option Node) (ends : ItemList) : Wheel :=
  { w.setBucket i ⟨none, none⟩ with heap := heap, timeOutEventList := ends }

/-- A place was emptied into the time-out list: what is left to check is that time-out list. -/
theorem moved_repr (h : Represents w slots out) (hi : slots[i]? = some l) (heap : Ptr → Option Node)
    (ends : ItemList) (hnext : ∀ p ∈ slots.flatten, (moved w i heap ends).next p = w.next p)
    (hheap : ∀ p, (heap p).map (fun n => (n.pre, n.index)) =
      (w.heap p).map fun n => (n.pre, n.index))
    (hout : Single (moved w i heap ends).next ends.head ends.tail (out ++ l)) :
    Represents (moved w i heap ends) (slots.set i []) (out ++ l) := by
  have hlive : ∀ p, (heap p).isSome = (w.heap p).isSome := by
    intro p
    have := congrArg Option.isSome (hheap p)
    simpa using this
  have hpre : ∀ p, (moved w i heap ends).pre p = w.pre p := by
    intro p
    have := congrArg (fun o => o.bind Prod.fst) (hheap p)
    simp only [Option.bind_map] at this
    exact this
  have hsub : ∀ {j : ℕ} {l' : List Ptr}, slots[j]? = some l' → ∀ p ∈ l', p ∈ slots.flatten :=
    fun hj p hp => mem_flatten_of_getElem? hj hp
  refine ⟨?_, h.curIndex_nonneg, h.curIndex_lt, ?_, hout, ?_, ?_, nodup_move h.nodup hi, ?_⟩
  · rw [List.length_set, h.size]
    rfl
  · intro j l' hj
    rcases getElem?_set_nil hj with ⟨rfl, rfl⟩ | ⟨hji, hj⟩
    · -- the emptied place holds a list without nodes
      have hlt : j < w.timeRoundVector.length := by
        by_contra hge
        have hb := h.bucket j l hi
        rw [List.getElem?_eq_none (by omega)] at hb
        exact hb
      have e : (moved w j heap ends).timeRoundVector[j]? = some (some ⟨none, none⟩) := by
        simp [moved, setBucket, hlt]
      rw [e]
      exact Double.nil
    · have e : (moved w i heap ends).timeRoundVector[j]? = w.timeRoundVector[j]? := by
        simp [moved, setBucket, Ne.symm hji]
      rw [e]
      exact (h.bucket j l' hj).congr (fun p hp => hnext p (hsub hj p hp)) fun p _ => hpre p
  · intro j l' hj p hp
    rcases getElem?_set_nil hj with ⟨-, rfl⟩ | ⟨-, hj⟩
    · simp at hp
    · obtain ⟨n, hn, hni⟩ := h.index j l' hj p hp
      have := hheap p
      rw [hn] at this
      obtain ⟨n', hn', e⟩ := Option.map_eq_some_iff.mp this
      exact ⟨n', hn', by rw [← hni, ← (Prod.mk.inj e).2]⟩
  · intro p hp
    apply (hlive p).trans
    rcases List.mem_append.mp hp with hp | hp
    · exact h.out_live p hp
    · exact h.live (Or.inl (hsub hi p hp))
  · intro p hp
    exact h.lt_fresh p ((hlive p).symm.trans hp)

/-- **`AddToTimeOutList`** moves the list at a place to the end of the time-out list. -/
theorem addToTimeOutList_repr (h : Represents w slots out) (hi : slots[i]? = some l) :
    ∃ w', w.addToTimeOutList i = some w' ∧ Represents w' (slots.set i []) (out ++ l) ∧
      SameClock w w' ∧ w'.curIndex = w.curIndex ∧ w'.deleted = w.deleted := by
  have hb := h.bucket i l hi
  have hset : l = [] → slots.set i [] = slots := by
    rintro rfl
    obtain ⟨hlt, e⟩ := List.getElem?_eq_some_iff.mp hi
    conv_lhs => rw [← e]
    exact List.set_getElem_self hlt
  have hsame : l = [] → Represents w (slots.set i []) (out ++ l) := by
    intro e
    rw [hset e, e, List.append_nil]
    exact h
  match hv : w.timeRoundVector[i]? with
  | none => simp [hv, IsBucket] at hb
  | some none =>
    rw [hv] at hb
    exact ⟨w, by simp [addToTimeOutList, bucket_natCast, hv], hsame hb, .refl w, rfl, rfl⟩
  | some (some ⟨none, tail⟩) =>
    rw [hv] at hb
    exact ⟨w, by simp [addToTimeOutList, bucket_natCast, hv], hsame (Single.eq_nil hb.toSingle rfl),
      .refl w, rfl, rfl⟩
  | some (some ⟨some first, tail⟩) =>
    rw [hv] at hb
    have hl : Single w.next (some first) tail l := hb.toSingle
    cases ho : w.timeOutEventList.head with
    | none =>
      -- an empty time-out list takes the ends over
      have hout : out = [] := h.timeOut.eq_nil ho
      refine ⟨moved w i w.heap ⟨some first, tail⟩,
        by simp [addToTimeOutList, bucket_natCast, hv, ho, moved], ?_, ⟨rfl, rfl, rfl⟩, rfl, rfl⟩
      apply h.moved_repr hi _ _ (fun _ _ => rfl) (fun _ => rfl)
      rw [hout]
      exact hl
    | some o =>
      -- otherwise the last node of the time-out list is relinked
      obtain ⟨last, hlast, hmem⟩ := h.timeOut.exists_tail ho
      obtain ⟨n, hn⟩ := Option.isSome_iff_exists.mp (h.out_live last hmem)
      refine ⟨moved w i (w.setNode last { n with next := some first }).heap ⟨some o, tail⟩,
        by simp [addToTimeOutList, bucket_natCast, hv, ho, hlast, hn, moved, setBucket], ?_,
        ⟨rfl, rfl, rfl⟩, rfl, rfl⟩
      refine h.moved_repr hi _ _ (fun p hp => h.next_setNode_of_mem hmem _ hp) (fun p => ?_) ?_
      · by_cases hp : p = last
        · subst hp
          simp [setNode, hn]
        · simp [setNode, hp]
      · have hdis : ∀ a ∈ out, a ∉ l := fun a ha hal =>
          h.not_mem_out (mem_flatten_of_getElem? hi hal) ha
        have hs := h.timeOut.splice hl hlast rfl hdis
        have e := setNode_next w last { n with next := some first }
        rw [ho, ← e] at hs
        exact hs

/-! ## The tick loop -/

/-- The calendar a ring of slots stands for, seen from `cur_index`. -/
def calendar (w : Wheel) (slots : Calendar Ptr) : Calendar Ptr := slots.rotate w.curIndex.toNat

theorem length_calendar (h : Represents w slots out) : (calendar w slots).length = w.maxTime := by
  rw [calendar, List.length_rotate, h.size]

/-- The nodes of the calendar are those of the slots. -/
theorem flatten_calendar_perm (w : Wheel) (slots : Calendar Ptr) :
    (calendar w slots).flatten.Perm slots.flatten :=
  (List.rotate_perm slots w.curIndex.toNat).flatten

theorem mem_calendar : p ∈ (calendar w slots).flatten ↔ p ∈ slots.flatten :=
  (flatten_calendar_perm w slots).mem_iff

theorem nodup_calendar (h : Represents w slots out) : (calendar w slots).flatten.Nodup :=
  (flatten_calendar_perm w slots).nodup_iff.mpr (List.nodup_append.mp h.nodup).1

/-- The next place of a ring. -/
theorem next_place {i n : ℕ} (hi : i < n) : (if (i : ℤ) + 1 ≥ n then 0 else (i : ℤ) + 1) =
    ((i + 1) % n : ℕ) := by
  by_cases hwrap : (i : ℤ) + 1 ≥ n
  · obtain rfl : n = i + 1 := by omega
    rw [if_pos hwrap, Nat.mod_self]
    rfl
  · rw [if_neg hwrap, Nat.mod_eq_of_lt (by omega)]
    rfl

/-- One turn of the tick loop empties the place at `cur_index`, and moves on. -/
theorem tick_slots (h : Represents w slots out) (hi : w.curIndex = i) (hl : slots[i]? = some l) :
    ∃ w', (∀ d, tickLoop (d + 1) w = tickLoop d w') ∧ Represents w' (slots.set i []) (out ++ l) ∧
      w'.curIndex = ((i + 1) % slots.length : ℕ) ∧ SameClock w w' ∧ w'.deleted = w.deleted := by
  obtain ⟨w₁, hw₁, h₁, hc, hcur, hdel⟩ := h.addToTimeOutList_repr hl
  have hcur₁ : w₁.curIndex = i := hcur.trans hi
  have hmax : w₁.maxTime = slots.length := hc.maxTime.trans h.size.symm
  have hlt : i < slots.length := (List.getElem?_eq_some_iff.mp hl).1
  have hnext : (if w₁.curIndex + 1 ≥ w₁.maxTime then 0 else w₁.curIndex + 1) =
      ((i + 1) % slots.length : ℕ) := by
    rw [hcur₁, hmax]
    exact next_place hlt
  refine ⟨{ w₁ with curIndex := if w₁.curIndex + 1 ≥ w₁.maxTime then 0 else w₁.curIndex + 1 },
    ?_, ?_, hnext, ⟨hc.maxTime, hc.curTime, hc.fresh⟩, hdel⟩
  · intro d
    simp [tickLoop, hi, hw₁]
  · refine { h₁ with curIndex_nonneg := ?_, curIndex_lt := ?_ }
    · dsimp only
      rw [hnext]
      exact Int.natCast_nonneg _
    · dsimp only
      rw [hnext, hmax]
      exact_mod_cast Nat.mod_lt _ (by omega)

/-- One turn of the tick loop is one tick of the calendar. -/
theorem tick_repr (h : Represents w slots out) :
    ∃ w' slots', (∀ d, tickLoop (d + 1) w = tickLoop d w') ∧
      Represents w' slots' (out ++ (calendar w slots).headD []) ∧
      calendar w' slots' = (calendar w slots).tick ∧ SameClock w w' ∧ w'.deleted = w.deleted ∧
      w'.curIndex = (w.curIndex + 1) % w.maxTime := by
  obtain ⟨i, hci, hi⟩ := h.exists_curIndex
  obtain ⟨w', hloop, h', hcur, hc, hdel⟩ := h.tick_slots hci (List.getElem?_eq_getElem hi)
  have e : calendar w slots = slots.rotate i := by
    rw [calendar, hci]
    rfl
  refine ⟨w', slots.set i [], hloop, ?_, ?_, hc, hdel, ?_⟩
  · rw [e, Calendar.headD_rotate slots hi]
    exact h'
  · rw [e, ← Calendar.tick_rotate slots hi, calendar, hcur, Int.toNat_natCast]
    have hlen := List.rotate_mod (slots.set i []) (i + 1)
    rwa [List.length_set] at hlen
  · rw [hcur, hci, ← h.size]
    push_cast
    rfl

/-- **The tick loop** advances the calendar, and what became due is in the time-out list. -/
theorem tickLoop_repr {d : ℕ} (h : Represents w slots out) (hd : d ≤ w.maxTime) :
    ∃ w' slots', tickLoop d w = some w' ∧ Represents w' slots' (out ++ (calendar w slots).due d) ∧
      calendar w' slots' = (calendar w slots).advance d ∧ SameClock w w' ∧
      w'.deleted = w.deleted ∧ w'.curIndex = (w.curIndex + d) % w.maxTime := by
  induction d generalizing w slots out with
  | zero =>
    refine ⟨w, slots, rfl, ?_, (Calendar.advance_zero _).symm, .refl w, rfl, ?_⟩
    · rw [Calendar.due_zero, List.append_nil]
      exact h
    · simp [Int.emod_eq_of_lt h.curIndex_nonneg h.curIndex_lt]
  | succ d ih =>
    obtain ⟨w₁, slots₁, hloop, h₁, hcal, hc, hdel, hcur⟩ := h.tick_repr
    obtain ⟨w₂, slots₂, hw₂, h₂, hcal₂, hc₂, hdel₂, hcur₂⟩ := ih h₁ (by rw [hc.maxTime]; omega)
    have hlt : d < (calendar w slots).length := by
      rw [h.length_calendar]
      omega
    refine ⟨w₂, slots₂, by rw [hloop, hw₂], ?_, ?_, hc.trans hc₂, hdel₂.trans hdel, ?_⟩
    · rw [← Calendar.due_tick _ hlt, ← hcal, ← List.append_assoc]
      exact h₂
    · rw [hcal₂, hcal, Calendar.advance_tick _ hlt]
    · rw [hcur₂, hcur, hc.maxTime, Int.emod_add_emod]
      push_cast
      rw [add_assoc, add_comm (1 : ℤ)]

end Represents

end WebServer.TimeRound
