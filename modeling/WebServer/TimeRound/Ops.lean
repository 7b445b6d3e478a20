import WebServer.TimeRound.Repr

/-!
# Passes and additions on a represented wheel

The second half of the representation results: `HandleTimeOutList` deletes the time-out list in its
order (`handleTimeOutList_repr`), so that a whole pass advances the calendar by its ticks and
deletes what became due (`pass_ticks`, and `pass_repr` for a reading that is not too far ahead);
adding a new node puts it into the calendar `min(t, max_time - 1)` buckets ahead
(`addTimeRoundItemNode_repr`), or deletes it at once when its threshold is not positive.
-/

namespace WebServer.TimeRound

open WebServer.Lib Wheel

/-! ## What the ticks leave alone -/

namespace Wheel

/-- The fields of a node other than `next`, which alone a splice writes. -/
def label (w : Wheel) (p : Ptr) : Option (Option Ptr × ℤ × ℤ) :=
  (w.heap p).map fun n => (n.pre, n.timeThreod, n.index)

/-- Which places hold a list, and which a null pointer. -/
def allocation (w : Wheel) : List Bool := w.timeRoundVector.map Option.isSome

theorem length_allocation (w : Wheel) : w.allocation.length = w.timeRoundVector.length := by
  simp [allocation]

theorem isSome_label (w : Wheel) (p : Ptr) : (w.label p).isSome = (w.heap p).isSome := by
  simp [label]

variable {w w' : Wheel} {i : ℤ} {p : Ptr} {n : Node} {b b' : ItemList}

theorem setNode_label (hn : w.heap p = some n) (x : Option Ptr) :
    (w.setNode p { n with next := x }).label = w.label := by
  funext q
  by_cases hq : q = p
  · subst hq
    simp [label, setNode, hn]
  · simp [label, setNode, hq]

theorem setBucket_allocation (hb : w.bucket i = some (some b')) (b : ItemList) :
    (w.setBucket i b).allocation = w.allocation := by
  rw [bucket] at hb
  split at hb
  · obtain ⟨hlt, e⟩ := List.getElem?_eq_some_iff.mp hb
    rw [allocation, allocation, setBucket, List.map_set]
    refine List.ext_getElem (by simp) fun k hk hk' => ?_
    rw [List.getElem_set]
    split
    · rename_i e'
      subst e'
      simp [e]
    · rfl
  · cases hb

theorem setNode_isSome (hn : w.heap p = some n) {m : Node} (q : Ptr) :
    ((w.setNode p m).heap q).isSome = (w.heap q).isSome := by
  by_cases hq : q = p
  · simp [setNode, hq, hn]
  · simp [setNode, hq]

/-- `AddToTimeOutList` writes no field of a node but `next`, and allocates nothing. -/
theorem addToTimeOutList_frame (h : w.addToTimeOutList i = some w') :
    w'.label = w.label ∧ w'.allocation = w.allocation := by
  rw [addToTimeOutList] at h
  rcases hb : w.bucket i with _ | _ | ⟨_ | head, tail⟩
  · rw [hb] at h
    cases h
  · rw [hb] at h
    obtain rfl := Option.some.inj h
    exact ⟨rfl, rfl⟩
  · rw [hb] at h
    obtain rfl := Option.some.inj h
    exact ⟨rfl, rfl⟩
  · rw [hb] at h
    dsimp only at h
    rcases ho : w.timeOutEventList.head with _ | first
    · rw [ho] at h
      obtain rfl := Option.some.inj h
      exact ⟨rfl, setBucket_allocation hb _⟩
    · rw [ho] at h
      obtain ⟨last, -, h⟩ := Option.bind_eq_some_iff.mp h
      obtain ⟨node, hnode, h⟩ := Option.bind_eq_some_iff.mp h
      obtain rfl := Option.some.inj h
      exact ⟨setNode_label hnode _, setBucket_allocation (w := w.setNode last _) hb _⟩

theorem tickLoop_frame {d : ℕ} (h : tickLoop d w = some w') :
    w'.label = w.label ∧ w'.allocation = w.allocation := by
  induction d generalizing w with
  | zero =>
    obtain rfl := Option.some.inj h
    exact ⟨rfl, rfl⟩
  | succ d ih =>
    obtain ⟨w₁, hw₁, h⟩ := Option.bind_eq_some_iff.mp h
    have h₁ := addToTimeOutList_frame hw₁
    have h₂ := ih h
    exact ⟨h₂.1.trans h₁.1, h₂.2.trans h₁.2⟩

end Wheel

namespace Represents

variable {w : Wheel} {slots : Calendar Ptr} {out : List Ptr} {i : ℕ} {l : List Ptr} {p : Ptr}

/-- **The frame rule**: only the nodes of the lists matter. -/
theorem frame {w' : Wheel} (h : Represents w slots out) (hmax : w'.maxTime = w.maxTime)
    (hcur : w'.curIndex = w.curIndex) (hvec : w'.timeRoundVector = w.timeRoundVector)
    (hends : w'.timeOutEventList = w.timeOutEventList)
    (hheap : ∀ p, p ∈ slots.flatten ∨ p ∈ out → w'.heap p = w.heap p)
    (hfresh : ∀ p, (w'.heap p).isSome → p < w'.fresh) : Represents w' slots out := by
  have hslot : ∀ {i : ℕ} {l : List Ptr}, slots[i]? = some l → ∀ p ∈ l, w'.heap p = w.heap p :=
    fun hi p hp => hheap p (Or.inl (mem_flatten_of_getElem? hi hp))
  refine ⟨h.size.trans hmax.symm, hcur ▸ h.curIndex_nonneg, ?_, ?_, ?_, ?_, ?_, h.nodup, hfresh⟩
  · rw [hcur, hmax]
    exact h.curIndex_lt
  · intro i l hi
    rw [hvec]
    refine (h.bucket i l hi).congr (fun p hp => ?_) fun p hp => ?_
    · simp only [next, hslot hi p hp]
    · simp only [pre, hslot hi p hp]
  · rw [hends]
    exact h.timeOut.congr fun p hp => by simp only [next, hheap p (Or.inr hp)]
  · intro i l hi p hp
    rw [hslot hi p hp]
    exact h.index i l hi p hp
  · intro p hp
    rw [hheap p (Or.inr hp)]
    exact h.out_live p hp

/-! ## Deleting the time-out list -/

/-- Delete the nodes of a list, in order. -/
def deleteAll (w : Wheel) (l : List Ptr) : Wheel := l.foldl deleteNode w

theorem deleteAll_cons (w : Wheel) (p : Ptr) (l : List Ptr) :
    deleteAll w (p :: l) = deleteAll (w.deleteNode p) l := rfl

/-- Deleting nodes changes the heap at these nodes and the record of deletions, nothing else. -/
theorem deleteAll_eq (w : Wheel) (l : List Ptr) :
    deleteAll w l =
      { w with
        heap := fun p => if p ∈ l then none else w.heap p
        deleted := w.deleted ++ l } := by
  induction l generalizing w with
  | nil => simp [deleteAll]
  | cons a l ih =>
    rw [deleteAll_cons, ih]
    simp only [deleteNode, List.append_assoc, List.singleton_append, List.mem_cons]
    congr 1
    funext p
    by_cases hp : p = a
    · simp [hp]
    · simp [hp]

/-- The loop of `HandleTimeOutList` deletes the nodes of the chain it starts at. -/
theorem deleteFrom_eq {n : ℕ} (hc : Chain w.next l none) (hd : l.Nodup)
    (hl : ∀ p ∈ l, (w.heap p).isSome) (hn : l.length ≤ n) :
    deleteFrom n l.head? w = some (deleteAll w l) := by
  induction l generalizing w n with
  | nil => cases n <;> rfl
  | cons a l ih =>
    obtain ⟨n, rfl⟩ : ∃ m, n = m + 1 := Nat.exists_eq_add_of_le' (by simp at hn; omega)
    obtain ⟨node, hnode⟩ := Option.isSome_iff_exists.mp (hl a (by simp))
    have ha : ∀ p ∈ l, p ≠ a := fun p hp e => (List.nodup_cons.mp hd).1 (e ▸ hp)
    have hnext : node.next = l.head? := by
      have := hc.1
      rw [Option.or_none] at this
      simpa [next, hnode] using this
    have hrec : deleteFrom n l.head? (w.deleteNode a) = some (deleteAll (w.deleteNode a) l) := by
      refine ih (hc.2.congr fun p hp => ?_) (List.nodup_cons.mp hd).2 (fun p hp => ?_)
        (by simpa using hn)
      · simp only [next, deleteNode_heap_of_ne w a (ha p hp)]
      · rw [deleteNode_heap_of_ne w a (ha p hp)]
        exact hl p (by simp [hp])
    rw [List.head?_cons, deleteFrom, hnode, deleteAll_cons, ← hrec, ← hnext]
    rfl

/-- A list of distinct nodes of the heap has at most `fresh` members. -/
theorem length_le_fresh (h : Represents w slots out) (hd : l.Nodup)
    (hl : ∀ p ∈ l, (w.heap p).isSome) :
    l.length ≤ w.fresh := by
  have hsub : l ⊆ List.range w.fresh := fun p hp => List.mem_range.mpr (h.lt_fresh p (hl p hp))
  simpa using (List.subperm_of_subset hd hsub).length_le

/-- What `HandleTimeOutList` makes of the wheel. -/
theorem handleTimeOutList_eq (h : Represents w slots out) :
    w.handleTimeOutList = some { w with
      timeOutEventList := ⟨none, none⟩
      heap := fun p => if p ∈ out then none else w.heap p
      deleted := w.deleted ++ out } := by
  have hrun : w.handleTimeOutList =
      some (deleteAll { w with timeOutEventList := ⟨none, none⟩ } out) := by
    rw [handleTimeOutList, h.timeOut.head_eq]
    exact deleteFrom_eq (w := { w with timeOutEventList := ⟨none, none⟩ }) h.timeOut.chain
      h.timeOut.nodup h.out_live (h.length_le_fresh h.timeOut.nodup h.out_live)
  rw [hrun, deleteAll_eq]

/-- **`HandleTimeOutList`** deletes the nodes of the time-out list, in their order. -/
theorem handleTimeOutList_repr (h : Represents w slots out) :
    ∃ w', w.handleTimeOutList = some w' ∧ Represents w' slots [] ∧ SameClock w w' ∧
      w'.curIndex = w.curIndex ∧ w'.deleted = w.deleted ++ out := by
  refine ⟨_, h.handleTimeOutList_eq, ?_, ⟨rfl, rfl, rfl⟩, rfl, rfl⟩
  have hslots : slots.flatten.Nodup := (List.nodup_append.mp h.nodup).1
  have h0 : Represents { w with timeOutEventList := ⟨none, none⟩ } slots [] :=
    { h with timeOut := .nil, out_live := by simp, nodup := by simpa using hslots }
  refine h0.frame rfl rfl rfl rfl (fun p hp => ?_) fun p hp => h.lt_fresh p ?_
  · -- the nodes of the slots are not among the deleted ones
    exact if_neg (h.not_mem_out (by simpa using hp))
  · dsimp only at hp
    split at hp
    · cases hp
    · exact hp

/-! ## A pass -/

/-- A reading that is not ahead of `cur_time` does nothing. -/
theorem pass_of_le {now : ℤ} (hnow : now ≤ w.curTime) : w.pass now = some w := by
  simp only [Wheel.pass]
  rw [if_neg (by omega)]

/-- The ticks a reading makes: one for each second since `cur_time`, but less than `max_time`. -/
def ticks (w : Wheel) (now : ℤ) : ℕ := (min (now - w.curTime) (w.maxTime - 1)).toNat

/-- A pass: its ticks, and then what became due is deleted. -/
theorem pass_eq {now : ℤ} (h : Represents w slots out) (hnow : w.curTime < now) :
    w.pass now =
      (tickLoop (ticks w now) { w with curTime := now }).bind handleTimeOutList := by
  have := h.curIndex_nonneg
  have := h.curIndex_lt
  have hd : (if now - w.curTime ≥ w.maxTime then (w.maxTime : ℤ) - 1
      else now - w.curTime).toNat = ticks w now := by
    rw [ticks]
    split <;> omega
  simp only [Wheel.pass]
  rw [if_pos (by omega), hd]
  rfl

/-- **A pass** at any reading advances the calendar by its ticks, and deletes what became due in
order. -/
theorem pass_ticks (h : Represents w slots []) (now : ℤ) :
    ∃ w' slots', w.pass now = some w' ∧ Represents w' slots' [] ∧
      calendar w' slots' = (calendar w slots).advance (ticks w now) ∧
      w'.deleted = w.deleted ++ (calendar w slots).due (ticks w now) ∧
      (∀ p, (w'.heap p).isSome → (w.heap p).isSome ∧ p ∉ (calendar w slots).due (ticks w now)) ∧
      w'.timeRoundVector.length = w.timeRoundVector.length ∧
      w'.maxTime = w.maxTime ∧ w'.fresh = w.fresh ∧ w'.curTime = max w.curTime now := by
  have := h.curIndex_nonneg
  have := h.curIndex_lt
  by_cases hnow : w.curTime < now
  · have h0 : Represents { w with curTime := now } slots [] := { h with }
    obtain ⟨w₁, slots₁, hw₁, h₁, hcal, hc, hdel, -⟩ :=
      h0.tickLoop_repr (d := ticks w now) (by simp only [ticks]; omega)
    have hw₂ := h₁.handleTimeOutList_eq
    obtain ⟨w₂, hw₂', h₂, hc₂, hcur, hdel₂⟩ := h₁.handleTimeOutList_repr
    have hrun : w.pass now = some w₂ := by
      rw [h.pass_eq hnow, hw₁]
      exact hw₂'
    have hall := hc.trans hc₂
    have hframe := tickLoop_frame hw₁
    refine ⟨w₂, slots₁, hrun, h₂, ?_, ?_, fun p hp => ?_, ?_, hall.maxTime, hall.fresh, ?_⟩
    · have e : calendar w₂ slots₁ = calendar w₁ slots₁ := by rw [calendar, calendar, hcur]
      exact e.trans hcal
    · rw [hdel₂, hdel]
      rfl
    · obtain rfl := Option.some.inj (hw₂'.symm.trans hw₂)
      dsimp only at hp
      split at hp
      · cases hp
      · rename_i hout
        rw [← isSome_label, hframe.1, isSome_label] at hp
        exact ⟨hp, hout⟩
    · obtain rfl := Option.some.inj (hw₂'.symm.trans hw₂)
      dsimp only
      rw [← length_allocation, hframe.2, length_allocation]
    · rw [max_eq_right hnow.le]
      exact hall.curTime
  · have hd : ticks w now = 0 := by
      rw [ticks]
      omega
    rw [hd, Calendar.advance_zero, Calendar.due_zero, max_eq_left (by omega)]
    exact ⟨w, slots, pass_of_le (by omega), h, rfl, (List.append_nil _).symm,
      fun p hp => ⟨hp, List.not_mem_nil⟩, rfl, rfl, rfl, rfl⟩

/-- A pass whose reading is less than `max_time` ahead makes up for all the seconds since
`cur_time`. -/
theorem pass_repr {now : ℤ} (h : Represents w slots []) (hlt : now - w.curTime < w.maxTime)
    (hnow : w.curTime < now) :
    ∃ w' slots', w.pass now = some w' ∧ Represents w' slots' [] ∧
      calendar w' slots' = (calendar w slots).advance (now - w.curTime).toNat ∧
      w'.deleted = w.deleted ++ (calendar w slots).due (now - w.curTime).toNat ∧
      w'.maxTime = w.maxTime ∧ w'.fresh = w.fresh ∧ w'.curTime = now := by
  have hd : ticks w now = (now - w.curTime).toNat := by
    rw [ticks]
    omega
  obtain ⟨w', slots', hw', hr, hcal, hdel, -, -, hmax, hfresh, hcur⟩ := h.pass_ticks now
  rw [hd] at hcal hdel
  exact ⟨w', slots', hw', hr, hcal, hdel, hmax, hfresh, hcur.trans (max_eq_right hnow.le)⟩

/-! ## Adding a node -/

/-- The new node is a live node that points nowhere. -/
theorem newNode_heap (w : Wheel) (t : ℤ) :
    (w.newNode t).heap w.fresh = some ⟨none, none, t, 0⟩ := by
  simp [newNode]

theorem newNode_heap_of_ne {t : ℤ} (hp : p ≠ w.fresh) : (w.newNode t).heap p = w.heap p := by
  simp [newNode, hp]

/-- Allocating a node keeps the representation. -/
theorem newNode_repr (h : Represents w slots out) (t : ℤ) : Represents (w.newNode t) slots out := by
  refine h.frame rfl rfl rfl rfl (fun p hp => newNode_heap_of_ne ?_) fun p hp => ?_
  · rintro rfl
    exact hp.elim h.fresh_not_mem.1 h.fresh_not_mem.2
  · by_cases hpf : p = w.fresh
    · exact hpf ▸ Nat.lt_succ_self _
    · rw [newNode_heap_of_ne hpf] at hp
      exact (h.lt_fresh p hp).trans (Nat.lt_succ_self _)

/-- Deleting a node that is in no list keeps the representation. -/
theorem deleteNode_repr (h : Represents w slots out) (hs : p ∉ slots.flatten) (ho : p ∉ out) :
    Represents (w.deleteNode p) slots out := by
  refine h.frame rfl rfl rfl rfl (fun q hq => deleteNode_heap_of_ne w p ?_) fun q hq => ?_
  · rintro rfl
    exact hq.elim hs ho
  · apply h.lt_fresh q
    by_cases hqp : q = p
    · simp [deleteNode, hqp] at hq
    · rwa [deleteNode_heap_of_ne w p hqp] at hq

/-- The wheel whose list at place `i` was given new ends, in a relinked heap. -/
def placed (w : Wheel) (i : ℤ) (heap : Ptr → Option Node) (b : ItemList) : Wheel :=
  { w.setBucket i b with heap := heap }

/-- The list at a place was replaced: what is left to check is that list. -/
theorem relisted_repr {l' : List Ptr} (h : Represents w slots out) (hi : slots[i]? = some l)
    (heap : Ptr → Option Node) (b : ItemList)
    (hheap : ∀ q, q ∈ slots.flatten ∨ q ∈ out → q ∉ l → heap q = w.heap q)
    (hidx : ∀ q ∈ l', ∃ n, heap q = some n ∧ n.index = i)
    (hfresh : ∀ q, (heap q).isSome → q < w.fresh)
    (hnodup : ((slots.set i l').flatten ++ out).Nodup)
    (hlist : Double (placed w i heap b).pre (placed w i heap b).next b.head b.tail l') :
    Represents (placed w i heap b) (slots.set i l') out := by
  have hlt : i < slots.length := (List.getElem?_eq_some_iff.mp hi).1
  -- a list is the new one at `i`, or an old one
  have hcases : ∀ {j : ℕ} {m : List Ptr}, (slots.set i l')[j]? = some m →
      (j = i ∧ m = l') ∨ (j ≠ i ∧ slots[j]? = some m) := by
    intro j m hj
    by_cases hij : i = j
    · subst hij
      rw [List.getElem?_set_self hlt] at hj
      exact Or.inl ⟨rfl, (Option.some.inj hj).symm⟩
    · rw [List.getElem?_set_ne hij] at hj
      exact Or.inr ⟨Ne.symm hij, hj⟩
  -- the nodes of the other lists are untouched
  have hold : ∀ {j : ℕ} {m : List Ptr}, j ≠ i → slots[j]? = some m → ∀ q ∈ m,
      heap q = w.heap q := by
    intro j m hji hj q hq
    exact hheap q (Or.inl (mem_flatten_of_getElem? hj hq)) fun hql =>
      hji (h.slot_unique hj hi hq hql)
  have hout : ∀ q ∈ out, heap q = w.heap q := fun q hq =>
    hheap q (Or.inr hq) fun hql => h.not_mem_out (mem_flatten_of_getElem? hi hql) hq
  refine ⟨?_, h.curIndex_nonneg, h.curIndex_lt, ?_, ?_, ?_, ?_, hnodup, hfresh⟩
  · rw [List.length_set, h.size]
    rfl
  · intro j m hj
    rcases hcases hj with ⟨rfl, rfl⟩ | ⟨hji, hj⟩
    · have hltv : j < w.timeRoundVector.length := by
        by_contra hge
        have hb := h.bucket j l hi
        rw [List.getElem?_eq_none (by omega)] at hb
        exact hb
      have e : (placed w j heap b).timeRoundVector[j]? = some (some b) := by
        simp [placed, setBucket, hltv]
      rw [e]
      exact hlist
    · have e : (placed w i heap b).timeRoundVector[j]? = w.timeRoundVector[j]? := by
        simp [placed, setBucket, Ne.symm hji]
      rw [e]
      refine (h.bucket j m hj).congr (fun q hq => ?_) fun q hq => ?_
      · exact congrArg (Option.bind · Node.next) (hold hji hj q hq)
      · exact congrArg (Option.bind · Node.pre) (hold hji hj q hq)
  · exact h.timeOut.congr fun q hq => congrArg (Option.bind · Node.next) (hout q hq)
  · intro j m hj q hq
    rcases hcases hj with ⟨rfl, rfl⟩ | ⟨hji, hj⟩
    · exact hidx q hq
    · obtain ⟨n, hn, hnj⟩ := h.index j m hj q hq
      exact ⟨n, (hold hji hj q hq).trans hn, hnj⟩
  · intro q hq
    exact (congrArg Option.isSome (hout q hq)).trans (h.out_live q hq)

/-- A node was put at the end of a list: what is left to check is that list. -/
theorem placed_repr (h : Represents w slots out) (hi : slots[i]? = some l) (hps : p ∉ slots.flatten)
    (hpo : p ∉ out) (heap : Ptr → Option Node) (b : ItemList)
    (hheap : ∀ q, q ∉ l → q ≠ p → heap q = w.heap q)
    (hidx : ∀ q ∈ l ++ [p], ∃ n, heap q = some n ∧ n.index = i)
    (hfresh : ∀ q, (heap q).isSome → q < w.fresh)
    (hlist : Double (placed w i heap b).pre (placed w i heap b).next b.head b.tail (l ++ [p])) :
    Represents (placed w i heap b) (Calendar.add slots i p) out := by
  have hlt : i < slots.length := (List.getElem?_eq_some_iff.mp hi).1
  have hadd : Calendar.add slots i p = slots.set i (l ++ [p]) := by
    rw [Calendar.add, List.modify_eq_set_getElem? (· ++ [p]) i slots, hi]
    rfl
  rw [hadd]
  refine h.relisted_repr hi heap b (fun q hq hql => hheap q hql ?_) hidx hfresh ?_ hlist
  · rintro rfl
    exact hq.elim hps hpo
  · rw [← hadd]
    apply (List.Perm.nodup_iff ((Calendar.flatten_add_perm hlt).append_right out)).mpr
    rw [List.cons_append, List.nodup_cons, List.mem_append, not_or]
    exact ⟨⟨hps, hpo⟩, h.nodup⟩

/-- A node that points nowhere is linked in at the end of the list at the place it names. -/
theorem linkNode_repr {n : Node} (h : Represents w slots out) (hi : slots[i]? = some l)
    (hps : p ∉ slots.flatten) (hpo : p ∉ out) (hn : w.heap p = some n) (hni : n.index = i)
    (hnext : n.next = none) (hpre : n.pre = none) :
    ∃ w', w.linkNode p i = some w' ∧ Represents w' (Calendar.add slots i p) out ∧ SameClock w w' ∧
      w'.curIndex = w.curIndex ∧ w'.deleted = w.deleted := by
  have hpl : p ∉ l := fun hp => hps (mem_flatten_of_getElem? hi hp)
  have hidx : ∀ q ∈ l ++ [p], ∃ n, w.heap q = some n ∧ n.index = i := by
    intro q hq
    rcases List.mem_append.mp hq with hq | hq
    · exact h.index i l hi q hq
    · obtain rfl := List.mem_singleton.mp hq
      exact ⟨n, hn, hni⟩
  -- in an empty place the node becomes the whole list
  have hempty : l = [] →
      Represents (w.setBucket i ⟨some p, some p⟩) (Calendar.add slots i p) out := by
    rintro rfl
    apply h.placed_repr hi hps hpo w.heap _ (fun _ _ _ => rfl) hidx h.lt_fresh
    exact Double.singleton (by simp [next, placed, hn, hnext]) (by simp [pre, placed, hn, hpre])
  have hb := h.bucket i l hi
  rcases hv : w.timeRoundVector[i]? with _ | _ | ⟨_ | head, tail⟩
  · simp [hv, IsBucket] at hb
  · -- a null pointer
    rw [hv] at hb
    exact ⟨w.setBucket i ⟨some p, some p⟩, by simp [linkNode, bucket_natCast, hv], hempty hb,
      ⟨rfl, rfl, rfl⟩, rfl, rfl⟩
  · -- a list without a head
    rw [hv] at hb
    exact ⟨w.setBucket i ⟨some p, some p⟩, by simp [linkNode, bucket_natCast, hv],
      hempty (Single.eq_nil hb.toSingle rfl), ⟨rfl, rfl, rfl⟩, rfl, rfl⟩
  · rw [hv] at hb
    obtain ⟨last, hlast, hmem⟩ := hb.toSingle.exists_tail rfl
    obtain ⟨lastNode, hln, hlni⟩ := h.index i l hi last hmem
    have hne : p ≠ last := fun e => hpl (e ▸ hmem)
    have hn₂ : (w.setNode last { lastNode with next := some p }).heap p = some n := by
      simp [setNode, hne, hn]
    dsimp only at hlast
    refine ⟨placed w i ((w.setNode last { lastNode with next := some p }).setNode p
      { n with pre := some last }).heap ⟨some head, some p⟩, ?_, ?_, ⟨rfl, rfl, rfl⟩, rfl, rfl⟩
    · simp only [linkNode, bucket_natCast, hv, hlast, Option.bind_eq_bind, Option.bind_some, hln,
        hn₂]
      rfl
    · refine h.placed_repr hi hps hpo _ _ (fun q hql hqp => ?_) (fun q hq => ?_) (fun q hq => ?_) ?_
      · have hql' : q ≠ last := fun e => hql (e ▸ hmem)
        simp [setNode, hqp, hql']
      · by_cases hqp : q = p
        · exact ⟨{ n with pre := some last }, by simp [setNode, hqp], hni⟩
        · by_cases hql : q = last
          · exact ⟨{ lastNode with next := some p }, by simp [setNode, hql, Ne.symm hne], hlni⟩
          · simpa [setNode, hqp, hql] using hidx q hq
      · apply h.lt_fresh q
        by_cases hqp : q = p
        · simp [hqp, hn]
        · by_cases hql : q = last
          · simp [hql, hln]
          · simpa [setNode, hqp, hql] using hq
      · have hd := Double.concat hb hlast hpl (by simp [next, hn, hnext])
        rw [← setNode_next_pre (x := some p) hln] at hd
        have e₁ := setNode_pre (w.setNode last { lastNode with next := some p }) p
          { n with pre := some last }
        have e₂ := setNode_pre_next (x := some last) hn₂
        have e₃ := setNode_next w last { lastNode with next := some p }
        rw [← e₁, ← e₃, ← e₂] at hd
        exact hd

/-- The bucket of the calendar a threshold leads to. -/
def ahead (maxTime : ℕ) (t : ℤ) : ℕ := (min t ((maxTime : ℤ) - 1)).toNat

/-- **`AddTimeRoundItemNode`** on a new node with a positive threshold puts it into the calendar. -/
theorem addTimeRoundItemNode_repr {t : ℤ} (h : Represents w slots out) (ht : 1 ≤ t) :
    ∃ w' slots', (w.newNode t).addTimeRoundItemNode (some w.fresh) = some w' ∧
      Represents w' slots' out ∧
      calendar w' slots' = Calendar.add (calendar w slots) (ahead w.maxTime t) w.fresh ∧
      SameClock (w.newNode t) w' ∧ w'.deleted = w.deleted := by
  obtain ⟨i, hci, hi⟩ := h.exists_curIndex
  have hsize := h.size
  have hahead : ahead w.maxTime t < slots.length := by
    simp only [ahead]
    omega
  have htime : (if t ≥ w.maxTime then (w.maxTime : ℤ) - 1 else t) = ahead w.maxTime t := by
    simp only [ahead]
    split <;> omega
  have hindex : (w.curIndex + (ahead w.maxTime t : ℤ)).tmod w.maxTime =
      ((i + ahead w.maxTime t) % slots.length : ℕ) := by
    rw [hci, hsize, ← Int.natCast_add, Int.natCast_mod, Int.tmod_eq_emod_of_nonneg (by positivity)]
  set k := ahead w.maxTime t
  set j := (i + k) % slots.length
  have hj : j < slots.length := Nat.mod_lt _ (by omega)
  -- the node is written its index, and then appended
  have h₁ : Represents ((w.newNode t).setNode w.fresh ⟨none, none, t, j⟩) slots out := by
    refine (h.newNode_repr t).frame rfl rfl rfl rfl (fun p hp => ?_) fun p hp => ?_
    · have hne : p ≠ w.fresh := by
        rintro rfl
        exact hp.elim h.fresh_not_mem.1 h.fresh_not_mem.2
      simp [setNode, hne]
    · apply (h.newNode_repr t).lt_fresh p
      by_cases hpf : p = w.fresh
      · simp [hpf, newNode_heap]
      · simpa [setNode, hpf] using hp
  have hnode : ((w.newNode t).setNode w.fresh ⟨none, none, t, j⟩).heap w.fresh =
      some ⟨none, none, t, j⟩ := by simp [setNode]
  obtain ⟨w', hw', h', hc, hcur, hdel⟩ := h₁.linkNode_repr (List.getElem?_eq_getElem hj)
    h.fresh_not_mem.1 h.fresh_not_mem.2 hnode rfl rfl rfl
  refine ⟨w', Calendar.add slots j w.fresh, ?_, h', ?_, ⟨hc.maxTime, hc.curTime, hc.fresh⟩, hdel⟩
  · rw [← hw']
    simp only [addTimeRoundItemNode, newNode_heap, Option.bind_eq_bind, Option.bind_some]
    rw [if_neg (by omega), show (w.newNode t).maxTime = w.maxTime from rfl, htime,
      show (w.newNode t).curIndex = w.curIndex from rfl, hindex]
  · have e : w'.curIndex = i := hcur.trans hci
    rw [calendar, calendar, e, hci]
    exact Calendar.modify_rotate slots _ hahead

/-- A threshold that is not positive deletes the new node at once. -/
theorem addTimeRoundItemNode_nonpos {t : ℤ} (h : Represents w slots out) (ht : t ≤ 0) :
    ∃ w', (w.newNode t).addTimeRoundItemNode (some w.fresh) = some w' ∧ Represents w' slots out ∧
      SameClock (w.newNode t) w' ∧ w'.curIndex = w.curIndex ∧
      w'.deleted = w.deleted ++ [w.fresh] := by
  refine ⟨(w.newNode t).deleteNode w.fresh, ?_, ?_, ⟨rfl, rfl, rfl⟩, rfl, rfl⟩
  · simp [addTimeRoundItemNode, newNode_heap, ht]
  · exact (h.newNode_repr t).deleteNode_repr h.fresh_not_mem.1 h.fresh_not_mem.2

end Represents

end WebServer.TimeRound
