import WebServer.TimeRound.Ops

/-!
# Moving a node to another bucket

`UpdateTimeRoundItemNode` reads the index of a node and `cur_index`, computes the bucket the node is
to go to, and under `Mutex` unlinks the node from the one list and appends it to the other. It looks
at `TimeRoundVector[index]` and `TimeRoundVector[new_index]` without a test for null, and a negative
`time` is not looked at.

The effect on a represented wheel is explicit: `unlinkNode_eq` and `relinkNode_eq` say which wheel
results, in terms of the lists the pointers stand for, and `relocate_repr` that it represents the
slots with the node moved.
-/

namespace WebServer.TimeRound

open WebServer.Lib

namespace Wheel

/-- The bucket `UpdateTimeRoundItemNode` computes, from what it reads before it takes `Mutex`. -/
def newIndex (w : Wheel) (time : ℤ) : ℤ :=
  let time := if time ≥ w.maxTime then (w.maxTime : ℤ) - 1 else time
  (w.curIndex + time).tmod w.maxTime

/-- The first half of its critical section: unlink the node from the list at `index`. -/
def unlinkNode (w : Wheel) (p : Ptr) (index : ℤ) : Option Wheel :=
  match w.bucket index with
  | none => none
  | some none => none
  | some (some b) =>
    if b.head = some p then
      if b.tail = some p then some (w.setBucket index ⟨none, none⟩)
      else do
        -- `head = node->next; head->pre = nullptr`
        let node ← w.heap p
        let first ← node.next
        let firstNode ← w.heap first
        let w := w.setNode first { firstNode with pre := none }
        some (w.setBucket index ⟨some first, b.tail⟩)
    else if b.tail = some p then do
      -- `tail = node->pre; tail->next = nullptr`
      let node ← w.heap p
      let last ← node.pre
      let lastNode ← w.heap last
      let w := w.setNode last { lastNode with next := none }
      some (w.setBucket index ⟨b.head, some last⟩)
    else do
      -- `node->pre->next = node->next; node->next->pre = node->pre`
      let node ← w.heap p
      let before ← node.pre
      let beforeNode ← w.heap before
      let w := w.setNode before { beforeNode with next := node.next }
      let node ← w.heap p
      let after ← node.next
      let afterNode ← w.heap after
      some (w.setNode after { afterNode with pre := node.pre })

/-- The second half: append the node to the list at `newIndex`. -/
def relinkNode (w : Wheel) (p : Ptr) (newIndex : ℤ) : Option Wheel :=
  match w.bucket newIndex with
  | none => none
  | some none => none
  | some (some ⟨none, _⟩) => do
    let w := w.setBucket newIndex ⟨some p, some p⟩
    let node ← w.heap p
    some (w.setNode p { node with pre := none, next := none })
  | some (some ⟨some head, tail⟩) => do
    let last ← tail
    let lastNode ← w.heap last
    let w := w.setNode last { lastNode with next := some p }
    let node ← w.heap p
    let w := w.setNode p { node with pre := some last, next := none }
    some (w.setBucket newIndex ⟨some head, some p⟩)

/-- The critical section of `UpdateTimeRoundItemNode`, with what was read before it. -/
def relocate (w : Wheel) (p : Ptr) (index newIndex : ℤ) : Option Wheel := do
  let node ← w.heap p
  let w := w.setNode p { node with index := newIndex }
  let w ← w.unlinkNode p index
  w.relinkNode p newIndex

/-- `UpdateTimeRoundItemNode`, run without interference. -/
def updateTimeRoundItemNode (w : Wheel) (p : Ptr) (time : ℤ) : Option Wheel := do
  let node ← w.heap p
  let index := node.index
  let newIndex := w.newIndex time
  if newIndex = index then some w else w.relocate p index newIndex

/-- The pointer at a place of the vector is not null. -/
def Allocated (w : Wheel) (i : ℤ) : Prop := ∃ b, w.bucket i = some (some b)

instance (w : Wheel) (i : ℤ) : Decidable (w.Allocated i) :=
  match h : w.bucket i with
  | none => isFalse (by rintro ⟨b, hb⟩; rw [h] at hb; cases hb)
  | some none => isFalse (by rintro ⟨b, hb⟩; rw [h] at hb; cases hb)
  | some (some b) => isTrue ⟨b, h⟩

end Wheel

open Wheel

/-! ## What the two halves leave alone -/

section Frame

variable {w w' : Wheel} {p q : Ptr} {i x : ℤ} {n m : Node}

theorem allocated_iff : w.Allocated i ↔ 0 ≤ i ∧ w.allocation[i.toNat]? = some true := by
  rw [Allocated, bucket, allocation, List.getElem?_map]
  by_cases hi : 0 ≤ i
  · rcases w.timeRoundVector[i.toNat]? with _ | _ | b <;> simp [hi]
  · simp [hi]

theorem allocated_congr (h : w'.allocation = w.allocation) : w'.Allocated i ↔ w.Allocated i := by
  rw [allocated_iff, allocated_iff, h]

/-- The index of a node, if it is live. -/
def Wheel.indexOf (w : Wheel) (p : Ptr) : Option ℤ := (w.heap p).map Node.index

theorem setNode_indexOf (hn : w.heap p = some n) (hm : m.index = n.index) (q : Ptr) :
    (w.setNode p m).indexOf q = w.indexOf q := by
  by_cases hq : q = p
  · simp [indexOf, setNode, hq, hn, hm]
  · simp [indexOf, setNode, hq]

/-- Unlinking writes no index, and allocates nothing. -/
theorem unlinkNode_frame (h : w.unlinkNode p i = some w') :
    (∀ q, w'.indexOf q = w.indexOf q) ∧ w'.allocation = w.allocation := by
  rw [unlinkNode] at h
  rcases hb : w.bucket i with _ | _ | b
  · rw [hb] at h
    cases h
  · rw [hb] at h
    cases h
  · rw [hb] at h
    dsimp only at h
    split_ifs at h
    · obtain rfl := Option.some.inj h
      exact ⟨fun q => rfl, setBucket_allocation hb _⟩
    · obtain ⟨node, hnode, h⟩ := Option.bind_eq_some_iff.mp h
      obtain ⟨first, -, h⟩ := Option.bind_eq_some_iff.mp h
      obtain ⟨firstNode, hfirst, h⟩ := Option.bind_eq_some_iff.mp h
      obtain rfl := Option.some.inj h
      exact ⟨setNode_indexOf hfirst rfl, setBucket_allocation (w := w.setNode first _) hb _⟩
    · obtain ⟨node, hnode, h⟩ := Option.bind_eq_some_iff.mp h
      obtain ⟨last, -, h⟩ := Option.bind_eq_some_iff.mp h
      obtain ⟨lastNode, hlast, h⟩ := Option.bind_eq_some_iff.mp h
      obtain rfl := Option.some.inj h
      exact ⟨setNode_indexOf hlast rfl, setBucket_allocation (w := w.setNode last _) hb _⟩
    · obtain ⟨node, hnode, h⟩ := Option.bind_eq_some_iff.mp h
      obtain ⟨before, -, h⟩ := Option.bind_eq_some_iff.mp h
      obtain ⟨beforeNode, hbefore, h⟩ := Option.bind_eq_some_iff.mp h
      obtain ⟨node', -, h⟩ := Option.bind_eq_some_iff.mp h
      obtain ⟨after, -, h⟩ := Option.bind_eq_some_iff.mp h
      obtain ⟨afterNode, hafter, h⟩ := Option.bind_eq_some_iff.mp h
      obtain rfl := Option.some.inj h
      refine ⟨fun q => (setNode_indexOf hafter ?_ q).trans (setNode_indexOf hbefore ?_ q), rfl⟩
      · rfl
      · rfl

/-- Relinking at a place that is null, or outside the vector, dereferences it. -/
theorem relinkNode_eq_none (ha : ¬w.Allocated x) : w.relinkNode p x = none := by
  rw [relinkNode]
  rcases hb : w.bucket x with _ | _ | b
  · rfl
  · rfl
  · exact absurd ⟨b, hb⟩ ha

theorem setBucket_bucket {b b' : ItemList} (hb : w.bucket x = some (some b')) :
    (w.setBucket x b).bucket x = some (some b) := by
  rw [bucket] at hb ⊢
  split at hb
  · rename_i hx
    have hlt := (List.getElem?_eq_some_iff.mp hb).1
    simp [setBucket, hx, hlt]
  · cases hb

/-- After relinking, the list at the place ends with the node; no index was written, and no `pre` of
another node. -/
theorem relinkNode_spec (h : w.relinkNode p x = some w') :
    (∃ b, w'.bucket x = some (some b) ∧ b.tail = some p) ∧ (∀ q, w'.indexOf q = w.indexOf q) ∧
      ∀ q, q ≠ p → w'.pre q = w.pre q := by
  rw [relinkNode] at h
  rcases hb : w.bucket x with _ | _ | ⟨_ | head, tail⟩
  · rw [hb] at h
    cases h
  · rw [hb] at h
    cases h
  · rw [hb] at h
    obtain ⟨node, hnode, h⟩ := Option.bind_eq_some_iff.mp h
    obtain rfl := Option.some.inj h
    refine ⟨⟨_, setBucket_bucket hb, rfl⟩, setNode_indexOf hnode rfl, fun q hq => ?_⟩
    rw [setNode_pre, Function.update_of_ne hq, setBucket_pre]
  · rw [hb] at h
    obtain ⟨last, -, h⟩ := Option.bind_eq_some_iff.mp h
    obtain ⟨lastNode, hlast, h⟩ := Option.bind_eq_some_iff.mp h
    obtain ⟨node, hnode, h⟩ := Option.bind_eq_some_iff.mp h
    obtain rfl := Option.some.inj h
    refine ⟨⟨_, setBucket_bucket hb, rfl⟩, fun q => (setNode_indexOf hnode ?_ q).trans
      (setNode_indexOf hlast ?_ q), fun q hq => ?_⟩
    · rfl
    · rfl
    · rw [setBucket_pre, setNode_pre, Function.update_of_ne hq, setNode_next_pre hlast]

/-- Moving a node to a place that is null, or outside the vector, has no defined result. -/
theorem relocate_eq_none (ha : ¬w.Allocated x) : w.relocate p i x = none := by
  rw [relocate]
  rcases w.heap p with _ | n
  · rfl
  · dsimp only [Option.bind_eq_bind, Option.bind_some]
    rcases hu : (w.setNode p { n with index := x }).unlinkNode p i with _ | w₁
    · rfl
    · have halloc : w₁.allocation = w.allocation := (unlinkNode_frame hu).2
      exact relinkNode_eq_none fun hb => ha ((allocated_congr halloc).mp hb)

/-- After a move the node has the index it was moved to, and the list there ends with it. -/
theorem relocate_spec (h : w.relocate p i x = some w') :
    w'.indexOf p = some x ∧ ∃ b, w'.bucket x = some (some b) ∧ b.tail = some p := by
  obtain ⟨n, hn, h⟩ := Option.bind_eq_some_iff.mp h
  obtain ⟨w₁, hw₁, h⟩ := Option.bind_eq_some_iff.mp h
  obtain ⟨htail, hindex, -⟩ := relinkNode_spec h
  refine ⟨?_, htail⟩
  rw [hindex, (unlinkNode_frame hw₁).1]
  simp [indexOf, setNode]

end Frame

/-! ## Unlinking -/

/-- The heap after a node was unlinked from between two others; the node itself is `n`. -/
def erasedHeap (heap : Ptr → Option Node) (before after : Option Ptr) (p : Ptr) (n : Node) :
    Ptr → Option Node := fun q =>
  if q = p then some n
  else (heap q).map fun m =>
    { m with
      next := if before = some q then after else m.next
      pre := if after = some q then before else m.pre }

/-- The heap after a node, `n`, was put behind the last one of a list. -/
def appendedHeap (heap : Ptr → Option Node) (last : Option Ptr) (p : Ptr) (n : Node) :
    Ptr → Option Node := fun q =>
  if q = p then some { n with pre := last, next := none }
  else (heap q).map fun m => { m with next := if last = some q then some p else m.next }

section Heaps

variable {heap : Ptr → Option Node} {before after last : Option Ptr} {p q : Ptr} {n m : Node}

theorem erasedHeap_self : erasedHeap heap before after p n p = some n := if_pos rfl

theorem erasedHeap_of_ne (hq : q ≠ p) (hb : before ≠ some q) (ha : after ≠ some q) :
    erasedHeap heap before after p n q = heap q := by
  simp [erasedHeap, hq, hb, ha]

theorem isSome_erasedHeap (hp : (heap p).isSome) :
    (erasedHeap heap before after p n q).isSome = (heap q).isSome := by
  by_cases hq : q = p
  · simp [erasedHeap, hq, hp]
  · simp [erasedHeap, hq]

theorem appendedHeap_of_ne (hq : q ≠ p) (hl : last ≠ some q) :
    appendedHeap heap last p n q = heap q := by
  simp [appendedHeap, hq, hl]

theorem isSome_appendedHeap (hp : (heap p).isSome) :
    (appendedHeap heap last p n q).isSome = (heap q).isSome := by
  by_cases hq : q = p
  · simp [appendedHeap, hq, hp]
  · simp [appendedHeap, hq]

end Heaps

/-- A node written before it is unlinked. -/
theorem erasedHeap_setNode (w : Wheel) (before after : Option Ptr) (p : Ptr) (n : Node) :
    erasedHeap (w.setNode p n).heap before after p n = erasedHeap w.heap before after p n := by
  funext q
  by_cases hq : q = p <;> simp [erasedHeap, setNode, hq]

/-- Unlinking the only node of a list. -/
theorem unlinkNode_only {w : Wheel} {i : ℤ} {b : ItemList} {p : Ptr} {n : Node}
    (hbucket : w.bucket i = some (some b)) (hhead : b.head = some p) (htail : b.tail = some p)
    (hn : w.heap p = some n) :
    w.unlinkNode p i =
      some (Represents.placed w i (erasedHeap w.heap none none p n) ⟨none, none⟩) := by
  rw [unlinkNode, hbucket]
  dsimp only
  rw [if_pos hhead, if_pos htail]
  refine congrArg (fun heap => some (Represents.placed w i heap ⟨none, none⟩)) (funext fun q => ?_)
  by_cases hq : q = p <;> simp [erasedHeap, hq, hn]

/-- Unlinking the first of several. -/
theorem unlinkNode_first {w : Wheel} {i : ℤ} {b : ItemList} {p after : Ptr} {n : Node}
    (hbucket : w.bucket i = some (some b)) (hhead : b.head = some p) (htail : b.tail ≠ some p)
    (hn : w.heap p = some n) (hnext : n.next = some after) (ha : after ≠ p)
    (hla : (w.heap after).isSome) :
    w.unlinkNode p i =
      some (Represents.placed w i (erasedHeap w.heap none (some after) p n)
        ⟨some after, b.tail⟩) := by
  obtain ⟨m, hm⟩ := Option.isSome_iff_exists.mp hla
  rw [unlinkNode, hbucket]
  dsimp only
  rw [if_pos hhead, if_neg htail]
  simp only [hn, hnext, hm, Option.bind_eq_bind, Option.bind_some]
  refine congrArg (fun heap => some (Represents.placed w i heap ⟨some after, b.tail⟩))
    (funext fun q => ?_)
  by_cases hq : q = p
  · simp [setNode, erasedHeap, hq, ha.symm, hn]
  · by_cases hqa : q = after
    · simp [setNode, erasedHeap, hqa, ha, hm]
    · simp [setNode, erasedHeap, hq, hqa, Ne.symm hqa]

/-- Unlinking the last of several. -/
theorem unlinkNode_last {w : Wheel} {i : ℤ} {b : ItemList} {p before : Ptr} {n : Node}
    (hbucket : w.bucket i = some (some b)) (hhead : b.head ≠ some p) (htail : b.tail = some p)
    (hn : w.heap p = some n) (hpre : n.pre = some before) (hb : before ≠ p)
    (hlb : (w.heap before).isSome) :
    w.unlinkNode p i =
      some (Represents.placed w i (erasedHeap w.heap (some before) none p n)
        ⟨b.head, some before⟩) := by
  obtain ⟨m, hm⟩ := Option.isSome_iff_exists.mp hlb
  rw [unlinkNode, hbucket]
  dsimp only
  rw [if_neg hhead, if_pos htail]
  simp only [hn, hpre, hm, Option.bind_eq_bind, Option.bind_some]
  refine congrArg (fun heap => some (Represents.placed w i heap ⟨b.head, some before⟩))
    (funext fun q => ?_)
  by_cases hq : q = p
  · simp [setNode, erasedHeap, hq, hb.symm, hn]
  · by_cases hqb : q = before
    · simp [setNode, erasedHeap, hqb, hb, hm]
    · simp [setNode, erasedHeap, hq, hqb, Ne.symm hqb]

/-- Unlinking a node that the list does not begin or end with. -/
theorem unlinkNode_inner {w : Wheel} {i : ℤ} {b : ItemList} {p before after : Ptr} {n : Node}
    (hbucket : w.bucket i = some (some b)) (hhead : b.head ≠ some p) (htail : b.tail ≠ some p)
    (hn : w.heap p = some n) (hpre : n.pre = some before) (hnext : n.next = some after)
    (hb : before ≠ p) (ha : after ≠ p) (hab : before ≠ after) (hlb : (w.heap before).isSome)
    (hla : (w.heap after).isSome) :
    w.unlinkNode p i = some { w with
      heap := erasedHeap w.heap (some before) (some after) p n } := by
  obtain ⟨m, hm⟩ := Option.isSome_iff_exists.mp hlb
  obtain ⟨m', hm'⟩ := Option.isSome_iff_exists.mp hla
  have hp₁ : (w.setNode before { m with next := some after }).heap p = some n := by
    simp [setNode, hb.symm, hn]
  have ha₁ : (w.setNode before { m with next := some after }).heap after = some m' := by
    simp [setNode, hab.symm, hm']
  rw [unlinkNode, hbucket]
  dsimp only
  rw [if_neg hhead, if_neg htail]
  simp only [hn, hpre, hm, Option.bind_eq_bind, Option.bind_some, hnext, hp₁, ha₁]
  refine congrArg (fun heap => some { w with heap := heap }) (funext fun q => ?_)
  by_cases hq : q = p
  · simp [erasedHeap, setNode, hq, ha.symm, hb.symm, hn]
  · by_cases hqb : q = before
    · simp [erasedHeap, setNode, hqb, hb, hab, hab.symm, hm]
    · by_cases hqa : q = after
      · simp [erasedHeap, setNode, hqa, ha, hab, hm']
      · simp [erasedHeap, setNode, hq, hqb, hqa, Ne.symm hqb, Ne.symm hqa]

namespace Represents

variable {w : Wheel} {slots : Calendar Ptr} {out l l₁ l₂ : List Ptr} {i j : ℕ} {p : Ptr} {n : Node}

/-- A place holds a null pointer, for no nodes, or the ends of its list. -/
theorem bucket_cases (h : Represents w slots out) (hi : slots[i]? = some l) :
    w.timeRoundVector[i]? = some none ∧ l = [] ∨
      ∃ b, w.timeRoundVector[i]? = some (some b) ∧ Double w.pre w.next b.head b.tail l := by
  have hb := h.bucket i l hi
  rcases hv : w.timeRoundVector[i]? with _ | _ | b
  · rw [hv] at hb
    exact hb.elim
  · rw [hv] at hb
    exact Or.inl ⟨rfl, hb⟩
  · rw [hv] at hb
    exact Or.inr ⟨b, rfl, hb⟩

/-- The list at a place with nodes is allocated. -/
theorem exists_bucket (h : Represents w slots out) (hi : slots[i]? = some l) (hl : l ≠ []) :
    ∃ b, w.timeRoundVector[i]? = some (some b) ∧ Double w.pre w.next b.head b.tail l :=
  (h.bucket_cases hi).resolve_left fun hb => hl hb.2

/-- The links of a node are its neighbours in the list. -/
theorem links (h : Represents w slots out) (hi : slots[i]? = some (l₁ ++ p :: l₂))
    (hn : w.heap p = some n) : n.pre = l₁.getLast? ∧ n.next = l₂.head? := by
  obtain ⟨b, -, hd⟩ := h.exists_bucket hi (by simp)
  have hb := (backChain_append.mp hd.back).2.1
  have hc := (chain_append.mp hd.chain).2.1
  rw [Option.or_none] at hb hc
  simp only [pre, next, hn, Option.bind_some] at hb hc
  exact ⟨hb, hc⟩

/-- **Unlinking** a node of which another field was written: its neighbours point to each other, and
the ends of the list are those of what is left. -/
theorem unlinkNode_eq (h : Represents w slots out) (hi : slots[i]? = some (l₁ ++ p :: l₂))
    (hpre : n.pre = l₁.getLast?) (hnext : n.next = l₂.head?) :
    (w.setNode p n).unlinkNode p i =
      some (placed w i (erasedHeap w.heap l₁.getLast? l₂.head? p n)
        ⟨(l₁ ++ l₂).head?, (l₁ ++ l₂).getLast?⟩) := by
  obtain ⟨b, hv, hd⟩ := h.exists_bucket hi (by simp)
  have hhead := hd.head_eq_some_iff
  have htail := hd.tail_eq_some_iff
  have hbucket : (w.setNode p n).bucket i = some (some b) := by
    rw [bucket_natCast]
    exact hv
  have hnode : (w.setNode p n).heap p = some n := by simp [setNode]
  have hlive : ∀ q ∈ l₁ ++ p :: l₂, ((w.setNode p n).heap q).isSome := by
    intro q hq
    obtain ⟨m, hm, -⟩ := h.index i _ hi q hq
    obtain ⟨m', hm', -⟩ := h.index i _ hi p (by simp)
    rw [setNode_isSome hm', hm]
    rfl
  have hnd := hd.nodup
  rcases List.eq_nil_or_concat' l₁ with rfl | ⟨k₁, before, rfl⟩
  · cases l₂ with
    | nil =>
      rw [unlinkNode_only hbucket (hhead.mpr rfl) (htail.mpr rfl) hnode, erasedHeap_setNode]
      rfl
    | cons after k₂ =>
      have hne : after ≠ p := by
        rintro rfl
        simp at hnd
      have hends : b.tail = ([] ++ after :: k₂).getLast? := by
        rw [hd.tail_eq]
        simp
      rw [unlinkNode_first hbucket (hhead.mpr rfl) (by simp [htail]) hnode hnext hne
        (hlive after (by simp)), erasedHeap_setNode, hends]
      rfl
  · have hneb : before ≠ p := (List.nodup_append.mp hnd).2.2 before (by simp) p (by simp)
    have hbefore := hpre
    rw [List.getLast?_concat] at hbefore
    cases l₂ with
    | nil =>
      have hends : b.head = (k₁ ++ [before] ++ []).head? := by
        rw [hd.head_eq]
        simp [List.head?_append]
      have hlast : (k₁ ++ [before] ++ []).getLast? = some before := by simp
      rw [unlinkNode_last hbucket (by simp [hhead]) (htail.mpr rfl) hnode hbefore hneb
        (hlive before (by simp)), erasedHeap_setNode, hends, hlast, List.getLast?_concat]
      rfl
    | cons after k₂ =>
      have hnea : after ≠ p := by
        have := (List.nodup_append.mp hnd).2.1
        rintro rfl
        simp at this
      have hab : before ≠ after :=
        (List.nodup_append.mp hnd).2.2 before (by simp) after (by simp)
      -- the ends of the list stay
      have hends : b = ⟨(k₁ ++ [before] ++ after :: k₂).head?,
          (k₁ ++ [before] ++ after :: k₂).getLast?⟩ := by
        have e₁ := hd.head_eq
        have e₂ := hd.tail_eq
        cases b
        simp_all [List.head?_append, List.getLast?_append, List.getLast?_cons]
      have hset : w.timeRoundVector.set i (some b) = w.timeRoundVector := by
        obtain ⟨hlt, e⟩ := List.getElem?_eq_some_iff.mp hv
        rw [← e]
        exact List.set_getElem_self hlt
      rw [unlinkNode_inner hbucket (by simp [hhead]) (by simp [htail]) hnode hbefore hnext hneb hnea
        hab (hlive before (by simp)) (hlive after (by simp)), erasedHeap_setNode, ← hends, placed,
        setBucket, Int.toNat_natCast, hset, List.getLast?_concat]
      rfl

/-- What is left of the slots after a node was unlinked. -/
theorem unlinked_repr (h : Represents w slots out) (hi : slots[i]? = some (l₁ ++ p :: l₂))
    (n : Node) :
    Represents (placed w i (erasedHeap w.heap l₁.getLast? l₂.head? p n)
      ⟨(l₁ ++ l₂).head?, (l₁ ++ l₂).getLast?⟩) (slots.set i (l₁ ++ l₂)) out := by
  obtain ⟨b, -, hd⟩ := h.exists_bucket hi (by simp)
  have hp : (w.heap p).isSome :=
    h.live (Or.inl (mem_flatten_of_getElem? hi (by simp)))
  have hpl : ∀ q ∈ l₁ ++ l₂, q ≠ p := by
    rintro q hq rfl
    have hnd := (List.perm_middle.nodup_iff).mp hd.nodup
    exact (List.nodup_cons.mp hnd).1 hq
  have hsub : ∀ q ∈ l₁ ++ l₂, q ∈ l₁ ++ p :: l₂ := fun q hq =>
    (List.Sublist.append_left (List.sublist_cons_self p l₂) l₁).subset hq
  refine h.relisted_repr hi _ _ (fun q hq hql => ?_) (fun q hq => ?_) (fun q hq => ?_) ?_ ?_
  · apply erasedHeap_of_ne
    · rintro rfl
      simp at hql
    · intro e
      exact hql (by simp [List.mem_of_getLast? e])
    · intro e
      exact hql (by simp [List.mem_of_mem_head? e])
  · obtain ⟨m, hm, hmi⟩ := h.index i _ hi q (hsub q hq)
    simp [erasedHeap, hpl q hq, hm, hmi]
  · rw [isSome_erasedHeap hp] at hq
    exact h.lt_fresh q hq
  · have hperm := (Calendar.flatten_set_perm hi).append_right out
    exact (List.nodup_cons.mp (hperm.nodup_iff.mp h.nodup)).2
  · refine hd.erase (fun q hq => ?_) fun q hq => ?_
    · obtain ⟨m, hm, -⟩ := h.index i _ hi q (hsub q hq)
      simp [next, placed, erasedHeap, hpl q hq, hm]
    · obtain ⟨m, hm, -⟩ := h.index i _ hi q (hsub q hq)
      simp [pre, placed, erasedHeap, hpl q hq, hm]

/-- **Relinking** a node at the end of a list. -/
theorem relinkNode_eq (h : Represents w slots out) (hj : slots[j]? = some l) (hpl : p ∉ l)
    (hn : w.heap p = some n) (ha : w.Allocated j) :
    w.relinkNode p j =
      some (placed w j (appendedHeap w.heap l.getLast? p n) ⟨(l ++ [p]).head?, some p⟩) := by
  obtain ⟨b, hv⟩ := ha
  have hd := h.bucket j l hj
  rw [← bucket_natCast, hv] at hd
  rw [relinkNode, hv]
  rcases List.eq_nil_or_concat' l with rfl | ⟨k, last, rfl⟩
  · have hhead : b.head = none := hd.head_eq
    obtain ⟨head, tail⟩ := b
    dsimp only at hhead
    subst hhead
    simp only [setBucket_heap, hn, Option.bind_eq_bind, Option.bind_some]
    refine congrArg (fun heap => some (placed w j heap ⟨some p, some p⟩)) (funext fun q => ?_)
    by_cases hq : q = p <;> simp [appendedHeap, hq]
  · have hlast : b.tail = some last := by
      rw [hd.tail_eq, List.getLast?_concat]
    have hne : last ≠ p := by
      rintro rfl
      simp at hpl
    obtain ⟨m, hm, -⟩ := h.index j _ hj last (by simp)
    have hn₁ : (w.setNode last { m with next := some p }).heap p = some n := by
      simp [setNode, hne.symm, hn]
    have hhead : b.head = (k ++ [last] ++ [p]).head? := by
      rw [hd.head_eq]
      simp [List.head?_append]
    obtain ⟨_ | head, tail⟩ := b
    · simp [List.head?_append] at hhead
    dsimp only at hhead hlast
    rw [← hhead, List.getLast?_concat]
    simp only [hlast, hm, hn₁, Option.bind_eq_bind, Option.bind_some]
    refine congrArg (fun heap => some (placed w j heap ⟨some head, some p⟩)) (funext fun q => ?_)
    by_cases hq : q = p
    · simp [appendedHeap, setNode, hq]
    · by_cases hql : q = last
      · simp [appendedHeap, setNode, hql, hne, hm]
      · simp [appendedHeap, setNode, hq, hql, Ne.symm hql]

/-- The slots after a node that is in no list was linked in at the place it names. -/
theorem relinked_repr (h : Represents w slots out) (hj : slots[j]? = some l)
    (hps : p ∉ slots.flatten) (hpo : p ∉ out) (hn : w.heap p = some n) (hnj : n.index = j) :
    Represents (placed w j (appendedHeap w.heap l.getLast? p n) ⟨(l ++ [p]).head?, some p⟩)
      (Calendar.add slots j p) out := by
  have hpl : p ∉ l := fun hp => hps (mem_flatten_of_getElem? hj hp)
  refine h.placed_repr hj hps hpo _ _ (fun q hql hqp => ?_) (fun q hq => ?_) (fun q hq => ?_) ?_
  · refine appendedHeap_of_ne hqp fun e => hql (List.mem_of_getLast? e)
  · by_cases hqp : q = p
    · simp [appendedHeap, hqp, hnj]
    · have hq' : q ∈ l := by simpa [hqp] using hq
      obtain ⟨m, hm, hmj⟩ := h.index j l hj q hq'
      simp [appendedHeap, hqp, hm, hmj]
  · rw [isSome_appendedHeap (by simp [hn])] at hq
    exact h.lt_fresh q hq
  · obtain ⟨head, tail, hd⟩ : ∃ head tail, Double w.pre w.next head tail l := by
      rcases h.bucket_cases hj with ⟨-, rfl⟩ | ⟨b, -, hd⟩
      · exact ⟨none, none, .nil⟩
      · exact ⟨b.head, b.tail, hd⟩
    have hne : ∀ q ∈ l, q ≠ p := fun q hq e => hpl (e ▸ hq)
    refine hd.snoc hpl (fun q hq => ?_) (fun q hq => ?_) ?_ ?_
    · obtain ⟨m, hm, -⟩ := h.index j l hj q hq
      simp [next, placed, appendedHeap, hne q hq, hm]
    · obtain ⟨m, hm, -⟩ := h.index j l hj q hq
      simp [pre, placed, appendedHeap, hne q hq, hm]
    · simp [next, placed, appendedHeap]
    · simp [pre, placed, appendedHeap]

/-! ## Moving -/

/-- The wheel after a node, `n`, was moved from between `l₁` and `l₂` to behind `l`. -/
def relocated (w : Wheel) (i j : ℕ) (l₁ l₂ l : List Ptr) (p : Ptr) (n : Node) : Wheel :=
  placed (placed w i (erasedHeap w.heap l₁.getLast? l₂.head? p n)
      ⟨(l₁ ++ l₂).head?, (l₁ ++ l₂).getLast?⟩) j
    (appendedHeap (erasedHeap w.heap l₁.getLast? l₂.head? p n) l.getLast? p n)
    ⟨(l ++ [p]).head?, some p⟩

/-- The slots after the move, with the node taken out where it was. -/
theorem move_eq (h : Represents w slots out) (hi : slots[i]? = some (l₁ ++ p :: l₂)) :
    Calendar.move slots i j p = Calendar.add (slots.set i (l₁ ++ l₂)) j p := by
  obtain ⟨b, -, hd⟩ := h.exists_bucket hi (by simp)
  have hp : p ∉ l₁ := fun hp => (List.nodup_append.mp hd.nodup).2.2 p hp p (by simp) rfl
  rw [Calendar.move, List.modify_eq_set_getElem? _ i slots, hi, Option.map_eq_map, Option.map_some,
    Option.getD_some, List.erase_append_right _ hp, List.erase_cons_head]

/-- Replacing the list at a place does not concern the others. -/
theorem placed_bucket {heap : Ptr → Option Node} {b : ItemList} {x : ℤ} (hx : x ≠ i) :
    (placed w i heap b).bucket x = w.bucket x := by
  simp only [Wheel.bucket]
  split
  · have hne : i ≠ x.toNat := by omega
    simp [placed, setBucket, hne]
  · rfl

/-- The critical section after the node was unlinked. -/
theorem relocate_unlinked (h : Represents w slots out) (hi : slots[i]? = some (l₁ ++ p :: l₂))
    (hn : w.heap p = some n) (x : ℤ) :
    w.relocate p i x =
      (placed w i (erasedHeap w.heap l₁.getLast? l₂.head? p { n with index := x })
        ⟨(l₁ ++ l₂).head?, (l₁ ++ l₂).getLast?⟩).relinkNode p x := by
  obtain ⟨hpre, hnext⟩ := h.links hi hn
  rw [relocate, hn]
  dsimp only [Option.bind_eq_bind, Option.bind_some]
  rw [h.unlinkNode_eq (n := { n with index := x }) hi hpre hnext, Option.bind_some]

section

variable (h : Represents w slots out) (hi : slots[i]? = some (l₁ ++ p :: l₂))
  (hj : slots[j]? = some l) (hij : i ≠ j)
include h hi hj hij

/-- **Moving** a node on a represented wheel, to an allocated place. -/
theorem relocate_eq (hn : w.heap p = some n) (ha : w.Allocated j) :
    w.relocate p i j = some (relocated w i j l₁ l₂ l p { n with index := j }) := by
  have h₁ := h.unlinked_repr hi { n with index := j }
  have hj₁ : (slots.set i (l₁ ++ l₂))[j]? = some l := by rw [List.getElem?_set_ne hij, hj]
  have hpl : p ∉ l := fun hp => hij (h.slot_unique hi hj (by simp) hp)
  have hne : (j : ℤ) ≠ i := by omega
  rw [h.relocate_unlinked hi hn, h₁.relinkNode_eq hj₁ hpl erasedHeap_self ?_]
  · rfl
  · rwa [Allocated, placed_bucket hne]

/-- The slots after the move: the node is at the end of the other list. -/
theorem relocated_repr (hnj : n.index = j) :
    Represents (relocated w i j l₁ l₂ l p n) (Calendar.move slots i j p) out := by
  have h₁ := h.unlinked_repr hi n
  have hj₁ : (slots.set i (l₁ ++ l₂))[j]? = some l := by rw [List.getElem?_set_ne hij, hj]
  have hps : p ∉ (slots.set i (l₁ ++ l₂)).flatten := by
    have hnd := (Calendar.flatten_set_perm hi).nodup_iff.mp (List.nodup_append.mp h.nodup).1
    exact (List.nodup_cons.mp hnd).1
  have hpo : p ∉ out := h.not_mem_out (mem_flatten_of_getElem? hi (by simp))
  rw [h.move_eq hi]
  exact h₁.relinked_repr hj₁ hps hpo erasedHeap_self hnj

end

/-- Moving a node makes no node live or dead. -/
theorem relocated_isSome (hp : (w.heap p).isSome) (q : Ptr) :
    ((relocated w i j l₁ l₂ l p n).heap q).isSome = (w.heap q).isSome := by
  have h₁ : ((erasedHeap w.heap l₁.getLast? l₂.head? p n) p).isSome := by
    rw [erasedHeap_self]
    rfl
  exact (isSome_appendedHeap h₁).trans (isSome_erasedHeap hp)

/-- The moved nodes are the nodes. -/
theorem mem_flatten_move (h : Represents w slots out) (hi : slots[i]? = some (l₁ ++ p :: l₂))
    (hj : slots[j]? = some l) {q : Ptr} :
    q ∈ (Calendar.move slots i j p).flatten ↔ q ∈ slots.flatten := by
  have hlt : j < (slots.set i (l₁ ++ l₂)).length := by
    rw [List.length_set]
    exact (List.getElem?_eq_some_iff.mp hj).1
  rw [h.move_eq hi, Calendar.mem_flatten_add hlt, (Calendar.flatten_set_perm hi).mem_iff,
    List.mem_cons]

/-! ## The new index -/

theorem newIndex_eq (w : Wheel) (time : ℤ) :
    w.newIndex time = (w.curIndex + min time (w.maxTime - 1)).tmod w.maxTime := by
  have e : (if time ≥ w.maxTime then (w.maxTime : ℤ) - 1 else time) = min time (w.maxTime - 1) := by
    split <;> omega
  rw [newIndex, e]

theorem newIndex_lt (h : Represents w slots out) (time : ℤ) : w.newIndex time < w.maxTime := by
  have hpos : (0 : ℤ) < w.maxTime := lt_of_le_of_lt h.curIndex_nonneg h.curIndex_lt
  rw [newIndex_eq]
  exact Int.tmod_lt_of_pos _ hpos

/-- A place that is allocated and to which an update leads is one of the slots. -/
theorem exists_slot_of_allocated (h : Represents w slots out) {time : ℤ}
    (ha : w.Allocated (w.newIndex time)) :
    ∃ (j : ℕ) (l : List Ptr), w.newIndex time = j ∧ slots[j]? = some l := by
  obtain ⟨b, hb⟩ := ha
  have hnn : 0 ≤ w.newIndex time := by
    by_contra hneg
    simp [Wheel.bucket, hneg] at hb
  obtain ⟨j, hj⟩ := Int.eq_ofNat_of_zero_le hnn
  have hlt := h.newIndex_lt time
  have hsize := h.size
  have hjs : j < slots.length := by omega
  exact ⟨j, slots[j], hj, List.getElem?_eq_getElem hjs⟩

/-- What an update does with a node of the slots. -/
theorem update_eq (h : Represents w slots out) (hi : slots[i]? = some (l₁ ++ p :: l₂)) (time : ℤ) :
    w.updateTimeRoundItemNode p time =
      if w.newIndex time = i then some w else w.relocate p i (w.newIndex time) := by
  obtain ⟨n, hn, hni⟩ := h.index i _ hi p (by simp)
  rw [updateTimeRoundItemNode, hn]
  dsimp only [Option.bind_eq_bind, Option.bind_some]
  rw [hni]

end Represents

end WebServer.TimeRound
