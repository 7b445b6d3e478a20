import Mathlib.Data.List.Nodup
import Mathlib.Logic.Function.Basic

/-!
# Linked lists in a heap

The heap enters through two functions, `next` and `pre`, from cells to the cells they point to.
`Chain next l e` says that the cells of `l` are linked forwards in order and that the last one
points to `e`; `BackChain pre p l` that they are linked backwards and that the first one points
back to `p`. A list kept by its two ends is `Single` when its cells are linked forwards, and
`Double` when they are linked both ways.

A heap write is a `Function.update`. The rules say what a write outside a list leaves alone
(`Chain.congr`), what a write at its end makes of it (`Chain.relink`), and how two lists are
spliced (`Single.splice`, `Double.append`), a cell is put at the end of one (`Double.concat`) or
taken out of it (`Single.erase`, `Double.erase`).
-/

namespace WebServer.Lib

variable {ι : Type*} {next next' pre pre' : ι → Option ι} {l l' : List ι} {e p : Option ι} {x : ι}

/-- The cells of `l` are linked forwards, and the last one points to `e`. -/
def Chain (next : ι → Option ι) : List ι → Option ι → Prop
  | [], _ => True
  | a :: l, e => next a = l.head?.or e ∧ Chain next l e

/-- The cells of `l` are linked backwards, and the first one points back to `p`. -/
def BackChain (pre : ι → Option ι) : Option ι → List ι → Prop
  | _, [] => True
  | p, a :: l => pre a = p ∧ BackChain pre (some a) l

@[simp] theorem chain_nil : Chain next [] e := trivial

@[simp] theorem backChain_nil : BackChain pre p [] := trivial

@[simp] theorem chain_cons {a : ι} :
    Chain next (a :: l) e ↔ next a = l.head?.or e ∧ Chain next l e :=
  Iff.rfl

@[simp] theorem backChain_cons {a : ι} :
    BackChain pre p (a :: l) ↔ pre a = p ∧ BackChain pre (some a) l :=
  Iff.rfl

theorem chain_append :
    Chain next (l ++ l') e ↔ Chain next l (l'.head?.or e) ∧ Chain next l' e := by
  induction l with
  | nil => simp
  | cons a l ih =>
    have h : (l ++ l').head?.or e = l.head?.or (l'.head?.or e) := by
      rw [List.head?_append, Option.or_assoc]
    simp only [List.cons_append, chain_cons, ih, h, and_assoc]

theorem backChain_append :
    BackChain pre p (l ++ l') ↔ BackChain pre p l ∧ BackChain pre (l.getLast?.or p) l' := by
  induction l generalizing p with
  | nil => simp
  | cons a l ih =>
    have h : (a :: l).getLast?.or p = l.getLast?.or (some a) := by
      rw [List.getLast?_cons]
      cases l.getLast? <;> rfl
    simp only [List.cons_append, backChain_cons, ih, h, and_assoc]

/-- Only the cells of the list matter. -/
theorem Chain.congr (h : Chain next l e) (hn : ∀ a ∈ l, next' a = next a) : Chain next' l e := by
  induction l with
  | nil => trivial
  | cons a l ih =>
    simp only [List.forall_mem_cons] at hn
    exact ⟨hn.1.trans h.1, ih h.2 hn.2⟩

/-- Only the cells of the list matter. -/
theorem BackChain.congr (h : BackChain pre p l) (hp : ∀ a ∈ l, pre' a = pre a) :
    BackChain pre' p l := by
  induction l generalizing p with
  | nil => trivial
  | cons a l ih =>
    simp only [List.forall_mem_cons] at hp
    exact ⟨hp.1.trans h.1, ih h.2 hp.2⟩

/-- A write to the last cell changes where the list leads. -/
theorem Chain.relink [DecidableEq ι] {y : Option ι} (h : Chain next l e) (hd : l.Nodup)
    (hx : l.getLast? = some x) : Chain (Function.update next x y) l y := by
  obtain ⟨l, rfl⟩ := List.getLast?_eq_some_iff.mp hx
  have hxl : x ∉ l := by
    intro hm
    exact (List.nodup_append.mp hd).2.2 x hm x (by simp) rfl
  obtain ⟨h₁, -⟩ := chain_append.mp h
  refine chain_append.mpr ⟨?_, by simp⟩
  refine Chain.congr h₁ fun a ha => Function.update_of_ne ?_ _ _
  rintro rfl
  exact hxl ha

/-- A list whose last cell is given another successor. -/
theorem Chain.relink_of_getLast [DecidableEq ι] {y : Option ι} (h : Chain next l e) (hd : l.Nodup)
    (hn : ∀ a ∈ l, next' a = if l.getLast? = some a then y else next a) : Chain next' l y := by
  rcases hx : l.getLast? with _ | x
  · rw [List.getLast?_eq_none_iff] at hx
    subst hx
    trivial
  · refine (h.relink hd hx).congr fun a ha => ?_
    rw [hn a ha, hx, Function.update_apply]
    simp only [Option.some.injEq, eq_comm]

/-- A cell points to the next one of the list. -/
theorem Chain.next_eq {a : ι} {i : ℕ} (h : Chain next l none) (hi : l[i]? = some a) :
    next a = l[i + 1]? := by
  induction l generalizing i with
  | nil => cases hi
  | cons b l ih =>
    cases i with
    | zero =>
      obtain rfl : b = a := by simpa using hi
      simpa [List.head?_eq_getElem?] using h.1
    | succ i => simpa using ih h.2 (by simpa using hi)

/-- The first cell points back to `p`. -/
theorem BackChain.pre_head {a : ι} (h : BackChain pre p l) (ha : l[0]? = some a) : pre a = p := by
  cases l with
  | nil => cases ha
  | cons b l =>
    obtain rfl : b = a := by simpa using ha
    exact h.1

/-- The other cells point back to the previous one of the list. -/
theorem BackChain.pre_eq {a : ι} {i : ℕ} (h : BackChain pre p l) (hi : l[i + 1]? = some a) :
    pre a = l[i]? := by
  induction l generalizing p i with
  | nil => cases hi
  | cons b l ih =>
    have hi' : l[i]? = some a := by simpa using hi
    cases i with
    | zero => exact h.2.pre_head hi'
    | succ i => simpa using ih h.2 hi'

/-! ## Lists kept by their two ends -/

/-- A list of distinct cells linked forwards, kept by its two ends. -/
structure Single (next : ι → Option ι) (head tail : Option ι) (l : List ι) : Prop where
  head_eq : head = l.head?
  tail_eq : tail = l.getLast?
  chain : Chain next l none
  nodup : l.Nodup

/-- A list of distinct cells linked both ways, kept by its two ends. -/
structure Double (pre next : ι → Option ι) (head tail : Option ι) (l : List ι) : Prop
    extends Single next head tail l where
  back : BackChain pre none l

variable {head tail head' tail' : Option ι}

theorem Single.nil : Single next none none [] := ⟨rfl, rfl, trivial, List.nodup_nil⟩

theorem Double.nil : Double pre next none none [] := ⟨.nil, trivial⟩

/-- One end is null exactly if the other is. -/
theorem Single.head_eq_none_iff (h : Single next head tail l) : head = none ↔ tail = none := by
  rw [h.head_eq, h.tail_eq, List.head?_eq_none_iff, List.getLast?_eq_none_iff]

/-- `pre` is the inverse of `next`. -/
theorem Double.next_iff_pre (h : Double pre next head tail l) {a : ι} (ha : a ∈ l) (b : ι) :
    next a = some b ↔ b ∈ l ∧ pre b = some a := by
  obtain ⟨i, hi⟩ := List.mem_iff_getElem?.mp ha
  constructor
  · intro hab
    have hb : l[i + 1]? = some b := (h.chain.next_eq hi).symm.trans hab
    exact ⟨List.mem_of_getElem? hb, (h.back.pre_eq hb).trans hi⟩
  · rintro ⟨hb, hba⟩
    obtain ⟨j, hj⟩ := List.mem_iff_getElem?.mp hb
    cases j with
    | zero =>
      rw [h.back.pre_head hj] at hba
      cases hba
    | succ j =>
      have hj' : l[j]? = some a := (h.back.pre_eq hj).symm.trans hba
      exact (h.chain.next_eq hj').trans hj

theorem Single.congr (h : Single next head tail l) (hn : ∀ a ∈ l, next' a = next a) :
    Single next' head tail l :=
  ⟨h.head_eq, h.tail_eq, h.chain.congr hn, h.nodup⟩

theorem Double.congr (h : Double pre next head tail l) (hn : ∀ a ∈ l, next' a = next a)
    (hp : ∀ a ∈ l, pre' a = pre a) : Double pre' next' head tail l :=
  ⟨h.toSingle.congr hn, h.back.congr hp⟩

theorem Single.eq_nil (h : Single next head tail l) (hh : head = none) : l = [] := by
  rw [h.head_eq] at hh
  simpa using hh

theorem Single.ne_nil (h : Single next head tail l) (hh : head = some x) : l ≠ [] := by
  rintro rfl
  simp [h.head_eq] at hh

/-- A list is headed by the cell that nothing is before. -/
theorem Single.head_eq_some_iff {l₁ l₂ : List ι} (h : Single next head tail (l₁ ++ x :: l₂)) :
    head = some x ↔ l₁ = [] := by
  have hx : x ∉ l₁ := fun hx => (List.nodup_append.mp h.nodup).2.2 x hx x (by simp) rfl
  rw [h.head_eq]
  cases l₁ with
  | nil => simp
  | cons a l₁ => simpa using fun e => hx (by simp [e])

/-- A list is ended by the cell that nothing is behind. -/
theorem Single.tail_eq_some_iff {l₁ l₂ : List ι} (h : Single next head tail (l₁ ++ x :: l₂)) :
    tail = some x ↔ l₂ = [] := by
  have hx : x ∉ l₂ := (List.nodup_cons.mp (List.nodup_append.mp h.nodup).2.1).1
  rw [h.tail_eq, List.getLast?_append_cons]
  rcases List.eq_nil_or_concat' l₂ with rfl | ⟨l, a, rfl⟩
  · simp
  · have hne : a ≠ x := by
      rintro rfl
      simp at hx
    simp [List.getLast?_cons, hne]

/-- The tail of a list with a head is one of its cells. -/
theorem Single.exists_tail (h : Single next head tail l) (hh : head = some x) :
    ∃ y, tail = some y ∧ y ∈ l := by
  have hne := h.ne_nil hh
  exact ⟨l.getLast hne, by rw [h.tail_eq, List.getLast?_eq_getLast_of_ne_nil hne],
    List.getLast_mem hne⟩

/-- One cell that points nowhere is a list. -/
theorem Double.singleton (hn : next x = none) (hp : pre x = none) :
    Double pre next (some x) (some x) [x] :=
  ⟨⟨rfl, rfl, by simp [hn], List.nodup_singleton x⟩, by simp [hp]⟩

variable [DecidableEq ι]

/-- **Splicing.** Pointing the tail of one list to the head of another links the two. -/
theorem Single.splice {y : ι} (h : Single next head tail l) (h' : Single next head' tail' l')
    (ht : tail = some y) (hh : head' = some x) (hdis : ∀ a ∈ l, a ∉ l') :
    Single (Function.update next y (some x)) head tail' (l ++ l') := by
  have hyl : y ∈ l := List.mem_of_getLast? (h.tail_eq ▸ ht)
  have hne : l ≠ [] := List.ne_nil_of_mem hyl
  have hne' : l' ≠ [] := h'.ne_nil hh
  refine ⟨?_, ?_, ?_, ?_⟩
  · rw [h.head_eq, List.head?_append_of_ne_nil _ hne]
  · rw [h'.tail_eq, List.getLast?_append_of_ne_nil _ hne']
  · refine chain_append.mpr ⟨?_, ?_⟩
    · rw [Option.or_none, ← h'.head_eq, hh]
      exact h.chain.relink h.nodup (h.tail_eq ▸ ht)
    · refine h'.chain.congr fun a ha => Function.update_of_ne ?_ _ _
      rintro rfl
      exact hdis a hyl ha
  · exact List.nodup_append.mpr ⟨h.nodup, h'.nodup, fun a ha b hb e => hdis a ha (e ▸ hb)⟩

/-- **Appending.** A cell that points nowhere forwards is put at the end of a non-empty list. -/
theorem Double.concat {y : ι} (h : Double pre next head tail l) (ht : tail = some y)
    (hx : x ∉ l) (hn : next x = none) :
    Double (Function.update pre x (some y)) (Function.update next y (some x)) head (some x)
      (l ++ [x]) := by
  have hs : Single next (some x) (some x) [x] :=
    ⟨rfl, rfl, by simp [hn], List.nodup_singleton x⟩
  have hdis : ∀ a ∈ l, a ∉ [x] := by
    intro a ha hax
    obtain rfl := List.mem_singleton.mp hax
    exact hx ha
  refine ⟨h.toSingle.splice hs ht rfl hdis, ?_⟩
  refine backChain_append.mpr ⟨h.back.congr fun a ha => Function.update_of_ne ?_ _ _, ?_⟩
  · rintro rfl
    exact hx ha
  · simp [← h.tail_eq, ht]

/-- **Appending**, to any list, in terms of what the pointers are afterwards. -/
theorem Double.snoc (h : Double pre next head tail l) (hx : x ∉ l)
    (hn : ∀ a ∈ l, next' a = if l.getLast? = some a then some x else next a)
    (hp : ∀ a ∈ l, pre' a = pre a) (hnx : next' x = none) (hpx : pre' x = l.getLast?) :
    Double pre' next' (l ++ [x]).head? (some x) (l ++ [x]) := by
  refine ⟨⟨rfl, by simp, chain_append.mpr ⟨?_, by simp [hnx]⟩, ?_⟩, ?_⟩
  · exact h.chain.relink_of_getLast h.nodup hn
  · exact List.nodup_append.mpr ⟨h.nodup, List.nodup_singleton x, fun a ha b hb e =>
      hx (List.mem_singleton.mp hb ▸ e ▸ ha)⟩
  · exact backChain_append.mpr ⟨h.back.congr hp, by simp [hpx]⟩

/-- **Unlinking forwards.** The cell before `x` points to what is behind `x`. -/
theorem Single.erase {l₁ l₂ : List ι} (h : Single next head tail (l₁ ++ x :: l₂))
    (hn : ∀ a ∈ l₁ ++ l₂, next' a = if l₁.getLast? = some a then l₂.head? else next a) :
    Single next' (l₁ ++ l₂).head? (l₁ ++ l₂).getLast? (l₁ ++ l₂) := by
  obtain ⟨h₁, h₂⟩ := chain_append.mp h.chain
  have hsub : (l₁ ++ l₂).Nodup :=
    h.nodup.sublist (List.Sublist.append_left (List.sublist_cons_self x l₂) l₁)
  have hdis := (List.nodup_append.mp hsub).2.2
  refine ⟨rfl, rfl, chain_append.mpr ⟨?_, ?_⟩, hsub⟩
  · rw [Option.or_none]
    exact h₁.relink_of_getLast (List.nodup_append.mp hsub).1
      fun a ha => hn a (List.mem_append_left l₂ ha)
  · refine h₂.2.congr fun a ha => ?_
    rw [hn a (List.mem_append_right l₁ ha), if_neg]
    intro hlast
    exact hdis a (List.mem_of_getLast? hlast) a ha rfl

/-- **Unlinking both ways.** Also the cell behind `x` points back to what is before `x`. -/
theorem Double.erase {l₁ l₂ : List ι} (h : Double pre next head tail (l₁ ++ x :: l₂))
    (hn : ∀ a ∈ l₁ ++ l₂, next' a = if l₁.getLast? = some a then l₂.head? else next a)
    (hp : ∀ a ∈ l₁ ++ l₂, pre' a = if l₂.head? = some a then l₁.getLast? else pre a) :
    Double pre' next' (l₁ ++ l₂).head? (l₁ ++ l₂).getLast? (l₁ ++ l₂) := by
  refine ⟨h.toSingle.erase hn, ?_⟩
  obtain ⟨h₁, h₂⟩ := backChain_append.mp h.back
  have hsub : (l₁ ++ l₂).Nodup :=
    h.nodup.sublist (List.Sublist.append_left (List.sublist_cons_self x l₂) l₁)
  have hdis := (List.nodup_append.mp hsub).2.2
  refine backChain_append.mpr ⟨h₁.congr fun a ha => ?_, ?_⟩
  · rw [hp a (List.mem_append_left l₂ ha), if_neg]
    intro hhead
    exact hdis a ha a (List.mem_of_mem_head? hhead) rfl
  · rw [Option.or_none]
    cases l₂ with
    | nil => trivial
    | cons b l₂ =>
      refine ⟨by rw [hp b (by simp), List.head?_cons, if_pos rfl], h₂.2.2.congr fun a ha => ?_⟩
      have hne : b ≠ a := by
        rintro rfl
        exact (List.nodup_cons.mp (List.nodup_append.mp hsub).2.1).1 ha
      rw [hp a (by simp [ha]), List.head?_cons, if_neg fun e => hne (Option.some.inj e)]

/-- **Joining.** The last cell of one list and the first cell of another point to each other. -/
theorem Double.append (h : Double pre next head tail l) (h' : Double pre next head' tail' l')
    (hdis : ∀ a ∈ l, a ∉ l')
    (hn : ∀ a ∈ l ++ l', next' a = if l.getLast? = some a then l'.head? else next a)
    (hp : ∀ a ∈ l ++ l', pre' a = if l'.head? = some a then l.getLast? else pre a) :
    Double pre' next' (l ++ l').head? (l ++ l').getLast? (l ++ l') := by
  refine ⟨⟨rfl, rfl, chain_append.mpr ⟨?_, ?_⟩, ?_⟩, backChain_append.mpr ⟨?_, ?_⟩⟩
  · rw [Option.or_none]
    exact h.chain.relink_of_getLast h.nodup fun a ha => hn a (List.mem_append_left l' ha)
  · refine h'.chain.congr fun a ha => ?_
    rw [hn a (List.mem_append_right l ha), if_neg]
    exact fun e => hdis a (List.mem_of_getLast? e) ha
  · exact List.nodup_append.mpr ⟨h.nodup, h'.nodup, fun a ha b hb e => hdis a ha (e ▸ hb)⟩
  · refine h.back.congr fun a ha => ?_
    rw [hp a (List.mem_append_left l' ha), if_neg]
    exact fun e => hdis a ha (List.mem_of_mem_head? e)
  · rw [Option.or_none]
    cases l' with
    | nil => trivial
    | cons b l' =>
      refine ⟨by rw [hp b (by simp), List.head?_cons, if_pos rfl], h'.back.2.congr fun a ha => ?_⟩
      have hne : b ≠ a := by
        rintro rfl
        exact (List.nodup_cons.mp h'.nodup).1 ha
      rw [hp a (by simp [ha]), List.head?_cons, if_neg fun e => hne (Option.some.inj e)]

end WebServer.Lib
