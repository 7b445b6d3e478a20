import Mathlib.Data.List.Perm.Subperm
import WebServer.Lib.Exec
import WebServer.Lib.Linked

/-!
# The intrusive lists of libco

`RemoveFromLink`, `AddTail`, `PopHead` and `Join` of `co_routine.cpp`, pointer by pointer. A node
carries its own links `pPrev` and `pNext`, and in `pLink` the list it is in; a list is given by its
two ends. The functions are templates: a node of type `T` holds in `data` whatever else `T` has, and
lists are named by any type.

A function yields `none` where the source has no defined result: a null pointer or a freed node is
dereferenced, a node is freed twice, the assertion of `RemoveFromLink` fails, or the loop of `Join`
runs in a cycle.

`Represents h lists` relates the pointers of a heap to the lists they stand for. Each function is
defined on a heap that represents lists, and its effect is read off the lists
(`removeFromLink_repr`, `addTail_repr`, `popHead_repr`, `join_repr`).
-/

namespace WebServer.Libco

open WebServer.Lib

/-- Addresses of nodes. -/
abbrev Ptr := ℕ

/-- A node: its links, the list it is in, and what else its type holds. -/
structure Item (κ δ : Type) where
  pPrev : Option Ptr
  pNext : Option Ptr
  pLink : Option κ
  data : δ
  deriving DecidableEq

/-- The two ends of a list. -/
structure Link where
  head : Option Ptr
  tail : Option Ptr
  deriving DecidableEq

/-- Nodes and lists. Nodes are numbered in the order of their allocation, and `fresh` is the number
of the next one. -/
structure Heap (κ δ : Type) where
  item : Ptr → Option (Item κ δ)
  link : κ → Link
  fresh : Ptr

namespace Heap

variable {κ δ : Type}

/-- No node is allocated, and every list is empty. -/
def empty : Heap κ δ := ⟨fun _ => none, fun _ => ⟨none, none⟩, 0⟩

/-- The node is allocated. -/
def Live (h : Heap κ δ) (x : Ptr) : Prop := (h.item x).isSome

instance (h : Heap κ δ) (x : Ptr) : Decidable (h.Live x) := inferInstanceAs (Decidable (_ = true))

/-- Where the `pNext` of a node points; a freed node points nowhere. -/
def next (h : Heap κ δ) (x : Ptr) : Option Ptr := (h.item x).bind Item.pNext

/-- Where the `pPrev` of a node points; a freed node points nowhere. -/
def prev (h : Heap κ δ) (x : Ptr) : Option Ptr := (h.item x).bind Item.pPrev

/-- The `pLink` of a node; a freed node is in no list. -/
def owner (h : Heap κ δ) (x : Ptr) : Option κ := (h.item x).bind Item.pLink

/-- Change a node that is there. -/
def modify (h : Heap κ δ) (x : Ptr) (f : Item κ δ → Item κ δ) : Heap κ δ :=
  { h with item := Function.update h.item x ((h.item x).map f) }

/-- Write to a node, which must be allocated. -/
def write (h : Heap κ δ) (x : Ptr) (f : Item κ δ → Item κ δ) : Option (Heap κ δ) :=
  if h.Live x then some (h.modify x f) else none

/-- A new node, in no list. -/
def alloc (h : Heap κ δ) (data : δ) : Heap κ δ :=
  { h with
    item := Function.update h.item h.fresh (some ⟨none, none, none, data⟩)
    fresh := h.fresh + 1 }

/-- `free` a node. -/
def dealloc (h : Heap κ δ) (x : Ptr) : Heap κ δ := { h with item := Function.update h.item x none }

variable [DecidableEq κ]

/-- Write both ends of a list. -/
def setLink (h : Heap κ δ) (k : κ) (l : Link) : Heap κ δ :=
  { h with link := Function.update h.link k l }

/-- `RemoveFromLink`, its first half: the node before `ap`, or the head of the list. -/
def unlinkFront (h : Heap κ δ) (lst : κ) (ap : Ptr) : Option (Heap κ δ) := do
  let node ← h.item ap
  if (h.link lst).head = some ap then
    let h := h.setLink lst { h.link lst with head := node.pNext }
    match (h.link lst).head with
    | some first => h.write first fun n => { n with pPrev := none }
    | none => some h
  else
    match node.pPrev with
    | some before => h.write before fun n => { n with pNext := node.pNext }
    | none => some h

/-- `RemoveFromLink`, its second half: the node behind `ap`, or the tail of the list. -/
def unlinkBack (h : Heap κ δ) (lst : κ) (ap : Ptr) : Option (Heap κ δ) := do
  let node ← h.item ap
  if (h.link lst).tail = some ap then
    let h := h.setLink lst { h.link lst with tail := node.pPrev }
    match (h.link lst).tail with
    | some last => h.write last fun n => { n with pNext := none }
    | none => some h
  else
    match node.pNext with
    | some after => h.write after fun n => { n with pPrev := node.pPrev }
    | none => none

/-- `RemoveFromLink`. -/
def removeFromLink (h : Heap κ δ) (ap : Ptr) : Option (Heap κ δ) := do
  let node ← h.item ap
  match node.pLink with
  | none => some h
  | some lst =>
    -- `assert( lst->head && lst->tail )`
    if (h.link lst).head.isSome ∧ (h.link lst).tail.isSome then
      let h ← h.unlinkFront lst ap
      let h ← h.unlinkBack lst ap
      h.write ap fun n => { n with pPrev := none, pNext := none, pLink := none }
    else none

/-- `AddTail`. -/
def addTail (h : Heap κ δ) (apLink : κ) (ap : Ptr) : Option (Heap κ δ) := do
  let node ← h.item ap
  match node.pLink with
  | some _ => some h
  | none =>
    match (h.link apLink).tail with
    | some last =>
      let h ← h.write last fun n => { n with pNext := some ap }
      let h ← h.write ap fun n => { n with pNext := none, pPrev := some last }
      let h := h.setLink apLink { h.link apLink with tail := some ap }
      h.write ap fun n => { n with pLink := some apLink }
    | none =>
      let h := h.setLink apLink ⟨some ap, some ap⟩
      h.write ap fun n => { n with pNext := none, pPrev := none, pLink := some apLink }

/-- `PopHead`. -/
def popHead (h : Heap κ δ) (apLink : κ) : Option (Heap κ δ) :=
  match (h.link apLink).head with
  | none => some h
  | some lp => do
    let node ← h.item lp
    let h := h.setLink apLink
      (if (h.link apLink).tail = some lp then ⟨none, none⟩
      else { h.link apLink with head := node.pNext })
    let h ← h.write lp fun n => { n with pPrev := none, pNext := none, pLink := none }
    match (h.link apLink).head with
    | some first => h.write first fun n => { n with pPrev := none }
    | none => some h

/-- The loop of `Join`, from `lp` on. The number bounds the nodes it can meet. -/
def relabel (apLink : κ) : ℕ → Option Ptr → Heap κ δ → Option (Heap κ δ)
  | _, none, h => some h
  | 0, some _, _ => none
  | n + 1, some lp, h => do
    let node ← h.item lp
    let h ← h.write lp fun n => { n with pLink := some apLink }
    relabel apLink n node.pNext h

/-- `Join`. A list without a cycle has at most `fresh` nodes. -/
def join (h : Heap κ δ) (apLink apOther : κ) : Option (Heap κ δ) :=
  match (h.link apOther).head with
  | none => some h
  | some lp => do
    let h ← relabel apLink h.fresh (some lp) h
    match (h.link apLink).tail with
    | some last =>
      let h ← h.write last fun n => { n with pNext := some lp }
      let h ← h.write lp fun n => { n with pPrev := some last }
      let h := h.setLink apLink { h.link apLink with tail := (h.link apOther).tail }
      some (h.setLink apOther ⟨none, none⟩)
    | none =>
      let h := h.setLink apLink (h.link apOther)
      some (h.setLink apOther ⟨none, none⟩)

/-! ## What a write changes -/

section Fields

omit [DecidableEq κ]

variable {h : Heap κ δ} {x y : Ptr} {f : Item κ δ → Item κ δ} {p : Option Ptr} {o : Option κ}

theorem live_iff : h.Live x ↔ ∃ n, h.item x = some n := Option.isSome_iff_exists

theorem write_eq (hx : h.Live x) : h.write x f = some (h.modify x f) := if_pos hx

@[simp] theorem modify_link : (h.modify x f).link = h.link := rfl

@[simp] theorem modify_fresh : (h.modify x f).fresh = h.fresh := rfl

/-- What is read from a node of a heap of which one node was changed. -/
theorem modify_item (y : Ptr) :
    (h.modify x f).item y = if y = x then (h.item x).map f else h.item y :=
  Function.update_apply ..

@[simp] theorem modify_live : (h.modify x f).Live y ↔ h.Live y := by
  by_cases hy : y = x
  · simp [Live, modify_item, hy]
  · simp [Live, modify_item, hy]

/-- A field that the change leaves alone. -/
theorem modify_bind {β : Type} {g : Item κ δ → Option β} (hf : ∀ n, g (f n) = g n) (y : Ptr) :
    ((h.modify x f).item y).bind g = (h.item y).bind g := by
  by_cases hy : y = x
  · subst hy
    rw [modify_item, if_pos rfl]
    cases h.item y with
    | none => rfl
    | some n => exact hf n
  · rw [modify_item, if_neg hy]

/-- A field that the change writes. -/
theorem modify_bind_of_live {β : Type} {g : Item κ δ → Option β} {b : Option β} (hx : h.Live x)
    (hf : ∀ n, g (f n) = b) (y : Ptr) :
    ((h.modify x f).item y).bind g = if y = x then b else (h.item y).bind g := by
  by_cases hy : y = x
  · subst hy
    obtain ⟨n, hn⟩ := live_iff.mp hx
    rw [modify_item, if_pos rfl, if_pos rfl, hn]
    exact hf n
  · rw [modify_item, if_neg hy, if_neg hy]

theorem alloc_item (h : Heap κ δ) (data : δ) (y : Ptr) :
    (h.alloc data).item y = if y = h.fresh then some ⟨none, none, none, data⟩ else h.item y :=
  Function.update_apply ..

theorem dealloc_item (h : Heap κ δ) (x y : Ptr) :
    (h.dealloc x).item y = if y = x then none else h.item y :=
  Function.update_apply ..

theorem modify_next (hx : h.Live x) (hf : ∀ n, (f n).pNext = p) (y : Ptr) :
    (h.modify x f).next y = if y = x then p else h.next y :=
  modify_bind_of_live hx hf y

theorem modify_prev (hx : h.Live x) (hf : ∀ n, (f n).pPrev = p) (y : Ptr) :
    (h.modify x f).prev y = if y = x then p else h.prev y :=
  modify_bind_of_live hx hf y

theorem modify_owner (hx : h.Live x) (hf : ∀ n, (f n).pLink = o) (y : Ptr) :
    (h.modify x f).owner y = if y = x then o else h.owner y :=
  modify_bind_of_live hx hf y

theorem modify_next_of_eq (hf : ∀ n, (f n).pNext = n.pNext) (y : Ptr) :
    (h.modify x f).next y = h.next y :=
  modify_bind hf y

theorem modify_prev_of_eq (hf : ∀ n, (f n).pPrev = n.pPrev) (y : Ptr) :
    (h.modify x f).prev y = h.prev y :=
  modify_bind hf y

theorem modify_owner_of_eq (hf : ∀ n, (f n).pLink = n.pLink) (y : Ptr) :
    (h.modify x f).owner y = h.owner y :=
  modify_bind hf y

end Fields

section SetLink

variable {h : Heap κ δ} {k : κ} {l : Link} {x : Ptr}

@[simp] theorem setLink_item : (h.setLink k l).item = h.item := rfl

@[simp] theorem setLink_next : (h.setLink k l).next = h.next := rfl

@[simp] theorem setLink_prev : (h.setLink k l).prev = h.prev := rfl

@[simp] theorem setLink_owner : (h.setLink k l).owner = h.owner := rfl

@[simp] theorem setLink_fresh : (h.setLink k l).fresh = h.fresh := rfl

@[simp] theorem setLink_live : (h.setLink k l).Live x ↔ h.Live x := Iff.rfl

@[simp] theorem setLink_link : (h.setLink k l).link = Function.update h.link k l := rfl

end SetLink

/-! ## What every function leaves alone -/

/-- The same nodes are allocated, and hold the same data. -/
structure Keeps (h h' : Heap κ δ) : Prop where
  fresh : h'.fresh = h.fresh
  data : ∀ x, (h'.item x).map Item.data = (h.item x).map Item.data

namespace Keeps

omit [DecidableEq κ]

variable {h h' h'' : Heap κ δ} {x : Ptr}

theorem refl (h : Heap κ δ) : Keeps h h := ⟨rfl, fun _ => rfl⟩

theorem trans (h₁ : Keeps h h') (h₂ : Keeps h' h'') : Keeps h h'' :=
  ⟨h₂.fresh.trans h₁.fresh, fun x => (h₂.data x).trans (h₁.data x)⟩

theorem live (hk : Keeps h h') : h'.Live x ↔ h.Live x := by
  have := congrArg Option.isSome (hk.data x)
  rw [Option.isSome_map, Option.isSome_map] at this
  rw [Live, Live, this]

theorem modify {f : Item κ δ → Item κ δ} (hf : ∀ n, (f n).data = n.data) (x : Ptr) :
    Keeps h (h.modify x f) := by
  refine ⟨rfl, fun y => ?_⟩
  by_cases hy : y = x
  · subst hy
    rw [modify_item, if_pos rfl, Option.map_map]
    exact congrFun (congrArg Option.map (funext hf)) _
  · rw [modify_item, if_neg hy]

theorem setLink [DecidableEq κ] (k : κ) (l : Link) : Keeps h (h.setLink k l) :=
  ⟨rfl, fun _ => rfl⟩

end Keeps

/-! ## Unlinking -/

section Unlink

variable {h : Heap κ δ} {k : κ} {x : Ptr} {l₁ l₂ : List Ptr}

/-- **The first half of `RemoveFromLink`**, on a node between `l₁` and `l₂`. -/
theorem unlinkFront_spec (hl : ∀ a ∈ l₁ ++ x :: l₂, h.Live a) (hp : h.prev x = l₁.getLast?)
    (hn : h.next x = l₂.head?) (hh : (h.link k).head = (l₁ ++ x :: l₂).head?)
    (hx : (h.link k).head = some x ↔ l₁ = []) :
    ∃ h', h.unlinkFront k x = some h' ∧ Keeps h h' ∧ h'.owner = h.owner ∧
      h'.link = Function.update h.link k { h.link k with head := (l₁ ++ l₂).head? } ∧
      (∀ a, h'.next a = if l₁.getLast? = some a then l₂.head? else h.next a) ∧
      ∀ a, h'.prev a = if l₁ = [] ∧ l₂.head? = some a then none else h.prev a := by
  obtain ⟨n, hn'⟩ := live_iff.mp (hl x (by simp))
  have hp' : n.pPrev = l₁.getLast? := by simpa [prev, hn'] using hp
  have hnn : n.pNext = l₂.head? := by simpa [next, hn'] using hn
  rcases List.eq_nil_or_concat' l₁ with rfl | ⟨k₁, b, rfl⟩
  · have hhead := hx.mpr rfl
    cases l₂ with
    | nil =>
      refine ⟨h.setLink k { h.link k with head := none }, ?_, .setLink k _, rfl, ?_, ?_, ?_⟩
      · simp [unlinkFront, hn', hhead, hnn]
      all_goals simp
    | cons c k₂ =>
      have hc : h.Live c := hl c (by simp)
      refine ⟨(h.setLink k { h.link k with head := some c }).modify c
        fun n => { n with pPrev := none }, ?_,
        (Keeps.setLink k _).trans (.modify (fun _ => by rfl) c), ?_, ?_, ?_, ?_⟩
      · simp [unlinkFront, hn', hhead, hnn, write, hc]
      · exact funext (modify_owner_of_eq fun _ => by rfl)
      · simp
      · intro a
        rw [modify_next_of_eq fun _ => by rfl]
        simp
      · intro a
        rw [modify_prev (by exact hc) fun _ => by rfl]
        simp [eq_comm]
  · have hhead : (h.link k).head ≠ some x := by simp [hx]
    have hb : h.Live b := hl b (by simp)
    rw [List.getLast?_concat] at hp'
    refine ⟨h.modify b fun m => { m with pNext := n.pNext }, ?_, .modify (fun _ => by rfl) b, ?_,
      ?_, ?_, ?_⟩
    · simp [unlinkFront, hn', hhead, hp', write, hb]
    · exact funext (modify_owner_of_eq fun _ => by rfl)
    · have e : (k₁ ++ [b] ++ l₂).head? = (h.link k).head := by
        rw [hh]
        cases k₁ <;> simp
      rw [e, modify_link]
      exact (Function.update_eq_self k h.link).symm
    · intro a
      rw [modify_next (p := n.pNext) hb fun _ => by rfl, hnn]
      simp [eq_comm]
    · intro a
      rw [modify_prev_of_eq fun _ => by rfl]
      simp

/-- **The second half of `RemoveFromLink`**, on a node between `l₁` and `l₂`. -/
theorem unlinkBack_spec (hl : ∀ a ∈ l₁ ++ x :: l₂, h.Live a) (hp : h.prev x = l₁.getLast?)
    (hn : h.next x = l₂.head?) (ht : (h.link k).tail = (l₁ ++ x :: l₂).getLast?)
    (hx : (h.link k).tail = some x ↔ l₂ = []) :
    ∃ h', h.unlinkBack k x = some h' ∧ Keeps h h' ∧ h'.owner = h.owner ∧
      h'.link = Function.update h.link k { h.link k with tail := (l₁ ++ l₂).getLast? } ∧
      (∀ a, h'.next a = if l₂ = [] ∧ l₁.getLast? = some a then none else h.next a) ∧
      ∀ a, h'.prev a = if l₂.head? = some a then l₁.getLast? else h.prev a := by
  obtain ⟨n, hn'⟩ := live_iff.mp (hl x (by simp))
  have hp' : n.pPrev = l₁.getLast? := by simpa [prev, hn'] using hp
  have hnn : n.pNext = l₂.head? := by simpa [next, hn'] using hn
  cases l₂ with
  | nil =>
    have htail := hx.mpr rfl
    rcases List.eq_nil_or_concat' l₁ with rfl | ⟨k₁, b, rfl⟩
    · refine ⟨h.setLink k { h.link k with tail := none }, ?_, .setLink k _, rfl, ?_, ?_, ?_⟩
      · simp [unlinkBack, hn', htail, hp']
      all_goals simp
    · have hb : h.Live b := hl b (by simp)
      rw [List.getLast?_concat] at hp'
      refine ⟨(h.setLink k { h.link k with tail := some b }).modify b
        fun n => { n with pNext := none }, ?_,
        (Keeps.setLink k _).trans (.modify (fun _ => by rfl) b), ?_, ?_, ?_, ?_⟩
      · simp [unlinkBack, hn', htail, hp', write, hb]
      · exact funext (modify_owner_of_eq fun _ => by rfl)
      · simp
      · intro a
        rw [modify_next (by exact hb) fun _ => by rfl]
        simp [eq_comm]
      · intro a
        rw [modify_prev_of_eq fun _ => by rfl]
        simp
  | cons c k₂ =>
    have htail : (h.link k).tail ≠ some x := by simp [hx]
    have hc : h.Live c := hl c (by simp)
    rw [List.head?_cons] at hnn
    refine ⟨h.modify c fun m => { m with pPrev := n.pPrev }, ?_, .modify (fun _ => by rfl) c, ?_,
      ?_, ?_, ?_⟩
    · simp [unlinkBack, hn', htail, hnn, write, hc]
    · exact funext (modify_owner_of_eq fun _ => by rfl)
    · have e : (l₁ ++ c :: k₂).getLast? = (h.link k).tail := by
        rw [ht]
        simp [List.getLast?_append, List.getLast?_cons]
      rw [e, modify_link]
      exact (Function.update_eq_self k h.link).symm
    · intro a
      rw [modify_next_of_eq fun _ => by rfl]
      simp
    · intro a
      rw [modify_prev (p := n.pPrev) hc fun _ => by rfl, hp']
      simp [eq_comm]

end Unlink

/-- A node that is in a list is not put into another one. -/
theorem addTail_of_owner {h : Heap κ δ} {k k' : κ} {x : Ptr} (hx : h.owner x = some k') :
    h.addTail k x = some h := by
  cases hi : h.item x with
  | none => simp [owner, hi] at hx
  | some n =>
    have ho : n.pLink = some k' := by simpa [owner, hi] using hx
    simp [addTail, hi, ho]

/-! ## The lists a heap stands for -/

omit [DecidableEq κ] in
/-- The representation invariant: every list is well formed in both directions, and `pLink` says
which list a node is in. -/
structure Represents (h : Heap κ δ) (lists : κ → List Ptr) : Prop where
  double : ∀ k, Double h.prev h.next (h.link k).head (h.link k).tail (lists k)
  owner : ∀ k x, x ∈ lists k ↔ h.owner x = some k
  lt_fresh : ∀ x, h.Live x → x < h.fresh

namespace Represents

variable {h h' : Heap κ δ} {lists : κ → List Ptr} {k k' : κ} {x y : Ptr} {l l₁ l₂ : List Ptr}

section Reading

omit [DecidableEq κ]

theorem empty : Represents (empty : Heap κ δ) fun _ => [] where
  double _ := .nil
  owner _ _ := by simp [Heap.empty, Heap.owner]
  lt_fresh _ hx := by simp [Heap.empty, Live] at hx

theorem live (hr : Represents h lists) (hx : x ∈ lists k) : h.Live x := by
  have ho := (hr.owner k x).mp hx
  cases hi : h.item x with
  | none => simp [Heap.owner, hi] at ho
  | some n => simp [Live, hi]

/-- A node is in one list only. -/
theorem eq_of_mem (hr : Represents h lists) (hx : x ∈ lists k) (hx' : x ∈ lists k') : k = k' :=
  Option.some.inj (((hr.owner k x).mp hx).symm.trans ((hr.owner k' x).mp hx'))

theorem not_mem (hr : Represents h lists) (hx : x ∈ lists k) (hk : k' ≠ k) : x ∉ lists k' :=
  fun hx' => hk (hr.eq_of_mem hx' hx)

theorem nodup (hr : Represents h lists) (k : κ) : (lists k).Nodup := (hr.double k).nodup

theorem not_mem_of_owner (hr : Represents h lists) (hx : h.owner x = none) (k : κ) :
    x ∉ lists k := by
  intro hm
  rw [(hr.owner k x).mp hm] at hx
  cases hx

/-- The links of a node are its neighbours in the list. -/
theorem links (hr : Represents h lists) (hk : lists k = l₁ ++ x :: l₂) :
    h.prev x = l₁.getLast? ∧ h.next x = l₂.head? := by
  have hd := hr.double k
  rw [hk] at hd
  have hb := (backChain_append.mp hd.back).2.1
  have hc := (chain_append.mp hd.chain).2.1
  rw [Option.or_none] at hb hc
  exact ⟨hb, hc⟩

end Reading

/-- One list was changed: what is left to check is that list, and which list each node is in. -/
theorem update (hr : Represents h lists) (hk : Keeps h h')
    (hlink : ∀ k' ≠ k, h'.link k' = h.link k')
    (hsame : ∀ k' ≠ k, ∀ a ∈ lists k', h'.next a = h.next a ∧ h'.prev a = h.prev a)
    (hd : Double h'.prev h'.next (h'.link k).head (h'.link k).tail l)
    (howner : ∀ k' a, a ∈ Function.update lists k l k' ↔ h'.owner a = some k') :
    Represents h' (Function.update lists k l) where
  double := by
    intro k'
    by_cases hkk : k' = k
    · subst hkk
      rw [Function.update_self]
      exact hd
    · rw [Function.update_of_ne hkk, hlink k' hkk]
      exact (hr.double k').congr (fun a ha => (hsame k' hkk a ha).1) fun a ha =>
        (hsame k' hkk a ha).2
  owner := howner
  lt_fresh := by
    intro x hx
    rw [hk.fresh]
    exact hr.lt_fresh x (hk.live.mp hx)

/-- A node taken out of every list is taken out of its own. -/
theorem erase_eq (hr : Represents h lists) (hk : lists k = l₁ ++ x :: l₂) :
    (fun k' => (lists k').erase x) = Function.update lists k (l₁ ++ l₂) := by
  funext k'
  by_cases hkk : k' = k
  · subst hkk
    have hx : x ∉ l₁ := by
      have hd := hr.nodup k'
      rw [hk] at hd
      exact fun hm => (List.nodup_append.mp hd).2.2 x hm x (by simp) rfl
    rw [Function.update_self, hk, List.erase_append_right _ hx, List.erase_cons_head]
  · rw [Function.update_of_ne hkk, List.erase_of_not_mem]
    exact hr.not_mem (k := k) (by rw [hk]; simp) hkk

/-- **`RemoveFromLink`** takes a node out of the list it is in. -/
theorem removeFromLink_repr (hr : Represents h lists) (hx : h.Live x) :
    ∃ h', h.removeFromLink x = some h' ∧ Represents h' (fun k => (lists k).erase x) ∧
      Keeps h h' := by
  obtain ⟨n, hn⟩ := live_iff.mp hx
  rcases ho : n.pLink with _ | k
  · have hnone : h.owner x = none := by simp [Heap.owner, hn, ho]
    have e : (fun k => (lists k).erase x) = lists :=
      funext fun k => List.erase_of_not_mem (hr.not_mem_of_owner hnone k)
    refine ⟨h, by simp [removeFromLink, hn, ho], ?_, .refl h⟩
    rw [e]
    exact hr
  · have hmem : x ∈ lists k := (hr.owner k x).mpr (by simp [Heap.owner, hn, ho])
    obtain ⟨l₁, l₂, hk⟩ := List.append_of_mem hmem
    have hd := hr.double k
    rw [hk] at hd
    obtain ⟨hp, hnx⟩ := hr.links hk
    have hlive : ∀ a ∈ l₁ ++ x :: l₂, h.Live a := fun a ha =>
      hr.live (k := k) (by rw [hk]; exact ha)
    obtain ⟨h₁, e₁, k₁, o₁, lk₁, n₁, p₁⟩ :=
      unlinkFront_spec hlive hp hnx hd.head_eq hd.head_eq_some_iff
    have hndx : x ∉ l₁ ∧ x ∉ l₂ := by
      have hnd := hd.nodup
      exact ⟨fun hm => (List.nodup_append.mp hnd).2.2 x hm x (by simp) rfl,
        (List.nodup_cons.mp (List.nodup_append.mp hnd).2.1).1⟩
    have hlast : l₁.getLast? ≠ some x := fun e => hndx.1 (List.mem_of_getLast? e)
    have hfirst : l₂.head? ≠ some x := fun e => hndx.2 (List.mem_of_mem_head? e)
    -- the first half leaves the links of the node alone
    have hp₁ : h₁.prev x = l₁.getLast? := by rw [p₁, if_neg (by simp [hfirst]), hp]
    have hn₁ : h₁.next x = l₂.head? := by rw [n₁, if_neg hlast, hnx]
    have htail : (h₁.link k).tail = (h.link k).tail := by rw [lk₁, Function.update_self]
    obtain ⟨h₂, e₂, k₂, o₂, lk₂, n₂, p₂⟩ := unlinkBack_spec (h := h₁) (k := k)
      (fun a ha => k₁.live.mpr (hlive a ha)) hp₁ hn₁ (by rw [htail, hd.tail_eq])
      (by rw [htail, hd.tail_eq_some_iff])
    have hx₂ : h₂.Live x := (k₁.trans k₂).live.mpr hx
    have hends : (h.link k).head.isSome ∧ (h.link k).tail.isSome := by
      rw [hd.head_eq, hd.tail_eq]
      simp
    refine ⟨h₂.modify x fun n => { n with pPrev := none, pNext := none, pLink := none }, ?_, ?_,
      (k₁.trans k₂).trans (.modify (fun _ => by rfl) x)⟩
    · simp [removeFromLink, hn, ho, hends, e₁, e₂, write, hx₂]
    have hnext : ∀ a, a ≠ x → (h₂.modify x fun n =>
        { n with pPrev := none, pNext := none, pLink := none }).next a =
          if l₁.getLast? = some a then l₂.head? else h.next a := by
      intro a ha
      rw [modify_next (p := none) hx₂ fun _ => by rfl, if_neg ha, n₂, n₁]
      by_cases hl : l₁.getLast? = some a
      · cases l₂ <;> simp [hl]
      · simp [hl]
    have hprev : ∀ a, a ≠ x → (h₂.modify x fun n =>
        { n with pPrev := none, pNext := none, pLink := none }).prev a =
          if l₂.head? = some a then l₁.getLast? else h.prev a := by
      intro a ha
      rw [modify_prev (p := none) hx₂ fun _ => by rfl, if_neg ha, p₂, p₁]
      by_cases hl : l₂.head? = some a
      · simp [hl]
      · simp [hl]
    have hne : ∀ a ∈ l₁ ++ l₂, a ≠ x := by
      rintro a ha rfl
      exact (List.mem_append.mp ha).elim hndx.1 hndx.2
    rw [hr.erase_eq hk]
    apply hr.update ((k₁.trans k₂).trans (.modify (fun _ => by rfl) x))
    · intro k' hkk
      rw [modify_link, lk₂, Function.update_of_ne hkk, lk₁, Function.update_of_ne hkk]
    · intro k' hkk a ha
      have hna : ∀ b ∈ l₁ ++ x :: l₂, b ≠ a := by
        rintro b hb rfl
        exact hkk (hr.eq_of_mem ha (by rw [hk]; exact hb))
      have hax : a ≠ x := (hna x (by simp)).symm
      refine ⟨?_, ?_⟩
      · rw [hnext a hax, if_neg]
        exact fun e => hna a (by simp [List.mem_of_getLast? e]) rfl
      · rw [hprev a hax, if_neg]
        exact fun e => hna a (by simp [List.mem_of_mem_head? e]) rfl
    · have hlink : (h₂.link k) = ⟨(l₁ ++ l₂).head?, (l₁ ++ l₂).getLast?⟩ := by
        rw [lk₂, Function.update_self, lk₁, Function.update_self]
      rw [modify_link, hlink]
      exact hd.erase (fun a ha => hnext a (hne a ha)) fun a ha => hprev a (hne a ha)
    · intro k' a
      rw [modify_owner (o := none) hx₂ fun _ => by rfl, o₂, o₁, ← hr.erase_eq hk,
        (hr.nodup k').mem_erase_iff, hr.owner k' a]
      by_cases hax : a = x <;> simp [hax]

/-- **`AddTail`** puts a node that is in no list at the end of a list. -/
theorem addTail_repr (hr : Represents h lists) (hx : h.Live x) (ho : h.owner x = none) (k : κ) :
    ∃ h', h.addTail k x = some h' ∧ Represents h' (Function.update lists k (lists k ++ [x])) ∧
      Keeps h h' := by
  obtain ⟨n, hn⟩ := live_iff.mp hx
  have ho' : n.pLink = none := by simpa [Heap.owner, hn] using ho
  have hd := hr.double k
  have hxk := hr.not_mem_of_owner ho
  have hmem : ∀ k' a, a ∈ Function.update lists k (lists k ++ [x]) k' ↔
      (if a = x then some k else h.owner a) = some k' := by
    intro k' a
    by_cases hax : a = x
    · subst hax
      by_cases hkk : k' = k
      · simp [hkk]
      · simp [Function.update_of_ne hkk, hxk k', Ne.symm hkk]
    · rw [if_neg hax, ← hr.owner k' a]
      by_cases hkk : k' = k
      · simp [hkk, hax]
      · rw [Function.update_of_ne hkk]
  have hne : ∀ k', ∀ a ∈ lists k', a ≠ x := by
    rintro k' a ha rfl
    exact hxk k' ha
  rcases ht : (h.link k).tail with _ | last
  · have hnil : lists k = [] := by
      have := hd.tail_eq
      rw [ht] at this
      simpa using this.symm
    have hx' : (h.setLink k ⟨some x, some x⟩).Live x := hx
    refine ⟨(h.setLink k ⟨some x, some x⟩).modify x
      fun n => { n with pNext := none, pPrev := none, pLink := some k }, ?_, ?_,
      (Keeps.setLink k _).trans (.modify (fun _ => by rfl) x)⟩
    · simp [addTail, hn, ho', ht, write, hx]
    apply hr.update ((Keeps.setLink k _).trans (.modify (fun _ => by rfl) x))
    · intro k' hkk
      rw [modify_link, setLink_link, Function.update_of_ne hkk]
    · intro k' _ a ha
      rw [modify_next (p := none) hx' fun _ => by rfl, modify_prev (p := none) hx' fun _ => by rfl,
        if_neg (hne k' a ha), if_neg (hne k' a ha)]
      exact ⟨rfl, rfl⟩
    · rw [hnil, modify_link, setLink_link, Function.update_self]
      apply Double.singleton
      · rw [modify_next (p := none) hx' fun _ => by rfl, if_pos rfl]
      · rw [modify_prev (p := none) hx' fun _ => by rfl, if_pos rfl]
    · intro k' a
      rw [modify_owner (o := some k) hx' fun _ => by rfl]
      exact hmem k' a
  · have hlast : last ∈ lists k := List.mem_of_getLast? (hd.tail_eq ▸ ht)
    have hl : h.Live last := hr.live hlast
    have hlx : last ≠ x := hne k last hlast
    let h₁ := h.modify last fun n => { n with pNext := some x }
    let h₂ := (h₁.modify x fun n => { n with pNext := none, pPrev := some last }).setLink k
      { h.link k with tail := some x }
    have hx₁ : h₁.Live x := modify_live.mpr hx
    have hx₂ : h₂.Live x := modify_live.mpr hx₁
    have hkeep : Keeps h (h₂.modify x fun n => { n with pLink := some k }) :=
      (Keeps.modify (fun _ => by rfl) last).trans ((Keeps.modify (fun _ => by rfl) x).trans
        ((Keeps.setLink k _).trans (.modify (fun _ => by rfl) x)))
    have hnext : ∀ a, (h₂.modify x fun n => { n with pLink := some k }).next a =
        if a = x then none else if a = last then some x else h.next a := by
      intro a
      rw [modify_next_of_eq fun _ => by rfl, setLink_next,
        modify_next (p := none) hx₁ fun _ => by rfl, modify_next (p := some x) hl fun _ => by rfl]
    have hprev : ∀ a, (h₂.modify x fun n => { n with pLink := some k }).prev a =
        if a = x then some last else h.prev a := by
      intro a
      rw [modify_prev_of_eq fun _ => by rfl, setLink_prev,
        modify_prev (p := some last) hx₁ fun _ => by rfl, modify_prev_of_eq fun _ => by rfl]
    refine ⟨h₂.modify x fun n => { n with pLink := some k }, ?_, ?_, hkeep⟩
    · simp [addTail, hn, ho', ht, write, hx, hl, h₁, h₂]
    apply hr.update hkeep
    · intro k' hkk
      rw [modify_link, setLink_link, Function.update_of_ne hkk]
      rfl
    · intro k' hkk a ha
      have hal : a ≠ last := by
        rintro rfl
        exact hkk (hr.eq_of_mem ha hlast)
      rw [hnext, hprev, if_neg (hne k' a ha), if_neg (hne k' a ha), if_neg hal]
      exact ⟨rfl, rfl⟩
    · have hs := hd.snoc (hxk k) (fun a ha => ?_) (fun a ha => ?_)
        ((hnext x).trans (if_pos rfl)) ((hprev x).trans (by rw [if_pos rfl, ← hd.tail_eq, ht]))
      · rw [modify_link, setLink_link, Function.update_self]
        have hhead : (lists k ++ [x]).head? = (h.link k).head := by
          rw [hd.head_eq, List.head?_append_of_ne_nil _ (List.ne_nil_of_mem hlast)]
        rw [hhead] at hs
        exact hs
      · rw [hnext, if_neg (hne k a ha), ← hd.tail_eq, ht]
        simp [eq_comm]
      · rw [hprev, if_neg (hne k a ha)]
    · intro k' a
      rw [modify_owner (o := some k) hx₂ fun _ => by rfl, setLink_owner,
        modify_owner_of_eq fun _ => by rfl, modify_owner_of_eq fun _ => by rfl]
      exact hmem k' a

theorem popHead_nil (hr : Represents h lists) (hk : lists k = []) : h.popHead k = some h := by
  have hh : (h.link k).head = none := by rw [(hr.double k).head_eq, hk, List.head?_nil]
  rw [popHead, hh]

/-- **`PopHead`** takes the first node out of a list. -/
theorem popHead_repr (hr : Represents h lists) (hk : lists k = x :: l) :
    ∃ h', h.popHead k = some h' ∧ Represents h' (Function.update lists k l) ∧ Keeps h h' := by
  have hk' : lists k = [] ++ x :: l := hk
  have hd := hr.double k
  rw [hk'] at hd
  obtain ⟨-, hnx⟩ := hr.links hk'
  have hx : h.Live x := hr.live (k := k) (by rw [hk]; simp)
  have hxl : x ∉ l := (List.nodup_cons.mp hd.nodup).1
  obtain ⟨n, hn⟩ := live_iff.mp hx
  have hnn : n.pNext = l.head? := by simpa [next, hn] using hnx
  have hhead : (h.link k).head = some x := hd.head_eq
  have hends : (if (h.link k).tail = some x then (⟨none, none⟩ : Link)
      else { h.link k with head := n.pNext }) = ⟨l.head?, l.getLast?⟩ := by
    by_cases ht : (h.link k).tail = some x
    · rw [if_pos ht, hd.tail_eq_some_iff.mp ht]
      rfl
    · rw [if_neg ht, hnn]
      show (⟨l.head?, (h.link k).tail⟩ : Link) = _
      rw [hd.tail_eq]
      obtain ⟨b, l', rfl⟩ := List.exists_cons_of_ne_nil fun e => ht (hd.tail_eq_some_iff.mpr e)
      simp [List.getLast?_cons]
  let h₁ := (h.setLink k ⟨l.head?, l.getLast?⟩).modify x
    fun n => { n with pPrev := none, pNext := none, pLink := none }
  have hx₀ : (h.setLink k ⟨l.head?, l.getLast?⟩).Live x := hx
  have hk₁ : Keeps h h₁ := (Keeps.setLink k _).trans (.modify (fun _ => by rfl) x)
  have hlink₁ : h₁.link = Function.update h.link k ⟨l.head?, l.getLast?⟩ := rfl
  -- the rest of the list is headed by a node that nothing is before
  obtain ⟨h', hh', hk'', ho', hl', hn', hp'⟩ : ∃ h', h.popHead k = some h' ∧ Keeps h h' ∧
      h'.owner = h₁.owner ∧ h'.link = h₁.link ∧ h'.next = h₁.next ∧
      ∀ a, h'.prev a = if l.head? = some a then none else h₁.prev a := by
    cases l with
    | nil =>
      refine ⟨h₁, ?_, hk₁, rfl, rfl, rfl, by simp⟩
      simp only [popHead, hhead, hn, hends, Option.bind_eq_bind, Option.bind_some, write,
        setLink_live, hx, if_true]
      simp [h₁]
    | cons b l =>
      have hb : h₁.Live b := hk₁.live.mpr (hr.live (k := k) (by rw [hk]; simp))
      refine ⟨h₁.modify b fun n => { n with pPrev := none }, ?_,
        hk₁.trans (.modify (fun _ => by rfl) b), funext (modify_owner_of_eq fun _ => by rfl), rfl,
        funext (modify_next_of_eq fun _ => by rfl), ?_⟩
      · simp only [popHead, hhead, hn, hends, Option.bind_eq_bind, Option.bind_some, write,
          setLink_live, hx, if_true]
        simp only [modify_link, setLink_link, Function.update_self, List.head?_cons]
        exact if_pos hb
      · intro a
        rw [modify_prev (p := none) hb fun _ => by rfl]
        simp [eq_comm]
  refine ⟨h', hh', ?_, hk''⟩
  have hnext : ∀ a, a ≠ x → h'.next a = h.next a := by
    intro a ha
    rw [hn', modify_next (p := none) hx₀ fun _ => by rfl, if_neg ha, setLink_next]
  have hprev : ∀ a, a ≠ x → h'.prev a = if l.head? = some a then none else h.prev a := by
    intro a ha
    rw [hp', modify_prev (p := none) hx₀ fun _ => by rfl, if_neg ha, setLink_prev]
  apply hr.update hk''
  · intro k' hkk
    rw [hl', hlink₁, Function.update_of_ne hkk]
  · intro k' hkk a ha
    have hak : a ∉ x :: l := fun hm => hkk (hr.eq_of_mem ha (by rw [hk]; exact hm))
    have hax : a ≠ x := fun e => hak (by simp [e])
    rw [hnext a hax, hprev a hax, if_neg fun e => hak (by simp [List.mem_of_mem_head? e])]
    exact ⟨rfl, rfl⟩
  · rw [hl', hlink₁, Function.update_self]
    have hne : ∀ a ∈ l, a ≠ x := fun a ha e => hxl (e ▸ ha)
    refine Double.erase hd (fun a ha => ?_) fun a ha => ?_
    · simpa using hnext a (hne a ha)
    · simpa using hprev a (hne a ha)
  · intro k' a
    rw [ho', modify_owner (o := none) hx₀ fun _ => by rfl, setLink_owner]
    by_cases hkk : k' = k
    · subst hkk
      rw [Function.update_self]
      by_cases hax : a = x
      · simp [hax, hxl]
      · rw [if_neg hax, ← hr.owner k' a, hk, List.mem_cons, or_iff_right hax]
    · rw [Function.update_of_ne hkk, hr.owner k' a]
      by_cases hax : a = x
      · have : h.owner x = some k := (hr.owner k x).mp (by rw [hk]; simp)
        simp [hax, this, Ne.symm hkk]
      · rw [if_neg hax]

/-! ## Joining -/

omit [DecidableEq κ] in
/-- A list has at most as many nodes as were allocated. -/
theorem length_le_fresh (hr : Represents h lists) (k : κ) : (lists k).length ≤ h.fresh := by
  have hsub : ∀ a ∈ lists k, a ∈ List.range h.fresh := fun a ha =>
    List.mem_range.mpr (hr.lt_fresh a (hr.live ha))
  simpa using (List.subperm_of_subset (hr.nodup k) hsub).length_le

omit [DecidableEq κ] in
/-- The loop of `Join` goes over the list it is given, and only writes `pLink`. -/
theorem relabel_spec {m : ℕ} (hc : Chain h.next l none) (hl : ∀ a ∈ l, h.Live a) (hnd : l.Nodup)
    (hm : l.length ≤ m) :
    ∃ h', relabel k m l.head? h = some h' ∧ Keeps h h' ∧ h'.link = h.link ∧ h'.next = h.next ∧
      h'.prev = h.prev ∧ ∀ a, h'.owner a = if a ∈ l then some k else h.owner a := by
  induction l generalizing h m with
  | nil => exact ⟨h, by simp [relabel], .refl h, rfl, rfl, rfl, by simp⟩
  | cons x l ih =>
    obtain ⟨m, rfl⟩ : ∃ m', m = m' + 1 := ⟨m - 1, by simp at hm; omega⟩
    have hx : h.Live x := hl x (by simp)
    obtain ⟨n, hn⟩ := live_iff.mp hx
    have hnn : n.pNext = l.head? := by simpa [next, hn] using hc.1
    let h₁ := h.modify x fun n => { n with pLink := some k }
    have hnext : h₁.next = h.next := funext (modify_next_of_eq fun _ => by rfl)
    have hprev : h₁.prev = h.prev := funext (modify_prev_of_eq fun _ => by rfl)
    obtain ⟨h', e, hk', hl', hn', hp', ho'⟩ := ih (h := h₁) (m := m) (by rw [hnext]; exact hc.2)
      (fun a ha => modify_live.mpr (hl a (by simp [ha]))) (List.nodup_cons.mp hnd).2
      (by simpa using hm)
    refine ⟨h', ?_, (Keeps.modify (fun _ => by rfl) x).trans hk', hl', hn'.trans hnext,
      hp'.trans hprev, ?_⟩
    · rw [← hnn] at e
      simpa [relabel, hn, write, hx] using e
    · intro a
      rw [ho', modify_owner (o := some k) hx fun _ => by rfl]
      by_cases hal : a ∈ l <;> by_cases hax : a = x <;> simp [hal, hax]

/-- **`Join`** puts all nodes of another list at the end of a list. -/
theorem join_repr (hr : Represents h lists) (hkk : k ≠ k') :
    ∃ h', h.join k k' = some h' ∧
      Represents h' (Function.update (Function.update lists k (lists k ++ lists k')) k' []) ∧
      Keeps h h' := by
  have hd := hr.double k
  have hd' := hr.double k'
  have hdis : ∀ a ∈ lists k, a ∉ lists k' := fun a ha ha' => hkk (hr.eq_of_mem ha ha')
  rcases hl' : lists k' with _ | ⟨lp, l'⟩
  · have e : Function.update (Function.update lists k (lists k ++ [])) k' [] = lists := by
      rw [List.append_nil, Function.update_eq_self, ← hl', Function.update_eq_self]
    refine ⟨h, ?_, by rw [e]; exact hr, .refl h⟩
    rw [join, hd'.head_eq, hl', List.head?_nil]
  have hhead : (h.link k').head = some lp := by rw [hd'.head_eq, hl', List.head?_cons]
  obtain ⟨h₁, e₁, k₁, lk₁, n₁, p₁, o₁⟩ := relabel_spec (k := k) hd'.chain (fun a ha => hr.live ha)
    hd'.nodup (hr.length_le_fresh k')
  rw [hl', List.head?_cons] at e₁
  have hlp : h₁.Live lp := k₁.live.mpr (hr.live (k := k') (by rw [hl']; simp))
  -- where the last node of the one and the first of the other point
  obtain ⟨h', hh', hk', ho', hlink, hn', hp'⟩ : ∃ h', h.join k k' = some h' ∧ Keeps h h' ∧
      h'.owner = h₁.owner ∧
      h'.link = Function.update (Function.update h.link k
        ⟨(lists k ++ lists k').head?, (lists k ++ lists k').getLast?⟩) k' ⟨none, none⟩ ∧
      (∀ a, h'.next a = if (lists k).getLast? = some a then some lp else h.next a) ∧
      ∀ a, h'.prev a = if some lp = some a then (lists k).getLast? else h.prev a := by
    have ht := hd.tail_eq
    have htail' := hd'.tail_eq
    rcases List.eq_nil_or_concat' (lists k) with hk | ⟨l, last, hk⟩
    · rw [hk, List.getLast?_nil] at ht
      refine ⟨(h₁.setLink k (h.link k')).setLink k' ⟨none, none⟩, ?_,
        k₁.trans ((Keeps.setLink k _).trans (.setLink k' _)), rfl, ?_, ?_, ?_⟩
      · simp [join, hhead, e₁, lk₁, ht]
      · rw [setLink_link, setLink_link, lk₁, hk, List.nil_append, ← hd'.head_eq, ← htail']
      · simp [n₁, hk]
      · intro a
        rw [setLink_prev, setLink_prev, p₁, hk, List.getLast?_nil]
        by_cases ha : some lp = some a
        · rw [if_pos ha]
          have := hd'.back.pre_head (a := lp) (by rw [hl']; rfl)
          rwa [← Option.some.inj ha]
        · rw [if_neg ha]
    · rw [hk, List.getLast?_concat] at ht
      have hlast : h₁.Live last := k₁.live.mpr (hr.live (k := k) (by rw [hk]; simp))
      let h₂ := h₁.modify last fun n => { n with pNext := some lp }
      have hlp₂ : h₂.Live lp := modify_live.mpr hlp
      refine ⟨((h₂.modify lp fun n => { n with pPrev := some last }).setLink k
        { h.link k with tail := (h.link k').tail }).setLink k' ⟨none, none⟩, ?_, ?_, ?_, ?_, ?_, ?_⟩
      · simp [join, hhead, e₁, lk₁, ht, write, hlast, hlp, h₂]
      · exact k₁.trans ((Keeps.modify (fun _ => by rfl) last).trans
          ((Keeps.modify (fun _ => by rfl) lp).trans ((Keeps.setLink k _).trans (.setLink k' _))))
      · rw [setLink_owner, setLink_owner]
        funext a
        rw [modify_owner_of_eq fun _ => by rfl, modify_owner_of_eq fun _ => by rfl]
      · have hne : lists k ≠ [] := by simp [hk]
        rw [setLink_link, setLink_link, modify_link, modify_link, lk₁,
          List.head?_append_of_ne_nil _ hne, ← hd.head_eq,
          List.getLast?_append_of_ne_nil _ (by simp [hl']), ← htail']
      · intro a
        rw [setLink_next, setLink_next, modify_next_of_eq fun _ => by rfl,
          modify_next (p := some lp) hlast fun _ => by rfl, n₁, hk, List.getLast?_concat]
        simp [eq_comm]
      · intro a
        rw [setLink_prev, setLink_prev, modify_prev (p := some last) hlp₂ fun _ => by rfl,
          modify_prev_of_eq fun _ => by rfl, p₁, hk, List.getLast?_concat]
        simp [eq_comm]
  refine ⟨h', hh', ?_, hk'⟩
  have hnext : ∀ a, h'.next a =
      if (lists k).getLast? = some a then (lists k').head? else h.next a := by
    rw [hl']
    exact hn'
  have hprev : ∀ a, h'.prev a =
      if (lists k').head? = some a then (lists k).getLast? else h.prev a := by
    rw [hl']
    exact hp'
  have hsame : ∀ c ≠ k, c ≠ k' → ∀ a ∈ lists c, h'.next a = h.next a ∧ h'.prev a = h.prev a := by
    intro c hc hc' a ha
    rw [hnext, hprev, if_neg fun e => hc (hr.eq_of_mem ha (List.mem_of_getLast? e)),
      if_neg fun e : (lists k').head? = some a => hc' (hr.eq_of_mem ha (List.mem_of_mem_head? e))]
    exact ⟨rfl, rfl⟩
  rw [← hl']
  refine ⟨fun c => ?_, fun c a => ?_, fun a ha => ?_⟩
  · rw [hlink]
    by_cases hc' : c = k'
    · rw [hc', Function.update_self, Function.update_self]
      exact .nil
    rw [Function.update_of_ne hc', Function.update_of_ne hc']
    by_cases hc : c = k
    · rw [hc, Function.update_self, Function.update_self]
      exact hd.append hd' hdis (fun a _ => hnext a) fun a _ => hprev a
    · rw [Function.update_of_ne hc, Function.update_of_ne hc]
      exact (hr.double c).congr (fun a ha => (hsame c hc hc' a ha).1) fun a ha =>
        (hsame c hc hc' a ha).2
  · rw [ho', o₁]
    by_cases ha : a ∈ lists k'
    · rw [if_pos ha]
      by_cases hc' : c = k'
      · simp [hc', hkk]
      rw [Function.update_of_ne hc']
      by_cases hc : c = k
      · simp [hc, ha]
      · simp [Function.update_of_ne hc, Ne.symm hc, hr.not_mem ha hc']
    · rw [if_neg ha, ← hr.owner c a]
      by_cases hc' : c = k'
      · simp [hc', ha]
      rw [Function.update_of_ne hc']
      by_cases hc : c = k
      · simp [hc, ha]
      · rw [Function.update_of_ne hc]
  · rw [hk'.fresh]
    exact hr.lt_fresh a (hk'.live.mp ha)

/-! ## Allocating and freeing -/

section Allocation

omit [DecidableEq κ]

theorem item_fresh (hr : Represents h lists) : h.item h.fresh = none := by
  by_contra hne
  exact Nat.lt_irrefl _ (hr.lt_fresh _ (Option.isSome_iff_ne_none.mpr hne))

/-- Nodes in no list may come and go. -/
theorem congr (hr : Represents h lists) (hlink : h'.link = h.link)
    (hitem : ∀ x, h.owner x ≠ none → h'.item x = h.item x)
    (howner : ∀ x, h.owner x = none → h'.owner x = none) (hf : ∀ x, h'.Live x → x < h'.fresh) :
    Represents h' lists where
  double := by
    intro k
    have hmem : ∀ a ∈ lists k, h'.item a = h.item a := fun a ha =>
      hitem a (by rw [(hr.owner k a).mp ha]; simp)
    rw [hlink]
    exact (hr.double k).congr (fun a ha => by rw [Heap.next, hmem a ha]; rfl)
      fun a ha => by rw [Heap.prev, hmem a ha]; rfl
  owner := by
    intro k x
    rw [hr.owner k x]
    rcases ho : h.owner x with _ | k'
    · rw [howner x ho]
    · have e : h'.owner x = h.owner x := by
        rw [Heap.owner, hitem x (by rw [ho]; simp)]
        rfl
      rw [e, ho]
  lt_fresh := hf

theorem alloc_repr (hr : Represents h lists) (d : δ) : Represents (h.alloc d) lists := by
  refine hr.congr rfl (fun y hy => ?_) (fun y hy => ?_) fun y hy => ?_
  · have hne : y ≠ h.fresh := by
      rintro rfl
      simp [Heap.owner, hr.item_fresh] at hy
    rw [alloc_item, if_neg hne]
  · rw [Heap.owner, alloc_item]
    split
    · rfl
    · exact hy
  · apply Nat.lt_succ_of_le
    by_cases hne : y = h.fresh
    · exact Nat.le_of_eq hne
    · rw [Live, alloc_item, if_neg hne] at hy
      exact Nat.le_of_lt (hr.lt_fresh y hy)

theorem dealloc_repr (hr : Represents h lists) (hx : h.owner x = none) :
    Represents (h.dealloc x) lists := by
  refine hr.congr rfl (fun y hy => ?_) (fun y hy => ?_) fun y hy => ?_
  · rw [dealloc_item, if_neg]
    rintro rfl
    exact hy hx
  · rw [Heap.owner, dealloc_item]
    split
    · rfl
    · exact hy
  · rw [Live, dealloc_item] at hy
    split at hy
    · cases hy
    · exact hr.lt_fresh y hy

/-- What a node holds besides its links may change. -/
theorem modifyData_repr (hr : Represents h lists) (x : Ptr) (f : δ → δ) :
    Represents (h.modify x fun n => { n with data := f n.data }) lists := by
  have hnext : (h.modify x fun n => { n with data := f n.data }).next = h.next :=
    funext (modify_next_of_eq fun _ => by rfl)
  have hprev : (h.modify x fun n => { n with data := f n.data }).prev = h.prev :=
    funext (modify_prev_of_eq fun _ => by rfl)
  refine ⟨fun k => ?_, fun k y => ?_, fun y hy => hr.lt_fresh y (modify_live.mp hy)⟩
  · rw [hnext, hprev]
    exact hr.double k
  · rw [modify_owner_of_eq fun _ => by rfl]
    exact hr.owner k y

end Allocation

end Represents

/-! ## Runs -/

/-- The calls of a run. -/
inductive Call (κ δ : Type)
  | alloc (data : δ)
  | free (x : Ptr)
  | removeFromLink (ap : Ptr)
  | addTail (apLink : κ) (ap : Ptr)
  | popHead (apLink : κ)
  | join (apLink apOther : κ)

/-- What a call does to the heap. -/
def call (h : Heap κ δ) : Call κ δ → Option (Heap κ δ)
  | .alloc data => some (h.alloc data)
  | .free x => if h.Live x then some (h.dealloc x) else none
  | .removeFromLink ap => h.removeFromLink ap
  | .addTail apLink ap => h.addTail apLink ap
  | .popHead apLink => h.popHead apLink
  | .join apLink apOther => h.join apLink apOther

/-- What the callers promise: the nodes they name are allocated and were not freed, a node is freed
when it is in no list, and a list is not joined to itself. -/
def Allowed (h : Heap κ δ) : Call κ δ → Prop
  | .free x => h.Live x ∧ h.owner x = none
  | .removeFromLink ap => h.Live ap
  | .addTail _ ap => h.Live ap
  | .join apLink apOther => apLink ≠ apOther
  | _ => True

instance (h : Heap κ δ) (c : Call κ δ) : Decidable (h.Allowed c) := by
  cases c <;> unfold Allowed <;> infer_instance

/-- What a call means for the lists. -/
noncomputable def Call.apply (lists : κ → List Ptr) : Call κ δ → κ → List Ptr :=
  open Classical in fun
  | .alloc _ => lists
  | .free _ => lists
  | .removeFromLink ap => fun k => (lists k).erase ap
  | .addTail apLink ap =>
    if ∃ k, ap ∈ lists k then lists else Function.update lists apLink (lists apLink ++ [ap])
  | .popHead apLink => Function.update lists apLink (lists apLink).tail
  | .join apLink apOther =>
    Function.update (Function.update lists apLink (lists apLink ++ lists apOther)) apOther []

/-- **One call** on a heap that represents lists is defined, and does to them what it means. -/
theorem Represents.call {h : Heap κ δ} {lists : κ → List Ptr} (hr : Represents h lists)
    {c : Call κ δ} (hc : h.Allowed c) :
    ∃ h', h.call c = some h' ∧ Represents h' (c.apply lists) := by
  cases c with
  | alloc data => exact ⟨_, rfl, hr.alloc_repr data⟩
  | free x => exact ⟨h.dealloc x, if_pos hc.1, hr.dealloc_repr hc.2⟩
  | removeFromLink ap =>
    obtain ⟨h', e, hr', -⟩ := hr.removeFromLink_repr hc
    exact ⟨h', e, hr'⟩
  | addTail apLink ap =>
    rcases ho : h.owner ap with _ | k
    · obtain ⟨h', e, hr', -⟩ := hr.addTail_repr hc ho apLink
      refine ⟨h', e, ?_⟩
      rw [Call.apply, if_neg]
      · exact hr'
      · rintro ⟨k, hk⟩
        exact hr.not_mem_of_owner ho k hk
    · refine ⟨h, addTail_of_owner ho, ?_⟩
      rw [Call.apply, if_pos ⟨k, (hr.owner k ap).mpr ho⟩]
      exact hr
  | popHead apLink =>
    rcases hk : lists apLink with _ | ⟨x, l⟩
    · refine ⟨h, hr.popHead_nil hk, ?_⟩
      have e : Function.update lists apLink (lists apLink).tail = lists := by
        rw [hk, List.tail_nil, ← hk, Function.update_eq_self]
      rw [Call.apply, e]
      exact hr
    · obtain ⟨h', e, hr', -⟩ := hr.popHead_repr hk
      refine ⟨h', e, ?_⟩
      rw [Call.apply, hk, List.tail_cons]
      exact hr'
  | join apLink apOther =>
    obtain ⟨h', e, hr', -⟩ := hr.join_repr hc
    exact ⟨h', e, hr'⟩

/-- **The intrusive lists refine lists.** After any run of calls that keep what callers promise, the
pointers represent the lists that the calls mean, one after another, and the next such call is
defined again. -/
theorem calls_refine_lists {calls : List (Call κ δ)} {h : Heap κ δ}
    (hrun : Exec call Allowed empty calls h) :
    Represents h (calls.foldl (fun lists c => c.apply lists) fun _ => []) ∧
      ∀ c, h.Allowed c → ∃ h', h.call c = some h' := by
  have key : Represents h (calls.foldl (fun lists c => c.apply lists) fun _ => []) := by
    induction hrun with
    | nil => exact .empty
    | snoc _ hc hs ih =>
      obtain ⟨h', e, hr⟩ := ih.call hc
      rw [List.foldl_concat]
      rw [hs] at e
      obtain rfl := Option.some.inj e
      exact hr
  exact ⟨key, fun c hc => (key.call hc).imp fun h' hh => hh.1⟩

/-- Three nodes: two in one list and one in another, which is joined to it; then one is taken out of
the middle. -/
def threeCalls : List (Call Bool Unit) :=
  [.alloc (), .alloc (), .alloc (), .addTail true 0, .addTail true 1, .addTail false 2,
    .join true false, .removeFromLink 1, .popHead true, .free 1]

/-- `calls_refine_lists` on a run of every function. -/
theorem calls_refine_lists_three :
    ∃ h, runIf call Allowed empty threeCalls = some h ∧
      Represents h (threeCalls.foldl (fun lists c => c.apply lists) fun _ => []) := by
  obtain ⟨h, hh⟩ := Option.isSome_iff_exists.mp
    (show (runIf call Allowed (empty : Heap Bool Unit) threeCalls).isSome by decide)
  exact ⟨h, hh, (calls_refine_lists (exec_of_runIf hh)).1⟩

end Heap

end WebServer.Libco
