import Mathlib.Data.Int.Notation
import Mathlib.Data.List.Rotate
import Mathlib.Data.List.Flatten
import Mathlib.Data.Nat.ModEq
import Mathlib.Algebra.Order.Group.Int
import Mathlib.Tactic.Linarith

/-!
# Calendars

A calendar is a list of buckets, the first of which is due next: bucket `k` holds what is due
`k + 1` ticks from now. Advancing by `d` ticks takes the first `d` buckets and puts as many empty
ones at the end; what is taken is what became due, in the order of the deadlines, and within one
deadline in the order in which it was put in.

* `Timed D cal now` says that the deadlines `D` are the ones the positions stand for; `add` and
  `advance` keep it, and `mem_due_iff` says what an advance takes.
* `Ordered R cal` says that every bucket is ordered by `R`; with it `due_pairwise` says in which
  order an advance takes.
* A ring with a moving index stands for a calendar, its rotation to the index: `tick_rotate` and
  `modify_rotate` say what emptying the current place and moving on, or putting something a number
  of places ahead, mean for the calendar.
-/

namespace WebServer.Lib

variable {α : Type*}

/-- The buckets, the next due first. -/
abbrev Calendar (α : Type*) := List (List α)

namespace Calendar

variable {cal : Calendar α} {D : α → ℤ} {R : α → α → Prop} {now : ℤ} {d k : ℕ} {x : α}

/-- Put something into bucket `k`, after what is there. -/
def add (cal : Calendar α) (k : ℕ) (x : α) : Calendar α := cal.modify k (· ++ [x])

/-- Move something from bucket `i` to the end of bucket `j`. -/
def move [DecidableEq α] (cal : Calendar α) (i j : ℕ) (x : α) : Calendar α :=
  add (cal.modify i (·.erase x)) j x

/-- What `d` ticks make due. -/
def due (cal : Calendar α) (d : ℕ) : List α := (cal.take d).flatten

/-- The calendar after `d` ticks. -/
def advance (cal : Calendar α) (d : ℕ) : Calendar α := cal.drop d ++ List.replicate d []

/-- The position of an entry stands for its deadline. -/
def Timed (D : α → ℤ) (cal : Calendar α) (now : ℤ) : Prop :=
  ∀ (k : ℕ) (b : List α), cal[k]? = some b → ∀ x ∈ b, D x = now + k + 1

/-- Every bucket is ordered. -/
def Ordered (R : α → α → Prop) (cal : Calendar α) : Prop := ∀ b ∈ cal, b.Pairwise R

/-! ## Putting in -/

theorem getElem?_add (cal : Calendar α) (k i : ℕ) (x : α) :
    (cal.add k x)[i]? = (fun b => if k = i then b ++ [x] else b) <$> cal[i]? := by
  simp only [add, List.getElem?_modify]

/-- Putting in adds one entry. -/
theorem flatten_add_perm (hk : k < cal.length) : (cal.add k x).flatten.Perm (x :: cal.flatten) := by
  have e₁ : cal.add k x = cal.take k ++ (cal[k] ++ [x]) :: cal.drop (k + 1) := by
    rw [add, List.modify_eq_take_cons_drop hk]
  have e₂ : cal.flatten = (cal.take k).flatten ++ (cal[k] ++ (cal.drop (k + 1)).flatten) := by
    rw [← List.flatten_cons, ← List.flatten_append, ← List.drop_eq_getElem_cons hk,
      List.take_append_drop]
  rw [e₁, e₂, List.flatten_append, List.flatten_cons, List.append_assoc]
  refine (List.Perm.append_left _ ?_).trans List.perm_middle
  rw [← List.cons_append]
  exact List.perm_middle

theorem mem_flatten_add (hk : k < cal.length) {y : α} :
    y ∈ (cal.add k x).flatten ↔ y = x ∨ y ∈ cal.flatten := by
  rw [(flatten_add_perm hk).mem_iff, List.mem_cons]

theorem length_move [DecidableEq α] (cal : Calendar α) (i j : ℕ) (x : α) :
    (cal.move i j x).length = cal.length := by
  simp [move, add]

/-- Taking an entry out of its bucket leaves the others. -/
theorem flatten_set_perm {l₁ l₂ : List α} (hk : cal[k]? = some (l₁ ++ x :: l₂)) :
    cal.flatten.Perm (x :: (cal.set k (l₁ ++ l₂)).flatten) := by
  obtain ⟨hlt, e⟩ := List.getElem?_eq_some_iff.mp hk
  have e₁ : cal = cal.take k ++ (l₁ ++ x :: l₂) :: cal.drop (k + 1) := by simp [← e]
  rw [List.set_eq_take_append_cons_drop, if_pos hlt]
  conv_lhs => rw [e₁]
  simp only [List.flatten_append, List.flatten_cons, List.append_assoc, List.cons_append]
  rw [← List.append_assoc, ← List.append_assoc (List.take k cal).flatten]
  exact List.perm_middle

theorem Timed.add (h : Timed D cal now) (hx : D x = now + k + 1) : Timed D (cal.add k x) now := by
  intro i b hb y hy
  rw [getElem?_add] at hb
  obtain ⟨b', hb', rfl⟩ := Option.map_eq_some_iff.mp hb
  split at hy
  · rename_i hki
    subst hki
    rcases List.mem_append.mp hy with hy | hy
    · exact h k b' hb' y hy
    · obtain rfl := List.mem_singleton.mp hy
      exact hx
  · exact h i b' hb' y hy

theorem Ordered.add (h : Ordered R cal) (hx : ∀ y ∈ cal.flatten, R y x) :
    Ordered R (cal.add k x) := by
  intro b hb
  obtain ⟨i, hi⟩ := List.mem_iff_getElem?.mp hb
  rw [getElem?_add] at hi
  obtain ⟨b', hb', rfl⟩ := Option.map_eq_some_iff.mp hi
  have hmem := List.mem_of_getElem? hb'
  split
  · refine List.pairwise_append.mpr ⟨h b' hmem, List.pairwise_singleton R x, ?_⟩
    intro y hy z hz
    obtain rfl := List.mem_singleton.mp hz
    exact hx y (List.mem_flatten_of_mem hmem hy)
  · exact h b' hmem

/-! ## Advancing -/

theorem advance_zero (cal : Calendar α) : cal.advance 0 = cal := by simp [advance]

theorem due_zero (cal : Calendar α) : cal.due 0 = [] := by simp [due]

/-- One tick: the first bucket goes, an empty one comes. -/
def tick (cal : Calendar α) : Calendar α := cal.tail ++ [[]]

/-- Ticks add up. -/
theorem advance_tick (cal : Calendar α) (hd : d < cal.length) :
    cal.tick.advance d = cal.advance (d + 1) := by
  have hle : d ≤ cal.tail.length := by
    rw [List.length_tail]
    omega
  rw [tick, advance, advance, List.drop_append_of_le_length hle, List.drop_tail, List.append_assoc,
    List.replicate_succ]
  rfl

/-- Ticks add up. -/
theorem due_tick (cal : Calendar α) (hd : d < cal.length) :
    cal.headD [] ++ cal.tick.due d = cal.due (d + 1) := by
  have hle : d ≤ cal.tail.length := by
    rw [List.length_tail]
    omega
  rw [due, due, tick, List.take_append_of_le_length hle]
  cases cal with
  | nil => simp at hd
  | cons b cal => simp

theorem due_append_flatten_advance (cal : Calendar α) (d : ℕ) :
    cal.due d ++ (cal.advance d).flatten = cal.flatten := by
  have h : (List.replicate d ([] : List α)).flatten = [] := by
    simp [List.flatten_replicate_nil]
  rw [advance, List.flatten_append, h, List.append_nil, due, ← List.flatten_append,
    List.take_append_drop]

theorem Timed.advance (h : Timed D cal now) : Timed D (cal.advance d) (now + d) := by
  intro k b hb x hx
  rw [Calendar.advance, List.getElem?_append] at hb
  split at hb
  · rw [List.getElem?_drop] at hb
    have := h _ b hb x hx
    push_cast at this
    linarith
  · obtain rfl := List.eq_of_mem_replicate (List.mem_of_getElem? hb)
    simp at hx

theorem Ordered.advance (h : Ordered R cal) : Ordered R (cal.advance d) := by
  intro b hb
  rcases List.mem_append.mp hb with hb | hb
  · exact h b (List.mem_of_mem_drop hb)
  · obtain rfl := List.eq_of_mem_replicate hb
    exact List.Pairwise.nil

/-- **What an advance takes**: exactly the entries whose deadline has come. -/
theorem mem_due_iff (h : Timed D cal now) : x ∈ cal.due d ↔ x ∈ cal.flatten ∧ D x ≤ now + d := by
  simp only [due, List.mem_flatten]
  constructor
  · rintro ⟨b, hb, hx⟩
    obtain ⟨k, hk⟩ := List.mem_iff_getElem?.mp hb
    rw [List.getElem?_take] at hk
    split at hk
    · have := h k b hk x hx
      exact ⟨⟨b, List.mem_of_getElem? hk, hx⟩, by omega⟩
    · cases hk
  · rintro ⟨⟨b, hb, hx⟩, hD⟩
    obtain ⟨k, hk⟩ := List.mem_iff_getElem?.mp hb
    have := h k b hk x hx
    refine ⟨b, List.mem_iff_getElem?.mpr ⟨k, ?_⟩, hx⟩
    rw [List.getElem?_take, if_pos (by omega), hk]

/-- An entry is taken by an advance past its bucket. -/
theorem mem_due_iff_lt {b : List α} (hd : cal.flatten.Nodup) (hk : cal[k]? = some b) (hx : x ∈ b) :
    x ∈ cal.due d ↔ k < d := by
  have hsplit : cal.flatten = (cal.take d).flatten ++ (cal.drop d).flatten := by
    rw [← List.flatten_append, List.take_append_drop]
  rw [hsplit] at hd
  constructor
  · intro hdue
    by_contra hlt
    have hk' : (cal.drop d)[k - d]? = some b := by
      rw [List.getElem?_drop, ← hk]
      congr 1
      omega
    have hdrop : x ∈ (cal.drop d).flatten := List.mem_flatten_of_mem (List.mem_of_getElem? hk') hx
    exact (List.nodup_append.mp hd).2.2 x hdue x hdrop rfl
  · intro hlt
    refine List.mem_flatten_of_mem (List.mem_of_getElem? (i := k) ?_) hx
    rw [List.getElem?_take, if_pos hlt, hk]

/-- What is left after an advance is not due yet. -/
theorem lt_of_mem_advance (h : Timed D cal now) (hx : x ∈ (cal.advance d).flatten) :
    now + d < D x := by
  obtain ⟨b, hb, hxb⟩ := List.mem_flatten.mp hx
  obtain ⟨k, hk⟩ := List.mem_iff_getElem?.mp hb
  have := h.advance (d := d) k b hk x hxb
  omega

/-- **In which order an advance takes**: by deadline, and in the order of the bucket for equal
deadlines. -/
theorem due_pairwise (h : Timed D cal now) (hR : Ordered R cal) :
    (cal.due d).Pairwise fun x y => D x < D y ∨ D x = D y ∧ R x y := by
  refine List.pairwise_flatten.mpr ⟨?_, ?_⟩
  · intro b hb
    have hbc : b ∈ cal := List.mem_of_mem_take hb
    obtain ⟨k, hk⟩ := List.mem_iff_getElem?.mp hbc
    refine (hR b hbc).imp_of_mem fun {x y} hx hy hxy => Or.inr ⟨?_, hxy⟩
    rw [h k b hk x hx, h k b hk y hy]
  · apply List.pairwise_iff_getElem.mpr
    intro i j hi hj hij x hx y hy
    have hx' := h i _ (List.getElem?_eq_getElem (by simp at hi; omega)) x
      (by simpa using hx)
    have hy' := h j _ (List.getElem?_eq_getElem (by simp at hj; omega)) y
      (by simpa using hy)
    exact Or.inl (by omega)

/-- What an advance takes, around one of the buckets it goes over. -/
theorem exists_due_eq {b : List α} (hk : cal[k]? = some b) (hd : k < d) :
    ∃ A B, cal.due d = A ++ (b ++ B) ∧ ∀ b', due (cal.set k b') d = A ++ (b' ++ B) := by
  obtain ⟨hlt, rfl⟩ := List.getElem?_eq_some_iff.mp hk
  have key : ∀ b', due (cal.set k b') d =
      (cal.take k).flatten ++ (b' ++ ((cal.drop (k + 1)).take (d - k - 1)).flatten) := by
    intro b'
    have hlen : (cal.take k).length = k := by simp; omega
    obtain ⟨m, rfl⟩ : ∃ m, d = k + 1 + m := ⟨d - (k + 1), by omega⟩
    have hm : k + 1 + m - k = m + 1 := by omega
    rw [due, List.set_eq_take_append_cons_drop, if_pos hlt, List.take_append, hlen, hm,
      List.take_succ_cons, List.take_of_length_le (by omega), List.flatten_append,
      List.flatten_cons, Nat.add_sub_cancel]
  refine ⟨_, _, ?_, key⟩
  have hself := key cal[k]
  rwa [List.set_getElem_self] at hself

/-! ## Rings -/

/-- Emptying the current place of a ring and moving on is a tick of the calendar. -/
theorem tick_rotate (cal : Calendar α) {i : ℕ} (hi : i < cal.length) :
    (cal.set i []).rotate (i + 1) = Calendar.tick (cal.rotate i) := by
  have h₁ : (cal.set i []).rotate i = [] :: (cal.rotate i).tail := by
    have h₀ : cal.rotate i = cal[i] :: (cal.drop (i + 1) ++ cal.take i) := by
      rw [List.rotate_eq_drop_append_take hi.le, List.drop_eq_getElem_cons hi, List.cons_append]
    rw [h₀, List.rotate_eq_drop_append_take (by simpa using hi.le),
      List.drop_eq_getElem_cons (by simpa using hi)]
    simp [List.take_set_of_le, List.drop_set_of_lt]
  rw [← List.rotate_rotate, h₁]
  simp [tick]

/-- The current place of a ring is the first bucket of the calendar. -/
theorem headD_rotate (cal : Calendar α) {i : ℕ} (hi : i < cal.length) :
    (cal.rotate i).headD [] = cal[i] := by
  rw [List.rotate_eq_drop_append_take hi.le, List.drop_eq_getElem_cons hi]
  rfl

/-- Changing the place `k` ahead of the index is changing bucket `k` of the calendar. -/
theorem modify_rotate (cal : Calendar α) (f : List α → List α) {i : ℕ} (hk : k < cal.length) :
    (cal.modify ((i + k) % cal.length) f).rotate i = (cal.rotate i).modify k f := by
  refine List.ext_getElem (by simp) fun j hj hj' => ?_
  have hj : j < cal.length := by simpa using hj
  simp only [List.getElem_rotate, List.getElem_modify, List.length_modify]
  have hiff : (i + k) % cal.length = (j + i) % cal.length ↔ k = j := by
    constructor
    · intro e
      have e' : Nat.ModEq cal.length k j := by
        apply Nat.ModEq.add_left_cancel' i
        rw [Nat.ModEq, e, Nat.add_comm]
      exact Nat.ModEq.eq_of_lt_of_lt e' hk hj
    · rintro rfl
      rw [Nat.add_comm]
  by_cases hkj : k = j
  · rw [if_pos (hiff.mpr hkj), if_pos hkj]
  · rw [if_neg fun e => hkj (hiff.mp e), if_neg hkj]

/-- The places of a ring after an advance: the first `d` ones from the old index on are empty. -/
theorem getElem?_of_rotate_eq_advance {slots slots' : Calendar α} {c : ℕ}
    (hlen : slots'.length = slots.length)
    (h : slots'.rotate ((c + d) % slots.length) = Calendar.advance (slots.rotate c) d)
    (hd : d ≤ slots.length) (hk : k < slots.length) :
    slots'[(c + k) % slots.length]? =
      if k < d then some [] else slots[(c + k) % slots.length]? := by
  have hplace : ∀ m < slots.length, (m + (c + d) % slots.length) % slots.length =
      (m + (c + d)) % slots.length := fun m _ => Nat.add_mod_mod m (c + d) slots.length
  by_cases hkd : k < d
  · have hm : slots.length - d + k < slots'.length := by omega
    have e := congrArg (fun l : List (List α) => l[slots.length - d + k]?) h
    rw [List.getElem?_rotate hm, hlen, hplace _ (by omega), advance,
      List.getElem?_append_right (by simp), List.getElem?_replicate_of_lt (by simp; omega)] at e
    rw [if_pos hkd, ← e, show slots.length - d + k + (c + d) = c + k + slots.length by omega,
      Nat.add_mod_right]
  · have hm : k - d < slots'.length := by omega
    have e := congrArg (fun l : List (List α) => l[k - d]?) h
    rw [List.getElem?_rotate hm, hlen, hplace _ (by omega), advance,
      List.getElem?_append_left (by simp; omega), List.getElem?_drop,
      List.getElem?_rotate (by omega)] at e
    rw [if_neg hkd, show c + k = k - d + (c + d) by omega, e]
    congr 2
    omega

end Calendar

end WebServer.Lib
