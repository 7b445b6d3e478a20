import Mathlib.Algebra.Group.Nat.Defs
import Mathlib.Algebra.Ring.Int.Defs
import Mathlib.Data.List.GetD
import Mathlib.Data.Nat.Notation
import Mathlib.Logic.Function.Basic

/-!
# Checked operations

Operations whose effect is not always defined: the sum of two `int`s, and a store into an array.
They have no value when the sum overflows or the index is outside the array, so that a computation
that has a value did neither.
-/

namespace WebServer.Lib

variable {α : Type} {n : ℕ}

/-- The sum of two `int`s of 32 bits. -/
def addInt (x y : ℤ) : Option ℤ :=
  if -2 ^ 31 ≤ x + y ∧ x + y < 2 ^ 31 then some (x + y) else none

/-- A store into an array. -/
def store (a : Fin n → α) (i : ℤ) (x : α) : Option (Fin n → α) :=
  if h : 0 ≤ i ∧ i.toNat < n then some (Function.update a ⟨i.toNat, h.2⟩ x) else none

/-- `a[cur++] = x` for some elements, in their order: the array, and where `cur` ends. -/
def storeAll (a : Fin n → α) (cur : ℤ) : List α → Option ((Fin n → α) × ℤ)
  | [] => some (a, cur)
  | x :: xs => do
    let a ← store a cur x
    let cur ← addInt cur 1
    storeAll a cur xs

/-- The array with some elements from index `k` on. -/
def overwrite (a : Fin n → α) (k : ℕ) (xs : List α) : Fin n → α := fun i =>
  if k ≤ i then xs.getD (i - k) (a i) else a i

theorem addInt_eq {x y : ℤ} (h : -2 ^ 31 ≤ x + y) (h' : x + y < 2 ^ 31) :
    addInt x y = some (x + y) :=
  if_pos ⟨h, h'⟩

theorem store_eq {k : ℕ} (a : Fin n → α) (x : α) (h : k < n) :
    store a k x = some (Function.update a ⟨k, h⟩ x) :=
  dif_pos ⟨Int.natCast_nonneg k, h⟩

theorem overwrite_nil (a : Fin n → α) (k : ℕ) : overwrite a k [] = a := by
  funext i
  simp [overwrite]

theorem overwrite_cons {k : ℕ} (a : Fin n → α) (x : α) (xs : List α) (h : k < n) :
    overwrite (Function.update a ⟨k, h⟩ x) (k + 1) xs = overwrite a k (x :: xs) := by
  funext i
  rcases Nat.lt_trichotomy i k with hlt | heq | hgt
  · have hne : i ≠ ⟨k, h⟩ := Fin.ne_of_val_ne (Nat.ne_of_lt hlt)
    have h₁ : ¬k + 1 ≤ i := by omega
    have h₂ : ¬k ≤ i := by omega
    rw [overwrite, overwrite, if_neg h₁, if_neg h₂, Function.update_of_ne hne]
  · obtain rfl : i = ⟨k, h⟩ := Fin.ext heq
    have h₁ : ¬k + 1 ≤ k := Nat.not_succ_le_self k
    rw [overwrite, overwrite, if_neg h₁, if_pos (Nat.le_refl k), Function.update_self, Nat.sub_self]
    rfl
  · have hne : i ≠ ⟨k, h⟩ := Fin.ne_of_val_ne (Nat.ne_of_gt hgt)
    have h₁ : k + 1 ≤ i := hgt
    have h₂ : k ≤ i := by omega
    have hsub : (i : ℕ) - k = (i - (k + 1)) + 1 := by omega
    rw [overwrite, overwrite, if_pos h₁, if_pos h₂, Function.update_of_ne hne, hsub,
      List.getD_cons_succ]

/-- **Stores inside the array are all done.** -/
theorem storeAll_eq {k : ℕ} (a : Fin n → α) (xs : List α) (h : k + xs.length ≤ n)
    (hn : n < 2 ^ 31) :
    storeAll a k xs = some (overwrite a k xs, ((k + xs.length : ℕ) : ℤ)) := by
  induction xs generalizing a k with
  | nil =>
    rw [overwrite_nil, List.length_nil, Nat.add_zero]
    rfl
  | cons x xs ih =>
    rw [List.length_cons] at h
    have hk : k < n := by omega
    have hsum : addInt k 1 = some ((k + 1 : ℕ) : ℤ) := addInt_eq (by omega) (by omega)
    simp only [storeAll, store_eq a x hk, hsum, Option.bind_eq_bind, Option.bind_some]
    rw [ih _ (by omega), overwrite_cons a x xs hk, List.length_cons, Nat.add_assoc,
      Nat.add_comm 1]

/-- One element more, behind the others. -/
theorem update_overwrite {k : ℕ} (a : Fin n → α) (xs : List α) (x : α) (h : k + xs.length < n)
    (i : Fin n) :
    Function.update (overwrite a k xs) ⟨k + xs.length, h⟩ x i =
      if k ≤ i ∧ i ≤ k + xs.length then xs.getD (i - k) x else a i := by
  rcases Nat.lt_trichotomy i (k + xs.length) with hlt | heq | hgt
  · have hne : i ≠ ⟨k + xs.length, h⟩ := Fin.ne_of_val_ne (Nat.ne_of_lt hlt)
    rw [Function.update_of_ne hne, overwrite]
    by_cases hk : k ≤ i
    · have hget : (i : ℕ) - k < xs.length := by omega
      rw [if_pos hk, if_pos ⟨hk, Nat.le_of_lt hlt⟩, List.getD_eq_getElem _ _ hget,
        List.getD_eq_getElem _ _ hget]
    · rw [if_neg hk, if_neg fun hc => hk hc.1]
  · obtain rfl : i = ⟨k + xs.length, h⟩ := Fin.ext heq
    have hbetween : k ≤ k + xs.length ∧ k + xs.length ≤ k + xs.length :=
      ⟨Nat.le_add_right _ _, Nat.le_refl _⟩
    rw [Function.update_self, if_pos hbetween, List.getD_eq_default _ _ (by dsimp only; omega)]
  · have hne : i ≠ ⟨k + xs.length, h⟩ := Fin.ne_of_val_ne (Nat.ne_of_gt hgt)
    have hk : k ≤ i := by omega
    rw [Function.update_of_ne hne, overwrite, if_pos hk, List.getD_eq_default _ _ (by omega),
      if_neg fun hc => absurd hc.2 (Nat.not_le_of_gt hgt)]

end WebServer.Lib
