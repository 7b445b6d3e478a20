import Mathlib.Data.List.Flatten
import Mathlib.Data.Nat.Notation

/-!
# Greedy concatenation

Pieces come one after another and are appended as long as the whole stays below a bound; a piece
that does not fit is dropped, and later ones may still fit. `taken bound length pieces` are the
pieces that are appended, where `length` elements are there before.
-/

namespace WebServer.Lib

variable {α : Type*} {bound length : ℕ} {pieces : List (List α)}

/-- The pieces that fit when they come. -/
def taken (bound : ℕ) : ℕ → List (List α) → List (List α)
  | _, [] => []
  | length, piece :: pieces =>
    if piece.length + length ≥ bound then taken bound length pieces
    else piece :: taken bound (length + piece.length) pieces

theorem taken_cons_of_lt {piece : List α} (h : piece.length + length < bound) :
    taken bound length (piece :: pieces) = piece :: taken bound (length + piece.length) pieces :=
  if_neg (by omega)

theorem taken_cons_of_le {piece : List α} (h : bound ≤ piece.length + length) :
    taken bound length (piece :: pieces) = taken bound length pieces :=
  if_pos h

theorem taken_append (pieces' : List (List α)) :
    taken bound length (pieces ++ pieces') =
      taken bound length pieces ++
        taken bound (length + (taken bound length pieces).flatten.length) pieces' := by
  induction pieces generalizing length with
  | nil => simp [taken]
  | cons piece pieces ih =>
    rw [List.cons_append]
    rcases Nat.lt_or_ge (piece.length + length) bound with h | h
    · rw [taken_cons_of_lt h, taken_cons_of_lt h, ih]
      simp [Nat.add_assoc]
    · rw [taken_cons_of_le h, taken_cons_of_le h, ih]

theorem taken_sublist : (taken bound length pieces).Sublist pieces := by
  induction pieces generalizing length with
  | nil => exact List.Sublist.refl _
  | cons piece pieces ih =>
    rcases Nat.lt_or_ge (piece.length + length) bound with h | h
    · rw [taken_cons_of_lt h]
      exact ih.cons_cons piece
    · rw [taken_cons_of_le h]
      exact ih.cons piece

theorem flatten_taken_sublist : (taken bound length pieces).flatten.Sublist pieces.flatten :=
  taken_sublist.flatten

/-- Pieces that fit all together are all taken. -/
theorem taken_eq_self (h : length + pieces.flatten.length < bound) :
    taken bound length pieces = pieces := by
  induction pieces generalizing length with
  | nil => rfl
  | cons piece pieces ih =>
    rw [List.flatten_cons, List.length_append] at h
    rw [taken_cons_of_lt (by omega), ih (by omega)]

end WebServer.Lib
