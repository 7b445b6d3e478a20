import Mathlib.Data.List.Basic

/-!
# Double buffers

Producers fill the queue at the back while consumers empty the one at the front; when the front is
empty the two are exchanged. `Buffers` has both queues and the records of what was pushed and what
was popped, in order. A `Move` is what one step of a system may do to them. Moves keep `Fifo`: what
was popped, then the front, then the back is what was pushed.
-/

namespace WebServer.Lib

variable {α : Type*}

/-- Two queues, with the records of what went in and out. -/
structure Buffers (α : Type*) where
  pushed : List α
  popped : List α
  front : List α
  back : List α

namespace Buffers

variable {b b' b'' : Buffers α} {n : ℕ}

/-- What one step does to the buffers; `n` bounds the queue at the back, if there is a bound. -/
inductive Move (n : Option ℕ) (b : Buffers α) : Buffers α → Prop
  | stay : Move n b b
  | push (x : α) : (∀ k ∈ n, b.back.length < k) →
      Move n b { b with pushed := b.pushed ++ [x], back := b.back ++ [x] }
  | pop {x : α} {rest : List α} : b.front = x :: rest →
      Move n b { b with popped := b.popped ++ [x], front := rest }
  | swap : b.front = [] → Move n b { b with front := b.back, back := [] }

/-- Nothing is lost, duplicated or reordered. -/
def Fifo (b : Buffers α) : Prop := b.popped ++ (b.front ++ b.back) = b.pushed

/-- No queue is longer than the bound. -/
def Bounded (n : ℕ) (b : Buffers α) : Prop := b.front.length ≤ n ∧ b.back.length ≤ n

theorem Move.fifo {n : Option ℕ} (h : Move n b b') (hf : b.Fifo) : b'.Fifo := by
  unfold Fifo at *
  cases h with
  | stay => exact hf
  | push x _ => rw [← hf, ← List.append_assoc, ← List.append_assoc, ← List.append_assoc]
  | pop hx => rw [← hf, hx, List.append_assoc]; rfl
  | swap he => rw [← hf, he, List.append_nil, List.nil_append]

theorem Move.bounded (h : Move (some n) b b') (hb : b.Bounded n) : b'.Bounded n := by
  cases h with
  | stay => exact hb
  | push x hx =>
    have hlt : b.back.length < n := hx n rfl
    refine ⟨hb.1, ?_⟩
    rw [List.length_append, List.length_singleton]
    omega
  | pop hx =>
    have hle := hb.1
    rw [hx, List.length_cons] at hle
    exact ⟨Nat.le_of_succ_le hle, hb.2⟩
  | swap he => exact ⟨hb.2, Nat.zero_le n⟩

/-- What was popped is the beginning of what was pushed. -/
theorem Fifo.popped_isPrefix (h : b.Fifo) : b.popped <+: b.pushed := ⟨_, h⟩

end Buffers

end WebServer.Lib
