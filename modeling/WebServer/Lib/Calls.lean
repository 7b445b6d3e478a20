import Mathlib.Data.Nat.Notation
import Mathlib.Data.Nat.SuccPred
import Mathlib.Algebra.GroupWithZero.Nat
import Mathlib.Order.OrderIsoNat

/-!
# Loops over the outcomes of calls

A loop makes a call again and again. Each outcome has a size, by which the loop comes nearer to a
`length`, and some outcomes make it leave. It goes on after the outcomes `os` when none of them made
it leave and their sizes do not add up to `length` (`Goes`). A call does not do more than it was
asked for: as long as the loop goes on, an outcome is not larger than what is left (`Bounded`).

`IsLoop` says what a loop does in one turn; from it, `IsLoop.eq_none_iff` says that it is over when
it does not go on. `exists_not_goes_iff` is about streams of outcomes in which, from some call on,
an outcome makes the loop leave, or has a positive size, or is idle: the loop is left exactly if it
does not come to a point from which on all outcomes are idle.
-/

namespace WebServer.Lib

variable {ο : Type*} {size : ο → ℕ} {leaves idle : ο → Prop} {o : ℕ → ο} {os : List ο}
  {length n m : ℕ}

/-- The outcomes of the first `n` calls. -/
def firstCalls (o : ℕ → ο) (n : ℕ) : List ο := (List.range n).map o

/-- What a loop has done after some outcomes. -/
def total (size : ο → ℕ) (os : List ο) : ℕ := (os.map size).sum

/-- The loop goes on after these outcomes. -/
def Goes (size : ο → ℕ) (leaves : ο → Prop) (length : ℕ) (os : List ο) : Prop :=
  (∀ x ∈ os, ¬leaves x) ∧ total size os < length

/-- No call did more than was left, as long as the loop went on. -/
def Bounded (size : ο → ℕ) (leaves : ο → Prop) : ℕ → List ο → Prop
  | _, [] => True
  | length, x :: os =>
    length = 0 ∨ leaves x ∨ size x ≤ length ∧ Bounded size leaves (length - size x) os

@[simp] theorem total_nil : total size [] = 0 := rfl

@[simp] theorem total_cons {x : ο} : total size (x :: os) = size x + total size os := by
  simp [total]

theorem total_append {os' : List ο} :
    total size (os ++ os') = total size os + total size os' := by
  simp [total]

theorem firstCalls_succ (o : ℕ → ο) (n : ℕ) : firstCalls o (n + 1) = firstCalls o n ++ [o n] := by
  simp [firstCalls, List.range_succ]

theorem firstCalls_succ_eq_cons (o : ℕ → ο) (n : ℕ) :
    firstCalls o (n + 1) = o 0 :: firstCalls (fun k => o (k + 1)) n := by
  simp [firstCalls, List.range_succ_eq_map]

theorem mem_firstCalls {x : ο} : x ∈ firstCalls o n ↔ ∃ k < n, o k = x := by
  simp [firstCalls]

theorem goes_nil : Goes size leaves length [] ↔ 0 < length := by
  simp [Goes]

/-- A loop without a length to reach: only the outcomes that make it leave matter. -/
theorem goes_zero_iff : Goes (fun _ => 0) leaves 1 os ↔ ∀ x ∈ os, ¬leaves x := by
  have htotal : total (fun _ : ο => 0) os = 0 := by simp [total]
  simp [Goes, htotal]

/-- One outcome more at the front. -/
theorem goes_cons {x : ο} (h : size x ≤ length) :
    Goes size leaves length (x :: os) ↔ ¬leaves x ∧ Goes size leaves (length - size x) os := by
  simp only [Goes, List.forall_mem_cons, total_cons, and_assoc]
  refine and_congr_right fun _ => and_congr_right fun _ => ?_
  omega

/-- A function of the outcomes that turns as such a loop does, with a `length` and a state; it has
no value as long as the loop is not over. -/
structure IsLoop {σ ρ : Type*} (f : ℕ → σ → List ο → Option ρ) (size : ο → ℕ) (leaves : ο → Prop) :
    Prop where
  zero (s : σ) (os : List ο) : f 0 s os ≠ none
  nil {length : ℕ} (s : σ) : 0 < length → f length s [] = none
  leave {length : ℕ} {x : ο} (s : σ) (os : List ο) : 0 < length → leaves x →
    f length s (x :: os) ≠ none
  turn {length : ℕ} {x : ο} (s : σ) (os : List ο) : 0 < length → ¬leaves x → size x ≤ length →
    ∃ s', f length s (x :: os) = f (length - size x) s' os

/-- **A loop is over exactly when it does not go on.** -/
theorem IsLoop.eq_none_iff {σ ρ : Type*} {f : ℕ → σ → List ο → Option ρ}
    (hf : IsLoop f size leaves) (h : Bounded size leaves length os) (s : σ) :
    f length s os = none ↔ Goes size leaves length os := by
  induction os generalizing length s with
  | nil =>
    rw [goes_nil]
    rcases Nat.eq_zero_or_pos length with rfl | hpos
    · exact iff_of_false (hf.zero s []) (Nat.lt_irrefl 0)
    · exact iff_of_true (hf.nil s hpos) hpos
  | cons x os ih =>
    rcases Nat.eq_zero_or_pos length with rfl | hpos
    · exact iff_of_false (hf.zero s _) fun hgoes => absurd hgoes.2 (Nat.not_lt_zero _)
    by_cases hx : leaves x
    · exact iff_of_false (hf.leave s os hpos hx) fun hgoes => hgoes.1 x List.mem_cons_self hx
    · obtain ⟨hsize, hrest⟩ := (h.resolve_left (Nat.ne_of_gt hpos)).resolve_left hx
      obtain ⟨s', hturn⟩ := hf.turn s os hpos hx hsize
      rw [hturn, goes_cons hsize, and_iff_right hx]
      exact ih hrest s'

/-- The sizes of the first calls add up. -/
theorem total_firstCalls_mono (h : n ≤ m) :
    total size (firstCalls o n) ≤ total size (firstCalls o m) := by
  induction h with
  | refl => exact le_rfl
  | step _ ih =>
    rw [firstCalls_succ, total_append]
    omega

/-- A loop that goes on after some calls went on before them. -/
theorem Goes.of_le (h : Goes size leaves length (firstCalls o m)) (hnm : n ≤ m) :
    Goes size leaves length (firstCalls o n) := by
  refine ⟨fun x hx => h.1 x ?_, lt_of_le_of_lt (total_firstCalls_mono hnm) h.2⟩
  obtain ⟨k, hk, rfl⟩ := mem_firstCalls.mp hx
  exact mem_firstCalls.mpr ⟨k, by omega, rfl⟩

/-- Idle calls do not end a loop. -/
theorem Goes.of_idle (h : Goes size leaves length (firstCalls o n))
    (hidle : ∀ k ≥ n, idle (o k)) (hi : ∀ x, idle x → ¬leaves x ∧ size x = 0) (hnm : n ≤ m) :
    Goes size leaves length (firstCalls o m) := by
  induction hnm with
  | refl => exact h
  | @step m hnm ih =>
    obtain ⟨hleaves, hsize⟩ := hi _ (hidle m hnm)
    rw [firstCalls_succ]
    refine ⟨fun x hx => ?_, ?_⟩
    · rcases List.mem_append.mp hx with hx | hx
      · exact ih.1 x hx
      · rwa [List.mem_singleton.mp hx]
    · rw [total_append, total_cons, hsize]
      exact ih.2

/-- A loop goes on for ever on one idle outcome, whatever its length. -/
theorem goes_const {x : ο} (hsize : size x = 0) (hleaves : ¬leaves x) (hlength : 0 < length)
    (n : ℕ) : Goes size leaves length (firstCalls (fun _ => x) n) := by
  have hstart : Goes size leaves length (firstCalls (fun _ => x) 0) := goes_nil.mpr hlength
  have hi : ∀ y, x = y → ¬leaves y ∧ size y = 0 := by
    rintro y rfl
    exact ⟨hleaves, hsize⟩
  exact hstart.of_idle (fun _ _ => rfl) hi (Nat.zero_le n)

theorem bounded_const {x : ο} (hsize : size x = 0) (n : ℕ) :
    Bounded size leaves length (firstCalls (fun _ => x) n) := by
  induction n with
  | zero => trivial
  | succ n ih =>
    rw [firstCalls_succ_eq_cons]
    exact Or.inr (Or.inr ⟨by omega, by rw [hsize]; exact ih⟩)

/-- **Which loops end.** -/
theorem exists_not_goes_iff (hi : ∀ x, idle x → ¬leaves x ∧ size x = 0)
    (hev : ∃ N, ∀ n ≥ N, leaves (o n) ∨ 0 < size (o n) ∨ idle (o n)) :
    (∃ n, ¬Goes size leaves length (firstCalls o n)) ↔
      ¬∃ N, Goes size leaves length (firstCalls o N) ∧ ∀ n ≥ N, idle (o n) := by
  constructor
  · rintro ⟨n, hn⟩ ⟨N, hN, hidle⟩
    rcases Nat.le_total n N with h | h
    · exact hn (hN.of_le h)
    · exact hn (hN.of_idle hidle hi h)
  · intro hstuck
    by_contra hall
    have hall : ∀ n, Goes size leaves length (firstCalls o n) := fun n => by
      by_contra hn
      exact hall ⟨n, hn⟩
    obtain ⟨N₀, hN₀⟩ := hev
    -- what is left can only decrease, so from some call on it does not
    have hanti : Antitone fun n => length - total size (firstCalls o n) := fun n m hnm => by
      have htotal : total size (firstCalls o n) ≤ total size (firstCalls o m) :=
        total_firstCalls_mono hnm
      dsimp only
      omega
    obtain ⟨N₁, hN₁⟩ := WellFoundedLT.antitone_chain_condition hanti
    refine hstuck ⟨max N₀ N₁, hall _, fun n hn => ?_⟩
    have hn₀ : N₀ ≤ n := le_trans (le_max_left _ _) hn
    have hn₁ : N₁ ≤ n := le_trans (le_max_right _ _) hn
    have hsize : size (o n) = 0 := by
      have h₁ := hN₁ n hn₁
      have h₂ := hN₁ (n + 1) (by omega)
      have hlt := (hall (n + 1)).2
      rw [firstCalls_succ, total_append, total_cons, total_nil] at h₂ hlt
      omega
    have hleaves : ¬leaves (o n) := (hall (n + 1)).1 _ (mem_firstCalls.mpr ⟨n, by omega, rfl⟩)
    rcases hN₀ n hn₀ with h | h | h
    · exact absurd h hleaves
    · omega
    · exact h

end WebServer.Lib
