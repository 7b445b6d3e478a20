import Mathlib.Algebra.BigOperators.Group.Finset.Basic

/-!
# Maps changed at one place

Facts about `Function.update`, used wherever a state holds a map: what is found in a map of which
one place was set, what does not change with it, and how a sum over the places changes.
-/

namespace WebServer.Lib

/-- Reading a partial map of which one place was set. -/
theorem update_some_cases {α β : Type*} [DecidableEq α] {f : α → Option β} {a x : α} {y z : β}
    (h : Function.update f a (some y) x = some z) : x = a ∧ z = y ∨ x ≠ a ∧ f x = some z := by
  by_cases hx : x = a
  · subst hx
    rw [Function.update_self] at h
    exact .inl ⟨rfl, (Option.some.inj h).symm⟩
  · rw [Function.update_of_ne hx] at h
    exact .inr ⟨hx, h⟩

/-- What is found and is not the new value was there before. -/
theorem eq_of_update_eq {α β : Type*} [DecidableEq α] {f : α → β} {a x : α} {y z : β}
    (h : Function.update f a y x = z) (hy : y ≠ z) : f x = z := by
  by_cases hx : x = a
  · rw [hx, Function.update_self] at h
    exact absurd h hy
  · rwa [Function.update_of_ne hx] at h

/-- What is found was there before, if the new value is it only where the old one is. -/
theorem eq_of_update_apply_eq {α β : Type*} [DecidableEq α] {f : α → β} {g : β → β} {a x : α}
    {z : β} (h : Function.update f a (g (f a)) x = z) (hg : ∀ {y}, g y = z → y = z) : f x = z := by
  by_cases hx : x = a
  · subst hx
    rw [Function.update_self] at h
    exact hg h
  · rwa [Function.update_of_ne hx] at h

/-- A property of the values that the new value has as the old one had it. -/
theorem apply_update_eq {α β γ : Type*} [DecidableEq α] {g : β → γ} {f : α → β} {a : α} {y : β}
    (h : g y = g (f a)) (x : α) : g (Function.update f a y x) = g (f x) := by
  by_cases hx : x = a
  · rw [hx, Function.update_self, h]
  · rw [Function.update_of_ne hx]

/-- Summing a weight over the first `n` places of a map of which one was changed. -/
theorem sum_range_update {β : Type*} (weight : β → ℕ) (f : ℕ → β) {c n : ℕ} (hc : c < n) (x : β) :
    ∑ d ∈ Finset.range n, weight (Function.update f c x d) + weight (f c) =
      ∑ d ∈ Finset.range n, weight (f d) + weight x := by
  have hmem : c ∈ Finset.range n := Finset.mem_range.mpr hc
  rw [← Finset.add_sum_erase _ _ hmem, ← Finset.add_sum_erase _ (fun d => weight (f d)) hmem]
  have hrest : ∑ d ∈ (Finset.range n).erase c, weight (Function.update f c x d) =
      ∑ d ∈ (Finset.range n).erase c, weight (f d) := by
    refine Finset.sum_congr rfl fun d hd => ?_
    rw [Function.update_of_ne (Finset.ne_of_mem_erase hd)]
  rw [hrest, Function.update_self]
  omega

end WebServer.Lib
