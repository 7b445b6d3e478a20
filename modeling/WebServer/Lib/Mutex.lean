import Mathlib.Data.List.Basic

/-!
# Mutexes

`Held m holds` says that the thread recorded in `m` is the one that is at a place where it holds the
mutex, and that there is no other. The rules say what taking and releasing the mutex make of it; a
step of one thread leaves the places of the others alone.
-/

namespace WebServer.Lib

variable {τ : Type*} {m : Option τ} {holds holds' : τ → Prop} {t u : τ}

/-- The mutex is taken by the thread that holds it. -/
def Held (m : Option τ) (holds : τ → Prop) : Prop := ∀ t, m = some t ↔ holds t

namespace Held

theorem unique (h : Held m holds) (ht : holds t) (hu : holds u) : t = u :=
  Option.some.inj (((h t).mpr ht).symm.trans ((h u).mpr hu))

theorem not_holds (h : Held none holds) (t : τ) : ¬ holds t := by
  intro ht
  cases (h t).mpr ht

/-- Nobody takes or releases the mutex. -/
theorem keep (h : Held m holds) (hiff : ∀ t, holds' t ↔ holds t) : Held m holds' := by
  intro t
  rw [hiff, h t]

/-- A thread takes the free mutex. -/
theorem acquire (h : Held m holds) (hm : m = none) (ht : holds' t)
    (hother : ∀ u, u ≠ t → (holds' u ↔ holds u)) : Held (some t) holds' := by
  subst hm
  intro u
  constructor
  · intro hu
    obtain rfl := Option.some.inj hu
    exact ht
  · intro hu
    by_contra hne
    have hut : u ≠ t := fun e => hne (e ▸ rfl)
    exact h.not_holds u ((hother u hut).mp hu)

/-- The thread that holds the mutex releases it. -/
theorem release (h : Held m holds) (ht : holds t) (ht' : ¬ holds' t)
    (hother : ∀ u, u ≠ t → (holds' u ↔ holds u)) : Held none holds' := by
  intro u
  constructor
  · intro hu
    cases hu
  · intro hu
    have hut : u ≠ t := by
      rintro rfl
      exact ht' hu
    exact absurd (h.unique ((hother u hut).mp hu) ht) hut

end Held

end WebServer.Lib
