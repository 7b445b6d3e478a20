import Mathlib.Data.List.Basic
import Mathlib.Data.List.Induction
import Mathlib.Logic.Function.Iterate

/-!
# Runs of a labelled transition system

A system is a partial step function on states: `step u a = some v` says that the label `a` is
enabled in `u` and leads to `v`. `Exec step C s l t` says that the labels `l`, performed one after
another from `s`, lead to `t`, and that every one of these steps met the condition `C` (a condition
on the label and on the state before the step). With `C` always true it is an ordinary run.

* `Exec.invariant` is the induction rule: what holds at the start and is preserved by every step
  meeting the condition holds at the end of every run.
* `runIf` computes a run, so that concrete runs are checked by evaluation (`exec_of_runIf`).

A deterministic machine is a total step function; `Leads f s t` says that it comes from `s` to `t`.
-/

namespace WebServer.Lib

variable {σ α : Type*} {step : σ → α → Option σ} {C : σ → α → Prop} {s t u v : σ} {a : α}
  {l l' : List α}

/-- Runs whose steps all meet `C`. -/
inductive Exec (step : σ → α → Option σ) (C : σ → α → Prop) (s : σ) : List α → σ → Prop
  | nil : Exec step C s [] s
  | snoc {l : List α} {u : σ} {a : α} {v : σ} :
      Exec step C s l u → C u a → step u a = some v → Exec step C s (l ++ [a]) v

/-- The condition every step meets. -/
def Always : σ → α → Prop := fun _ _ => True

namespace Exec

/-- **The invariant rule.** -/
theorem invariant {I : σ → Prop} (h : Exec step C s l t) (h0 : I s)
    (hstep : ∀ u a v, I u → C u a → step u a = some v → I v) : I t := by
  induction h with
  | nil => exact h0
  | snoc _ hC hs ih => exact hstep _ _ _ ih hC hs

theorem mono {C' : σ → α → Prop} (h : Exec step C s l t) (hC : ∀ u a, C u a → C' u a) :
    Exec step C' s l t := by
  induction h with
  | nil => exact .nil
  | snoc _ hc hs ih => exact .snoc ih (hC _ _ hc) hs

theorem always (h : Exec step C s l t) : Exec step Always s l t :=
  h.mono fun _ _ _ => trivial

theorem trans (h : Exec step C s l t) (h' : Exec step C t l' u) : Exec step C s (l ++ l') u := by
  induction h' with
  | nil => simpa using h
  | snoc _ hc hs ih => simpa [List.append_assoc] using Exec.snoc ih hc hs

theorem head (hc : C s a) (hs : step s a = some t) (h : Exec step C t l u) :
    Exec step C s (a :: l) u := by
  simpa using Exec.trans (Exec.snoc .nil hc hs) h

theorem snoc_inv (h : Exec step C s (l ++ [a]) u) :
    ∃ t, Exec step C s l t ∧ C t a ∧ step t a = some u := by
  generalize hl : l ++ [a] = m at h
  cases h with
  | nil => simp at hl
  | snoc ht hc hs =>
    obtain ⟨rfl, hlast⟩ := List.append_inj' hl rfl
    obtain rfl := List.singleton_inj.mp hlast
    exact ⟨_, ht, hc, hs⟩

/-- A run passes through the end of each of its beginnings. -/
theorem split (h : Exec step C s (l ++ l') u) : ∃ t, Exec step C s l t ∧ Exec step C t l' u := by
  induction l' using List.reverseRecOn generalizing u with
  | nil => exact ⟨u, by simpa using h, .nil⟩
  | append_singleton l' a ih =>
    rw [← List.append_assoc] at h
    obtain ⟨v, hv, hc, hs⟩ := h.snoc_inv
    obtain ⟨t, ht, ht'⟩ := ih hv
    exact ⟨t, ht, .snoc ht' hc hs⟩

end Exec

instance (s : σ) (a : α) : Decidable (Always s a) := isTrue trivial

/-- Perform the labels one after another, as long as each is enabled and meets the condition. -/
def runIf (step : σ → α → Option σ) (C : σ → α → Prop) [∀ s a, Decidable (C s a)] :
    σ → List α → Option σ
  | s, [] => some s
  | s, a :: l => if C s a then (step s a).bind fun t => runIf step C t l else none

theorem exec_of_runIf [∀ s a, Decidable (C s a)] (h : runIf step C s l = some t) :
    Exec step C s l t := by
  induction l generalizing s with
  | nil =>
    obtain rfl : s = t := by simpa [runIf] using h
    exact .nil
  | cons a l ih =>
    simp only [runIf] at h
    split at h
    · rename_i hc
      obtain ⟨u, hu, h⟩ := Option.bind_eq_some_iff.mp h
      exact .head hc hu (ih h)
    · cases h

/-! ## Deterministic machines -/

/-- The machine `f` comes from `s` to `t`. -/
def Leads (f : σ → σ) (s t : σ) : Prop := ∃ n, f^[n] s = t

namespace Leads

variable {f : σ → σ}

theorem refl (s : σ) : Leads f s s := ⟨0, rfl⟩

theorem head (h : Leads f (f s) t) : Leads f s t := by
  obtain ⟨n, hn⟩ := h
  exact ⟨n + 1, by rw [Function.iterate_succ_apply]; exact hn⟩

theorem trans (h : Leads f s t) (h' : Leads f t u) : Leads f s u := by
  obtain ⟨n, rfl⟩ := h
  obtain ⟨m, rfl⟩ := h'
  exact ⟨m + n, by rw [Function.iterate_add_apply]⟩

/-- The machine stops in one state at most. -/
theorem eq_of_fixed {u : σ} (h : Leads f s t) (h' : Leads f s u) (ht : f t = t) (hu : f u = u) :
    t = u := by
  obtain ⟨n, rfl⟩ := h
  obtain ⟨m, rfl⟩ := h'
  have key := (Function.iterate_fixed ht m).symm
  rw [← Function.iterate_add_apply, Nat.add_comm, Function.iterate_add_apply,
    Function.iterate_fixed hu n] at key
  exact key

/-- What a step of the machine preserves holds wherever it comes to. -/
theorem invariant {I : σ → Prop} (hstep : ∀ u, I u → I (f u)) (h : Leads f s t) (h0 : I s) :
    I t := by
  obtain ⟨n, rfl⟩ := h
  induction n with
  | zero => exact h0
  | succ n ih =>
    rw [Function.iterate_succ_apply']
    exact hstep _ ih

end Leads

end WebServer.Lib
