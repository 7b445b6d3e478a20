import Mathlib.Data.Nat.Notation

/-!
# Reading a buffer

A buffer has elements at some indices and none at the others. `Reads α β` are the computations that
read a buffer of `α`s; they keep a record of the indices at which they have read, and have no value
when they read where there is nothing, or do not come to an end.

`Returns mem n m b` says that `m` only depends on the first `n` elements: on every buffer that
begins with those of `mem` it returns `b`, with one and the same record of reads, all of them below
`n`. It is proved along the computation, by `Returns.pure`, `Returns.bind` and `Returns.read`.
-/

namespace WebServer.Lib

variable {α β γ : Type}

/-- A computation that reads a buffer: its value, and where it has read. -/
def Reads (α β : Type) := (ℕ → Option α) → Option (β × List ℕ)

namespace Reads

/-- One computation, and then one with its value. -/
def andThen (m : Reads α β) (f : β → Reads α γ) : Reads α γ := fun buff =>
  match m buff with
  | some (b, reads) => (f b buff).map fun p => (p.1, reads ++ p.2)
  | none => none

instance : Monad (Reads α) where
  pure b := fun _ => some (b, [])
  bind := andThen

/-- The element at an index. -/
def read (i : ℕ) : Reads α α := fun buff => (buff i).map fun b => (b, [i])

/-- A computation that does not come to an end. -/
def stuck : Reads α β := fun _ => none

/-- A computation behind another: its reads come after those of the first. -/
theorem bind_of_eq_some {m : Reads α β} {f : β → Reads α γ} {buff : ℕ → Option α} {b : β}
    {reads : List ℕ} (h : m buff = some (b, reads)) :
    (m >>= f) buff = (f b buff).map fun p => (p.1, reads ++ p.2) := by
  change Reads.andThen m f buff = _
  rw [andThen, h]

end Reads

open Reads

/-- The buffer begins with the first `n` elements of `mem`. -/
def Holds (mem : ℕ → α) (n : ℕ) (buff : ℕ → Option α) : Prop := ∀ i < n, buff i = some (mem i)

/-- On all buffers that begin so, the computation returns `b` after the same reads, below `n`. -/
def Returns (mem : ℕ → α) (n : ℕ) (m : Reads α β) (b : β) : Prop :=
  ∃ reads, (∀ i ∈ reads, i < n) ∧ ∀ buff, Holds mem n buff → m buff = some (b, reads)

section

variable {mem : ℕ → α} {n : ℕ} {m : Reads α β} {b : β}

theorem Returns.pure (b : β) : Returns mem n (pure b : Reads α β) b :=
  ⟨[], fun _ hi => absurd hi List.not_mem_nil, fun _ _ => rfl⟩

theorem Returns.read {i : ℕ} (hi : i < n) : Returns mem n (read i) (mem i) := by
  refine ⟨[i], fun j hj => List.mem_singleton.mp hj ▸ hi, fun buff hbuff => ?_⟩
  rw [Reads.read, hbuff i hi, Option.map_some]

theorem Returns.bind {f : β → Reads α γ} {c : γ} (h : Returns mem n m b)
    (hf : Returns mem n (f b) c) : Returns mem n (m >>= f) c := by
  obtain ⟨reads, hreads, hrun⟩ := h
  obtain ⟨reads', hreads', hrun'⟩ := hf
  refine ⟨reads ++ reads', fun i hi => ?_, fun buff hbuff => ?_⟩
  · exact (List.mem_append.mp hi).elim (hreads i) (hreads' i)
  · rw [bind_of_eq_some (hrun buff hbuff), hrun' buff hbuff, Option.map_some]

/-- Two buffers with the same first elements are not told apart. -/
theorem Returns.eq_of_agree (h : Returns mem n m b) {buff buff' : ℕ → Option α}
    (hbuff : Holds mem n buff) (hagree : ∀ i < n, buff i = buff' i) :
    ∃ reads, (∀ i ∈ reads, i < n) ∧ m buff = some (b, reads) ∧ m buff' = some (b, reads) := by
  obtain ⟨reads, hreads, hrun⟩ := h
  exact ⟨reads, hreads, hrun buff hbuff,
    hrun buff' fun i hi => (hagree i hi).symm.trans (hbuff i hi)⟩

end

end WebServer.Lib
