import WebServer.Lib.Calendar

/-!
# Queues by deadline

A queue of entries with deadlines, in the order in which they are due, and in the order of their
arrival where they are due at once: an entry is put behind everything that is due no later
(`enqueue`), and at a time `t` the entries with deadlines up to `t` leave (`due`, `later`).

A calendar (`WebServer.Lib.Calendar`) is such a queue cut into buckets: `flatten_add` and
`due_eq_filter` say that putting something into its bucket and taking the first buckets are the two
operations of the queue.

`sweep` empties the first buckets and moves on to the last of them, the way a ring with a moving
index is emptied whose current place stands for the current time itself.
-/

namespace WebServer.Lib

variable {α : Type*} {D : α → ℤ} {q : List α} {x y : α} {t : ℤ}

/-- Put an entry behind everything that is due no later. -/
def enqueue (D : α → ℤ) (q : List α) (x : α) : List α :=
  q.filter (D · ≤ D x) ++ x :: q.filter (D x < D ·)

/-- The entries that are due at `t`. -/
def due (D : α → ℤ) (q : List α) (t : ℤ) : List α := q.filter (D · ≤ t)

/-- The entries that are not due at `t`. -/
def later (D : α → ℤ) (q : List α) (t : ℤ) : List α := q.filter (t < D ·)

@[simp] theorem mem_enqueue : y ∈ enqueue D q x ↔ y = x ∨ y ∈ q := by
  simp only [enqueue, List.mem_append, List.mem_cons, List.mem_filter, decide_eq_true_eq]
  constructor
  · rintro (h | h | h)
    · exact .inr h.1
    · exact .inl h
    · exact .inr h.1
  · rintro (h | h)
    · exact .inr (.inl h)
    · rcases le_or_gt (D y) (D x) with hyx | hyx
      · exact .inl ⟨h, hyx⟩
      · exact .inr (.inr ⟨h, hyx⟩)

@[simp] theorem mem_due : y ∈ due D q t ↔ y ∈ q ∧ D y ≤ t := by simp [due]

@[simp] theorem mem_later : y ∈ later D q t ↔ y ∈ q ∧ t < D y := by simp [later]

namespace Calendar

variable {cal : Calendar α} {now : ℤ} {d k : ℕ}

/-! ## Calendars as queues -/

/-- The first buckets hold what is due. -/
theorem due_eq_filter (h : Timed D cal now) : cal.due d = Lib.due D cal.flatten (now + d) := by
  have hd : (cal.due d).filter (D · ≤ now + d) = cal.due d := by
    refine List.filter_eq_self.mpr fun x hx => ?_
    simpa using (mem_due_iff h).mp hx |>.2
  have ha : (cal.advance d).flatten.filter (D · ≤ now + d) = [] := by
    refine List.filter_eq_nil_iff.mpr fun x hx => ?_
    simpa using lt_of_mem_advance h hx
  rw [Lib.due, ← due_append_flatten_advance cal d, List.filter_append, hd, ha, List.append_nil]

/-- The other buckets hold what is not. -/
theorem flatten_drop_eq_filter (h : Timed D cal now) :
    (cal.drop d).flatten = Lib.later D cal.flatten (now + d) := by
  have hd : (cal.due d).filter (now + d < D ·) = [] := by
    refine List.filter_eq_nil_iff.mpr fun x hx => ?_
    simpa using (mem_due_iff h).mp hx |>.2
  have ha : (cal.advance d).flatten.filter (now + d < D ·) = (cal.advance d).flatten := by
    refine List.filter_eq_self.mpr fun x hx => ?_
    simpa using lt_of_mem_advance h hx
  have he : (cal.advance d).flatten = (cal.drop d).flatten := by simp [advance]
  rw [Lib.later, ← due_append_flatten_advance cal d, List.filter_append, hd, ha, List.nil_append,
    he]

theorem flatten_pairwise (h : Timed D cal now) : cal.flatten.Pairwise (D · ≤ D ·) := by
  refine List.pairwise_flatten.mpr ⟨fun b hb => ?_, List.pairwise_iff_getElem.mpr ?_⟩
  · obtain ⟨k, hk⟩ := List.mem_iff_getElem?.mp hb
    refine List.pairwise_of_forall_mem_list fun x hx y hy => ?_
    rw [h k b hk x hx, h k b hk y hy]
  · intro i j hi hj hij x hx y hy
    rw [h i _ (List.getElem?_eq_getElem hi) x hx, h j _ (List.getElem?_eq_getElem hj) y hy]
    omega

/-- Putting an entry into its bucket is putting it into the queue. -/
theorem flatten_add (h : Timed D cal now) (hk : k < cal.length) (hx : D x = now + k + 1) :
    (cal.add k x).flatten = enqueue D cal.flatten x := by
  have hdue := due_eq_filter (d := k + 1) h
  have hlater := flatten_drop_eq_filter (d := k + 1) h
  have e : now + ((k + 1 : ℕ) : ℤ) = D x := by
    rw [hx]
    push_cast
    omega
  rw [e] at hdue hlater
  have hsplit : cal.add k x = cal.take k ++ (cal[k] ++ [x]) :: cal.drop (k + 1) := by
    rw [add, List.modify_eq_take_cons_drop hk]
  have hd : cal.due (k + 1) = (cal.take k).flatten ++ cal[k] := by
    rw [due, List.take_succ_eq_append_getElem hk, List.flatten_append, List.flatten_singleton]
  rw [hsplit, enqueue]
  simp only [Lib.due, Lib.later] at hdue hlater
  rw [← hdue, ← hlater, hd]
  simp

/-! ## Sweeping a ring -/

/-- Empty the first `d` buckets, and move on to the last of them. -/
def sweep (cal : Calendar α) (d : ℕ) : Calendar α :=
  [] :: cal.drop d ++ List.replicate (d - 1) []

theorem flatten_sweep : (cal.sweep d).flatten = (cal.drop d).flatten := by
  simp [sweep]

theorem Timed.sweep (h : Timed D cal now) : Timed D (cal.sweep d) (now + d - 1) := by
  intro k b hb x hx
  rw [Calendar.sweep] at hb
  cases k with
  | zero =>
    obtain rfl : [] = b := by simpa using hb
    simp at hx
  | succ k =>
    rw [List.cons_append, List.getElem?_cons_succ, List.getElem?_append] at hb
    split at hb
    · rw [List.getElem?_drop] at hb
      rw [h _ b hb x hx]
      push_cast
      omega
    · obtain rfl := List.eq_of_mem_replicate (List.mem_of_getElem? hb)
      simp at hx

/-- A calendar without entries is right at any time. -/
theorem timed_of_flatten_eq_nil (h : cal.flatten = []) : Timed D cal now := by
  intro k b hb x hx
  have : x ∈ cal.flatten := List.mem_flatten_of_mem (List.mem_of_getElem? hb) hx
  simp [h] at this

/-- The calendar whose first `d` buckets were emptied. -/
def cleared (cal : Calendar α) (d : ℕ) : Calendar α := List.replicate d [] ++ cal.drop d

/-- Emptying one bucket after another. -/
theorem cleared_succ (hd : d < cal.length) :
    (cal.cleared d).modify d (fun _ => []) = cal.cleared (d + 1) := by
  have hlt : d < (cal.cleared d).length := by simp [cleared]; omega
  rw [List.modify_eq_take_cons_drop hlt, cleared, cleared, List.take_left' (by simp),
    List.drop_append, List.drop_of_length_le (by simp), List.replicate_succ', List.length_replicate,
    Nat.add_sub_cancel_left, List.drop_drop]
  simp

/-- Moving the index to the last place emptied. -/
theorem rotate_cleared (hd : 1 ≤ d) : (cal.cleared d).rotate (d - 1) = cal.sweep d := by
  obtain ⟨d, rfl⟩ : ∃ d', d = d' + 1 := ⟨d - 1, by omega⟩
  have e : cal.cleared (d + 1) = List.replicate d [] ++ ([] :: cal.drop (d + 1)) := by
    rw [cleared, List.replicate_succ', List.append_assoc]
    rfl
  have hrot := List.rotate_append_length_eq (List.replicate d ([] : List α))
    ([] :: cal.drop (d + 1))
  rw [List.length_replicate] at hrot
  rw [e, Nat.add_sub_cancel, hrot, sweep, Nat.add_sub_cancel]

/-- Changing one place of a ring given by a function. -/
theorem map_range_modify {n i : ℕ} {f f' : ℕ → List α} {g : List α → List α}
    (hf : ∀ j < n, f' j = if j = i then g (f j) else f j) :
    (List.range n).map f' = ((List.range n).map f).modify i g := by
  refine List.ext_getElem (by simp) fun j hj _ => ?_
  have hj : j < n := by simpa using hj
  simp only [List.getElem_map, List.getElem_range, List.getElem_modify, hf j hj, eq_comm]

/-- Leaving out entries keeps a calendar. -/
theorem Timed.filter {p : α → Bool} (h : Timed D cal now) :
    Timed D (cal.map (·.filter p)) now := by
  intro k b hb x hx
  rw [List.getElem?_map] at hb
  obtain ⟨b', hb', rfl⟩ := Option.map_eq_some_iff.mp hb
  exact h k b' hb' x (List.mem_of_mem_filter hx)

end Calendar

end WebServer.Lib
