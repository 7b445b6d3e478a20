import Mathlib.Data.List.Infix

/-!
# Lines and the blank line behind them

A text of lines, each ended by the two letters `c` and `l`, and a blank line. `render` writes the
lines, and `headLines` reads them up to the blank line. When no line is empty or has one of the two
letters, reading undoes writing (`headLines_render`), whatever follows, and the first `c l c l` of
the text is where the last line ends (`firstAt_blank`).
-/

namespace WebServer.Lib.Lines

variable {α : Type*}

/-- The lines with their ends. -/
def render (c l : α) (lines : List (List α)) : List α := lines.flatMap (· ++ [c, l])

/-- A line: it is not empty and has no letter of a line end. -/
structure IsLine (c l : α) (x : List α) : Prop where
  ne_nil : x ≠ []
  not_mem_c : c ∉ x
  not_mem_l : l ∉ x

/-- `pattern` occurs in `s` at `k` and nowhere before. -/
structure FirstAt (pattern : List α) (k : ℕ) (s : List α) : Prop where
  isPrefix : pattern <+: s.drop k
  least : ∀ j, pattern <+: s.drop j → k ≤ j

variable {c l : α} {x : List α} {lines : List (List α)} {rest : List α}

@[simp] theorem render_nil : render c l [] = [] := rfl

@[simp] theorem render_cons : render c l (x :: lines) = x ++ c :: l :: render c l lines := by
  simp [render]

/-! ## The first blank line -/

/-- Where `c l c l` can stand in a text that begins with a line. -/
theorem pattern_cases (hcl : c ≠ l) (hx : c ∉ x) {j : ℕ} {s : List α}
    (h : [c, l, c, l] <+: (x ++ c :: l :: s).drop j) :
    (j = x.length ∧ [c, l] <+: s) ∨
      (x.length + 2 ≤ j ∧ [c, l, c, l] <+: s.drop (j - (x.length + 2))) := by
  rcases Nat.lt_trichotomy j x.length with hj | rfl | hj
  · -- in the line there is no `c`
    rw [List.drop_append_of_le_length hj.le, List.drop_eq_getElem_cons hj, List.cons_append] at h
    obtain ⟨hc, -⟩ := List.cons_prefix_cons.mp h
    exact absurd (hc ▸ List.getElem_mem hj) hx
  · rw [List.drop_left] at h
    exact .inl ⟨rfl, (List.cons_prefix_cons.mp (List.cons_prefix_cons.mp h).2).2⟩
  · obtain ⟨k, rfl⟩ := Nat.exists_eq_add_of_lt hj
    rw [Nat.add_assoc, List.drop_length_add_append] at h
    cases k with
    | zero =>
      obtain ⟨hc, -⟩ := List.cons_prefix_cons.mp (by simpa using h)
      exact absurd hc hcl
    | succ k =>
      refine .inr ⟨by omega, ?_⟩
      have hk : x.length + (k + 1) + 1 - (x.length + 2) = k := by omega
      rw [hk]
      simpa using h

/-- The blank line ends the first `c l c l`. -/
theorem firstAt_blank (hcl : c ≠ l) (hne : lines ≠ []) (hlines : ∀ x ∈ lines, IsLine c l x)
    (rest : List α) :
    FirstAt [c, l, c, l] ((render c l lines).length - 2) (render c l lines ++ c :: l :: rest) := by
  induction lines with
  | nil => exact absurd rfl hne
  | cons x lines ih =>
    have hx := hlines x List.mem_cons_self
    cases lines with
    | nil =>
      refine ⟨by simp, ?_⟩
      intro j hj
      have hj' : [c, l, c, l] <+: (x ++ c :: l :: (c :: l :: rest)).drop j := by simpa using hj
      obtain ⟨rfl, -⟩ | ⟨hle, -⟩ := pattern_cases hcl hx.not_mem_c hj'
      · simp
      · simp only [render_cons, render_nil, List.length_append, List.length_cons, List.length_nil]
        omega
    | cons y lines =>
      have ih := ih (List.cons_ne_nil _ _) fun z hz => hlines z (List.mem_cons_of_mem _ hz)
      have hlen : 2 ≤ (render c l (y :: lines)).length := by
        simp only [render_cons, List.length_append, List.length_cons]
        omega
      have htext : render c l (x :: y :: lines) ++ c :: l :: rest =
          x ++ c :: l :: (render c l (y :: lines) ++ c :: l :: rest) := by
        rw [render_cons (x := x), List.append_assoc]
        rfl
      have hsize : (render c l (x :: y :: lines)).length - 2 =
          x.length + 2 + ((render c l (y :: lines)).length - 2) := by
        rw [render_cons (x := x), List.length_append, List.length_cons, List.length_cons]
        omega
      rw [htext, hsize]
      constructor
      · have hdrop :
            (x ++ c :: l :: (render c l (y :: lines) ++ c :: l :: rest)).drop (x.length + 2) =
            render c l (y :: lines) ++ c :: l :: rest := by
          rw [List.drop_length_add_append]
          rfl
        rw [← List.drop_drop, hdrop]
        exact ih.isPrefix
      · intro j hj
        obtain ⟨-, hstart⟩ | ⟨hle, hin⟩ := pattern_cases hcl hx.not_mem_c hj
        · -- the next line does not begin with `c`
          have hy := hlines y (List.mem_cons_of_mem _ List.mem_cons_self)
          obtain ⟨b, y', rfl⟩ := List.exists_cons_of_ne_nil hy.ne_nil
          rw [render_cons, List.cons_append, List.cons_append] at hstart
          exact absurd (List.cons_prefix_cons.mp hstart).1
            fun e => hy.not_mem_c (e ▸ List.mem_cons_self)
        · have := ih.least _ hin
          omega

/-- The first `c l c l` of a text ends its head. -/
theorem firstAt_head {head : List α} (hcl : c ≠ l) (hne : lines ≠ [])
    (hlines : ∀ x ∈ lines, IsLine c l x) (hhead : head = render c l lines ++ [c, l])
    (body : List α) : FirstAt [c, l, c, l] (head.length - 4) (head ++ body) := by
  have hlen : head.length - 4 = (render c l lines).length - 2 := by
    rw [hhead, List.length_append, List.length_cons, List.length_singleton]
    omega
  rw [hlen, hhead, List.append_assoc]
  exact firstAt_blank hcl hne hlines body

/-! ## Reading the lines -/

section Read

variable [DecidableEq α]

/-- The lines from here on, of which the first begins with `acc`, up to the blank line. -/
def headLinesFrom (c l : α) (acc : List α) : List α → List (List α)
  | [] => []
  | [_] => []
  | b :: b' :: s =>
    if b = c ∧ b' = l then if acc = [] then [] else acc :: headLinesFrom c l [] s
    else headLinesFrom c l (acc ++ [b]) (b' :: s)

/-- The lines up to the blank line. -/
def headLines (c l : α) (s : List α) : List (List α) := headLinesFrom c l [] s

theorem headLinesFrom_line (hx : c ∉ x) (acc s : List α) :
    headLinesFrom c l acc (x ++ c :: l :: s) =
      if acc ++ x = [] then [] else (acc ++ x) :: headLinesFrom c l [] s := by
  induction x generalizing acc with
  | nil => simp [headLinesFrom]
  | cons b x ih =>
    have hb : b ≠ c := fun e => hx (e ▸ List.mem_cons_self)
    have ih := ih (fun h => hx (List.mem_cons_of_mem _ h)) (acc ++ [b])
    rw [List.append_assoc, List.singleton_append] at ih
    rw [← ih]
    cases x with
    | nil => simp [headLinesFrom, hb]
    | cons b' x => simp [headLinesFrom, hb]

/-- **Reading undoes writing.** -/
theorem headLines_render (hlines : ∀ x ∈ lines, IsLine c l x) (rest : List α) :
    headLines c l (render c l lines ++ c :: l :: rest) = lines := by
  induction lines with
  | nil => simp [headLines, headLinesFrom]
  | cons x lines ih =>
    have hx := hlines x List.mem_cons_self
    have htext : render c l (x :: lines) ++ c :: l :: rest =
        x ++ c :: l :: (render c l lines ++ c :: l :: rest) := by
      rw [render_cons, List.append_assoc]
      rfl
    rw [htext, headLines, headLinesFrom_line hx.not_mem_c, List.nil_append, if_neg hx.ne_nil]
    exact congrArg (x :: ·) (ih fun y hy => hlines y (List.mem_cons_of_mem _ hy))

end Read

end WebServer.Lib.Lines
