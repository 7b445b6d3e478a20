import WebServer.Socket.Loops

/-!
# What is written

`writen` on the bytes it is given: the pointer and the length of every `send`, and what is accepted.
The progress of the loop is kept in two variables, `buff` and `length`; `writenAt` has both, and
forgetting the pointer gives `writen` of the module on the write buffer
(`writen_eq_map_writenAt`).

`writenAt_faithful` says what the return value means: -1 that everything was accepted, a positive
number that the socket was full and so many bytes are left, 0 that `send` returned 0 and
`handle_close` was called. In each case the socket has accepted a beginning of the buffer, in order
and each byte once. `HandleWrite` tells the three apart by the sign and by comparing with
`write_length` (`handleWrite_epollOut_iff`).
-/

namespace WebServer.Socket

open Lib Http

/-! ## The loop -/

/-- A call of `send`: the pointer and the length it is given, and what it does. -/
structure SendCall where
  buff : ℕ
  length : ℕ
  outcome : SendOutcome
  deriving DecidableEq

/-- The bytes the socket accepts in a call. -/
def SendCall.bytes (memory : ℕ → UInt8) (c : SendCall) : Bytes :=
  bytesAt memory c.buff (sendSize c.outcome)

/-- A run of `writen`: what it returns, the calls it makes, and whether it calls `handle_close`. -/
structure WriteRun where
  result : ℤ
  calls : List SendCall
  closed : Bool
  deriving DecidableEq

/-- The run with one call more, before the others. -/
def WriteRun.after (c : SendCall) (w : WriteRun) : WriteRun := { w with calls := c :: w.calls }

/-- What `writen` returns behind its loop. -/
def leftCode (length : ℕ) : ℤ := if length = 0 then -1 else length

/-- `writen` of the `length` bytes at `buff`, for the outcomes of its calls of `send`: its run, and
what is left of the outcomes. There is no value if the loop is not over after these, or if a call
accepted more than it was given. -/
def writenAt (buff length : ℕ) : List SendOutcome → Option (WriteRun × List SendOutcome)
  | [] => if length > 0 then none else some (⟨leftCode length, [], false⟩, [])
  | wlen :: outcomes =>
    if length > 0 then
      match wlen with
      | .eagain => some (⟨leftCode length, [⟨buff, length, .eagain⟩], false⟩, outcomes)
      | .eintr =>
        (writenAt buff length outcomes).map fun (w, rest) => (w.after ⟨buff, length, .eintr⟩, rest)
      | .error =>
        -- there is no branch for it
        (writenAt buff length outcomes).map fun (w, rest) => (w.after ⟨buff, length, .error⟩, rest)
      | .accepted k =>
        if k > length then none
        else if k > 0 then
          (writenAt (buff + k) (length - k) outcomes).map fun (w, rest) =>
            (w.after ⟨buff, length, .accepted k⟩, rest)
        else some (⟨0, [⟨buff, length, .accepted 0⟩], true⟩, outcomes)
    else some (⟨leftCode length, [], false⟩, wlen :: outcomes)

theorem writenAt_zero (buff : ℕ) (outcomes : List SendOutcome) :
    writenAt buff 0 outcomes = some (⟨-1, [], false⟩, outcomes) := by
  cases outcomes <;> rfl

/-- A turn that does not leave the loop moves both variables by what was accepted. -/
theorem writenAt_turn {buff length : ℕ} {x : SendOutcome} (outcomes : List SendOutcome)
    (hpos : 0 < length) (hx : ¬SendLeaves x) (hsize : sendSize x ≤ length) :
    writenAt buff length (x :: outcomes) =
      (writenAt (buff + sendSize x) (length - sendSize x) outcomes).map fun p =>
        (p.1.after ⟨buff, length, x⟩, p.2) := by
  rcases x with k | _ | _ | _
  · have hne : k > 0 := Nat.pos_of_ne_zero fun h => hx (Or.inl (h ▸ rfl))
    have hle : ¬k > length := Nat.not_lt.mpr hsize
    rw [writenAt, if_pos hpos]
    simp only [if_neg hle, if_pos hne, sendSize]
  · exact absurd (Or.inr rfl) hx
  · rw [writenAt, if_pos hpos]
    rfl
  · rw [writenAt, if_pos hpos]
    rfl

theorem writenAt_eq_none_of_lt {buff length : ℕ} {x : SendOutcome} (outcomes : List SendOutcome)
    (hpos : 0 < length) (h : length < sendSize x) :
    writenAt buff length (x :: outcomes) = none := by
  rcases x with k | _ | _ | _
  · have hlt : k > length := h
    rw [writenAt, if_pos hpos]
    simp only [if_pos hlt]
  all_goals exact absurd h (Nat.not_lt_zero _)

/-- How many bytes the socket accepts in a run. -/
def WriteRun.accepted (w : WriteRun) : ℕ := total (fun c => sendSize c.outcome) w.calls

/-- **`writenAt` without its pointer is `writen`.** -/
theorem writen_eq_map_writenAt (buff length done : ℕ) (outcomes : List SendOutcome) :
    writen length done outcomes =
      (writenAt buff length outcomes).map fun p =>
        ⟨p.1.result, done + p.1.accepted, p.1.closed⟩ := by
  induction outcomes generalizing buff length done with
  | nil =>
    rcases Nat.eq_zero_or_pos length with rfl | hpos
    · rfl
    · rw [writen_isLoop.nil done hpos, writenAt, if_pos hpos, Option.map_none]
  | cons x outcomes ih =>
    rcases Nat.eq_zero_or_pos length with rfl | hpos
    · rfl
    by_cases hx : SendLeaves x
    · rcases hx with rfl | rfl
      · simp [writen, writenAt, hpos, Nat.ne_of_gt hpos, WriteRun.accepted, sendSize]
      · simp [writen, writenAt, hpos, Nat.ne_of_gt hpos, WriteRun.accepted, sendSize, leftCode]
    rcases Nat.lt_or_ge length (sendSize x) with hlt | hle
    · rw [writen_eq_none_of_lt outcomes hpos hlt, writenAt_eq_none_of_lt outcomes hpos hlt,
        Option.map_none]
    · rw [writen_turn outcomes hpos hx hle, writenAt_turn outcomes hpos hx hle,
        ih (buff + sendSize x), Option.map_map]
      congr 1
      funext p
      simp [WriteRun.accepted, WriteRun.after, Nat.add_assoc]

/-! ## What the return value means -/

/-- The last call of `send` did this. -/
def WriteRun.StoppedOn (w : WriteRun) (x : SendOutcome) : Prop :=
  (w.calls.map SendCall.outcome).getLast? = some x

instance (w : WriteRun) (x : SendOutcome) : Decidable (w.StoppedOn x) :=
  inferInstanceAs (Decidable (_ = _))

/-- What a run of `writen` on the `length` bytes at `buff` tells of the `r` bytes that the socket
did not accept. -/
structure Faithful (memory : ℕ → UInt8) (buff length : ℕ) (w : WriteRun) (r : ℕ) : Prop where
  le : r ≤ length
  /-- Every call is given the rest of the buffer, from a byte of it on. -/
  rest {c : SendCall} : c ∈ w.calls → buff ≤ c.buff ∧ 0 < c.length ∧
    c.buff + c.length = buff + length
  /-- The socket accepts the other bytes, in order and each once. -/
  bytes : w.calls.flatMap (SendCall.bytes memory) = bytesAt memory buff (length - r)
  all : w.result = -1 ↔ r = 0 ∧ w.closed = false
  again (k : ℕ) : 0 < k → (w.result = k ↔ w.StoppedOn .eagain ∧ r = k)
  close : w.result = 0 ↔ w.StoppedOn (.accepted 0) ∧ w.closed = true

theorem WriteRun.stoppedOn_after {c : SendCall} {w : WriteRun} {x : SendOutcome}
    (h : c.outcome ≠ x) : (w.after c).StoppedOn x ↔ w.StoppedOn x := by
  unfold WriteRun.StoppedOn WriteRun.after
  rw [List.map_cons]
  cases w.calls with
  | nil => simp [h]
  | cons d calls => rw [List.map_cons, List.getLast?_cons_cons]

section

variable {memory : ℕ → UInt8} {buff length r : ℕ} {w : WriteRun}

/-- A call before the others that does not leave the loop. -/
theorem Faithful.after {x : SendOutcome} (hpos : 0 < length) (hx : ¬SendLeaves x)
    (hsize : sendSize x ≤ length)
    (h : Faithful memory (buff + sendSize x) (length - sendSize x) w r) :
    Faithful memory buff length (w.after ⟨buff, length, x⟩) r := by
  have hagain : x ≠ .eagain := fun he => hx (Or.inr he)
  have hclose : x ≠ .accepted 0 := fun he => hx (Or.inl he)
  have hle := h.le
  refine ⟨by omega, ?_, ?_, h.all, ?_, ?_⟩
  · intro c hc
    rcases List.mem_cons.mp hc with rfl | hc
    · exact ⟨le_rfl, hpos, rfl⟩
    · obtain ⟨hbuff, hlength, hsum⟩ := h.rest hc
      exact ⟨by omega, hlength, by omega⟩
  · have hsum : length - r = sendSize x + (length - sendSize x - r) := by omega
    rw [hsum, bytesAt_add, ← h.bytes]
    rfl
  · intro k hk
    rw [WriteRun.stoppedOn_after hagain]
    exact h.again k hk
  · rw [WriteRun.stoppedOn_after hclose]
    exact h.close

/-- Nothing is left to send. -/
theorem faithful_of_zero {outcomes rest : List SendOutcome}
    (h : writenAt buff 0 outcomes = some (w, rest)) :
    outcomes = w.calls.map SendCall.outcome ++ rest ∧ ∃ r, Faithful memory buff 0 w r := by
  rw [writenAt_zero] at h
  obtain ⟨rfl, rfl⟩ := Prod.mk.inj (Option.some.inj h)
  refine ⟨rfl, 0, le_rfl, fun hc => absurd hc List.not_mem_nil, rfl, by simp, ?_, by simp⟩
  intro k hk
  refine iff_of_false ?_ fun h => absurd h.2 (Nat.ne_of_lt hk)
  dsimp only
  omega

/-- The socket is full. -/
theorem faithful_eagain (hpos : 0 < length) :
    Faithful memory buff length ⟨leftCode length, [⟨buff, length, .eagain⟩], false⟩ length := by
  have hcode : leftCode length = length := if_neg (Nat.ne_of_gt hpos)
  refine ⟨le_rfl, ?_, ?_, ?_, ?_, ?_⟩
  · intro c hc
    obtain rfl := List.mem_singleton.mp hc
    exact ⟨le_rfl, hpos, rfl⟩
  · simp [SendCall.bytes, sendSize, bytesAt]
  · simp only [hcode]
    omega
  · intro k _
    simp only [hcode, WriteRun.StoppedOn, List.map_cons, List.map_nil, List.getLast?_singleton,
      true_and]
    exact Int.natCast_inj
  · simp only [hcode, Bool.false_eq_true, and_false, iff_false]
    omega

/-- The peer has closed the connection. -/
theorem faithful_close (hpos : 0 < length) :
    Faithful memory buff length ⟨0, [⟨buff, length, .accepted 0⟩], true⟩ length := by
  refine ⟨le_rfl, ?_, ?_, by simp, ?_, by simp [WriteRun.StoppedOn]⟩
  · intro c hc
    obtain rfl := List.mem_singleton.mp hc
    exact ⟨le_rfl, hpos, rfl⟩
  · simp [SendCall.bytes, sendSize, bytesAt]
  · intro k hk
    refine iff_of_false ?_ (by simp [WriteRun.StoppedOn])
    dsimp only
    omega

end

/-- **The return value of `writen` is faithful**, whenever it returns: for some `r`, the socket has
accepted the bytes of the buffer but the last `r`, in order and each once; -1 says that `r` is 0
and the connection not closed, a positive number that the loop stopped on `EAGAIN` and the number is
`r`, and 0 that `send` returned 0 and `handle_close` was called. The calls are the first of the
outcomes. -/
theorem writenAt_faithful (memory : ℕ → UInt8) (buff length : ℕ) (outcomes rest : List SendOutcome)
    (w : WriteRun) (h : writenAt buff length outcomes = some (w, rest)) :
    outcomes = w.calls.map SendCall.outcome ++ rest ∧ ∃ r, Faithful memory buff length w r := by
  induction outcomes generalizing buff length w with
  | nil =>
    rcases Nat.eq_zero_or_pos length with rfl | hpos
    · exact faithful_of_zero h
    · rw [writenAt, if_pos hpos] at h
      cases h
  | cons x outcomes ih =>
    rcases Nat.eq_zero_or_pos length with rfl | hpos
    · exact faithful_of_zero h
    by_cases hx : SendLeaves x
    · rcases hx with rfl | rfl
      · simp only [writenAt, if_pos hpos, Nat.not_lt_zero, if_false, gt_iff_lt] at h
        obtain ⟨rfl, rfl⟩ := Prod.mk.inj (Option.some.inj h)
        exact ⟨rfl, length, faithful_close hpos⟩
      · simp only [writenAt, if_pos hpos] at h
        obtain ⟨rfl, rfl⟩ := Prod.mk.inj (Option.some.inj h)
        exact ⟨rfl, length, faithful_eagain hpos⟩
    rcases Nat.lt_or_ge length (sendSize x) with hlt | hle
    · rw [writenAt_eq_none_of_lt outcomes hpos hlt] at h
      cases h
    · rw [writenAt_turn outcomes hpos hx hle] at h
      obtain ⟨⟨w', rest'⟩, hrun, hw⟩ := Option.map_eq_some_iff.mp h
      obtain ⟨rfl, rfl⟩ := Prod.mk.inj hw
      obtain ⟨hcalls, r, hfaithful⟩ := ih _ _ _ hrun
      exact ⟨by rw [hcalls]; rfl, r, hfaithful.after hpos hx hle⟩

/-- Two of three bytes are accepted, one at a time, between an interruption and an error without a
branch; then the socket is full. -/
def twoOfThree : WriteRun :=
  ⟨1, [⟨5, 3, .eintr⟩, ⟨5, 3, .accepted 1⟩, ⟨6, 2, .error⟩, ⟨6, 2, .accepted 1⟩, ⟨7, 1, .eagain⟩],
    false⟩

theorem writenAt_faithful_twoOfThree :
    writenAt 5 3 [.eintr, .accepted 1, .error, .accepted 1, .eagain, .accepted 1] =
        some (twoOfThree, [.accepted 1]) ∧
      ∃ r, Faithful (fun i => UInt8.ofNat i) 5 3 twoOfThree r := by
  have hrun : writenAt 5 3 [.eintr, .accepted 1, .error, .accepted 1, .eagain, .accepted 1] =
      some (twoOfThree, [.accepted 1]) := by decide
  exact ⟨hrun, (writenAt_faithful _ _ _ _ _ _ hrun).2⟩

/-- **What `HandleWrite` makes of the return value**: it keeps the rest for `EPOLLOUT` exactly if
the loop stopped on `EAGAIN` after the socket had accepted a part. -/
theorem handleWrite_epollOut_iff {s : Session} {memory : ℕ → UInt8} {buff r : ℕ} {w : WriteRun}
    (h : Faithful memory buff s.writeLength w r) :
    (s.handleWrite w.result).epollOut = true ↔
      w.StoppedOn .eagain ∧ 0 < r ∧ r < s.writeLength := by
  have hbranch : (s.handleWrite w.result).epollOut = true ↔
      0 < w.result ∧ w.result < s.writeLength := by
    unfold Session.handleWrite
    split
    · exact iff_of_true rfl ‹_›
    · exact iff_of_false Bool.false_ne_true ‹_›
  rw [hbranch]
  constructor
  · rintro ⟨hpos, hlt⟩
    obtain ⟨k, hk⟩ := Int.eq_ofNat_of_zero_le (Int.le_of_lt hpos)
    have hkpos : 0 < k := by omega
    obtain ⟨hstop, rfl⟩ := (h.again k hkpos).mp hk
    exact ⟨hstop, hkpos, by omega⟩
  · rintro ⟨hstop, hpos, hlt⟩
    have hk : w.result = r := (h.again r hpos).mpr ⟨hstop, rfl⟩
    rw [hk]
    omega

end WebServer.Socket
