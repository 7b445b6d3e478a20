import WebServer.Handoff.Model
import WebServer.Http.WriteBuff
import WebServer.Lib.Calls

/-!
# The socket loops

The loops of `otherFun.cpp` that make a call until there is nothing more to do: `Maccept`, `readn`,
`sysreadn`, and `writen` of the module on the write buffer. Each is a function of the outcomes of
its calls, in their order; there is no value when these are not enough for the loop to be left, or
when a call moved more bytes than it was asked for. What a loop leaves of the outcomes is returned
with its result.

All four test `errno` for `EINTR` and `EAGAIN` only. Any other error has no branch, and the call is
made again: a loop that comes to a point from which on every call fails so is never left, and this
is the only way not to be left when there are finitely many interruptions and new connections
(`loops_return_iff`).
-/

namespace WebServer.Socket

open Lib Http
open Handoff (Errno)

/-! ## The loops -/

/-- What `recv` and `read` do. -/
inductive RecvOutcome
  /-- They return the number of these bytes, which is 0 at the end of the stream. -/
  | received (bytes : Bytes)
  | failed (e : Errno)
  deriving DecidableEq

/-- What `readn` and `sysreadn` do: their return value, which becomes `read_length`, the contents of
the buffer, and whether they called `handle_close`. -/
structure Read where
  readLength : ℕ
  buff : Bytes
  closed : Bool
  deriving DecidableEq

/-- Write bytes into a buffer at an offset. -/
def fill (buff : Bytes) (off : ℕ) (bytes : Bytes) : Bytes :=
  buff.take off ++ bytes ++ buff.drop (off + bytes.length)

/-- The loop of `readn` and of `sysreadn`: `length` bytes of the buffer are left, from `readLen` on.
At the end of the stream only `readn` calls `handle_close`. -/
def readLoop (closes : Bool) (buff : Bytes) (readLen length : ℕ) :
    List RecvOutcome → Option (Read × List RecvOutcome)
  | [] => if length = 0 then some (⟨readLen, buff, false⟩, []) else none
  | outcome :: outcomes =>
    if length = 0 then some (⟨readLen, buff, false⟩, outcome :: outcomes)
    else
      match outcome with
      | .failed .eagain => some (⟨readLen, buff, false⟩, outcomes)
      | .failed .eintr => readLoop closes buff readLen length outcomes
      | .failed .other => readLoop closes buff readLen length outcomes
      | .received bytes =>
        if bytes = [] then some (⟨0, buff, closes⟩, outcomes)
        else if bytes.length ≤ length then
          readLoop closes (fill buff readLen bytes) (readLen + bytes.length)
            (length - bytes.length) outcomes
        else none

/-- `readn` into a buffer of `length` bytes. -/
def readn (length : ℕ) (outcomes : List RecvOutcome) : Option (Read × List RecvOutcome) :=
  readLoop true (List.replicate length 0) 0 length outcomes

/-- `sysreadn` into a buffer of `length` bytes. -/
def sysreadn (length : ℕ) (outcomes : List RecvOutcome) : Option (Read × List RecvOutcome) :=
  readLoop false (List.replicate length 0) 0 length outcomes

/-- What `accept` does. -/
inductive AcceptOutcome
  /-- It returns a descriptor; `errno` is left as an earlier call set it. -/
  | accepted (connfd : ℕ) (errno : Errno)
  | failed (e : Errno)
  deriving DecidableEq

/-- `Maccept`, which returns -1: the descriptors it has handed on, and what is left of the
outcomes. -/
def maccept (handed : List ℕ) : List AcceptOutcome → Option (List ℕ × List AcceptOutcome)
  | [] => none
  | .accepted connfd errno :: outcomes =>
    if connfd > 0 then maccept (handed ++ [connfd]) outcomes
    else
      -- descriptor 0 is taken for a failure
      match errno with
      | .eintr => maccept handed outcomes
      | .eagain => some (handed, outcomes)
      | .other => maccept handed outcomes
  | .failed e :: outcomes =>
    match e with
    | .eintr => maccept handed outcomes
    | .eagain => some (handed, outcomes)
    | .other => maccept handed outcomes

/-! ## What an outcome does to a loop -/

/-- The bytes received. -/
def RecvOutcome.bytes : RecvOutcome → Bytes
  | .received bytes => bytes
  | .failed _ => []

/-- How many bytes were received. -/
def RecvOutcome.size (x : RecvOutcome) : ℕ := x.bytes.length

/-- Outcomes that end a loop: the end of the stream, and `EAGAIN`. -/
def RecvOutcome.Leaves (x : RecvOutcome) : Prop := x = .received [] ∨ x = .failed .eagain

/-- How many bytes were accepted. -/
def sendSize : SendOutcome → ℕ
  | .accepted k => k
  | .eagain => 0
  | .eintr => 0
  | .error => 0

/-- Outcomes that end the loop of `writen`. -/
def SendLeaves (x : SendOutcome) : Prop := x = .accepted 0 ∨ x = .eagain

/-- Outcomes that end the loop of `Maccept`: no positive number, and `errno` is `EAGAIN`. -/
def AcceptOutcome.Leaves (x : AcceptOutcome) : Prop :=
  x = .failed .eagain ∨ x = .accepted 0 .eagain

instance (x : RecvOutcome) : Decidable x.Leaves := inferInstanceAs (Decidable (_ ∨ _))

instance (x : SendOutcome) : Decidable (SendLeaves x) := inferInstanceAs (Decidable (_ ∨ _))

instance (x : AcceptOutcome) : Decidable x.Leaves := inferInstanceAs (Decidable (_ ∨ _))

/-- A turn of `readn` and `sysreadn` that does not leave the loop. -/
theorem readLoop_turn {closes : Bool} {buff : Bytes} {readLen length : ℕ} {x : RecvOutcome}
    (outcomes : List RecvOutcome) (hpos : 0 < length) (hx : ¬x.Leaves) (hsize : x.size ≤ length) :
    readLoop closes buff readLen length (x :: outcomes) =
      readLoop closes (fill buff readLen x.bytes) (readLen + x.size) (length - x.size)
        outcomes := by
  have h0 : length ≠ 0 := Nat.ne_of_gt hpos
  have hnothing : fill buff readLen [] = buff := by simp [fill]
  rcases x with bytes | _ | _ | _
  · have hne : bytes ≠ [] := by
      rintro rfl
      exact hx (Or.inl rfl)
    have hle : bytes.length ≤ length := hsize
    rw [readLoop, if_neg h0, if_neg hne, if_pos hle]
    rfl
  · rw [readLoop, if_neg h0]
    simp [RecvOutcome.size, RecvOutcome.bytes, hnothing]
  · exact absurd (Or.inr rfl) hx
  · rw [readLoop, if_neg h0]
    simp [RecvOutcome.size, RecvOutcome.bytes, hnothing]

/-- A call that moved more than it was asked for. -/
theorem readLoop_eq_none_of_lt {closes : Bool} {buff : Bytes} {readLen length : ℕ}
    {x : RecvOutcome} (outcomes : List RecvOutcome) (hpos : 0 < length) (h : length < x.size) :
    readLoop closes buff readLen length (x :: outcomes) = none := by
  rcases x with bytes | e
  · have hlt : length < bytes.length := h
    have hne : bytes ≠ [] := List.ne_nil_of_length_pos (by omega)
    rw [readLoop, if_neg (Nat.ne_of_gt hpos), if_neg hne, if_neg (Nat.not_le_of_gt hlt)]
  · exact absurd h (Nat.not_lt_zero _)

theorem readLoop_isLoop (closes : Bool) :
    IsLoop (fun length (s : Bytes × ℕ) => readLoop closes s.1 s.2 length) RecvOutcome.size
      RecvOutcome.Leaves where
  zero s outcomes := by cases outcomes <;> simp [readLoop]
  nil s hpos := by simp [readLoop, Nat.ne_of_gt hpos]
  leave s outcomes hpos hx := by
    rcases hx with rfl | rfl <;> simp [readLoop, Nat.ne_of_gt hpos]
  turn s outcomes hpos hx hsize := ⟨⟨_, _⟩, readLoop_turn outcomes hpos hx hsize⟩

section

variable {length : ℕ} {outcomes : List RecvOutcome}

/-- `readn` is not over as long as its loop goes on. -/
theorem readn_eq_none_iff (h : Bounded RecvOutcome.size RecvOutcome.Leaves length outcomes) :
    readn length outcomes = none ↔ Goes RecvOutcome.size RecvOutcome.Leaves length outcomes :=
  (readLoop_isLoop true).eq_none_iff h (List.replicate length 0, 0)

@[inherit_doc readn_eq_none_iff]
theorem sysreadn_eq_none_iff (h : Bounded RecvOutcome.size RecvOutcome.Leaves length outcomes) :
    sysreadn length outcomes = none ↔ Goes RecvOutcome.size RecvOutcome.Leaves length outcomes :=
  (readLoop_isLoop false).eq_none_iff h (List.replicate length 0, 0)

end

/-- A turn of `Maccept` that does not leave the loop. -/
theorem maccept_turn {x : AcceptOutcome} (handed : List ℕ) (outcomes : List AcceptOutcome)
    (hx : ¬x.Leaves) :
    ∃ handed', maccept handed (x :: outcomes) = maccept handed' outcomes := by
  rcases x with ⟨connfd, errno⟩ | e
  · by_cases hfd : connfd > 0
    · exact ⟨handed ++ [connfd], by cases errno <;> simp [maccept, hfd]⟩
    · obtain rfl : connfd = 0 := by omega
      cases errno with
      | eagain => exact absurd (Or.inr rfl) hx
      | eintr => exact ⟨handed, rfl⟩
      | other => exact ⟨handed, rfl⟩
  · cases e with
    | eagain => exact absurd (Or.inl rfl) hx
    | eintr => exact ⟨handed, rfl⟩
    | other => exact ⟨handed, rfl⟩

theorem maccept_leave {x : AcceptOutcome} (handed : List ℕ) (outcomes : List AcceptOutcome)
    (hx : x.Leaves) : maccept handed (x :: outcomes) = some (handed, outcomes) := by
  rcases hx with rfl | rfl <;> rfl

/-- `Maccept` is not over as long as no outcome ends its loop. -/
theorem maccept_eq_none_iff {handed : List ℕ} {outcomes : List AcceptOutcome} :
    maccept handed outcomes = none ↔ ∀ x ∈ outcomes, ¬x.Leaves := by
  induction outcomes generalizing handed with
  | nil => simp [maccept]
  | cons x outcomes ih =>
    rw [List.forall_mem_cons]
    by_cases hx : x.Leaves
    · simp [maccept_leave handed outcomes hx, hx]
    · obtain ⟨handed', hturn⟩ := maccept_turn handed outcomes hx
      rw [hturn, and_iff_right hx]
      exact ih

/-- A turn of `writen` that does not leave the loop. -/
theorem writen_turn {length done : ℕ} {x : SendOutcome} (outcomes : List SendOutcome)
    (hpos : 0 < length) (hx : ¬SendLeaves x) (hsize : sendSize x ≤ length) :
    writen length done (x :: outcomes) =
      writen (length - sendSize x) (done + sendSize x) outcomes := by
  have h0 : length ≠ 0 := Nat.ne_of_gt hpos
  rcases x with k | _ | _ | _
  · have hne : k ≠ 0 := by
      rintro rfl
      exact hx (Or.inl rfl)
    have hle : k ≤ length := hsize
    rw [writen, if_neg h0, if_neg hne, if_pos hle]
    rfl
  · exact absurd (Or.inr rfl) hx
  · rw [writen, if_neg h0]
    rfl
  · rw [writen, if_neg h0]
    rfl

theorem writen_eq_none_of_lt {length done : ℕ} {x : SendOutcome} (outcomes : List SendOutcome)
    (hpos : 0 < length) (h : length < sendSize x) : writen length done (x :: outcomes) = none := by
  rcases x with k | _ | _ | _
  · have hlt : length < k := h
    have hne : k ≠ 0 := by omega
    rw [writen, if_neg (Nat.ne_of_gt hpos), if_neg hne, if_neg (Nat.not_le_of_gt hlt)]
  all_goals exact absurd h (Nat.not_lt_zero _)

theorem writen_isLoop : IsLoop writen sendSize SendLeaves where
  zero done outcomes := by cases outcomes <;> simp [writen]
  nil done hpos := by simp [writen, Nat.ne_of_gt hpos]
  leave done outcomes hpos hx := by
    rcases hx with rfl | rfl <;> simp [writen, Nat.ne_of_gt hpos]
  turn done outcomes hpos hx hsize := ⟨_, writen_turn outcomes hpos hx hsize⟩

/-- An outcome that is no interruption ends the loop, or has bytes, or is an error without a
branch. -/
theorem RecvOutcome.cases (x : RecvOutcome) (hx : x ≠ .failed .eintr) :
    x.Leaves ∨ 0 < x.size ∨ x = .failed .other := by
  rcases x with bytes | _ | _ | _
  · rcases bytes with _ | ⟨b, bytes⟩
    · exact Or.inl (Or.inl rfl)
    · exact Or.inr (Or.inl (Nat.succ_pos _))
  · exact absurd rfl hx
  · exact Or.inl (Or.inr rfl)
  · exact Or.inr (Or.inr rfl)

@[inherit_doc RecvOutcome.cases]
theorem sendOutcome_cases (x : SendOutcome) (hx : x ≠ .eintr) :
    SendLeaves x ∨ 0 < sendSize x ∨ x = .error := by
  rcases x with k | _ | _ | _
  · rcases k with _ | k
    · exact Or.inl (Or.inl rfl)
    · exact Or.inr (Or.inl (Nat.succ_pos _))
  · exact Or.inl (Or.inr rfl)
  · exact absurd rfl hx
  · exact Or.inr (Or.inr rfl)

/-! ## Streams of outcomes -/

/-- A loop returns on a stream of outcomes: some first calls are enough for it. -/
def Returns {ο ρ : Type*} (f : List ο → Option ρ) (o : ℕ → ο) : Prop :=
  ∃ n, (f (firstCalls o n)).isSome

/-- Only finitely many outcomes have a property. -/
def FinitelyMany {ο : Type*} (P : ο → Prop) (o : ℕ → ο) : Prop := ∃ N, ∀ n ≥ N, ¬P (o n)

/-- A loop goes on to a point from which on all outcomes are `hard`. -/
def Spins {ο : Type*} (size : ο → ℕ) (leaves : ο → Prop) (length : ℕ) (hard : ο) (o : ℕ → ο) :
    Prop :=
  ∃ N, Goes size leaves length (firstCalls o N) ∧ ∀ n ≥ N, o n = hard

/-- A new connection. -/
def AcceptOutcome.IsAccepted (x : AcceptOutcome) : Prop :=
  ∃ connfd errno, x = .accepted connfd errno

/-- A loop that is over when it does not go on returns exactly if it does not come to a point from
which on all outcomes are `hard`. -/
theorem returns_iff_not_spins {ο ρ : Type*} {f : List ο → Option ρ} {size : ο → ℕ}
    {leaves : ο → Prop} {length : ℕ} {hard : ο} {o : ℕ → ο}
    (hf : ∀ n, f (firstCalls o n) = none ↔ Goes size leaves length (firstCalls o n))
    (hhard : ¬leaves hard ∧ size hard = 0)
    (hev : ∃ N, ∀ n ≥ N, leaves (o n) ∨ 0 < size (o n) ∨ o n = hard) :
    Returns f o ↔ ¬Spins size leaves length hard o := by
  have hi : ∀ x, x = hard → ¬leaves x ∧ size x = 0 := by
    rintro x rfl
    exact hhard
  rw [Spins, ← exists_not_goes_iff hi hev, Returns]
  refine exists_congr fun n => ?_
  rw [← hf n, ← ne_eq, Option.isSome_iff_ne_none]

/-- **Which loops return.** For streams of outcomes with finitely many interruptions, and for
`Maccept` finitely many new connections: `Maccept`, `readn`, `sysreadn` and `writen` return exactly
if they do not come to a point from which on every call fails with an error that is neither `EAGAIN`
nor `EINTR`. -/
theorem loops_return_iff (length : ℕ) (accepts : ℕ → AcceptOutcome) (recvs reads : ℕ → RecvOutcome)
    (sends : ℕ → SendOutcome)
    (haccept : FinitelyMany (· = .failed .eintr) accepts)
    (hnew : FinitelyMany AcceptOutcome.IsAccepted accepts)
    (hrecv : FinitelyMany (· = .failed .eintr) recvs)
    (hrecv' : ∀ n, Bounded RecvOutcome.size RecvOutcome.Leaves length (firstCalls recvs n))
    (hread : FinitelyMany (· = .failed .eintr) reads)
    (hread' : ∀ n, Bounded RecvOutcome.size RecvOutcome.Leaves length (firstCalls reads n))
    (hsend : FinitelyMany (· = .eintr) sends)
    (hsend' : ∀ n, Bounded sendSize SendLeaves length (firstCalls sends n)) :
    (Returns (maccept []) accepts ↔
      ¬∃ N, (∀ n < N, ¬(accepts n).Leaves) ∧ ∀ n ≥ N, accepts n = .failed .other) ∧
    (Returns (readn length) recvs ↔
      ¬Spins RecvOutcome.size RecvOutcome.Leaves length (.failed .other) recvs) ∧
    (Returns (sysreadn length) reads ↔
      ¬Spins RecvOutcome.size RecvOutcome.Leaves length (.failed .other) reads) ∧
    (Returns (writen length 0) sends ↔ ¬Spins sendSize SendLeaves length .error sends) := by
  refine ⟨?_, ?_, ?_, ?_⟩
  · have hspins : Spins (fun _ => 0) AcceptOutcome.Leaves 1 (.failed .other) accepts ↔
        ∃ N, (∀ n < N, ¬(accepts n).Leaves) ∧ ∀ n ≥ N, accepts n = .failed .other := by
      refine exists_congr fun N => and_congr_left fun _ => ?_
      rw [goes_zero_iff]
      simp [mem_firstCalls]
    rw [← hspins]
    refine returns_iff_not_spins (fun n => ?_) (by decide) ?_
    · rw [maccept_eq_none_iff, goes_zero_iff]
    · obtain ⟨N, hN⟩ := haccept
      obtain ⟨M, hM⟩ := hnew
      refine ⟨max N M, fun n hn => ?_⟩
      have h₁ := hN n (le_trans (le_max_left N M) hn)
      have h₂ := hM n (le_trans (le_max_right N M) hn)
      rcases hx : accepts n with ⟨connfd, errno⟩ | _ | _ | _
      · exact absurd ⟨connfd, errno, hx⟩ h₂
      · exact absurd hx h₁
      · exact Or.inl (Or.inl rfl)
      · exact Or.inr (Or.inr rfl)
  · obtain ⟨N, hN⟩ := hrecv
    exact returns_iff_not_spins (fun n => readn_eq_none_iff (hrecv' n)) (by decide)
      ⟨N, fun n hn => (recvs n).cases (hN n hn)⟩
  · obtain ⟨N, hN⟩ := hread
    exact returns_iff_not_spins (fun n => sysreadn_eq_none_iff (hread' n)) (by decide)
      ⟨N, fun n hn => (reads n).cases (hN n hn)⟩
  · obtain ⟨N, hN⟩ := hsend
    exact returns_iff_not_spins (fun n => writen_isLoop.eq_none_iff (hsend' n) 0) (by decide)
      ⟨N, fun n hn => sendOutcome_cases (sends n) (hN n hn)⟩

/-- Two outcomes, and then always the same. -/
def twoThen {ο : Type*} (x y z : ο) : ℕ → ο
  | 0 => x
  | 1 => y
  | _ => z

theorem bounded_twoThen {ο : Type*} {size : ο → ℕ} {leaves : ο → Prop} {x y z : ο} {length : ℕ}
    (hz : leaves z) (h : size x + size y ≤ length) (n : ℕ) :
    Bounded size leaves length (firstCalls (twoThen x y z) n) := by
  rcases n with _ | _ | _ | n
  · trivial
  · exact Or.inr (Or.inr ⟨by simp only [twoThen]; omega, trivial⟩)
  · exact Or.inr (Or.inr ⟨by simp only [twoThen]; omega,
      Or.inr (Or.inr ⟨by simp only [twoThen]; omega, trivial⟩)⟩)
  · rw [firstCalls_succ_eq_cons, firstCalls_succ_eq_cons, firstCalls_succ_eq_cons]
    exact Or.inr (Or.inr ⟨by simp only [twoThen]; omega,
      Or.inr (Or.inr ⟨by simp only [twoThen]; omega, Or.inr (Or.inl hz)⟩)⟩)

/-- An error without a branch, a success, and then `EAGAIN`. -/
theorem loops_return_iff_again :
    Returns (maccept []) (twoThen (.failed .other) (.accepted 5 .other) (.failed .eagain)) ∧
      Returns (readn 2) (twoThen (.failed .other) (.received [65]) (.failed .eagain)) ∧
      Returns (sysreadn 2) (twoThen (.failed .other) (.received [65]) (.failed .eagain)) ∧
      Returns (writen 2 0) (twoThen .error (.accepted 1) .eagain) := by
  have hfin : ∀ {ο : Type} {P : ο → Prop} {x y z : ο}, ¬P z → FinitelyMany P (twoThen x y z) :=
    fun hz => ⟨2, fun n hn => by
      obtain ⟨k, rfl⟩ := Nat.exists_eq_add_of_le' hn
      exact hz⟩
  have hlate : ∀ {ο : Type} {x y z w : ο} {N : ℕ}, (∀ n ≥ N, twoThen x y z n = w) → z = w :=
    fun {_ _ _ z _ N} h => h (N + 2) (by omega)
  have hbounded : ∀ n, Bounded RecvOutcome.size RecvOutcome.Leaves 2
      (firstCalls (twoThen (.failed .other) (.received [65]) (.failed .eagain)) n) :=
    bounded_twoThen (by decide) (by decide)
  have hnew : FinitelyMany AcceptOutcome.IsAccepted
      (twoThen (.failed .other) (.accepted 5 .other) (.failed .eagain)) := by
    apply hfin
    rintro ⟨connfd, errno, h⟩
    cases h
  obtain ⟨h₁, h₂, h₃, h₄⟩ := loops_return_iff 2
    (twoThen (.failed .other) (.accepted 5 .other) (.failed .eagain))
    (twoThen (.failed .other) (.received [65]) (.failed .eagain))
    (twoThen (.failed .other) (.received [65]) (.failed .eagain))
    (twoThen .error (.accepted 1) .eagain) (hfin (by decide)) hnew (hfin (by decide)) hbounded
    (hfin (by decide)) hbounded (hfin (by decide)) (bounded_twoThen (by decide) (by decide))
  refine ⟨h₁.mpr ?_, h₂.mpr ?_, h₃.mpr ?_, h₄.mpr ?_⟩
  · rintro ⟨N, -, hN⟩
    cases hlate hN
  · rintro ⟨N, -, hN⟩
    cases hlate hN
  · rintro ⟨N, -, hN⟩
    cases hlate hN
  · rintro ⟨N, -, hN⟩
    cases hlate hN

/-- `EMFILE` from every `accept`, `ECONNRESET` from every `recv` and `read`, `EPIPE` from every
`send`. -/
theorem hard_errors_spin :
    (FinitelyMany (· = .failed .eintr) (fun _ => AcceptOutcome.failed .other) ∧
      FinitelyMany AcceptOutcome.IsAccepted (fun _ => AcceptOutcome.failed .other) ∧
      ¬Returns (maccept []) fun _ => .failed .other) ∧
    (FinitelyMany (· = .failed .eintr) (fun _ => RecvOutcome.failed .other) ∧
      (∀ n, Bounded RecvOutcome.size RecvOutcome.Leaves 4096
        (firstCalls (fun _ => .failed .other) n)) ∧
      ¬Returns (readn 4096) (fun _ => .failed .other) ∧
      ¬Returns (sysreadn 4096) fun _ => .failed .other) ∧
    FinitelyMany (· = .eintr) (fun _ => SendOutcome.error) ∧
      (∀ n, Bounded sendSize SendLeaves 1 (firstCalls (fun _ => .error) n)) ∧
      ¬Returns (writen 1 0) fun _ => .error := by
  have hfin : ∀ {ο : Type} {P : ο → Prop} {x : ο}, ¬P x → FinitelyMany P fun _ => x :=
    fun hx => ⟨0, fun _ _ => hx⟩
  have hnone : ∀ {ο ρ : Type} {f : List ο → Option ρ} {x : ο},
      (∀ n, f (firstCalls (fun _ => x) n) = none) → ¬Returns f fun _ => x := by
    rintro ο ρ f x hf ⟨n, hn⟩
    rw [hf n] at hn
    cases hn
  have hrecv : ∀ n, Bounded RecvOutcome.size RecvOutcome.Leaves 4096
      (firstCalls (fun _ => .failed .other) n) := bounded_const rfl
  have hsend : ∀ n, Bounded sendSize SendLeaves 1 (firstCalls (fun _ => .error) n) :=
    bounded_const rfl
  have hgoes : ∀ n, Goes RecvOutcome.size RecvOutcome.Leaves 4096
      (firstCalls (fun _ => .failed .other) n) := goes_const rfl (by decide) (by decide)
  have hgoes' : ∀ n, Goes sendSize SendLeaves 1 (firstCalls (fun _ => .error) n) :=
    goes_const rfl (by decide) (by decide)
  refine ⟨⟨hfin (by decide), hfin ?_, hnone fun n => ?_⟩, ⟨hfin (by decide), hrecv,
    hnone fun n => (readn_eq_none_iff (hrecv n)).mpr (hgoes n),
    hnone fun n => (sysreadn_eq_none_iff (hrecv n)).mpr (hgoes n)⟩, hfin (by decide), hsend,
    hnone fun n => (writen_isLoop.eq_none_iff (hsend n) 0).mpr (hgoes' n)⟩
  · rintro ⟨connfd, errno, h⟩
    cases h
  · rw [maccept_eq_none_iff]
    intro x hx
    obtain ⟨k, -, rfl⟩ := mem_firstCalls.mp hx
    decide

end WebServer.Socket
