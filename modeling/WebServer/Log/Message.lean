import WebServer.Handoff.Model
import WebServer.Lib.Checked
import WebServer.Log.Record

/-!
# Messages in their arrays

A `LogMessage` with its two counters of type `int` and the 2048 bytes that its constructor
allocates. `Append` is written here with every addition and every store checked; the module on
records has it without.

As long as no piece is within 2048 bytes of the largest `int`, nothing overflows and no store falls
behind the array:

* `greedy_of_calls`: the message is the greedy concatenation of the pieces.
* `record_of_run`: the array that these calls leave is that of a record, so that what is shown of
  records holds of the checked `Append`.
-/

namespace WebServer.Log

open Http (Bytes str cStr bytesAt)
open Handoff (toInt toInt_of_lt)
open Lib

/-! ## `Append` -/

/-- A `LogMessage` and its array. -/
structure Message where
  cur : ℤ
  length : ℤ
  message : Fin maxLength → UInt8

/-- `LogMessage()`; the array is not initialised. -/
def Message.new (memory : Fin maxLength → UInt8) : Message := ⟨0, 0, memory⟩

/-- `Append(buff, _length)`, where `buff` points to some bytes, `none` being the null pointer. -/
def Message.append (m : Message) (buff : Option Bytes) (_length : ℤ) : Option Message :=
  match buff with
  | none => some m
  | some bytes => do
    let sum ← addInt _length m.length
    if sum ≥ maxLength then some m
    else do
      let length ← addInt m.length _length
      let (message, cur) ← storeAll m.message m.cur (bytes.take _length.toNat)
      let message ← store message cur 0
      some ⟨cur, length, message⟩

/-- A call of `Append`, directly or by one of the operators. -/
inductive Call
  | append (buff : Option Bytes)
  | put (piece : Piece)

/-- What it appends. -/
def Call.buff (stale : Bytes → Bytes) : Call → Option Bytes
  | .append buff => buff
  | .put piece => some (piece.bytes stale)

/-- How long this is: what `strlen` and `length` return. -/
def Call.size (stale : Bytes → Bytes) (c : Call) : ℕ := ((c.buff stale).getD []).length

theorem Call.size_put (stale : Bytes → Bytes) (piece : Piece) :
    (Call.put piece).size stale = (piece.bytes stale).length := rfl

/-- The call; the length is converted to `int`. -/
def Message.call (stale : Bytes → Bytes) (m : Message) (c : Call) : Option Message :=
  m.append (c.buff stale) (toInt (c.size stale))

/-- Calls one after another. -/
def Message.run (stale : Bytes → Bytes) (m : Message) (calls : List Call) : Option Message :=
  calls.foldlM (Message.call stale) m

/-! ## The same without checks -/

/-- The message that the module on records makes of it. -/
structure Represents (m : Message) (unchecked : LogMessage) : Prop where
  cur : m.cur = unchecked.cur
  length : m.length = unchecked.length
  message (i : Fin maxLength) : m.message i = unchecked.message i

/-- A message with some pieces accepted; the terminator is there after the first of them. -/
structure Filled (m : LogMessage) (accepted : List Bytes) : Prop where
  cur_eq : m.cur = accepted.flatten.length
  length_eq : m.length = accepted.flatten.length
  length_lt : accepted.flatten.length < maxLength
  bytes : bytesAt m.message 0 accepted.flatten.length = accepted.flatten
  nul : accepted ≠ [] → m.message accepted.flatten.length = 0

section

variable {stale : Bytes → Bytes} {m : Message} {unchecked : LogMessage} {accepted : List Bytes}

/-- A piece that fits is accepted. -/
theorem Filled.append {bytes : Bytes} (h : Filled unchecked accepted)
    (hfit : bytes.length + accepted.flatten.length < maxLength) :
    Filled (unchecked.append (some bytes)) (accepted ++ [bytes]) := by
  have hflat : (accepted ++ [bytes]).flatten = accepted.flatten ++ bytes := by simp
  obtain ⟨hcur, hlength, hlt, hbytes, hnul⟩ := append_contains h.cur_eq h.length_eq h.bytes hfit
  constructor
  · rw [hflat, hcur]
  · rw [hflat, hlength]
  · rw [hflat]
    exact hlt
  · rw [hflat]
    exact hbytes
  · intro _
    rw [hflat]
    exact hnul

/-- The checked `Append` of a piece that fits. -/
theorem append_represents {bytes : Bytes} (hr : Represents m unchecked)
    (h : Filled unchecked accepted) (hfit : bytes.length + accepted.flatten.length < maxLength) :
    ∃ m', m.append (some bytes) bytes.length = some m' ∧
      Represents m' (unchecked.append (some bytes)) := by
  have hsmall : maxLength < 2 ^ 31 := by decide
  have hcur : m.cur = (accepted.flatten.length : ℕ) := by rw [hr.cur, h.cur_eq]
  have hlength : m.length = (accepted.flatten.length : ℕ) := by rw [hr.length, h.length_eq]
  have hsum : addInt bytes.length m.length =
      some ((bytes.length + accepted.flatten.length : ℕ) : ℤ) := by
    rw [hlength]
    exact addInt_eq (by omega) (by omega)
  have hsum' : addInt m.length bytes.length =
      some ((accepted.flatten.length + bytes.length : ℕ) : ℤ) := by
    rw [hlength]
    exact addInt_eq (by omega) (by omega)
  have hbranch : ¬((bytes.length + accepted.flatten.length : ℕ) : ℤ) ≥ maxLength := by omega
  have hbranch' : ¬bytes.length + unchecked.length ≥ maxLength := by
    rw [h.length_eq]
    omega
  have hcopy := storeAll_eq (k := accepted.flatten.length) m.message bytes (by omega) hsmall
  have hnul := store_eq (k := accepted.flatten.length + bytes.length)
    (overwrite m.message accepted.flatten.length bytes) 0 (by omega)
  simp only [Message.append, hsum, hsum', hcur, Int.toNat_natCast, List.take_length, hcopy, hnul,
    Option.bind_eq_bind, Option.bind_some, if_neg hbranch]
  refine ⟨_, rfl, ?_⟩
  simp only [LogMessage.append, if_neg hbranch']
  refine ⟨by rw [h.cur_eq], by rw [h.length_eq], fun i => ?_⟩
  rw [h.cur_eq]
  exact (update_overwrite m.message bytes 0 _ i).trans (by rw [hr.message i])

/-- A piece that does not fit changes nothing. -/
theorem append_rejected {bytes : Bytes} (hr : Represents m unchecked)
    (h : Filled unchecked accepted) (hsize : bytes.length < 2 ^ 31 - maxLength)
    (hfit : maxLength ≤ bytes.length + accepted.flatten.length) :
    m.append (some bytes) bytes.length = some m := by
  have hlt := h.length_lt
  have hsmall : maxLength < 2 ^ 31 := by decide
  have hsum : addInt bytes.length m.length =
      some ((bytes.length + accepted.flatten.length : ℕ) : ℤ) := by
    rw [hr.length, h.length_eq]
    exact addInt_eq (by omega) (by omega)
  have hbranch : ((bytes.length + accepted.flatten.length : ℕ) : ℤ) ≥ maxLength := by omega
  simp only [Message.append, hsum, Option.bind_eq_bind, Option.bind_some, if_pos hbranch]

/-- The message without checks is not changed either. -/
theorem Filled.append_eq_self {bytes : Bytes} (h : Filled unchecked accepted)
    (hfit : maxLength ≤ bytes.length + accepted.flatten.length) :
    unchecked.append (some bytes) = unchecked := by
  have hbranch : bytes.length + unchecked.length ≥ maxLength := by
    rw [h.length_eq]
    exact hfit
  simp only [LogMessage.append, if_pos hbranch]

/-! ## Calls one after another -/

theorem call_none {c : Call} (hc : c.buff stale = none) : m.call stale c = some m := by
  rw [Message.call, hc]
  rfl

theorem call_some {c : Call} {bytes : Bytes} (hc : c.buff stale = some bytes)
    (hsize : c.size stale < 2 ^ 31 - maxLength) :
    bytes.length < 2 ^ 31 - maxLength ∧ m.call stale c = m.append (some bytes) bytes.length := by
  have hbytes : c.size stale = bytes.length := by rw [Call.size, hc, Option.getD_some]
  rw [hbytes] at hsize
  refine ⟨hsize, ?_⟩
  rw [Message.call, hc, hbytes, toInt_of_lt (by omega)]
  rfl

/-- A call that is rejected: of the null pointer, or of a piece that does not fit. -/
def Rejected (stale : Bytes → Bytes) (accepted : List Bytes) (c : Call) : Prop :=
  ∀ bytes, c.buff stale = some bytes → maxLength ≤ bytes.length + accepted.flatten.length

theorem call_rejected {c : Call} (hr : Represents m unchecked) (h : Filled unchecked accepted)
    (hsize : c.size stale < 2 ^ 31 - maxLength) (hc : Rejected stale accepted c) :
    m.call stale c = some m := by
  cases hbuff : c.buff stale with
  | none => exact call_none hbuff
  | some bytes =>
    obtain ⟨hsize, hcall⟩ := call_some hbuff hsize
    rw [hcall]
    exact append_rejected hr h hsize (hc bytes hbuff)

/-- The pieces of some calls. -/
def pieces (stale : Bytes → Bytes) (calls : List Call) : List Bytes :=
  calls.filterMap (Call.buff stale)

/-- The calls without checks. -/
def LogMessage.run (stale : Bytes → Bytes) (unchecked : LogMessage) (calls : List Call) :
    LogMessage :=
  calls.foldl (fun unchecked c => unchecked.append (c.buff stale)) unchecked

/-- **A run with checks returns, and is the run without them**; the pieces that fit when they come
are accepted. -/
theorem run_represents {calls : List Call} (hr : Represents m unchecked)
    (h : Filled unchecked accepted) (hsize : ∀ c ∈ calls, c.size stale < 2 ^ 31 - maxLength) :
    ∃ m', m.run stale calls = some m' ∧ Represents m' (unchecked.run stale calls) ∧
      Filled (unchecked.run stale calls)
        (accepted ++ taken maxLength accepted.flatten.length (pieces stale calls)) := by
  induction calls generalizing m unchecked accepted with
  | nil => exact ⟨m, rfl, hr, by simpa [taken, pieces, LogMessage.run] using h⟩
  | cons c calls ih =>
    obtain ⟨hc, hcalls⟩ := List.forall_mem_cons.mp hsize
    cases hbuff : c.buff stale with
    | none =>
      obtain ⟨m', hrun, hr', hfilled⟩ := ih hr h hcalls
      refine ⟨m', ?_, ?_⟩
      · rw [Message.run, List.foldlM_cons, call_none hbuff]
        exact hrun
      · rw [LogMessage.run, List.foldl_cons, pieces, List.filterMap_cons_none hbuff, hbuff]
        exact ⟨hr', hfilled⟩
    | some bytes =>
      obtain ⟨hbytes, hcall⟩ := call_some (m := m) hbuff hc
      rw [Message.run, List.foldlM_cons, hcall, LogMessage.run, List.foldl_cons, pieces,
        List.filterMap_cons_some hbuff, hbuff]
      rcases Nat.lt_or_ge (bytes.length + accepted.flatten.length) maxLength with hfit | hfit
      · obtain ⟨m₁, hm₁, hr₁⟩ := append_represents hr h hfit
        obtain ⟨m', hrun, hr', hfilled⟩ := ih hr₁ (h.append hfit) hcalls
        refine ⟨m', ?_, hr', ?_⟩
        · rw [hm₁]
          exact hrun
        · have hlength : (accepted ++ [bytes]).flatten.length =
              accepted.flatten.length + bytes.length := by simp
          rw [taken_cons_of_lt hfit, ← hlength, List.append_cons]
          exact hfilled
      · obtain ⟨m', hrun, hr', hfilled⟩ := ih hr h hcalls
        rw [append_rejected hr h hbytes hfit, h.append_eq_self hfit, taken_cons_of_le hfit]
        exact ⟨m', hrun, hr', hfilled⟩

end

/-- The array where no message is yet, as bytes at all indices. -/
def extend (memory : Fin maxLength → UInt8) : ℕ → UInt8 := fun i =>
  if h : i < maxLength then memory ⟨i, h⟩ else 0

theorem new_represents (memory : Fin maxLength → UInt8) :
    Represents (.new memory) (.new (extend memory)) := by
  refine ⟨rfl, rfl, fun i => ?_⟩
  simp [Message.new, LogMessage.new, extend]

theorem new_filled (memory : ℕ → UInt8) : Filled (.new memory) [] :=
  ⟨rfl, rfl, by decide, rfl, fun h => absurd rfl h⟩

/-- A message is the greedy concatenation of some pieces: both counters are its length, below 2048,
its first bytes are the pieces in their order, and behind them is a NUL once there is a piece. -/
structure Greedy (m : Message) (accepted : List Bytes) : Prop where
  cur_eq : m.cur = accepted.flatten.length
  length_eq : m.length = accepted.flatten.length
  length_lt : m.length < maxLength
  bytes : (List.ofFn m.message).take accepted.flatten.length = accepted.flatten
  nul : accepted ≠ [] → (List.ofFn m.message)[accepted.flatten.length]? = some 0

theorem Represents.array {m : Message} {unchecked : LogMessage} (hr : Represents m unchecked) :
    List.ofFn m.message = bytesAt unchecked.message 0 maxLength := by
  refine List.ext_getElem (by simp [bytesAt]) fun i hi _ => ?_
  simp [bytesAt, hr.message]

theorem Filled.greedy {m : Message} {unchecked : LogMessage} {accepted : List Bytes}
    (hr : Represents m unchecked) (h : Filled unchecked accepted) : Greedy m accepted := by
  have hlt := h.length_lt
  have harray := hr.array
  constructor
  · rw [hr.cur, h.cur_eq]
  · rw [hr.length, h.length_eq]
  · rw [hr.length, h.length_eq]
    omega
  · have hsplit : maxLength = accepted.flatten.length + (maxLength - accepted.flatten.length) := by
      omega
    rw [harray, hsplit, Http.bytesAt_add, h.bytes, List.take_left]
  · intro hne
    rw [harray, bytesAt, List.getElem?_map, List.getElem?_range hlt, Option.map_some, Nat.zero_add,
      h.nul hne]

/-- **A message is a bounded greedy concatenation.** For calls of `Append` with pieces that are more
than 2048 bytes shorter than an `int` can say: no sum overflows and no store falls outside the 2048
bytes of the array; the message holds the pieces that fitted when they came, in their order; and one
more piece that does not fit leaves it as it is. -/
theorem greedy_of_calls (memory : Fin maxLength → UInt8) (stale : Bytes → Bytes)
    (calls : List Call) (hsize : ∀ c ∈ calls, c.size stale < 2 ^ 31 - maxLength) :
    ∃ m, (Message.new memory).run stale calls = some m ∧
      Greedy m (taken maxLength 0 (pieces stale calls)) ∧
      ∀ c : Call, c.size stale < 2 ^ 31 - maxLength →
        Rejected stale (taken maxLength 0 (pieces stale calls)) c → m.call stale c = some m := by
  obtain ⟨m, hrun, hr, hfilled⟩ :=
    run_represents (new_represents memory) (new_filled (extend memory)) hsize
  rw [List.nil_append, List.flatten_nil, List.length_nil] at hfilled
  exact ⟨m, hrun, hfilled.greedy hr, fun c hc hrejected => call_rejected hr hfilled hc hrejected⟩

/-- A null pointer, two pieces that fit, one that would leave no room for the terminator, and a
newline behind them. -/
def closeCalls : List Call :=
  [.append none, .put (.cString (str "fd ")), .put (.int 7),
    .append (some (List.replicate 2044 65)), .put (.string (str "\n"))]

theorem greedy_of_calls_close :
    (∀ c ∈ closeCalls, c.size id < 2 ^ 31 - maxLength) ∧
      taken maxLength 0 (pieces id closeCalls) = [str "fd ", str "7", str "\n"] ∧
      ∃ m, (Message.new fun _ => 65).run id closeCalls = some m ∧
        Greedy m (taken maxLength 0 (pieces id closeCalls)) ∧
        ∀ c : Call, c.size id < 2 ^ 31 - maxLength →
          Rejected id (taken maxLength 0 (pieces id closeCalls)) c → m.call id c = some m := by
  have hfd : cStr (str "fd ") = str "fd " := by decide
  have hseven : cStr (id (decimalInt 7)) = str "7" := by decide
  have hpieces : pieces id closeCalls =
      [str "fd ", str "7", List.replicate 2044 65, str "\n"] := by
    simp only [pieces, closeCalls, List.filterMap_cons, List.filterMap_nil, Call.buff, Piece.bytes,
      hfd, hseven]
  have hsize : ∀ c ∈ closeCalls, c.size id < 2 ^ 31 - maxLength := by
    simp only [closeCalls, List.forall_mem_cons, Call.size, Call.buff, Piece.bytes, hfd, hseven,
      Option.getD_none, Option.getD_some, List.length_replicate]
    refine ⟨by decide, by decide, by decide, by decide, by decide, ?_⟩
    exact fun c hc => absurd hc List.not_mem_nil
  have htaken : taken maxLength 0 (pieces id closeCalls) = [str "fd ", str "7", str "\n"] := by
    rw [hpieces, taken_cons_of_lt (by decide), taken_cons_of_lt (by decide), taken_cons_of_le,
      taken_cons_of_lt (by decide)]
    · rfl
    · rw [List.length_replicate]
      decide
  exact ⟨hsize, htaken, greedy_of_calls _ _ _ hsize⟩

/-- **The message of a record is what `Append` makes of it**, with its sums and stores checked. -/
theorem logMessage_represented (memory : Fin maxLength → UInt8) (stale : Bytes → Bytes) (tm : Tm)
    (site : Site) (payload : List Piece)
    (hsize : ∀ piece ∈ payload ++ trailerPieces site,
      (piece.bytes stale).length < 2 ^ 31 - maxLength) :
    ∃ m, (Message.new memory).run stale
        ((.string (getSystemTime tm) :: (payload ++ trailerPieces site)).map .put) = some m ∧
      Represents m (logMessage (extend memory) stale tm site payload) := by
  have htime := length_getSystemTime_lt tm
  have hsmall : maxLength < 2 ^ 31 - maxLength := by decide
  have hcalls : ∀ c ∈ (Piece.string (getSystemTime tm) :: (payload ++ trailerPieces site)).map
      Call.put, c.size stale < 2 ^ 31 - maxLength := by
    intro c hc
    obtain ⟨piece, hpiece, rfl⟩ := List.mem_map.mp hc
    rcases List.mem_cons.mp hpiece with rfl | hpiece
    · rw [Call.size_put]
      exact htime.trans hsmall
    · rw [Call.size_put]
      exact hsize piece hpiece
  obtain ⟨m, hrun, hr, -⟩ :=
    run_represents (new_represents memory) (new_filled (extend memory)) hcalls
  refine ⟨m, hrun, ?_⟩
  rw [LogMessage.run, List.foldl_map, List.foldl_cons] at hr
  exact hr

/-- **A record is the array that `Append` leaves**: what `~Log` hands to `put_write_string`. -/
theorem record_of_run (memory : Fin maxLength → UInt8) (stale : Bytes → Bytes) (tm : Tm)
    (site : Site) (payload : List Piece)
    (hsize : ∀ piece ∈ payload ++ trailerPieces site,
      (piece.bytes stale).length < 2 ^ 31 - maxLength) :
    ∃ m, (Message.new memory).run stale
        ((.string (getSystemTime tm) :: (payload ++ trailerPieces site)).map .put) = some m ∧
      List.ofFn m.message = (record (extend memory) stale tm site payload).buff := by
  obtain ⟨m, hrun, hr⟩ := logMessage_represented memory stale tm site payload hsize
  refine ⟨m, hrun, ?_⟩
  rw [hr.array, record]

end WebServer.Log
