import WebServer.Http.KeepAlive
import WebServer.Socket.Loops

/-!
# What is read, and what is left in the socket

`readLoop_ended` says how the loop of `readn` and `sysreadn` ends and what it has put into the
buffer. Two properties are read off it.

At the end of the stream `readn` returns 0, whatever it has received before: a request and the
half-close behind it, read in one call, are lost (`delivers_iff`).

A channel that is registered edge-triggered has to be read until a call fails with `EAGAIN`. The
loops are also left when the buffer is full, when `read` returns 0, and when `accept` returns
descriptor 0 and `errno` happens to be `EAGAIN` (`channels_drained_iff`). What is then left in the
socket is not reported again before something new arrives, but for a client, where the
`EPOLL_CTL_MOD` of `HandleWrite` arms the edge once more; there it is taken for a request of its
own.
-/

namespace WebServer.Socket

open Lib Http
open Handoff (Errno toInt)

/-! ## How the loop ends -/

/-- The bytes received in some calls. -/
def bytesOf (calls : List RecvOutcome) : Bytes := calls.flatMap RecvOutcome.bytes

/-- The last call found the end of the stream. -/
def AtEnd (calls : List RecvOutcome) : Prop := calls.getLast? = some (.received [])

instance (calls : List RecvOutcome) : Decidable (AtEnd calls) := inferInstanceAs (Decidable (_ = _))

/-- How `readLoop` ends after some calls: `front` was in the buffer before, and `length` bytes were
left. -/
structure Ended (closes : Bool) (front : Bytes) (length : ℕ) (calls : List RecvOutcome) (r : Read) :
    Prop where
  le : (bytesOf calls).length ≤ length
  buff : r.buff = front ++ bytesOf calls ++ List.replicate (length - (bytesOf calls).length) 0
  result : r.readLength = if AtEnd calls then 0 else front.length + (bytesOf calls).length
  closed : r.closed = (closes && decide (AtEnd calls))
  eagain : calls.getLast? = some (.failed .eagain) ↔
    (bytesOf calls).length < length ∧ ¬AtEnd calls
  mem : .received [] ∈ calls → AtEnd calls
  lt : AtEnd calls → (bytesOf calls).length < length

@[simp] theorem bytesOf_nil : bytesOf [] = [] := rfl

@[simp] theorem bytesOf_cons (x : RecvOutcome) (calls : List RecvOutcome) :
    bytesOf (x :: calls) = x.bytes ++ bytesOf calls := rfl

theorem getLast?_cons_of_ne {α : Type*} {x y : α} {l : List α} (h : x ≠ y) :
    (x :: l).getLast? = some y ↔ l.getLast? = some y := by
  cases l with
  | nil => simp [h]
  | cons z l => rw [List.getLast?_cons_cons]

theorem fill_zeros (front bytes : Bytes) (length : ℕ) :
    fill (front ++ List.replicate length 0) front.length bytes =
      front ++ bytes ++ List.replicate (length - bytes.length) 0 := by
  simp [fill]

/-- A call that does not end the loop: it goes on with what the call received. -/
theorem Ended.cons {closes : Bool} {front : Bytes} {length : ℕ} {calls : List RecvOutcome}
    {r : Read} {x : RecvOutcome} (hx : ¬x.Leaves) (hsize : x.bytes.length ≤ length)
    (h : Ended closes (front ++ x.bytes) (length - x.bytes.length) calls r) :
    Ended closes front length (x :: calls) r := by
  have hstream : x ≠ .received [] := fun he => hx (Or.inl he)
  have heagain : x ≠ .failed .eagain := fun he => hx (Or.inr he)
  have hend : AtEnd (x :: calls) ↔ AtEnd calls := getLast?_cons_of_ne hstream
  have hle := h.le
  refine ⟨?_, ?_, ?_, ?_, ?_, ?_, ?_⟩
  · rw [bytesOf_cons, List.length_append]
    omega
  · rw [h.buff, bytesOf_cons, List.length_append, Nat.sub_sub, List.append_assoc front]
  · rw [h.result, bytesOf_cons, List.length_append, List.length_append, Nat.add_assoc]
    simp only [hend]
  · rw [h.closed]
    simp only [hend]
  · rw [getLast?_cons_of_ne heagain, h.eagain, hend, bytesOf_cons, List.length_append]
    refine and_congr_left fun _ => ?_
    omega
  · intro hmem
    rcases List.mem_cons.mp hmem with hmem | hmem
    · exact absurd hmem.symm hstream
    · exact hend.mpr (h.mem hmem)
  · intro hatEnd
    have hlt := h.lt (hend.mp hatEnd)
    rw [bytesOf_cons, List.length_append]
    omega

/-- **How the loop ends.** What it leaves of the outcomes are the last of them. -/
theorem readLoop_ended {closes : Bool} {front : Bytes} {length : ℕ}
    {outcomes rest : List RecvOutcome} {r : Read}
    (h : readLoop closes (front ++ List.replicate length 0) front.length length outcomes =
      some (r, rest)) :
    ∃ calls, outcomes = calls ++ rest ∧ Ended closes front length calls r := by
  have hfull : ∀ {front : Bytes} {outcomes : List RecvOutcome},
      readLoop closes (front ++ List.replicate 0 0) front.length 0 outcomes = some (r, rest) →
      ∃ calls, outcomes = calls ++ rest ∧ Ended closes front 0 calls r := by
    intro front outcomes h
    obtain ⟨rfl, rfl⟩ : ⟨front.length, front, false⟩ = r ∧ outcomes = rest := by
      cases outcomes <;> simpa [readLoop] using h
    exact ⟨[], rfl, by constructor <;> simp [AtEnd]⟩
  induction outcomes generalizing front length with
  | nil =>
    rcases Nat.eq_zero_or_pos length with rfl | hpos
    · exact hfull h
    · rw [(readLoop_isLoop closes).nil (_, _) hpos] at h
      cases h
  | cons x outcomes ih =>
    rcases Nat.eq_zero_or_pos length with rfl | hpos
    · exact hfull h
    have h0 : length ≠ 0 := Nat.ne_of_gt hpos
    by_cases hx : x.Leaves
    · -- the end of the stream, or `EAGAIN`
      rcases hx with rfl | rfl
      · simp only [readLoop, if_neg h0, if_true] at h
        obtain ⟨rfl, rfl⟩ := Prod.mk.inj (Option.some.inj h)
        exact ⟨[.received []], rfl, by constructor <;> simp [AtEnd, RecvOutcome.bytes, hpos]⟩
      · simp only [readLoop, if_neg h0] at h
        obtain ⟨rfl, rfl⟩ := Prod.mk.inj (Option.some.inj h)
        exact ⟨[.failed .eagain], rfl, by constructor <;> simp [AtEnd, RecvOutcome.bytes, hpos]⟩
    · rcases Nat.lt_or_ge length x.size with hlt | hle
      · rw [readLoop_eq_none_of_lt outcomes hpos hlt] at h
        cases h
      · rw [readLoop_turn outcomes hpos hx hle, fill_zeros, RecvOutcome.size,
          ← List.length_append] at h
        obtain ⟨calls, hcalls, hended⟩ := ih h
        exact ⟨x :: calls, by rw [hcalls, List.cons_append], hended.cons hx hle⟩

/-- The same for a buffer of `length` bytes, where `rest` is what is left of the outcomes. -/
theorem readLoop_ended_of_rest {closes : Bool} {length : ℕ} {calls rest : List RecvOutcome}
    {r : Read}
    (h : readLoop closes (List.replicate length 0) 0 length (calls ++ rest) = some (r, rest)) :
    Ended closes [] length calls r := by
  have hstart : readLoop closes ([] ++ List.replicate length 0) ([] : Bytes).length length
      (calls ++ rest) = some (r, rest) := h
  obtain ⟨calls', hcalls, hended⟩ := readLoop_ended hstart
  rwa [List.append_cancel_right hcalls]

/-! ## Every byte is delivered -/

/-- The bytes that `handle_event` gives to `handle_http`, which is not called if there are none. -/
def Read.chunk (r : Read) : Bytes := r.buff.take r.readLength

/-- All bytes received in the calls are returned, and `handle_event` sees them. -/
structure Delivers (length : ℕ) (calls : List RecvOutcome) (r : Read) : Prop where
  total : r.readLength = (bytesOf calls).length
  buff : r.buff = bytesOf calls ++ List.replicate (length - (bytesOf calls).length) 0
  seen : r.chunk = bytesOf calls

/-- What the loop put into the buffer is there also if it is not returned. -/
theorem Ended.delivers_iff_total {closes : Bool} {length : ℕ} {calls : List RecvOutcome} {r : Read}
    (h : Ended closes [] length calls r) :
    Delivers length calls r ↔ r.readLength = (bytesOf calls).length := by
  have hbuff : r.buff = bytesOf calls ++ List.replicate (length - (bytesOf calls).length) 0 :=
    h.buff
  constructor
  · intro hdelivers
    exact hdelivers.total
  · intro htotal
    refine ⟨htotal, hbuff, ?_⟩
    rw [Read.chunk, htotal, hbuff, List.take_left]

/-- **`readn` delivers every byte it took** if and only if it did not come to the end of the stream
after some bytes. The calls it made are `calls`. -/
theorem delivers_iff (length : ℕ) (calls rest : List RecvOutcome) (r : Read)
    (h : readn length (calls ++ rest) = some (r, rest)) :
    Delivers length calls r ↔ ¬(AtEnd calls ∧ bytesOf calls ≠ []) := by
  have hended := readLoop_ended_of_rest h
  rw [hended.delivers_iff_total, hended.result]
  by_cases hend : AtEnd calls
  · rw [if_pos hend, eq_comm, List.length_eq_zero_iff]
    simp [hend]
  · simp [hend]

/-- A request in two pieces, with an interrupted call between them. -/
theorem delivers_iff_two :
    ∃ r, readn 4096 ([.received (str "GET / HT"), .failed .eintr, .received (str "TP/1.1"),
        .failed .eagain] ++ []) = some (r, []) ∧
      Delivers 4096 [.received (str "GET / HT"), .failed .eintr, .received (str "TP/1.1"),
        .failed .eagain] r := by
  have hne : str "GET / HT" ≠ [] ∧ str "TP/1.1" ≠ [] := by decide
  have hlen : (str "GET / HT").length = 8 ∧ (str "TP/1.1").length = 6 := by decide
  obtain ⟨r, hr⟩ : ∃ r, readn 4096 ([.received (str "GET / HT"), .failed .eintr,
      .received (str "TP/1.1"), .failed .eagain] ++ []) = some (r, []) := by
    simp [readn, readLoop, hne, hlen, -List.reduceReplicate]
  exact ⟨r, hr, (delivers_iff 4096 _ [] r hr).2 fun h => absurd h.1 (by decide)⟩

/-- A request, and the peer's half-close behind it: `handle_event` sees nothing of it. -/
theorem request_lost_at_end :
    ∃ r, readn 4096 ([.received helloRequest.render, .received []] ++ []) = some (r, []) ∧
      r.readLength = 0 ∧ r.chunk = [] ∧
      ¬Delivers 4096 [.received helloRequest.render, .received []] r := by
  have hlen : helloRequest.render.length = 23 := by decide
  have hne : helloRequest.render ≠ [] := by decide
  refine ⟨⟨0, fill (List.replicate 4096 0) 0 helloRequest.render, true⟩, ?_, rfl, rfl, ?_⟩
  · simp [readn, readLoop, hne, hlen, -List.reduceReplicate]
  · intro h
    have htotal : 0 = (bytesOf [.received helloRequest.render, .received []]).length := h.total
    revert htotal
    decide

/-! ## Channels are drained -/

/-- The last call on the channel failed with `EAGAIN`, or the channel is not registered. -/
def Drained {ο : Type*} (eagain : ο) (calls : List ο) (registered : Bool) : Prop :=
  calls.getLast? = some eagain ∨ registered = false

/-- `handle_event` of the listening channel, for the outcomes of `accept`: the descriptors handed
on, whether the channel is registered, which nothing here changes, and what is left of the outcomes.
`Maccept` returns -1, and there is nothing more to do. -/
def handleListening (registered : Bool) (outcomes : List AcceptOutcome) :
    Option (List ℕ × Bool × List AcceptOutcome) :=
  (maccept [] outcomes).map fun (handed, rest) => (handed, registered, rest)

/-- A word of the buffer, in the byte order of the machine. -/
def wordAt (buff : Bytes) (k : ℕ) : ℕ :=
  ((buff.drop (8 * k)).take 8).foldr (fun b n => b.toNat + 256 * n) 0

/-- `handle_event` of the event channel, for the outcomes of `read`: the descriptors given to
`Add_New_Connect`, one for each word begun, whether the channel is registered, and what is left of
the outcomes. -/
def handleEventChannel (registered : Bool) (outcomes : List RecvOutcome) :
    Option (List ℤ × Bool × List RecvOutcome) :=
  (sysreadn maxReadWriteBuffLength outcomes).map fun (r, rest) =>
    ((List.range ((r.readLength + 7) / 8)).map fun k => toInt (wordAt r.buff k), registered, rest)

/-- `handle_close`, of which only the call of `Epoll_Del` matters here, if it is called. -/
def closeIf (called : Bool) (s : Session) : Session :=
  if called then { s with registered := false } else s

/-- `handle_event` of a client channel, for the outcomes of `recv` and of `send`, run alone: a timer
that expires meanwhile deregisters the channel as if it had been before. `Epoll_Mod`, in
`HandleWrite`, does not register a channel again. -/
def handleClient (s : Session) (env : Env) (recvs : List RecvOutcome) (sends : List SendOutcome) :
    Option (Session × List RecvOutcome) :=
  match readn maxReadWriteBuffLength recvs with
  | none => none
  | some (r, rest) =>
    if r.readLength > 0 then do
      let s ← (closeIf r.closed s).handleHttp env r.chunk
      let w ← writen s.writeLength 0 sends
      some (((closeIf w.closed s).handleWrite w.result).leave, rest)
    else some (closeIf r.closed s, rest)

/-- `writen` of `length` bytes comes to a `send` that returns 0. -/
def SendCloses (length : ℕ) (sends : List SendOutcome) : Prop :=
  ∃ before, before ++ [.accepted 0] <+: sends ∧ Goes sendSize SendLeaves length before

/-- A connection stays after a response: it is kept alive, because of this request or of an earlier
one, and no `send` of the response returns 0. -/
structure Stays (s : Session) (env : Env) (chunk : Bytes) (sends : List SendOutcome) : Prop where
  keepAlive : s.keepAlive = true ∨ (parseChunk chunk).keepAlive = true
  sent {response : Bytes} : answer env chunk = some response → ¬SendCloses response.length sends

/-- How `Maccept` ends. -/
theorem maccept_ended {handed handed' : List ℕ} {outcomes rest : List AcceptOutcome}
    (h : maccept handed outcomes = some (handed', rest)) :
    ∃ before x, outcomes = before ++ x :: rest ∧ x.Leaves ∧ ∀ y ∈ before, ¬y.Leaves := by
  induction outcomes generalizing handed with
  | nil => cases h
  | cons x outcomes ih =>
    by_cases hx : x.Leaves
    · rw [maccept_leave handed outcomes hx] at h
      obtain ⟨-, rfl⟩ := Prod.mk.inj (Option.some.inj h)
      exact ⟨[], x, rfl, hx, by simp⟩
    · obtain ⟨handed'', hturn⟩ := maccept_turn handed outcomes hx
      rw [hturn] at h
      obtain ⟨before, y, rfl, hy, hbefore⟩ := ih h
      exact ⟨x :: before, y, rfl, hy, List.forall_mem_cons.mpr ⟨hx, hbefore⟩⟩

theorem handleListening_drained_iff {registered registered' : Bool} {handed : List ℕ}
    {calls rest : List AcceptOutcome}
    (h : handleListening registered (calls ++ rest) = some (handed, registered', rest)) :
    Drained (.failed .eagain) calls registered' ↔
      registered = false ∨ .accepted 0 .eagain ∉ calls := by
  obtain ⟨⟨handed', rest'⟩, hrun, heq⟩ := Option.map_eq_some_iff.mp h
  obtain ⟨rfl, rfl, rfl⟩ : handed' = handed ∧ registered = registered' ∧ rest' = rest := by
    simpa using heq
  obtain ⟨before, x, hcalls, hx, hbefore⟩ := maccept_ended hrun
  obtain rfl : calls = before ++ [x] :=
    List.append_cancel_right (hcalls.trans (List.append_cons before x rest'))
  rw [Drained, or_comm]
  apply or_congr_right
  have hnotMem : .accepted 0 .eagain ∉ before := fun hmem => hbefore _ hmem (Or.inr rfl)
  rcases hx with rfl | rfl <;> simp [hnotMem]

theorem handleEventChannel_drained_iff {registered registered' : Bool} {words : List ℤ}
    {calls rest : List RecvOutcome}
    (h : handleEventChannel registered (calls ++ rest) = some (words, registered', rest)) :
    Drained (.failed .eagain) calls registered' ↔
      registered = false ∨
        (bytesOf calls).length < maxReadWriteBuffLength ∧ .received [] ∉ calls := by
  obtain ⟨⟨r, rest'⟩, hrun, heq⟩ := Option.map_eq_some_iff.mp h
  obtain ⟨-, rfl, rfl⟩ : _ ∧ registered = registered' ∧ rest' = rest := by
    simpa using heq
  have hended := readLoop_ended_of_rest hrun
  have hend : AtEnd calls ↔ .received [] ∈ calls := ⟨List.mem_of_getLast?, hended.mem⟩
  rw [Drained, or_comm, hended.eagain, hend]

theorem sendCloses_cons {length : ℕ} {x : SendOutcome} {sends : List SendOutcome}
    (hx : ¬SendLeaves x) (hsize : sendSize x ≤ length) :
    SendCloses length (x :: sends) ↔ SendCloses (length - sendSize x) sends := by
  constructor
  · rintro ⟨_ | ⟨y, before⟩, hpre, hgoes⟩
    · obtain ⟨rfl, -⟩ := List.cons_prefix_cons.mp hpre
      exact absurd (Or.inl rfl) hx
    · obtain ⟨rfl, hpre'⟩ := List.cons_prefix_cons.mp hpre
      exact ⟨before, hpre', ((goes_cons hsize).mp hgoes).2⟩
  · rintro ⟨before, hpre, hgoes⟩
    exact ⟨x :: before, List.cons_prefix_cons.mpr ⟨rfl, hpre⟩, (goes_cons hsize).mpr ⟨hx, hgoes⟩⟩

/-- A call that ends the loop of `writen` closes the connection if it returned 0. -/
theorem sendCloses_cons_of_leaves {length : ℕ} {x : SendOutcome} {sends : List SendOutcome}
    (hpos : 0 < length) (hx : SendLeaves x) :
    SendCloses length (x :: sends) ↔ x = .accepted 0 := by
  constructor
  · rintro ⟨_ | ⟨y, before⟩, hpre, hgoes⟩
    · exact (List.cons_prefix_cons.mp hpre).1.symm
    · obtain ⟨rfl, -⟩ := List.cons_prefix_cons.mp hpre
      exact absurd hx (hgoes.1 _ List.mem_cons_self)
  · rintro rfl
    exact ⟨[], by simp, goes_nil.mpr hpos⟩

theorem not_sendCloses_zero {sends : List SendOutcome} : ¬SendCloses 0 sends := by
  rintro ⟨before, -, hgoes⟩
  exact Nat.not_lt_zero _ hgoes.2

theorem writen_closed_iff {length done : ℕ} {sends : List SendOutcome} {w : Written}
    (h : writen length done sends = some w) : w.closed = true ↔ SendCloses length sends := by
  have hall : ∀ {done : ℕ} {sends : List SendOutcome}, writen 0 done sends = some w →
      (w.closed = true ↔ SendCloses 0 sends) := by
    intro done sends h
    obtain rfl : ⟨-1, done, false⟩ = w := by cases sends <;> simpa [writen] using h
    simp [not_sendCloses_zero]
  induction sends generalizing length done with
  | nil =>
    rcases Nat.eq_zero_or_pos length with rfl | hpos
    · exact hall h
    · rw [writen_isLoop.nil done hpos] at h
      cases h
  | cons x sends ih =>
    rcases Nat.eq_zero_or_pos length with rfl | hpos
    · exact hall h
    have h0 : length ≠ 0 := Nat.ne_of_gt hpos
    by_cases hx : SendLeaves x
    · rw [sendCloses_cons_of_leaves hpos hx]
      rcases hx with rfl | rfl
      · simp only [writen, if_neg h0, if_true] at h
        obtain rfl := Option.some.inj h
        simp
      · simp only [writen, if_neg h0] at h
        obtain rfl := Option.some.inj h
        simp
    · rcases Nat.lt_or_ge length (sendSize x) with hlt | hle
      · rw [writen_eq_none_of_lt sends hpos hlt] at h
        cases h
      · rw [writen_turn sends hpos hx hle] at h
        rw [sendCloses_cons hx hle]
        exact ih h

@[simp] theorem closeIf_registered (called : Bool) (s : Session) :
    (closeIf called s).registered = (s.registered && !called) := by
  cases called <;> simp [closeIf]

@[simp] theorem closeIf_keepAlive (called : Bool) (s : Session) :
    (closeIf called s).keepAlive = s.keepAlive := by
  cases called <;> rfl

/-- A request is answered: the channel is registered afterwards if it was, and the connection
stays. -/
theorem registered_of_answered {s t : Session} {env : Env} {chunk : Bytes}
    {sends : List SendOutcome} {w : Written} (hne : chunk ≠ [])
    (hhttp : s.handleHttp env chunk = some t) (hw : writen t.writeLength 0 sends = some w) :
    ((closeIf w.closed t).handleWrite w.result).leave.registered = true ↔
      s.registered = true ∧ Stays s env chunk sends := by
  have hevent : s.handleEvent env chunk = some t := by
    rw [Session.handleEvent, if_neg hne]
    exact hhttp
  rw [handleEvent_eq s env hne] at hevent
  obtain ⟨response, hresponse, rfl⟩ := Option.map_eq_some_iff.mp hevent
  have hcloses : w.closed = true ↔ SendCloses response.length sends := writen_closed_iff hw
  obtain ⟨-, -, -, -, -, hreg, -⟩ := Session.leave_handleWrite (closeIf w.closed _) w.result
  rw [hreg, closeIf_registered, closeIf_keepAlive]
  simp only [Bool.and_eq_true, Bool.not_eq_true', Bool.or_eq_true, ← Bool.not_eq_true, hcloses]
  constructor
  · rintro ⟨⟨hr, hsent⟩, hkeep⟩
    refine ⟨hr, hkeep, fun hresponse' => ?_⟩
    obtain rfl := Option.some.inj (hresponse.symm.trans hresponse')
    exact hsent
  · rintro ⟨hr, hstays⟩
    exact ⟨⟨hr, hstays.sent hresponse⟩, hstays.keepAlive⟩

theorem handleClient_drained_iff {s t : Session} {env : Env} {calls rest : List RecvOutcome}
    {sends : List SendOutcome} (h : handleClient s env (calls ++ rest) sends = some (t, rest)) :
    Drained (.failed .eagain) calls t.registered ↔
      s.registered = false ∨ (bytesOf calls).length < maxReadWriteBuffLength ∨
        ¬Stays s env (bytesOf calls) sends := by
  unfold handleClient at h
  split at h
  · cases h
  rename_i r rest' hrun
  obtain rfl : rest' = rest := by
    split at h
    · obtain ⟨u, -, h⟩ := Option.bind_eq_some_iff.mp h
      obtain ⟨w, -, h⟩ := Option.bind_eq_some_iff.mp h
      exact (Prod.mk.inj (Option.some.inj h)).2
    · exact (Prod.mk.inj (Option.some.inj h)).2
  have hended := readLoop_ended_of_rest hrun
  rw [Drained, hended.eagain]
  by_cases hend : AtEnd calls
  · -- the end of the stream: the channel is deregistered and nothing else is done
    have hclosed : r.closed = true := by simp [hended.closed, hend]
    have hlen : ¬r.readLength > 0 := by simp [hended.result, hend]
    rw [if_neg hlen] at h
    obtain ⟨rfl, -⟩ := Prod.mk.inj (Option.some.inj h)
    simp [hclosed, hended.lt hend]
  have hclosed : r.closed = false := by simp [hended.closed, hend]
  have hlen : r.readLength = (bytesOf calls).length := by simp [hended.result, hend]
  by_cases hlt : (bytesOf calls).length < maxReadWriteBuffLength
  · -- `EAGAIN`
    simp [hlt, hend]
  · -- the buffer is full
    have hpos : r.readLength > 0 := by
      have hmax : maxReadWriteBuffLength = 4096 := rfl
      omega
    have hchunk : r.chunk = bytesOf calls := ((hended.delivers_iff_total).mpr hlen).seen
    have hne : bytesOf calls ≠ [] := by
      intro hnil
      rw [hlen, hnil] at hpos
      exact absurd hpos (Nat.lt_irrefl 0)
    rw [if_pos hpos, hclosed, hchunk] at h
    obtain ⟨u, hhttp, h⟩ := Option.bind_eq_some_iff.mp h
    obtain ⟨w, hw, h⟩ := Option.bind_eq_some_iff.mp h
    obtain ⟨rfl, -⟩ := Prod.mk.inj (Option.some.inj h)
    have hstays := registered_of_answered hne hhttp hw
    have hopen : closeIf false s = s := rfl
    rw [← Bool.not_eq_true, hstays, hopen, ← Bool.not_eq_true]
    simp only [hlt, false_and, false_or]
    exact not_and_or

/-- **Which channels are drained when `handle_event` returns**, of those that are registered: the
listening channel unless `accept` returned descriptor 0 with `errno` at `EAGAIN`, the event channel
if the buffer was not filled and no `read` returned 0, and a client channel if the buffer was not
filled or the connection does not stay. -/
theorem channels_drained_iff (listening listening' event event' : Bool) (handed : List ℕ)
    (words : List ℤ) (accepts restAccepts : List AcceptOutcome)
    (reads restReads recvs restRecvs : List RecvOutcome)
    (s t : Session) (env : Env) (sends : List SendOutcome)
    (hlistening : handleListening listening (accepts ++ restAccepts) =
      some (handed, listening', restAccepts))
    (hevent : handleEventChannel event (reads ++ restReads) = some (words, event', restReads))
    (hclient : handleClient s env (recvs ++ restRecvs) sends = some (t, restRecvs)) :
    (Drained (.failed .eagain) accepts listening' ↔
      listening = false ∨ .accepted 0 .eagain ∉ accepts) ∧
    (Drained (.failed .eagain) reads event' ↔
      event = false ∨
        (bytesOf reads).length < maxReadWriteBuffLength ∧ .received [] ∉ reads) ∧
    (Drained (.failed .eagain) recvs t.registered ↔
      s.registered = false ∨ (bytesOf recvs).length < maxReadWriteBuffLength ∨
        ¬Stays s env (bytesOf recvs) sends) :=
  ⟨handleListening_drained_iff hlistening, handleEventChannel_drained_iff hevent,
    handleClient_drained_iff hclient⟩

/-- A connection, a word and a request that keeps the connection alive. -/
theorem channels_drained_iff_small :
    Drained (AcceptOutcome.failed .eagain) [.accepted 5 .other, .failed .eagain] true ∧
      Drained (RecvOutcome.failed .eagain)
        [.received [7, 0, 0, 0, 0, 0, 0, 0], .failed .eagain] true ∧
      ∃ t, handleClient (.new fun _ => 0) emptyEnv
          ([.received helloKeepAlive.render, .failed .eagain] ++ []) [.accepted 223] =
            some (t, []) ∧
        t.registered = true ∧
        Drained (RecvOutcome.failed .eagain) [.received helloKeepAlive.render, .failed .eagain]
          t.registered := by
  have hlistening : handleListening true ([.accepted 5 .other, .failed .eagain] ++ []) =
      some ([5], true, []) := rfl
  have hevent : handleEventChannel true
      ([.received [7, 0, 0, 0, 0, 0, 0, 0], .failed .eagain] ++ []) = some ([7], true, []) := by
    decide +kernel
  have hclient : (handleClient (.new fun _ => 0) emptyEnv
      ([.received helloKeepAlive.render, .failed .eagain] ++ []) [.accepted 223]).map
        (fun x => (x.1.registered, x.2)) = some (true, []) := by
    decide +kernel
  obtain ⟨⟨t, rest⟩, hrun, ht⟩ := Option.map_eq_some_iff.mp hclient
  obtain ⟨hreg, rfl⟩ : t.registered = true ∧ rest = [] := by simpa using ht
  obtain ⟨h₁, h₂, h₃⟩ := channels_drained_iff true true true true [5] [7] _ [] _ [] _ [] _ t
    emptyEnv _ hlistening hevent hrun
  refine ⟨h₁.mpr (Or.inr (by decide)), h₂.mpr (Or.inr ?_), t, hrun, hreg,
    h₃.mpr (Or.inr (Or.inl ?_))⟩
  · decide
  · decide

/-- A request that keeps the connection alive, with a body that fills the buffer. -/
def fullRequest : Bytes := helloKeepAlive.render ++ List.replicate (4096 - 47) 120

/-- After it the channel is registered, and no call has failed with `EAGAIN`. -/
theorem fullRequest_not_drained :
    ∃ t, handleClient (.new fun _ => 0) emptyEnv [.received fullRequest] [.accepted 223] =
        some (t, []) ∧
      ¬Drained (RecvOutcome.failed .eagain) [.received fullRequest] t.registered := by
  have hclient : (handleClient (.new fun _ => 0) emptyEnv [.received fullRequest]
      [.accepted 223]).map (fun x => (x.1.registered, x.2)) = some (true, []) := by
    decide +kernel
  obtain ⟨⟨t, rest⟩, hrun, ht⟩ := Option.map_eq_some_iff.mp hclient
  obtain ⟨hreg, rfl⟩ : t.registered = true ∧ rest = [] := by simpa using ht
  refine ⟨t, hrun, ?_⟩
  rw [Drained, hreg]
  simp

end WebServer.Socket
