import WebServer.Http.Stream

/-!
# The write buffer

What `handle_http` leaves in `write_buff` and what `HandleWrite` keeps of it.

`handle_http` formats the response as a C string and takes the length of the `std::string`: when the
response has a NUL, what is behind it in `write_buff` is what was there before, and is sent
(`formatted_iff_nulFree`).

`HandleWrite` moves the bytes that `writen` left to the front of the buffer with `memcpy` and asks
for `EPOLLOUT`, unless `writen` sent nothing at all. That is right when at least half of the
response was sent, and wrong otherwise (`keepsUnsent_iff`). The outcomes of `send` that this is
about are those of the steps of a session, one after another (`exec_of_leaves`).
-/

namespace WebServer.Http

open Lib

/-! ## Formatting -/

/-- A string with a NUL before its end is not in the buffer after `sprintf`. -/
theorem exists_sprintf_ne {s : Bytes} (h0 : 0 ∈ s) (hlast : s.getLast? ≠ some 0) :
    ∃ buff, bytesAt (sprintf buff s) 0 s.length ≠ s := by
  have hsplit : cStr s ++ s.dropWhile (· != 0) = s := List.takeWhile_append_dropWhile
  obtain ⟨rest, hrest⟩ : ∃ rest, s.dropWhile (· != 0) = 0 :: rest := by
    cases hd : s.dropWhile (· != 0) with
    | nil =>
      rw [hd, List.append_nil] at hsplit
      rw [← hsplit] at h0
      exact absurd h0 (zero_notMem_cStr s)
    | cons b rest =>
      have hb : b = 0 := by
        have hhead := List.head?_dropWhile_not (· != 0) s
        rw [hd] at hhead
        simpa using hhead
      exact ⟨rest, by rw [hb]⟩
  have hne : rest ≠ [] := by
    rintro rfl
    rw [hrest] at hsplit
    rw [← hsplit, List.getLast?_append] at hlast
    exact hlast rfl
  have hlen : (cStr s).length + 1 < s.length := by
    have hpos := List.length_pos_iff.mpr hne
    conv_rhs => rw [← hsplit, hrest]
    rw [List.length_append, List.length_cons]
    omega
  -- the byte behind the NUL is the old one
  refine ⟨fun _ => s[(cStr s).length + 1] + 1, fun heq => ?_⟩
  have hold : sprintf (fun _ => s[(cStr s).length + 1] + 1) s (0 + ((cStr s).length + 1)) =
      s[(cStr s).length + 1] + 1 := if_neg (by omega)
  have hget := congrArg (fun l : Bytes => l[(cStr s).length + 1]?) heq
  simp only [bytesAt, List.getElem?_map, List.getElem?_range hlen, Option.map_some, hold,
    List.getElem?_eq_getElem hlen, Option.some.injEq] at hget
  simp at hget

theorem sprintf_eq_iff {s : Bytes} (hlast : s.getLast? ≠ some 0) :
    (∀ buff, bytesAt (sprintf buff s) 0 s.length = s) ↔ 0 ∉ s := by
  constructor
  · intro h h0
    obtain ⟨buff, hbuff⟩ := exists_sprintf_ne h0 hlast
    exact hbuff (h buff)
  · intro h0 buff
    rw [bytesAt_sprintf h0 (by omega), List.drop_zero, List.take_length]

/-- A response ends with the end of its page. -/
theorem getLast?_sendStr {env : Env} {chunk : Bytes} {r : Reply}
    (h : handleHttp env chunk = some r) :
    r.sendStr.getLast? = some 62 := by
  have hbody : r.body.getLast? = some 62 := by
    have h1 : (str "</body></html>").getLast? = some 62 := by decide
    have h2 : (str "<hr><em> MR_Wuhaha's WebServer </em>\n</body></html>").getLast? = some 62 := by
      decide
    have h3 : (str "</pre>\n</body></html>").getLast? = some 62 := by decide
    obtain ⟨-, -, hbody⟩ | ⟨-, -, -, hbody⟩ | ⟨-, -, ⟨-, text, -, -, hbody⟩, -⟩ |
      ⟨-, -, -, hbody, -⟩ := handleHttp_cases h
    · rw [hbody, indexPage, List.getLast?_append, h1]
      rfl
    · rw [hbody, helloPage, List.getLast?_append, h2]
      rfl
    · rw [hbody, filePage, List.getLast?_append, h3]
      rfl
    · rw [hbody, notFoundPage, List.getLast?_append, h2]
      rfl
  rw [Reply.sendStr, List.getLast?_append, hbody]
  rfl

/-- A response has a NUL exactly if the request put one into it. -/
theorem nulFree_iff_zero_notMem {env : Env} {chunk : Bytes} {r : Reply}
    (h : handleHttp env chunk = some r) : NulFree env (parseChunk chunk) ↔ 0 ∉ r.sendStr := by
  refine ⟨fun hn => hn.zero_notMem h, fun h0 => ⟨?_, ?_⟩⟩
  · obtain ⟨status, contentType, hhead⟩ := handleHttp_head h
    intro hv
    apply h0
    rw [Reply.sendStr, hhead]
    simp [responseHead, hv]
  · intro hmapped
    obtain ⟨huri, -⟩ | ⟨-, huri, -⟩ | ⟨-, -, ⟨-, text, -, -, hbody⟩, -⟩ | ⟨-, -, hnone, -⟩ :=
      handleHttp_cases h
    · rw [huri]
      decide
    · rw [huri]
      decide
    · intro htitle
      apply h0
      rw [Reply.sendStr, hbody]
      simp only [filePage, List.mem_append, htitle, true_or, or_true]
    · rw [hnone] at hmapped
      cases hmapped

/-- **The bytes handed to the socket are the response**, whatever was in `write_buff` before,
exactly if the client put no NUL into it: none in the version, and none behind the first character
of a URI that names a file. -/
theorem formatted_iff_nulFree (env : Env) (chunk : Bytes) (r : Reply)
    (h : handleHttp env chunk = some r) (hlen : r.sendStr.length < maxReadWriteBuffLength) :
    (∀ s t : Session, s.handleHttp env chunk = some t →
      bytesAt t.writeBuff 0 t.writeLength = r.sendStr) ↔ NulFree env (parseChunk chunk) := by
  have hlast : r.sendStr.getLast? ≠ some 0 := by
    rw [getLast?_sendStr h]
    decide
  rw [nulFree_iff_zero_notMem h, ← sprintf_eq_iff hlast]
  have hrun : ∀ s : Session, ∃ t, s.handleHttp env chunk = some t ∧
      t.writeBuff = sprintf s.writeBuff r.sendStr ∧ t.writeLength = r.sendStr.length := by
    intro s
    simp only [Session.handleHttp, h, if_pos (Nat.succ_le_of_lt hlen)]
    exact ⟨_, rfl, rfl, rfl⟩
  constructor
  · intro hall buff
    obtain ⟨t, ht, hbuff, hwlen⟩ := hrun (.new buff)
    have hsent := hall (.new buff) t ht
    rw [hbuff, hwlen] at hsent
    exact hsent
  · intro hall s t ht
    obtain ⟨t', ht', hbuff, hwlen⟩ := hrun s
    obtain rfl := Option.some.inj (ht.symm.trans ht')
    rw [hbuff, hwlen]
    exact hall s.writeBuff

theorem formatted_iff_nulFree_hello :
    ∃ r, handleHttp emptyEnv helloRequest.render = some r ∧
      r.sendStr.length < maxReadWriteBuffLength ∧
      ∀ s t : Session, s.handleHttp emptyEnv helloRequest.render = some t →
        bytesAt t.writeBuff 0 t.writeLength = r.sendStr := by
  have hrun : (handleHttp emptyEnv helloRequest.render).map
      (fun r => decide (r.sendStr.length < maxReadWriteBuffLength)) = some true := by decide +kernel
  obtain ⟨r, hr, hlen⟩ := Option.map_eq_some_iff.mp hrun
  have hlt := of_decide_eq_true hlen
  have hnul : NulFree emptyEnv (parseChunk helloRequest.render) := by decide +kernel
  exact ⟨r, hr, hlt, (formatted_iff_nulFree emptyEnv _ r hr hlt).2 hnul⟩

/-- A request for the hello page whose version is a NUL. -/
def nulVersion : Bytes := str "GET /hello " ++ [0, cr, lf, cr, lf]

/-- What is sent for it depends on what was in `write_buff` before. -/
theorem nulVersion_not_formatted :
    ∃ (r : Reply) (s t s' t' : Session), handleHttp emptyEnv nulVersion = some r ∧
      s.handleHttp emptyEnv nulVersion = some t ∧ s'.handleHttp emptyEnv nulVersion = some t' ∧
      r.sendStr.length < maxReadWriteBuffLength ∧
      bytesAt t.writeBuff 0 t.writeLength ≠ r.sendStr ∧
      bytesAt t.writeBuff 0 t.writeLength ≠ bytesAt t'.writeBuff 0 t'.writeLength := by
  have hrun : ((handleHttp emptyEnv nulVersion).bind fun r =>
      ((Session.new fun _ => 65).handleHttp emptyEnv nulVersion).bind fun t =>
      ((Session.new fun _ => 66).handleHttp emptyEnv nulVersion).map fun t' =>
        decide (r.sendStr.length < maxReadWriteBuffLength ∧
          bytesAt t.writeBuff 0 t.writeLength ≠ r.sendStr ∧
          bytesAt t.writeBuff 0 t.writeLength ≠ bytesAt t'.writeBuff 0 t'.writeLength)) =
      some true := by decide +kernel
  obtain ⟨r, hr, hrun⟩ := Option.bind_eq_some_iff.mp hrun
  obtain ⟨t, ht, hrun⟩ := Option.bind_eq_some_iff.mp hrun
  obtain ⟨t', ht', hrun⟩ := Option.map_eq_some_iff.mp hrun
  exact ⟨r, _, t, _, t', hr, ht, ht', of_decide_eq_true hrun⟩

/-! ## `writen` -/

/-- What a `send` does. -/
inductive SendOutcome
  /-- It accepts some of the bytes; none, if the peer has closed the connection. -/
  | accepted (k : ℕ)
  | eagain
  | eintr
  /-- It fails with another error, for which `writen` has no branch. -/
  | error
  deriving DecidableEq

/-- What `writen` returns, how many bytes the socket accepted, and whether it called
`handle_close`. -/
structure Written where
  result : ℤ
  accepted : ℕ
  closed : Bool
  deriving DecidableEq

/-- `writen` of `length` bytes, of which `done` were accepted before, for the outcomes of its calls
of `send`. There is no value if the loop is not over after these, or if a call accepted more than it
was given. -/
def writen (length done : ℕ) : List SendOutcome → Option Written
  | [] => if length = 0 then some ⟨-1, done, false⟩ else none
  | outcome :: outcomes =>
    if length = 0 then some ⟨-1, done, false⟩
    else
      match outcome with
      | .eagain => some ⟨length, done, false⟩
      | .eintr => writen length done outcomes
      | .error => writen length done outcomes
      | .accepted k =>
        if k = 0 then some ⟨0, done, true⟩
        else if k ≤ length then writen (length - k) (done + k) outcomes else none

/-- The socket took what it took of `length` bytes and left `r` of them: some calls accepted a part,
some were interrupted, and the last one accepted the rest or found the socket full. -/
inductive Leaves : ℕ → List SendOutcome → ℕ → Prop
  | all : Leaves 0 [] 0
  | eagain {length : ℕ} : 0 < length → Leaves length [.eagain] length
  | eintr {length r : ℕ} {outcomes : List SendOutcome} : 0 < length → Leaves length outcomes r →
      Leaves length (.eintr :: outcomes) r
  | accepted {length r : ℕ} {outcomes : List SendOutcome} (k : ℕ) : 0 < k → k ≤ length →
      Leaves (length - k) outcomes r → Leaves length (.accepted k :: outcomes) r

theorem Leaves.le {length r : ℕ} {outcomes : List SendOutcome} (h : Leaves length outcomes r) :
    r ≤ length := by
  induction h with
  | all => exact le_rfl
  | eagain => exact le_rfl
  | eintr _ _ ih => exact ih
  | accepted k _ _ _ ih => exact ih.trans (Nat.sub_le _ _)

/-- **`writen` returns the number of bytes left**, or -1 if there are none. -/
theorem writen_of_leaves {length r : ℕ} {outcomes : List SendOutcome}
    (h : Leaves length outcomes r) (done : ℕ) :
    writen length done outcomes =
      some ⟨if r = 0 then -1 else r, done + (length - r), false⟩ := by
  induction h generalizing done with
  | all => simp [writen]
  | eagain hpos => simp [writen, Nat.ne_of_gt hpos]
  | eintr hpos _ ih =>
    rw [writen, if_neg (Nat.ne_of_gt hpos)]
    exact ih done
  | accepted k hk hle hrest ih =>
    have hr := hrest.le
    simp only [writen, if_neg (Nat.ne_of_gt (hk.trans_le hle)), if_neg (Nat.ne_of_gt hk),
      if_pos hle,
      ih, Option.some.injEq, Written.mk.injEq, and_true, true_and]
    omega

/-! ## `HandleWrite` -/

/-- A call of `memcpy` inside one buffer. -/
structure MemcpyCall where
  dest : ℕ
  src : ℕ
  length : ℕ

/-- The two regions do not overlap, as `memcpy` requires. -/
def MemcpyCall.Disjoint (c : MemcpyCall) : Prop :=
  c.dest + c.length ≤ c.src ∨ c.src + c.length ≤ c.dest

/-- The call `HandleWrite` makes when `writen` has returned `wlen`. -/
def Session.memcpyCall (s : Session) (wlen : ℤ) : Option MemcpyCall :=
  if 0 < wlen ∧ wlen < s.writeLength then some ⟨0, s.writeLength - wlen.toNat, wlen.toNat⟩
  else none

/-- `HandleWrite` changes the buffer by that call. -/
theorem handleWrite_writeBuff (s : Session) (wlen : ℤ) :
    (s.handleWrite wlen).writeBuff =
      match s.memcpyCall wlen with
      | some c => memcpy s.writeBuff c.src c.length
      | none => s.writeBuff := by
  unfold Session.handleWrite Session.memcpyCall
  split <;> rfl

/-- `HandleWrite` with `writen` as its `write`: the state after it, and what `writen` returned. -/
def Session.handleWriteWith (s : Session) (outcomes : List SendOutcome) :
    Option (Session × Written) :=
  (writen s.writeLength 0 outcomes).map fun w => (s.handleWrite w.result, w)

/-- `HandleWrite` keeps the `r` bytes that were not sent, at the front of the buffer, and asks for
`EPOLLOUT` if there are any; its `memcpy` is defined. -/
structure KeepsUnsent (s : Session) (outcomes : List SendOutcome) (r : ℕ) : Prop where
  returns : (s.handleWriteWith outcomes).isSome
  unsent {t : Session} {w : Written} : s.handleWriteWith outcomes = some (t, w) → 0 < r →
    bytesAt t.writeBuff 0 r = bytesAt s.writeBuff (s.writeLength - r) r ∧ t.writeLength = r ∧
      t.epollOut = true
  sent {t : Session} {w : Written} : s.handleWriteWith outcomes = some (t, w) → r = 0 →
    t.epollOut = false
  memcpy {t : Session} {w : Written} {c : MemcpyCall} : s.handleWriteWith outcomes = some (t, w) →
    s.memcpyCall w.result = some c → c.Disjoint

section HandleWrite

variable {s : Session} {outcomes : List SendOutcome} {r : ℕ}

theorem handleWriteWith_of_leaves (h : Leaves s.writeLength outcomes r) :
    ∃ w : Written, w.result = (if r = 0 then (-1 : ℤ) else r) ∧
      s.handleWriteWith outcomes = some (s.handleWrite w.result, w) := by
  refine ⟨⟨if r = 0 then -1 else r, 0 + (s.writeLength - r), false⟩, rfl, ?_⟩
  rw [Session.handleWriteWith, writen_of_leaves h, Option.map_some]

/-- Everything was sent. -/
theorem keepsUnsent_all (h : Leaves s.writeLength outcomes 0) : KeepsUnsent s outcomes 0 := by
  obtain ⟨w, hw, hrun⟩ := handleWriteWith_of_leaves h
  have hneg : ¬ (0 < w.result ∧ w.result < s.writeLength) := by
    rw [hw, if_pos rfl]
    omega
  refine ⟨by rw [hrun]; rfl, fun _ h0 => absurd h0 (Nat.lt_irrefl 0), ?_, ?_⟩
  · intro t w' hrun' _
    obtain ⟨rfl, rfl⟩ := Prod.mk.inj (Option.some.inj (hrun.symm.trans hrun'))
    rw [Session.handleWrite, if_neg hneg]
  · intro t w' c hrun' hc
    obtain ⟨rfl, rfl⟩ := Prod.mk.inj (Option.some.inj (hrun.symm.trans hrun'))
    rw [Session.memcpyCall, if_neg hneg] at hc
    cases hc

/-- Nothing was sent: the response is forgotten. -/
theorem not_keepsUnsent_none (hpos : 0 < s.writeLength)
    (h : Leaves s.writeLength outcomes s.writeLength) : ¬ KeepsUnsent s outcomes s.writeLength := by
  obtain ⟨w, hw, hrun⟩ := handleWriteWith_of_leaves h
  intro hkeeps
  have hout := (hkeeps.unsent hrun hpos).2.2
  have hneg : ¬ (0 < w.result ∧ w.result < s.writeLength) := by
    rw [hw, if_neg (Nat.ne_of_gt hpos)]
    omega
  rw [Session.handleWrite, if_neg hneg] at hout
  cases hout

/-- A part was sent: the rest is kept, by a `memcpy` that overlaps if it is more than half. -/
theorem keepsUnsent_part_iff (hpos : 0 < r) (hlt : r < s.writeLength)
    (h : Leaves s.writeLength outcomes r) :
    KeepsUnsent s outcomes r ↔ 2 * r ≤ s.writeLength := by
  obtain ⟨w, hw, hrun⟩ := handleWriteWith_of_leaves h
  rw [if_neg (Nat.ne_of_gt hpos)] at hw
  have hbranch : 0 < w.result ∧ w.result < s.writeLength := by
    rw [hw]
    omega
  have hcall : s.memcpyCall w.result = some ⟨0, s.writeLength - r, r⟩ := by
    rw [Session.memcpyCall, if_pos hbranch, hw, Int.toNat_natCast]
  constructor
  · intro hkeeps
    have hdisjoint := hkeeps.memcpy hrun hcall
    simp only [MemcpyCall.Disjoint] at hdisjoint
    omega
  · intro hhalf
    refine ⟨by rw [hrun]; rfl, ?_, fun _ h0 => absurd h0 (Nat.ne_of_gt hpos), ?_⟩
    · intro t w' hrun' _
      obtain ⟨rfl, rfl⟩ := Prod.mk.inj (Option.some.inj (hrun.symm.trans hrun'))
      have hbuff : (s.handleWrite w.result).writeBuff =
          Http.memcpy s.writeBuff (s.writeLength - r) r := by
        rw [handleWrite_writeBuff, hcall]
      refine ⟨?_, ?_, ?_⟩
      · rw [hbuff]
        refine List.map_congr_left fun i hi => ?_
        have hi' : i < r := List.mem_range.mp hi
        simp [Http.memcpy, hi']
      · rw [Session.handleWrite, if_pos hbranch, hw, Int.toNat_natCast]
      · rw [Session.handleWrite, if_pos hbranch]
    · intro t w' c hrun' hc
      obtain ⟨rfl, rfl⟩ := Prod.mk.inj (Option.some.inj (hrun.symm.trans hrun'))
      obtain rfl := Option.some.inj (hcall.symm.trans hc)
      left
      dsimp only
      omega

end HandleWrite

/-- **`HandleWrite` keeps exactly the unsent bytes** if and only if everything was sent, or at least
half of it. -/
theorem keepsUnsent_iff (s : Session) (outcomes : List SendOutcome) (r : ℕ)
    (h : Leaves s.writeLength outcomes r) :
    KeepsUnsent s outcomes r ↔ r = 0 ∨ 2 * r ≤ s.writeLength := by
  rcases Nat.eq_zero_or_pos r with rfl | hpos
  · exact ⟨fun _ => .inl rfl, fun _ => keepsUnsent_all h⟩
  rcases Nat.lt_or_eq_of_le h.le with hlt | rfl
  · rw [keepsUnsent_part_iff hpos hlt h]
    omega
  · refine ⟨fun hkeeps => absurd hkeeps (not_keepsUnsent_none hpos h), ?_⟩
    omega

/-- The steps of a session from the call of `writen` on are those outcomes, and then `HandleWrite`
and the rest of `handle_event`. -/
theorem exec_of_leaves {s : Session} {off left r : ℕ} {outcomes : List SendOutcome}
    (hpc : s.pc = .writing off left) (h : Leaves left outcomes r) :
    ∃ labels, Exec step Always s labels ({ s with
      sent := s.sent ++ bytesAt s.writeBuff off (left - r)
      pc := .writing (off + (left - r)) r }.handleWrite (if r = 0 then (-1 : ℤ) else r)).leave := by
  induction h generalizing s off with
  | all =>
    have hself :
        { s with sent := s.sent ++ bytesAt s.writeBuff off 0, pc := .writing off 0 } = s := by
      rw [← hpc]
      simp [bytesAt]
    refine ⟨[.finish], .head trivial ?_ .nil⟩
    simp only [step, hpc, Nat.sub_zero, Nat.add_zero, hself, if_true]
  | @eagain left hpos =>
    have hself : { s with sent := s.sent ++ bytesAt s.writeBuff off 0, pc := .writing off left } =
        s := by
      rw [← hpc]
      simp [bytesAt]
    refine ⟨[.eagain], .head trivial ?_ .nil⟩
    simp only [step, hpc, Pc.left, if_pos hpos, Nat.sub_self, Nat.add_zero, hself,
      if_neg (Nat.ne_of_gt hpos)]
  | eintr hpos _ ih =>
    obtain ⟨labels, hlabels⟩ := ih hpc
    refine ⟨.eintr :: labels, .head trivial ?_ hlabels⟩
    simp only [step, hpc, Pc.left, if_pos hpos]
  | @accepted left r outcomes k hk hle hrest ih =>
    have hr := hrest.le
    obtain ⟨labels, hlabels⟩ := ih (s := { s with
      sent := s.sent ++ bytesAt s.writeBuff off k, pc := .writing (off + k) (left - k) }) rfl
    have hsum : left - r = k + (left - k - r) := by omega
    rw [hsum, bytesAt_add, ← List.append_assoc, ← Nat.add_assoc]
    refine ⟨.send k :: labels, .head trivial ?_ hlabels⟩
    simp only [step, hpc, if_pos (And.intro hk hle)]

/-- A session about to write two bytes. -/
def twoBytes : Session :=
  { Session.new (fun i => if i = 0 then 65 else 66) with writeLength := 2, pc := .writing 0 2 }

theorem keepsUnsent_iff_half :
    Leaves twoBytes.writeLength [.eintr, .accepted 1, .eagain] 1 ∧
      KeepsUnsent twoBytes [.eintr, .accepted 1, .eagain] 1 := by
  have hleaves : Leaves twoBytes.writeLength [.eintr, .accepted 1, .eagain] 1 :=
    .eintr (by decide) (.accepted 1 (by decide) (by decide) (.eagain (by decide)))
  exact ⟨hleaves, (keepsUnsent_iff twoBytes _ 1 hleaves).2 (.inr (by decide))⟩

/-- When the socket takes nothing, `EPOLLOUT` is not asked for; when it takes one byte of three, the
regions of the `memcpy` overlap. -/
theorem not_keepsUnsent :
    (Leaves twoBytes.writeLength [.eagain] 2 ∧ ¬ KeepsUnsent twoBytes [.eagain] 2) ∧
      Leaves { twoBytes with writeLength := 3 }.writeLength [.accepted 1, .eagain] 2 ∧
      ¬ KeepsUnsent { twoBytes with writeLength := 3 } [.accepted 1, .eagain] 2 := by
  have hnone : Leaves twoBytes.writeLength [.eagain] 2 := .eagain (by decide)
  have hmost : Leaves { twoBytes with writeLength := 3 }.writeLength [.accepted 1, .eagain] 2 :=
    .accepted 1 (by decide) (by decide) (.eagain (by decide))
  refine ⟨⟨hnone, not_keepsUnsent_none (by decide) hnone⟩, hmost, ?_⟩
  rw [keepsUnsent_part_iff (by decide) (by decide) hmost]
  decide

end WebServer.Http
