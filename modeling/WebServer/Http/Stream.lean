import WebServer.Http.Session

/-!
# The response stream

`HandleWrite` moves the unsent end of a response to the front of `write_buff` and asks for
`EPOLLOUT`, but `handle_event` has no path that goes on writing. After an `EAGAIN` the end of the
response is lost: to the next response, which is written over it, or to the close of a connection
that is not kept alive. A NUL in what the response reflects of the request ends the copy of
`sprintf` early, and `send` takes the rest from what was in the buffer before.

`sent_isPrefix_of_clear` is the integrity of the stream over every run in which these three do not
happen; `cutShort_not_isPrefix` is a run in which the first does.
-/

namespace WebServer.Http

open Lib

/-! ## Responses without NUL -/

/-- What the response reflects of the request has no NUL: the version, and the URI if it names a
file. -/
def NulFree (env : Env) (recvHttp : HttpHandle) : Prop :=
  0 ∉ recvHttp.version ∧
    ((mappedFile env recvHttp.uri).isSome = true → 0 ∉ recvHttp.uri.drop 1)

instance (env : Env) (recvHttp : HttpHandle) : Decidable (NulFree env recvHttp) :=
  inferInstanceAs (Decidable (_ ∧ _))

theorem zero_notMem_decimal (n : ℕ) : 0 ∉ decimal n := by
  intro h
  exact absurd (decimal_digit h).1 (by decide)

theorem zero_notMem_cStr (s : Bytes) : 0 ∉ cStr s := by
  intro h
  simpa using List.mem_takeWhile_imp h

theorem zero_notMem_indexPage (env : Env) : 0 ∉ indexPage env := by
  have htop : 0 ∉ indexTop := by decide +kernel
  have hend : 0 ∉ str "</body></html>" := by decide
  have hlist : 0 ∉ (listedNames env).flatMap sourceLink := by
    intro h
    obtain ⟨name, hname, h⟩ := List.mem_flatMap.mp h
    have hname0 : 0 ∉ name := by
      unfold listedNames at hname
      split at hname
      · obtain ⟨d, -, rfl⟩ := List.mem_map.mp hname
        exact d.zero_notMem
      · cases hname
    have h1 : 0 ∉ str "<br><a href=\"/source/" := by decide
    have h2 : 0 ∉ str "\">" := by decide
    have h3 : 0 ∉ str "</a>" := by decide
    simp [sourceLink, h1, h2, h3, hname0] at h
  simp [indexPage, htop, hend, hlist]

theorem zero_notMem_filePage {title text : Bytes} (h1 : 0 ∉ title) (h2 : 0 ∉ text) :
    0 ∉ filePage title text := by
  have h0 : 0 ∉ filePage [] [] := by decide +kernel
  simp only [filePage, List.mem_append, not_or] at h0 ⊢
  simp only [h0, h1, h2, not_false_eq_true, and_self]

theorem zero_notMem_responseHead {version : Bytes} (hv : 0 ∉ version) {status contentType : String}
    (hs : 0 ∉ str status) (ht : 0 ∉ str contentType) (body : Bytes) :
    0 ∉ responseHead version status contentType body := by
  have h1 : 0 ∉ str "Connection: Keep-Alive\r\n" := by decide
  have h2 : 0 ∉ str "Content-Length: " := by decide
  have h3 : 0 ∉ str "\r\n" := by decide
  simp [responseHead, hv, hs, ht, h1, h2, h3, zero_notMem_decimal]

/-- Such a response has no NUL. -/
theorem NulFree.zero_notMem {env : Env} {chunk : Bytes} {r : Reply}
    (hn : NulFree env (parseChunk chunk)) (h : handleHttp env chunk = some r) :
    0 ∉ r.sendStr := by
  obtain ⟨hv, huri⟩ := hn
  have hok : 0 ∉ str " 200 OK\r\n" := by decide
  have hnf : 0 ∉ str " 404 NOTFOUND\r\n" := by decide
  have hct : 0 ∉ str "Content-type: text/html\r\n" := by decide
  have hcT : 0 ∉ str "Content-Type: text/html\r\n" := by decide
  have hhello : 0 ∉ helloPage := by decide
  have hnot : 0 ∉ notFoundPage := by decide
  rw [Reply.sendStr, List.mem_append, not_or]
  obtain ⟨-, hhead, hbody⟩ | ⟨-, -, hhead, hbody⟩ |
    ⟨-, -, ⟨memory, text, hmem, htext, hbody⟩, hhead⟩ | ⟨-, -, -, hbody, hhead⟩ :=
    handleHttp_cases h
  · rw [hhead, hbody]
    exact ⟨zero_notMem_responseHead hv hok hct _, zero_notMem_indexPage env⟩
  · rw [hhead, hbody]
    exact ⟨zero_notMem_responseHead hv hok hcT _, hhello⟩
  · have htext0 : 0 ∉ text := by
      unfold cString at htext
      split at htext
      · obtain rfl := Option.some.inj htext
        exact zero_notMem_cStr memory
      · cases htext
    rw [hhead, hbody]
    exact ⟨zero_notMem_responseHead hv hok hcT _,
      zero_notMem_filePage (huri (by rw [hmem]; rfl)) htext0⟩
  · rw [hhead, hbody]
    exact ⟨zero_notMem_responseHead hv hnf hcT _, hnot⟩

/-! ## The stream -/

/-- The condition on a step: what the response will reflect has no NUL, bytes are sent only if no
byte of an earlier response is missing, and `EAGAIN` comes only on a connection that is kept
alive. -/
def Clear (s : Session) : Label → Prop
  | .event env chunk => NulFree env (parseChunk chunk)
  | .send _ => s.sent.length + s.pc.left = s.built.flatten.length
  | .eagain => s.keepAlive = true
  | _ => True

instance (s : Session) (a : Label) : Decidable (Clear s a) := by
  cases a <;> unfold Clear <;> infer_instance

/-- The invariant of a run whose steps are clear. -/
structure Intact (s : Session) : Prop where
  isPrefix : s.sent <+: s.built.flatten
  writing : ∀ off left, s.pc = .writing off left → ∃ before r, s.built = before ++ [r] ∧
    off + left = r.length ∧
      ∀ o k, o + k ≤ r.length → bytesAt s.writeBuff o k = (r.drop o).take k
  /-- Until the connection is kept alive, nothing is missing. -/
  owed : s.keepAlive = false → s.sent.length + s.pc.left = s.built.flatten.length
  busy : s.pc ≠ .idle → s.polled = false
  closed : s.closed = true → s.sent = s.built.flatten ∧ s.pc = .idle ∧ s.registered = false ∧
    s.polled = false

theorem new_intact (buff : ℕ → UInt8) : Intact (.new buff) where
  isPrefix := List.prefix_refl _
  writing := by
    intro _ _ h
    cases h
  owed := fun _ => rfl
  busy := fun _ => rfl
  closed := by
    intro h
    cases h

namespace Intact

variable {s t : Session} {env : Env} {chunk : Bytes} {k : ℕ} {wlen : ℤ}

theorem poll (h : Intact s) (hr : s.registered = true) (hpc : s.pc = .idle) :
    Intact { s with polled := true } :=
  { h with
    busy := fun hne => absurd hpc hne
    closed := by
      intro hc
      have := (h.closed hc).2.2.1
      rw [hr] at this
      cases this }

theorem event (h : Intact s) (hp : s.polled = true) (hpc : s.pc = .idle)
    (hn : NulFree env (parseChunk chunk))
    (ht : { s with polled := false }.handleEvent env chunk = some t) : Intact t := by
  have hopen : s.closed = false := by
    by_contra hc
    have := (h.closed (by simpa using hc)).2.2.2
    rw [hp] at this
    cases this
  unfold Session.handleEvent at ht
  split at ht
  · obtain rfl := Option.some.inj ht
    exact { h with
      busy := fun _ => rfl
      closed := by
        intro hc
        cases hopen.symm.trans hc }
  · unfold Session.handleHttp at ht
    split at ht
    · rename_i r hr
      split at ht
      · obtain rfl := Option.some.inj ht
        have hzero : 0 ∉ r.sendStr := hn.zero_notMem hr
        refine ⟨?_, ?_, ?_, fun _ => rfl, ?_⟩
        · rw [List.flatten_append]
          exact h.isPrefix.trans (List.prefix_append _ _)
        · intro off left hw
          cases hw
          exact ⟨s.built, r.sendStr, rfl, by omega, fun o k hk => bytesAt_sprintf hzero hk⟩
        · intro hk
          have hk' : s.keepAlive = false := by
            simp only [Bool.or_eq_false_iff] at hk
            exact hk.1
          have := h.owed hk'
          rw [hpc] at this
          simp only [Pc.left, List.flatten_append, List.length_append,
            List.flatten_singleton] at this ⊢
          omega
        · intro hc
          cases hopen.symm.trans hc
      · cases ht
    · cases ht

/-- What `send` takes from the buffer is the next piece of the stream. -/
theorem send {off left : ℕ} (h : Intact s) (hpc : s.pc = .writing off left) (hk : k ≤ left)
    (hc : s.sent.length + s.pc.left = s.built.flatten.length) :
    Intact { s with
      sent := s.sent ++ bytesAt s.writeBuff off k, pc := .writing (off + k) (left - k) } := by
  obtain ⟨before, r, hbuilt, hlen, hbuff⟩ := h.writing off left hpc
  have hpre := h.isPrefix
  rw [hpc, hbuilt] at hc
  simp only [Pc.left, List.flatten_append, List.length_append, List.flatten_singleton] at hc
  have hsent : s.sent = before.flatten ++ r.take off := by
    rw [hbuilt, List.flatten_append, List.flatten_singleton, List.prefix_iff_eq_take] at hpre
    have hoff : s.sent.length = before.flatten.length + off := by omega
    rw [hpre, hoff, List.take_length_add_append]
  have hpiece : bytesAt s.writeBuff off k = (r.drop off).take k := hbuff off k (by omega)
  have hnext : s.sent ++ bytesAt s.writeBuff off k = before.flatten ++ r.take (off + k) := by
    rw [hsent, hpiece, List.append_assoc, ← List.take_add]
  refine ⟨?_, ?_, ?_, ?_, ?_⟩
  · show s.sent ++ bytesAt s.writeBuff off k <+: s.built.flatten
    rw [hnext, hbuilt, List.flatten_append, List.flatten_singleton]
    exact (List.prefix_append_right_inj _).2 (List.take_prefix _ _)
  · intro o l hw
    cases hw
    exact ⟨before, r, hbuilt, by omega, hbuff⟩
  · intro _
    show (s.sent ++ bytesAt s.writeBuff off k).length + (left - k) = s.built.flatten.length
    rw [hnext, hbuilt]
    simp only [List.flatten_append, List.length_append, List.flatten_singleton, List.length_take]
    omega
  · intro _
    exact h.busy (by simp [hpc])
  · intro hcl
    have := (h.closed hcl).2.1
    rw [hpc] at this
    cases this

/-- `handle_event` returns: on a connection that is not kept alive all bytes have to be sent. -/
theorem leave (h : Intact s) (hpc : s.pc ≠ .idle)
    (hc : s.keepAlive = false → s.pc.left = 0) : Intact (s.handleWrite wlen).leave := by
  have hopen : s.closed = false := by
    by_contra hcl
    exact hpc (h.closed (by simpa using hcl)).2.1
  obtain ⟨hs, hb, hidle, hp, hk, hreg, hcl⟩ := s.leave_handleWrite wlen
  have hlen : s.keepAlive = false → s.sent.length = s.built.flatten.length := by
    intro hkeep
    have := h.owed hkeep
    rw [hc hkeep] at this
    exact this
  refine ⟨?_, ?_, ?_, ?_, ?_⟩
  · rw [hs, hb]
    exact h.isPrefix
  · intro _ _ hw
    cases hidle.symm.trans hw
  · intro hkeep
    rw [hs, hb, hidle]
    exact hlen (hk ▸ hkeep)
  · intro hne
    exact absurd hidle hne
  · intro hclosed
    have hkeep : s.keepAlive = false := by
      rw [hcl, hopen] at hclosed
      simpa using hclosed
    rw [hs, hb, hidle, hreg, hp, hkeep, Bool.and_false]
    exact ⟨h.isPrefix.eq_of_length (hlen hkeep), rfl, rfl, h.busy hpc⟩

end Intact

theorem step_intact {s t : Session} {a : Label} (h : Intact s) (hc : Clear s a)
    (hs : step s a = some t) : Intact t := by
  cases a with
  | poll =>
    simp only [step] at hs
    split at hs
    · rename_i hg
      obtain rfl := Option.some.inj hs
      exact h.poll hg.1 hg.2
    · cases hs
  | event env chunk =>
    simp only [step] at hs
    split at hs
    · rename_i hg
      exact h.event hg.1 hg.2.1 hc hs
    · cases hs
  | send k =>
    simp only [step] at hs
    split at hs
    · rename_i off left hpc
      split at hs
      · rename_i hk
        obtain rfl := Option.some.inj hs
        exact h.send hpc hk.2 hc
      · cases hs
    · cases hs
  | eagain =>
    simp only [step] at hs
    split at hs
    · rename_i hleft
      obtain rfl := Option.some.inj hs
      refine h.leave (fun hpc => ?_) (fun hk => ?_)
      · simp [hpc, Pc.left] at hleft
      · exact absurd hc (by simp [Clear, hk])
    · cases hs
  | eintr =>
    simp only [step] at hs
    split at hs
    · obtain rfl := Option.some.inj hs
      exact h
    · cases hs
  | finish =>
    simp only [step] at hs
    split at hs
    · rename_i hpc
      obtain rfl := Option.some.inj hs
      exact h.leave (by simp [hpc]) (fun _ => by rw [hpc]; rfl)
    · cases hs
  | expire =>
    simp only [step] at hs
    split at hs
    · obtain rfl := Option.some.inj hs
      exact { h with
        closed := fun hcl =>
          let ⟨h1, h2, _, h3⟩ := h.closed hcl
          ⟨h1, h2, rfl, h3⟩ }
    · cases hs

/-- **Integrity of the response stream.** In every state of every run whose steps are clear, the
bytes sent are a prefix of the responses built, and all of them once the connection is closed for
not being kept alive. -/
theorem sent_isPrefix_of_clear {buff : ℕ → UInt8} {l : List Label} {t : Session}
    (h : Exec step Clear (.new buff) l t) :
    t.sent <+: t.built.flatten ∧ (t.closed = true → t.sent = t.built.flatten) := by
  have hi : Intact t := h.invariant (new_intact buff) fun _ _ _ hi hc hs => step_intact hi hc hs
  exact ⟨hi.isPrefix, fun hc => (hi.closed hc).1⟩

/-- A request for the hello page on a connection to be kept alive. -/
def helloKeepAlive : Request :=
  ⟨str "GET", str "/hello", str "HTTP/1.1", [(str "Connection", str "keep-alive")]⟩

/-- A response sent in two pieces, and a second one. -/
def clearRun : List Label :=
  [.poll, .event emptyEnv helloKeepAlive.render, .send 100, .eintr, .send 123, .finish,
    .poll, .event emptyEnv helloRequest.render, .send 223, .finish]

theorem sent_isPrefix_of_clear_two_requests :
    ∃ t, Exec step Clear (.new fun _ => 0) clearRun t ∧ t.built.length = 2 ∧
      t.sent <+: t.built.flatten := by
  have hrun : (runIf step Clear (.new fun _ => 0) clearRun).map (fun t => t.built.length) =
      some 2 := by decide +kernel
  obtain ⟨t, ht, hlen⟩ := Option.map_eq_some_iff.mp hrun
  have hexec := exec_of_runIf ht
  exact ⟨t, hexec, hlen, (sent_isPrefix_of_clear hexec).1⟩

/-- A response of which one byte is sent, and one byte of the response to the next request. -/
def cutShort : List Label :=
  [.poll, .event emptyEnv helloKeepAlive.render, .send 1, .eagain,
    .poll, .event emptyEnv helloKeepAlive.render, .send 1]

/-- A response of which one byte is sent, on a connection that is not kept alive. -/
def cutClosed : List Label := [.poll, .event emptyEnv helloRequest.render, .send 1, .eagain]

/-- The rest of a response is lost to the next one, or to the close. -/
theorem cutShort_not_isPrefix :
    (∃ t, Exec step Always (.new fun _ => 0) cutShort t ∧ ¬ t.sent <+: t.built.flatten) ∧
      ∃ t, Exec step Always (.new fun _ => 0) cutClosed t ∧ t.closed = true ∧
        t.sent ≠ t.built.flatten := by
  have hshort : (runIf step Always (.new fun _ => 0) cutShort).map
      (fun t => decide (t.sent <+: t.built.flatten)) = some false := by decide +kernel
  have hclosed : (runIf step Always (.new fun _ => 0) cutClosed).map
      (fun t => (t.closed, decide (t.sent = t.built.flatten))) = some (true, false) := by
    decide +kernel
  obtain ⟨t, ht, hpre⟩ := Option.map_eq_some_iff.mp hshort
  obtain ⟨u, hu, hall⟩ := Option.map_eq_some_iff.mp hclosed
  rw [Prod.mk.injEq] at hall
  exact ⟨⟨t, exec_of_runIf ht, of_decide_eq_false hpre⟩, u, exec_of_runIf hu, hall.1,
    of_decide_eq_false hall.2⟩

end WebServer.Http
