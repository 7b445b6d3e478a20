import WebServer.Http.Framing
import WebServer.Http.Segments

/-!
# Keeping a connection alive

`Keep_Alive` is set by the first request that asks for it and never cleared, and every response
announces `Connection: Keep-Alive`. So the connection is kept after a request that does not ask for
it, if an earlier one did, and it is closed after a response that announced the contrary, if none
did. `truthful_iff_keepAlive`: the announcements of a connection are true, and its requests decided
one by one, exactly if all of its requests ask for it to be kept alive.
-/

namespace WebServer.Http

open Lib

/-! ## Handling requests -/

/-- One request of a connection: what is received, what the system calls return, and how many bytes
each `send` of the response accepts. An interrupted `send` changes nothing. -/
structure Visit where
  env : Env
  chunk : Bytes
  sends : List ℕ

/-- `handle_event` for a request whose response is sent completely. -/
def handle (s : Session) (v : Visit) : Option Session :=
  if v.chunk = [] then none
  else do
    let s ← step s .poll
    let s ← step s (.event v.env v.chunk)
    let s ← v.sends.foldlM (fun s k => step s (.send k)) s
    step s .finish

/-- The response, as its receiver reads its lines, has the header `Connection: Keep-Alive`. -/
def Announces (response : Bytes) : Prop :=
  str "Connection: Keep-Alive" ∈ Lines.headLines cr lf response

/-- After a request the channel is registered exactly if the request asked for it, and exactly if
the response to it announced it. -/
structure Truthful (v : Visit) (t : Session) : Prop where
  decided : t.registered = true ↔ (parseChunk v.chunk).keepAlive = true
  announced : t.registered = true ↔ ∃ r, t.built.getLast? = some r ∧ Announces r

/-! ## What a request does -/

theorem announces_of_answer {env : Env} {chunk r : Bytes} (h : answer env chunk = some r) :
    Announces r := by
  unfold answer at h
  split at h
  · rename_i reply hreply
    split at h
    · obtain rfl := Option.some.inj h
      obtain ⟨status, contentType, hs, ht, hhead⟩ := handleHttp_lines hreply
      have hv : ∀ b ∈ (parseChunk chunk).version, isEol b = false := version_not_eol _ _
      have hlines := Lines.headLines_render (responseLines_isLine hv hs ht reply.body) reply.body
      have hread : Lines.headLines cr lf reply.sendStr =
          responseLines (parseChunk chunk).version status contentType reply.body := by
        rw [Reply.sendStr, hhead, List.append_assoc]
        exact hlines
      rw [Announces, hread]
      exact List.mem_cons_of_mem _ List.mem_cons_self
    · cases h
  · cases h

theorem send_fields {s t : Session} {k : ℕ} (h : step s (.send k) = some t) :
    t.keepAlive = s.keepAlive ∧ t.registered = s.registered ∧ t.built = s.built := by
  simp only [step] at h
  split at h
  · split at h
    · obtain rfl := Option.some.inj h
      exact ⟨rfl, rfl, rfl⟩
    · cases h
  · cases h

theorem sends_fields {s t : Session} {ks : List ℕ}
    (h : ks.foldlM (fun s k => step s (.send k)) s = some t) :
    t.keepAlive = s.keepAlive ∧ t.registered = s.registered ∧ t.built = s.built := by
  induction ks generalizing s with
  | nil =>
    obtain rfl : s = t := Option.some.inj h
    exact ⟨rfl, rfl, rfl⟩
  | cons k ks ih =>
    rw [List.foldlM_cons] at h
    obtain ⟨u, hu, h⟩ := Option.bind_eq_some_iff.mp h
    obtain ⟨hk, hr, hb⟩ := send_fields hu
    obtain ⟨hk', hr', hb'⟩ := ih h
    exact ⟨hk'.trans hk, hr'.trans hr, hb'.trans hb⟩

theorem finish_fields {s t : Session} (h : step s .finish = some t) :
    t.registered = (s.registered && s.keepAlive) ∧ t.built = s.built := by
  simp only [step] at h
  split at h
  · obtain rfl := Option.some.inj h
    obtain ⟨-, hb, -, -, -, hr, -⟩ := s.leave_handleWrite (-1)
    exact ⟨hr, hb⟩
  · cases h

theorem poll_event_fields {s t u : Session} {env : Env} {chunk : Bytes} (hne : chunk ≠ [])
    (hpoll : step s .poll = some t) (hevent : step t (.event env chunk) = some u) :
    ∃ r, answer env chunk = some r ∧ u.built = s.built ++ [r] ∧ u.registered = true ∧
      u.keepAlive = (s.keepAlive || (parseChunk chunk).keepAlive) := by
  simp only [step] at hpoll hevent
  split at hpoll
  · rename_i hidle
    obtain rfl := Option.some.inj hpoll
    split at hevent
    · rw [handleEvent_eq _ _ hne] at hevent
      obtain ⟨r, hr, rfl⟩ := Option.map_eq_some_iff.mp hevent
      exact ⟨r, hr, rfl, hidle.1, rfl⟩
    · cases hevent
  · cases hpoll

theorem handle_eq {s t : Session} {v : Visit} (h : handle s v = some t) :
    ∃ r, answer v.env v.chunk = some r ∧ t.built = s.built ++ [r] ∧
      t.registered = (s.keepAlive || (parseChunk v.chunk).keepAlive) := by
  unfold handle at h
  split at h
  · cases h
  · rename_i hne
    obtain ⟨s₁, hpoll, hrest₁⟩ := Option.bind_eq_some_iff.mp h
    obtain ⟨s₂, hevent, hrest₂⟩ := Option.bind_eq_some_iff.mp hrest₁
    obtain ⟨s₃, hsends, hfinish⟩ := Option.bind_eq_some_iff.mp hrest₂
    obtain ⟨r, hr, hb, hreg, hk⟩ := poll_event_fields hne hpoll hevent
    obtain ⟨hk', hreg', hb'⟩ := sends_fields hsends
    obtain ⟨hreg'', hb''⟩ := finish_fields hfinish
    refine ⟨r, hr, hb''.trans (hb'.trans hb), ?_⟩
    rw [hreg'', hreg', hreg, hk', hk, Bool.true_and]

/-- A request is handled as it should be exactly if it asks for the connection to be kept alive,
whatever was before. -/
theorem truthful_iff_of_handle {s t : Session} {v : Visit} (h : handle s v = some t) :
    Truthful v t ↔ (parseChunk v.chunk).keepAlive = true := by
  obtain ⟨r, hr, hb, hreg⟩ := handle_eq h
  have hannounced : ∃ r, t.built.getLast? = some r ∧ Announces r :=
    ⟨r, by rw [hb, List.getLast?_append]; rfl, announces_of_answer hr⟩
  constructor
  · intro htruth
    exact htruth.decided.mp (htruth.announced.mpr hannounced)
  · intro hkeep
    have hregistered : t.registered = true := by rw [hreg, hkeep, Bool.or_true]
    exact ⟨by simp [hregistered, hkeep], by simp [hregistered, hannounced]⟩

/-! ## Runs -/

/-- **Keep-alive is decided per request and announced truthfully**, for each of the requests of a
connection, if and only if all of them ask for the connection to be kept alive. -/
theorem truthful_iff_keepAlive (buff : ℕ → UInt8) (visits : List Visit) (s : Session)
    (h : Exec handle Always (.new buff) visits s) :
    (∀ (before : List Visit) (v : Visit) (t : Session), before ++ [v] <+: visits →
      Exec handle Always (.new buff) (before ++ [v]) t → Truthful v t) ↔
        ∀ v ∈ visits, (parseChunk v.chunk).keepAlive = true := by
  constructor
  · intro hall v hv
    obtain ⟨before, after, rfl⟩ := List.append_of_mem hv
    have happ : before ++ v :: after = before ++ [v] ++ after := by simp
    rw [happ] at h hall
    obtain ⟨t, ht, -⟩ := h.split
    obtain ⟨u, -, -, hstep⟩ := ht.snoc_inv
    exact (truthful_iff_of_handle hstep).1 (hall before v t (List.prefix_append _ _) ht)
  · intro hkeep before v t hpre ht
    obtain ⟨u, -, -, hstep⟩ := ht.snoc_inv
    exact (truthful_iff_of_handle hstep).2 (hkeep v (hpre.subset (by simp)))

/-- A request for the hello page that asks for the connection to be kept alive, answered by two
`send`s. -/
def keptVisit : Visit := ⟨emptyEnv, helloKeepAlive.render, [100, 123]⟩

/-- A request for the hello page that does not. -/
def plainVisit : Visit := ⟨emptyEnv, helloRequest.render, [223]⟩

theorem truthful_iff_keepAlive_two :
    ∃ s, Exec handle Always (.new fun _ => 0) [keptVisit, keptVisit] s ∧
      ∀ (before : List Visit) (v : Visit) (t : Session), before ++ [v] <+: [keptVisit, keptVisit] →
        Exec handle Always (.new fun _ => 0) (before ++ [v]) t → Truthful v t := by
  have hrun : (runIf handle Always (.new fun _ => 0) [keptVisit, keptVisit]).isSome = true := by
    decide +kernel
  have hkeep : (parseChunk keptVisit.chunk).keepAlive = true := by decide +kernel
  obtain ⟨s, hs⟩ := Option.isSome_iff_exists.mp hrun
  have hexec := exec_of_runIf hs
  refine ⟨s, hexec, (truthful_iff_keepAlive _ _ s hexec).2 ?_⟩
  simp [hkeep]

/-- The connection is closed after a response that announced the contrary; and it is kept after a
request that did not ask for it, because of an earlier one. -/
theorem plainVisit_not_truthful :
    (∃ t, Exec handle Always (.new fun _ => 0) [plainVisit] t ∧ t.registered = false ∧
      ¬ Truthful plainVisit t) ∧
    ∃ t, Exec handle Always (.new fun _ => 0) [keptVisit, plainVisit] t ∧ t.registered = true ∧
      ¬ Truthful plainVisit t := by
  have hplain : ¬ (parseChunk plainVisit.chunk).keepAlive = true := by decide +kernel
  have hrun : (runIf handle Always (.new fun _ => 0) [plainVisit]).map (·.registered) =
      some false := by decide +kernel
  have hrun' : (runIf handle Always (.new fun _ => 0) [keptVisit, plainVisit]).map (·.registered) =
      some true := by decide +kernel
  obtain ⟨t, ht, hreg⟩ := Option.map_eq_some_iff.mp hrun
  obtain ⟨t', ht', hreg'⟩ := Option.map_eq_some_iff.mp hrun'
  have hexec := exec_of_runIf ht
  have hexec' := exec_of_runIf ht'
  obtain ⟨u, -, -, hstep⟩ := Exec.snoc_inv (l := []) hexec
  obtain ⟨u', -, -, hstep'⟩ := Exec.snoc_inv (l := [keptVisit]) hexec'
  exact ⟨⟨t, hexec, hreg, fun h => hplain ((truthful_iff_of_handle hstep).1 h)⟩,
    t', hexec', hreg', fun h => hplain ((truthful_iff_of_handle hstep').1 h)⟩

end WebServer.Http
