import Mathlib.Data.List.Forall2
import WebServer.Http.Stream

/-!
# How the stream of requests is cut

Every event is handled on its own: `readn` clears `read_buff`, `handle_http` parses what was
received from its first byte on and builds one response, and the position of the parser is dropped.
So the responses depend on how the stream of requests is cut into events. `built_serve` says what
they are for every cutting: the answers to the chunks, one for each, or the answer to the first
chunk alone if it does not show a connection to be kept alive.

`responses_of_requests` is what remains of the independence of the cutting: chunks that begin with
the same request are answered alike. `recut_responses_differ` is one request that gets two responses
when it is received in two pieces.
-/

namespace WebServer.Http

open Lib

/-! ## Serving a connection -/

/-- The response to what one event receives. -/
def answer (env : Env) (chunk : Bytes) : Option Bytes :=
  match handleHttp env chunk with
  | some r => if r.sendStr.length + 1 ≤ maxReadWriteBuffLength then some r.sendStr else none
  | none => none

/-- An event that receives `chunk`, where one `send` takes the whole response. A channel that is not
registered has no events. -/
def exchange (env : Env) (s : Session) (chunk : Bytes) : Option Session :=
  if s.registered then do
    let s ← step s .poll
    let s ← step s (.event env chunk)
    let s ← step s (.send s.pc.left)
    step s .finish
  else some s

/-- The events of a connection, one for each chunk. -/
def serve (env : Env) (s : Session) (chunks : List Bytes) : Option Session :=
  chunks.foldlM (exchange env) s

/-- The chunks that are answered: all of them, or the first alone. -/
def answered : List Bytes → List Bytes
  | [] => []
  | chunk :: chunks => chunk :: if (parseChunk chunk).keepAlive then chunks else []

theorem length_answer_pos {env : Env} {chunk r : Bytes} (h : answer env chunk = some r) :
    0 < r.length := by
  unfold answer at h
  split at h
  · rename_i reply hreply
    split at h
    · obtain rfl := Option.some.inj h
      obtain ⟨status, contentType, hhead⟩ := handleHttp_head hreply
      rw [Reply.sendStr, hhead, List.length_append, length_responseHead]
      omega
    · cases h
  · cases h

section Serve

variable {env : Env} {s : Session} {chunk : Bytes}

/-- `handle_event` builds the answer. -/
theorem handleEvent_eq (s : Session) (env : Env) (hne : chunk ≠ []) :
    s.handleEvent env chunk = (answer env chunk).map fun r =>
      { s with
        keepAlive := s.keepAlive || (parseChunk chunk).keepAlive
        writeBuff := sprintf s.writeBuff r
        writeLength := r.length
        pc := .writing 0 r.length
        built := s.built ++ [r] } := by
  unfold Session.handleEvent Session.handleHttp answer
  rw [if_neg hne]
  cases handleHttp env chunk with
  | none => rfl
  | some r =>
    dsimp only
    split <;> rfl

theorem exchange_none (hr : s.registered = true) (hpc : s.pc = .idle) (hne : chunk ≠ [])
    (hlen : chunk.length ≤ maxReadWriteBuffLength) (h : answer env chunk = none) :
    exchange env s chunk = none := by
  simp [exchange, step, hr, hpc, hlen, handleEvent_eq _ env hne, h]

/-- An event adds the answer to its chunk, and the channel stays registered if the connection is
kept alive, because of this request or of an earlier one. -/
theorem exchange_some {r : Bytes} (hr : s.registered = true) (hpc : s.pc = .idle) (hne : chunk ≠ [])
    (hlen : chunk.length ≤ maxReadWriteBuffLength) (h : answer env chunk = some r) :
    ∃ t, exchange env s chunk = some t ∧ t.built = s.built ++ [r] ∧ t.pc = .idle ∧
      t.keepAlive = (s.keepAlive || (parseChunk chunk).keepAlive) ∧ t.registered = t.keepAlive := by
  have hpos := length_answer_pos h
  -- the state in which the loop of `writen` ends
  obtain ⟨u, hu⟩ : ∃ u : Session, u = { s with
      polled := false
      keepAlive := s.keepAlive || (parseChunk chunk).keepAlive
      writeBuff := sprintf s.writeBuff r
      writeLength := r.length
      sent := s.sent ++ bytesAt (sprintf s.writeBuff r) 0 r.length
      pc := .writing (0 + r.length) 0
      built := s.built ++ [r] } := ⟨_, rfl⟩
  have hrun : exchange env s chunk = some (u.handleWrite (-1)).leave := by
    simp [exchange, step, hr, hpc, hlen, handleEvent_eq _ env hne, h, Pc.left, hpos, hu]
  obtain ⟨-, hb, hidle, -, hk, hreg, -⟩ := u.leave_handleWrite (-1)
  refine ⟨_, hrun, ?_, hidle, ?_, ?_⟩
  · rw [hb, hu]
  · rw [hk, hu]
  · rw [hreg, hk, hu]
    simp [hr]

/-- From the first answer on a connection that is kept alive, every chunk is answered. -/
theorem built_serve_keepAlive (chunks : List Bytes) (hr : s.registered = true) (hpc : s.pc = .idle)
    (hk : s.keepAlive = true) (hne : ∀ c ∈ chunks, c ≠ [])
    (hlen : ∀ c ∈ chunks, c.length ≤ maxReadWriteBuffLength) :
    (serve env s chunks).map Session.built = (chunks.mapM (answer env)).map (s.built ++ ·) := by
  induction chunks generalizing s with
  | nil => simp [serve]
  | cons chunk chunks ih =>
    have hne' : ∀ c ∈ chunks, c ≠ [] := fun c hc => hne c (List.mem_cons_of_mem _ hc)
    have hlen' : ∀ c ∈ chunks, c.length ≤ maxReadWriteBuffLength :=
      fun c hc => hlen c (List.mem_cons_of_mem _ hc)
    have hcne := hne chunk (List.mem_cons_self ..)
    have hclen := hlen chunk (List.mem_cons_self ..)
    cases hans : answer env chunk with
    | none => simp [serve, exchange_none hr hpc hcne hclen hans, hans]
    | some r =>
      obtain ⟨t, ht, hb, hpc', hk', hr'⟩ := exchange_some hr hpc hcne hclen hans
      rw [hk, Bool.true_or] at hk'
      have hrest := ih (hr'.trans hk') hpc' hk' hne' hlen'
      have hserve : serve env s (chunk :: chunks) = serve env t chunks := by simp [serve, ht]
      rw [hserve, hrest, hb]
      cases hm : chunks.mapM (answer env) with
      | none => simp [hans, hm]
      | some rs => simp [hans, hm]

/-- A channel that is not registered stays as it is. -/
theorem serve_unregistered (chunks : List Bytes) (hr : s.registered = false) :
    serve env s chunks = some s := by
  induction chunks with
  | nil => rfl
  | cons chunk chunks ih =>
    have hstay : exchange env s chunk = some s := by simp [exchange, hr]
    simp only [serve, List.foldlM_cons, hstay] at ih ⊢
    exact ih

/-- **The responses on a connection**, for every cutting of what is received. -/
theorem built_serve {buff : ℕ → UInt8} (chunks : List Bytes) (hne : ∀ c ∈ chunks, c ≠ [])
    (hlen : ∀ c ∈ chunks, c.length ≤ maxReadWriteBuffLength) :
    (serve env (.new buff) chunks).map Session.built = (answered chunks).mapM (answer env) := by
  cases chunks with
  | nil => rfl
  | cons chunk chunks =>
    have hne' : ∀ c ∈ chunks, c ≠ [] := fun c hc => hne c (List.mem_cons_of_mem _ hc)
    have hlen' : ∀ c ∈ chunks, c.length ≤ maxReadWriteBuffLength :=
      fun c hc => hlen c (List.mem_cons_of_mem _ hc)
    have hcne := hne chunk (List.mem_cons_self ..)
    have hclen := hlen chunk (List.mem_cons_self ..)
    cases hans : answer env chunk with
    | none =>
      have hnone : exchange env (.new buff) chunk = none := exchange_none rfl rfl hcne hclen hans
      simp [serve, hnone, answered, hans]
    | some r =>
      obtain ⟨t, ht, hb, hpc, hk, hr⟩ : ∃ t, exchange env (.new buff) chunk = some t ∧ _ :=
        exchange_some rfl rfl hcne hclen hans
      have hserve : serve env (.new buff) (chunk :: chunks) = serve env t chunks := by
        simp [serve, ht]
      have hb' : t.built = [r] := hb
      have hk' : t.keepAlive = (parseChunk chunk).keepAlive := hk
      rw [hserve, answered, List.mapM_cons, hans]
      cases hkeep : (parseChunk chunk).keepAlive with
      | true =>
        have hkt := hk'.trans hkeep
        rw [built_serve_keepAlive chunks (hr.trans hkt) hpc hkt hne' hlen', hb', if_pos rfl]
        cases chunks.mapM (answer env) <;> rfl
      | false =>
        rw [serve_unregistered chunks (hr.trans (hk'.trans hkeep)), Option.map_some, hb']
        rfl

end Serve

/-! ## Streams of requests -/

/-- The bytes of requests sent one after another. -/
def stream (rs : List Request) : Bytes := rs.flatMap Request.render

theorem render_isPrefix_stream (r : Request) (rs : List Request) :
    r.render <+: stream (r :: rs) :=
  List.prefix_append _ _

/-- The stream of `rs` is cut into `chunks`, each of which one event can receive. -/
structure Cutting (rs : List Request) (chunks : List Bytes) : Prop where
  flatten : chunks.flatten = stream rs
  ne_nil : ∀ c ∈ chunks, c ≠ []
  length_le : ∀ c ∈ chunks, c.length ≤ maxReadWriteBuffLength

/-- The request asks for the connection to be kept alive. -/
def Request.KeepAlive (r : Request) : Prop :=
  HttpHandle.keepAlive ⟨r.method, r.uri, r.version, headerMap (fun _ => none) r.headers⟩ = true

/-- The chunks are equal, or begin with the same request. -/
def SameStart (c c' : Bytes) : Prop :=
  c = c' ∨ ∃ r : Request, r.Wf ∧ r.render <+: c ∧ r.render <+: c'

theorem parseChunk_of_isPrefix {r : Request} {c : Bytes} (hr : r.Wf) (h : r.render <+: c) :
    parseChunk c = ⟨r.method, r.uri, r.version, headerMap (fun _ => none) r.headers⟩ := by
  obtain ⟨rest, rfl⟩ := h
  exact parse_render hr rest

theorem SameStart.parseChunk_eq {c c' : Bytes} (h : SameStart c c') :
    parseChunk c = parseChunk c' := by
  obtain rfl | ⟨r, hr, h1, h2⟩ := h
  · rfl
  · rw [parseChunk_of_isPrefix hr h1, parseChunk_of_isPrefix hr h2]

theorem answer_congr {c c' : Bytes} (env : Env) (h : parseChunk c = parseChunk c') :
    answer env c = answer env c' := by
  unfold answer handleHttp
  rw [h]

theorem mapM_answer_congr {chunks chunks' : List Bytes} (env : Env)
    (h : List.Forall₂ SameStart chunks chunks') :
    chunks.mapM (answer env) = chunks'.mapM (answer env) := by
  induction h with
  | nil => rfl
  | cons hc _ ih => rw [List.mapM_cons, List.mapM_cons, answer_congr env hc.parseChunk_eq, ih]

theorem answered_forall₂ {chunks chunks' : List Bytes} (h : List.Forall₂ SameStart chunks chunks') :
    List.Forall₂ SameStart (answered chunks) (answered chunks') := by
  cases h with
  | nil => exact .nil
  | cons hc hrest =>
    rw [answered, answered, hc.parseChunk_eq]
    split
    · exact .cons hc hrest
    · exact .cons hc .nil

/-- A chunk of whole requests is answered by the response to the first of them. -/
theorem mapM_answer_groups {groups : List (List Request)} (env : Env)
    (hwf : ∀ g ∈ groups, ∀ r ∈ g, r.Wf) (hne : ∀ g ∈ groups, stream g ≠ []) :
    (groups.map stream).mapM (answer env) =
      (groups.filterMap List.head?).mapM fun r => answer env r.render := by
  induction groups with
  | nil => rfl
  | cons g groups ih =>
    have hrest := ih (fun g hg => hwf g (List.mem_cons_of_mem _ hg))
      (fun g hg => hne g (List.mem_cons_of_mem _ hg))
    cases g with
    | nil => exact absurd rfl (hne [] (List.mem_cons_self ..))
    | cons r g =>
      have hr : r.Wf := hwf _ (List.mem_cons_self ..) r (List.mem_cons_self ..)
      have hstart : answer env (stream (r :: g)) = answer env r.render := by
        apply answer_congr env
        rw [parseChunk_of_isPrefix hr (render_isPrefix_stream r g),
          parseChunk_of_isPrefix hr (List.prefix_refl _)]
      rw [List.map_cons, List.mapM_cons, hstart, hrest,
        List.filterMap_cons_some (List.head?_cons ..), List.mapM_cons]

/-- **The responses to a stream of requests.** Each chunk is answered on its own; cuttings whose
chunks begin with the same requests have the same responses; and if the stream is cut between
requests only, the responses are those to the first request of each chunk. -/
theorem responses_of_requests {rs : List Request} (hwf : ∀ r ∈ rs, r.Wf)
    (hkeep : ∀ r ∈ rs, r.KeepAlive) (env : Env) (buff buff' : ℕ → UInt8) :
    (∀ chunks, Cutting rs chunks →
      (serve env (.new buff) chunks).map Session.built = (answered chunks).mapM (answer env)) ∧
    (∀ chunks chunks', Cutting rs chunks → Cutting rs chunks' →
      List.Forall₂ SameStart chunks chunks' →
        (serve env (.new buff) chunks).map Session.built =
          (serve env (.new buff') chunks').map Session.built) ∧
    (∀ groups : List (List Request), groups.flatten = rs → Cutting rs (groups.map stream) →
      (serve env (.new buff) (groups.map stream)).map Session.built =
        (groups.filterMap List.head?).mapM fun r => answer env r.render) := by
  refine ⟨fun chunks hc => built_serve chunks hc.ne_nil hc.length_le, ?_, ?_⟩
  · intro chunks chunks' hc hc' hsame
    rw [built_serve chunks hc.ne_nil hc.length_le, built_serve chunks' hc'.ne_nil hc'.length_le]
    exact mapM_answer_congr env (answered_forall₂ hsame)
  · intro groups hflat hc
    have hmem : ∀ g ∈ groups, ∀ r ∈ g, r ∈ rs := by
      intro g hg r hr
      rw [← hflat]
      exact List.mem_flatten_of_mem hg hr
    have hne : ∀ g ∈ groups, stream g ≠ [] :=
      fun g hg => hc.ne_nil _ (List.mem_map_of_mem hg)
    -- the first chunk begins with a request that asks for the connection to be kept alive
    have hall : answered (groups.map stream) = groups.map stream := by
      cases groups with
      | nil => rfl
      | cons g groups =>
        cases g with
        | nil => exact absurd rfl (hne [] (List.mem_cons_self ..))
        | cons r g =>
          have hr : r ∈ rs := hmem _ (List.mem_cons_self ..) r (List.mem_cons_self ..)
          have hka : (parseChunk (stream (r :: g))).keepAlive = true := by
            rw [parseChunk_of_isPrefix (hwf r hr) (render_isPrefix_stream r g)]
            exact hkeep r hr
          rw [List.map_cons, answered, if_pos hka]
    rw [built_serve _ hc.ne_nil hc.length_le, hall]
    exact mapM_answer_groups env (fun g hg r hr => hwf r (hmem g hg r hr)) hne

theorem helloKeepAlive_wf : helloKeepAlive.Wf := by
  constructor <;> decide +kernel

theorem helloKeepAlive_keepAlive : helloKeepAlive.KeepAlive := by
  unfold Request.KeepAlive
  decide

theorem responses_of_requests_two :
    (serve emptyEnv (.new fun _ => 0) [helloKeepAlive.render, helloKeepAlive.render]).map
      Session.built = [helloKeepAlive, helloKeepAlive].mapM fun r => answer emptyEnv r.render := by
  have hcut : Cutting [helloKeepAlive, helloKeepAlive]
      [stream [helloKeepAlive], stream [helloKeepAlive]] := by
    constructor <;> decide
  have hwf : ∀ r ∈ [helloKeepAlive, helloKeepAlive], r.Wf := by
    simp [helloKeepAlive_wf]
  have hkeep : ∀ r ∈ [helloKeepAlive, helloKeepAlive], r.KeepAlive := by
    simp [helloKeepAlive_keepAlive]
  have h := (responses_of_requests hwf hkeep emptyEnv (fun _ => 0) (fun _ => 0)).2.2
    [[helloKeepAlive], [helloKeepAlive]] rfl hcut
  simpa [stream] using h

/-- One request, received whole or without the line end that closes it and then that line end: the
line end is answered as a request of its own. -/
theorem recut_responses_differ :
    ∃ rs chunks chunks', (∀ r ∈ rs, r.Wf) ∧ (∀ r ∈ rs, r.KeepAlive) ∧ Cutting rs chunks ∧
      Cutting rs chunks' ∧ (serve emptyEnv (.new fun _ => 0) chunks).map Session.built ≠
        (serve emptyEnv (.new fun _ => 0) chunks').map Session.built := by
  refine ⟨[helloKeepAlive], [helloKeepAlive.render],
    [helloKeepAlive.render.dropLast.dropLast, [cr, lf]], ?_, ?_, ?_, ?_, ?_⟩
  · exact List.forall_mem_singleton.mpr helloKeepAlive_wf
  · exact List.forall_mem_singleton.mpr helloKeepAlive_keepAlive
  · constructor <;> decide
  · constructor <;> decide
  · decide +kernel

end WebServer.Http
