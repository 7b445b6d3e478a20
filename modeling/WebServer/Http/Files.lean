import WebServer.Http.Response
import WebServer.Lib.Exec

/-!
# The files of requests

The descriptors and the mappings that the process holds, along the requests it handles.
`handle_http` opens the file named by the URI and tests `request_fd > 0 && mmap(...) != MAP_FAILED`.
It unmaps and closes it in the branch where both are true; the branch for what was not found closes
nothing, though it is also the branch of a file that was opened as descriptor 0 or could not be
mapped, as a directory cannot. `files_released_iff`: requests do not leak exactly if none of them is
of this kind.
-/

namespace WebServer.Http

open Lib

/-! ## Descriptors and mappings -/

/-- The open descriptors, and the descriptors the mappings were made from. -/
structure Files where
  fds : List ℤ
  maps : List ℤ
  deriving DecidableEq

/-- A call. `open` does not return a descriptor that is open, and only what is there is closed or
unmapped. -/
def Files.call (files : Files) : FileCall → Option Files
  | .opened fd => if fd ∈ files.fds then none else some { files with fds := fd :: files.fds }
  | .mapped fd => if fd ∈ files.fds then some { files with maps := fd :: files.maps } else none
  | .unmapped fd =>
    if fd ∈ files.maps then some { files with maps := files.maps.erase fd } else none
  | .closed fd => if fd ∈ files.fds then some { files with fds := files.fds.erase fd } else none

/-- A request: what is received, and what the system calls return. -/
structure FileRequest where
  env : Env
  chunk : Bytes

/-- `handle_http`, as far as files are concerned. -/
def Files.handleHttp (files : Files) (request : FileRequest) : Option Files :=
  match Http.handleHttp request.env request.chunk with
  | some r => r.calls.foldlM Files.call files
  | none => none

/-- The calls of one `handle_http` leave nothing: a descriptor that was opened is closed exactly
once, what was mapped is unmapped, and the process holds what it held before. -/
structure Released (files files' : Files) (calls : List FileCall) : Prop where
  closed {fd : ℤ} : .opened fd ∈ calls → calls.count (.closed fd) = 1
  unmapped {fd : ℤ} : .mapped fd ∈ calls → calls.count (.unmapped fd) = 1
  same : files' = files

/-- The condition on a request: it is for one of the two fixed pages, or its file cannot be opened,
or it is opened as a positive descriptor and mapped. -/
def FileRequest.Releases (request : FileRequest) : Prop :=
  let uri := (parseChunk request.chunk).uri
  let fd := request.env.openFile (cStr uri)
  uri = str "/" ∨ uri = str "/hello" ∨ fd < 0 ∨ fd > 0 ∧ (request.env.mmap fd).isSome

instance (request : FileRequest) : Decidable request.Releases :=
  inferInstanceAs (Decidable (_ ∨ _))

/-! ## One request -/

/-- **The calls of `handle_http`**: none, or all four, or the file is opened and nothing more. -/
theorem handleHttp_calls {request : FileRequest} {r : Reply}
    (h : handleHttp request.env request.chunk = some r) :
    (request.Releases ∧ r.calls = []) ∨
    (request.Releases ∧ ∃ fd, r.calls = [.opened fd, .mapped fd, .unmapped fd, .closed fd]) ∨
    (¬request.Releases ∧ ∃ fd, r.calls = [.opened fd]) := by
  unfold handleHttp respond at h
  split at h
  · rename_i huri
    obtain rfl := Option.some.inj h
    exact .inl ⟨.inl huri, rfl⟩
  rename_i huri
  split at h
  · rename_i hhello
    obtain rfl := Option.some.inj h
    exact .inl ⟨.inr (.inl hhello), rfl⟩
  rename_i hhello
  dsimp only at h
  obtain ⟨fd, hfd⟩ : ∃ fd, fd = request.env.openFile (cStr (parseChunk request.chunk).uri) :=
    ⟨_, rfl⟩
  have hreleases : request.Releases ↔ fd < 0 ∨ fd > 0 ∧ (request.env.mmap fd).isSome := by
    simp [FileRequest.Releases, huri, hhello, ← hfd]
  rw [hreleases]
  simp only [mappedFile, ← hfd] at h
  rcases Int.lt_trichotomy fd 0 with hneg | rfl | hpos
  · have hnot : ¬fd > 0 := by omega
    simp only [if_neg hnot, if_pos hneg] at h
    obtain rfl := Option.some.inj h
    exact .inl ⟨.inl hneg, rfl⟩
  · obtain rfl : _ = r := by simpa using h
    exact .inr (.inr ⟨by simp, 0, rfl⟩)
  · have hnot : ¬fd < 0 := by omega
    simp only [if_pos hpos, if_neg hnot] at h
    split at h
    · rename_i memory hmem
      split at h
      · cases h
      · obtain ⟨text, -, rfl⟩ := Option.map_eq_some_iff.mp h
        exact .inr (.inl ⟨.inr ⟨hpos, by rw [hmem]; rfl⟩, fd, rfl⟩)
    · rename_i hmem
      obtain rfl := Option.some.inj h
      exact .inr (.inr ⟨by simp [hnot, hmem], fd, rfl⟩)

/-- A request leaves nothing exactly if it meets the condition. -/
theorem released_iff {files files' : Files} {request : FileRequest} {r : Reply}
    (hr : handleHttp request.env request.chunk = some r)
    (h : files.handleHttp request = some files') :
    Released files files' r.calls ↔ request.Releases := by
  simp only [Files.handleHttp, hr] at h
  obtain ⟨hyes, hcalls⟩ | ⟨hyes, fd, hcalls⟩ | ⟨hno, fd, hcalls⟩ := handleHttp_calls hr
  · refine iff_of_true ?_ hyes
    rw [hcalls] at h ⊢
    obtain rfl := Option.some.inj h
    exact ⟨by simp, by simp, rfl⟩
  · refine iff_of_true ?_ hyes
    rw [hcalls] at h ⊢
    refine ⟨by simp, by simp, ?_⟩
    by_cases hfd : fd ∈ files.fds
    · simp [Files.call, hfd] at h
    · have hsame : files = files' := by simpa [Files.call, hfd] using h
      exact hsame.symm
  · refine iff_of_false ?_ hno
    intro hreleased
    have hclosed : r.calls.count (.closed fd) = 1 := hreleased.closed (by simp [hcalls])
    simp [hcalls] at hclosed

/-! ## Sequences of requests -/

/-- **Requests do not leak descriptors or mappings**, from whatever the process holds, if and only
if each of them is for a fixed page, or for a file that cannot be opened, or for one that is opened
as a positive descriptor and can be mapped. -/
theorem files_released_iff (files files' : Files) (requests : List FileRequest)
    (h : Exec Files.handleHttp Always files requests files') :
    (∀ (before : List FileRequest) (request : FileRequest) (u v : Files) (r : Reply),
      before ++ [request] <+: requests → Exec Files.handleHttp Always files before u →
      u.handleHttp request = some v → handleHttp request.env request.chunk = some r →
      Released u v r.calls) ↔
    ∀ request ∈ requests, request.Releases := by
  constructor
  · intro hall request hmem
    obtain ⟨before, after, rfl⟩ := List.append_of_mem hmem
    have happ : before ++ request :: after = before ++ [request] ++ after := by simp
    rw [happ] at h hall
    obtain ⟨v, hv, -⟩ := h.split
    obtain ⟨u, hu, -, hstep⟩ := hv.snoc_inv
    obtain ⟨r, hr⟩ : ∃ r, handleHttp request.env request.chunk = some r := by
      cases hrun : handleHttp request.env request.chunk with
      | none => simp [Files.handleHttp, hrun] at hstep
      | some r => exact ⟨r, rfl⟩
    exact (released_iff hr hstep).1
      (hall before request u v r (List.prefix_append _ _) hu hstep hr)
  · intro hall before request u v r hpre _ hstep hr
    exact (released_iff hr hstep).2 (hall request (hpre.subset (by simp)))

/-- The hello page, a file that does not exist, and a file. -/
def threeFiles : List FileRequest :=
  [⟨emptyEnv, str "GET /hello HTTP/1.1\r\n\r\n"⟩,
    ⟨emptyEnv, str "GET /none HTTP/1.1\r\n\r\n"⟩,
    ⟨⟨none, fun _ => 5, fun _ => some [104, 105, 0]⟩, str "GET /a HTTP/1.1\r\n\r\n"⟩]

theorem files_released_iff_three :
    ∃ files', Exec Files.handleHttp Always ⟨[0, 1, 2], []⟩ threeFiles files' ∧
      ∀ (before : List FileRequest) (request : FileRequest) (u v : Files) (r : Reply),
        before ++ [request] <+: threeFiles →
        Exec Files.handleHttp Always ⟨[0, 1, 2], []⟩ before u → u.handleHttp request = some v →
        handleHttp request.env request.chunk = some r → Released u v r.calls := by
  have hrun : runIf Files.handleHttp Always ⟨[0, 1, 2], []⟩ threeFiles = some ⟨[0, 1, 2], []⟩ := by
    decide +kernel
  have hreleases : ∀ request ∈ threeFiles, request.Releases := by decide +kernel
  have hexec := exec_of_runIf hrun
  exact ⟨_, hexec, (files_released_iff _ _ threeFiles hexec).2 hreleases⟩

/-- A directory, which is opened but cannot be mapped, and a file opened as descriptor 0: both stay
open. -/
theorem directory_stays_open :
    ∃ u v r, Files.handleHttp ⟨[1, 2], []⟩
        ⟨⟨none, fun _ => 7, fun _ => none⟩, str "GET /source HTTP/1.1\r\n\r\n"⟩ = some u ∧
      handleHttp ⟨none, fun _ => 7, fun _ => none⟩ (str "GET /source HTTP/1.1\r\n\r\n") = some r ∧
      7 ∈ u.fds ∧ ¬Released ⟨[1, 2], []⟩ u r.calls ∧
      u.handleHttp
        ⟨⟨none, fun _ => 0, fun _ => some [0]⟩, str "GET /a HTTP/1.1\r\n\r\n"⟩ = some v ∧
      0 ∈ v.fds := by
  have hreply : (handleHttp ⟨none, fun _ => 7, fun _ => none⟩
      (str "GET /source HTTP/1.1\r\n\r\n")).map Reply.calls = some [.opened 7] := by decide +kernel
  obtain ⟨r, hr, hcalls⟩ := Option.map_eq_some_iff.mp hreply
  refine ⟨⟨[7, 1, 2], []⟩, ⟨[0, 7, 1, 2], []⟩, r, by decide +kernel, hr, by decide, ?_,
    by decide +kernel, by decide⟩
  intro hreleased
  have hsame : (⟨[7, 1, 2], []⟩ : Files) = ⟨[1, 2], []⟩ := hreleased.same
  revert hsame
  decide

end WebServer.Http
