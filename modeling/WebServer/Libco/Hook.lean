import WebServer.Lib.Exec
import WebServer.Libco.Timeout

/-!
# The hooked system calls

For a coroutine that has called `co_enable_hook_sys`, libco makes every socket non-blocking, and
keeps the flags the program asked for in a `rpchook_t` of the descriptor. A hooked `read` of a
descriptor that the program did not ask to be non-blocking polls with the timeout of `SO_RCVTIMEO`
and then reads; every other `read` is that of the system. A hooked `write` polls, with
`SO_SNDTIMEO`, before every call of the one of the system but the first. `setsockopt` stores these
timeouts without a check: a negative one makes `poll` return at once, as `AddTimeout` refuses it.

A state holds the flags of the open descriptors, as the kernel has them, the table of the
`rpchook_t`, and whether the running coroutine has its hooks enabled. The system may refuse an
`F_SETFL`, as it does that of `O_DIRECT` for a socket. `asked` records the flags the program asked
for last, in an `F_SETFL` that was not refused, such as the one in `socket`; of a descriptor that
was accepted, it has not asked for any yet.

* `hooked_flags`: in every run where the hooks are enabled whenever a descriptor with a `rpchook_t`
  is closed or gets flags, a hooked call polls exactly if the program did not ask for `O_NONBLOCK`,
  with the timeout stored, and its calls of the system do not block the thread. But `F_GETFL` is not
  hooked: once a program has added a flag to those it reads, no call polls any longer.
* `hookedWrite_faithful`: a hooked `write` has written the beginning of its buffer of the length it
  returns.
-/

namespace WebServer.Libco

open WebServer.Lib

/-- Status flags of a descriptor, an `int`. -/
abbrev Flags := BitVec 32

def oNonblock : Flags := BitVec.twoPow 32 11

/-- What `F_SETFL` can change: `O_APPEND`, `O_NONBLOCK`, `O_ASYNC`, `O_DIRECT`, `O_NOATIME`. -/
def setFlMask : Flags := 1024 ||| oNonblock ||| 8192 ||| 16384 ||| 262144

/-- `F_SETFL` of the system, on a descriptor with the flags `old`. -/
def sysSetFl (old flag : Flags) : Flags := old &&& ~~~setFlMask ||| flag &&& setFlMask

/-- `O_NONBLOCK & flag`. -/
def Nonblock (flag : Flags) : Prop := oNonblock &&& flag ≠ 0

instance (flag : Flags) : Decidable (Nonblock flag) := inferInstanceAs (Decidable (_ ≠ _))

theorem nonblock_iff {flag : Flags} : Nonblock flag ↔ flag.getLsbD 11 = true := by
  rw [Nonblock, oNonblock, BitVec.twoPow_and]
  split
  · rename_i h
    exact iff_of_true (by decide) h
  · rename_i h
    exact iff_of_false (fun hne => hne rfl) h

theorem nonblock_or {x y : Flags} : Nonblock (x ||| y) ↔ Nonblock x ∨ Nonblock y := by
  simp [nonblock_iff]

theorem nonblock_oNonblock : Nonblock oNonblock := by decide

theorem nonblock_sysSetFl {old flag : Flags} : Nonblock (sysSetFl old flag) ↔ Nonblock flag := by
  have hmask : setFlMask.getLsbD 11 = true := by decide
  simp [nonblock_iff, sysSetFl, hmask]

structure TimeVal where
  tvSec : ℤ
  tvUsec : ℤ
  deriving DecidableEq

/-- `rpchook_t`, without `dest` and `domain`, which nothing reads. -/
structure Rpchook where
  userFlag : Flags
  readTimeout : TimeVal
  writeTimeout : TimeVal
  deriving DecidableEq

/-- The state. -/
structure Hooks where
  cEnableSysHook : Bool
  gRpchookSocketFd : ℤ → Option Rpchook
  flags : ℤ → Option Flags
  asked : ℤ → Option Flags

namespace Hooks

def init : Hooks := ⟨false, fun _ => none, fun _ => none, fun _ => none⟩

/-- The descriptor has a place in `g_rpchook_socket_fd`. -/
def InTable (fd : ℤ) : Prop := fd > -1 ∧ fd < 102400

instance (fd : ℤ) : Decidable (InTable fd) := inferInstanceAs (Decidable (_ ∧ _))

/-- `get_by_fd`. -/
def getByFd (s : Hooks) (fd : ℤ) : Option Rpchook :=
  if InTable fd then s.gRpchookSocketFd fd else none

/-- A place of the table was set. -/
def setEntry (s : Hooks) (fd : ℤ) (lp : Option Rpchook) : Hooks :=
  { s with gRpchookSocketFd := Function.update s.gRpchookSocketFd fd lp }

/-- `alloc_by_fd`. -/
def allocByFd (s : Hooks) (fd : ℤ) : Hooks :=
  if InTable fd then s.setEntry fd (some ⟨0, ⟨1, 0⟩, ⟨1, 0⟩⟩) else s

/-- `free_by_fd`. -/
def freeByFd (s : Hooks) (fd : ℤ) : Hooks := if InTable fd then s.setEntry fd none else s

/-- The kernel has flags for a descriptor, and the program has asked for some. -/
def setFlags (s : Hooks) (fd : ℤ) (flags asked : Option Flags) : Hooks :=
  { s with flags := Function.update s.flags fd flags, asked := Function.update s.asked fd asked }

/-- `fcntl` with `F_SETFL`, where the system returns 0 for an open descriptor if `ok`, and fails
otherwise. -/
def fcntlSetFl (s : Hooks) (fildes : ℤ) (param : Flags) (ok : Bool) : Hooks :=
  if fildes < 0 then s
  else
    let lp := s.getByFd fildes
    let flag := if s.cEnableSysHook ∧ lp.isSome then param ||| oNonblock else param
    match s.flags fildes with
    | none => s
    | some old =>
      if ok then
        let s := s.setFlags fildes (some (sysSetFl old flag)) (some param)
        match lp with
        | none => s
        | some lp => s.setEntry fildes (some { lp with userFlag := param })
      else s

/-- `socket`, where the system has made the descriptor `fd` with the flags `flag`, and answers the
`F_SETFL` with `ok`. There is no value where `alloc_by_fd` has no place for it: its result is not
checked. -/
def socket (s : Hooks) (fd : ℤ) (flag : Flags) (ok : Bool) : Option Hooks :=
  let s := s.setFlags fd (some flag) none
  if s.cEnableSysHook then
    let s := s.allocByFd fd
    (s.getByFd fd).map fun _ => s.fcntlSetFl fd flag ok
  else some s

/-- `accept`, which is not hooked, where it has made the descriptor `cli`. -/
def accept (s : Hooks) (cli : ℤ) (flag : Flags) : Hooks := s.setFlags cli (some flag) none

/-- `co_accept`. -/
def coAccept (s : Hooks) (cli : ℤ) (flag : Flags) : Hooks := (s.accept cli flag).allocByFd cli

/-- `close`. -/
def close (s : Hooks) (fd : ℤ) : Hooks :=
  (if s.cEnableSysHook then s.freeByFd fd else s).setFlags fd none none

/-- The two timeouts that `setsockopt` stores. -/
inductive SockOpt
  | rcvTimeo
  | sndTimeo

/-- `setsockopt` at `SOL_SOCKET`. -/
def setsockopt (s : Hooks) (fd : ℤ) (name : SockOpt) (val : TimeVal) : Hooks :=
  if s.cEnableSysHook then
    match s.getByFd fd, name with
    | none, _ => s
    | some lp, .rcvTimeo => s.setEntry fd (some { lp with readTimeout := val })
    | some lp, .sndTimeo => s.setEntry fd (some { lp with writeTimeout := val })
  else s

/-- The steps: a coroutine runs whose hooks are enabled or are not, and the calls it makes. -/
inductive Act
  | run (cEnableSysHook : Bool)
  | socket (fd : ℤ) (flag : Flags) (ok : Bool)
  | accept (cli : ℤ) (flag : Flags)
  | coAccept (cli : ℤ) (flag : Flags)
  | setFl (fildes : ℤ) (param : Flags) (ok : Bool)
  | setsockopt (fd : ℤ) (name : SockOpt) (val : TimeVal)
  | close (fd : ℤ)

/-- What a step does. -/
def step (s : Hooks) : Act → Option Hooks
  | .run b => some { s with cEnableSysHook := b }
  | .socket fd flag ok => s.socket fd flag ok
  | .accept cli flag => some (s.accept cli flag)
  | .coAccept cli flag => some (s.coAccept cli flag)
  | .setFl fildes param ok => some (s.fcntlSetFl fildes param ok)
  | .setsockopt fd name val => some (s.setsockopt fd name val)
  | .close fd => some (s.close fd)

/-- A new descriptor was not open, and one that has a `rpchook_t` is closed, and gets flags, with
the hooks enabled. -/
def Allowed (s : Hooks) : Act → Prop
  | .socket fd _ _ => 0 ≤ fd ∧ s.flags fd = none
  | .accept cli _ => 0 ≤ cli ∧ s.flags cli = none
  | .coAccept cli _ => 0 ≤ cli ∧ s.flags cli = none
  | .setFl fildes _ _ => s.getByFd fildes ≠ none → s.cEnableSysHook = true
  | .close fd => s.getByFd fd ≠ none → s.cEnableSysHook = true
  | .run _ => True
  | .setsockopt _ _ _ => True

instance (s : Hooks) : (a : Act) → Decidable (s.Allowed a)
  | .socket _ _ _ => inferInstanceAs (Decidable (_ ∧ _))
  | .accept _ _ => inferInstanceAs (Decidable (_ ∧ _))
  | .coAccept _ _ => inferInstanceAs (Decidable (_ ∧ _))
  | .setFl _ _ _ => inferInstanceAs (Decidable (_ → _))
  | .close _ => inferInstanceAs (Decidable (_ → _))
  | .run _ => inferInstanceAs (Decidable True)
  | .setsockopt _ _ _ => inferInstanceAs (Decidable True)

/-- What a `rpchook_t` says of its descriptor: it is open, `user_flag` is what the program asked
for, and if it has asked, the kernel has `O_NONBLOCK`. -/
def Entry (lp : Rpchook) (flags asked : Option Flags) : Prop :=
  ∃ flag, flags = some flag ∧ lp.userFlag = asked.getD 0 ∧ (asked ≠ none → Nonblock flag)

/-- The invariant. -/
def Inv (s : Hooks) : Prop :=
  ∀ fd lp, s.getByFd fd = some lp → Entry lp (s.flags fd) (s.asked fd)

variable {s s' : Hooks} {fd : ℤ} {lp : Rpchook} {flag param : Flags} {ok : Bool} {a : Act}

theorem getByFd_setEntry (x : Option Rpchook) (fd' : ℤ) :
    (s.setEntry fd x).getByFd fd' = if fd' = fd ∧ InTable fd then x else s.getByFd fd' := by
  by_cases h : fd' = fd
  · subst h
    by_cases hin : InTable fd' <;> simp [getByFd, setEntry, hin]
  · simp [getByFd, setEntry, h]

@[simp] theorem getByFd_setFlags (x y : Option Flags) (fd' : ℤ) :
    (s.setFlags fd x y).getByFd fd' = s.getByFd fd' := rfl

@[simp] theorem setFlags_flags (x y : Option Flags) : (s.setFlags fd x y).flags fd = x :=
  Function.update_self ..

@[simp] theorem setFlags_asked (x y : Option Flags) : (s.setFlags fd x y).asked fd = y :=
  Function.update_self ..

@[simp] theorem allocByFd_flags : (s.allocByFd fd).flags = s.flags := by
  unfold allocByFd
  split <;> rfl

@[simp] theorem allocByFd_asked : (s.allocByFd fd).asked = s.asked := by
  unfold allocByFd
  split <;> rfl

@[simp] theorem allocByFd_cEnableSysHook :
    (s.allocByFd fd).cEnableSysHook = s.cEnableSysHook := by
  unfold allocByFd
  split <;> rfl

theorem inTable_of_getByFd (h : s.getByFd fd = some lp) : InTable fd := by
  by_contra hin
  simp [getByFd, hin] at h

/-! ## One descriptor changes -/

/-- All descriptors but one are as they were. -/
def Only (fd : ℤ) (s s' : Hooks) : Prop :=
  ∀ fd' ≠ fd, s'.getByFd fd' = s.getByFd fd' ∧ s'.flags fd' = s.flags fd' ∧
    s'.asked fd' = s.asked fd'

namespace Only

theorem refl (fd : ℤ) (s : Hooks) : Only fd s s := fun _ _ => ⟨rfl, rfl, rfl⟩

theorem trans {t : Hooks} (h : Only fd s s') (h' : Only fd s' t) : Only fd s t := by
  intro fd' hne
  obtain ⟨hget, hflags, hasked⟩ := h fd' hne
  obtain ⟨hget', hflags', hasked'⟩ := h' fd' hne
  exact ⟨hget'.trans hget, hflags'.trans hflags, hasked'.trans hasked⟩

theorem setEntry (x : Option Rpchook) : Only fd s (s.setEntry fd x) := by
  intro fd' hne
  refine ⟨?_, rfl, rfl⟩
  rw [getByFd_setEntry, if_neg fun h => hne h.1]

theorem setFlags (x y : Option Flags) : Only fd s (s.setFlags fd x y) := fun _ hne =>
  ⟨rfl, Function.update_of_ne hne .., Function.update_of_ne hne ..⟩

theorem allocByFd : Only fd s (s.allocByFd fd) := by
  rw [Hooks.allocByFd]
  split
  · exact setEntry _
  · exact refl fd s

theorem freeByFd : Only fd s (s.freeByFd fd) := by
  rw [Hooks.freeByFd]
  split
  · exact setEntry _
  · exact refl fd s

theorem fcntlSetFl : Only fd s (s.fcntlSetFl fd param ok) := by
  unfold Hooks.fcntlSetFl
  split
  · exact refl fd s
  · dsimp only
    split
    · exact refl fd s
    · split
      · split
        · exact setFlags _ _
        · exact (setFlags _ _).trans (setEntry _)
      · exact refl fd s

/-- The invariant has to be shown for the descriptor that changes. -/
theorem inv (h : Only fd s s') (hi : Inv s)
    (hfd : ∀ lp, s'.getByFd fd = some lp → Entry lp (s'.flags fd) (s'.asked fd)) : Inv s' := by
  intro fd' lp hlp
  by_cases hne : fd' = fd
  · rw [hne] at hlp ⊢
    exact hfd lp hlp
  · obtain ⟨hget, hflags, hasked⟩ := h fd' hne
    rw [hflags, hasked]
    exact hi fd' lp (hget ▸ hlp)

end Only

/-- **A refused `F_SETFL`** changes nothing. -/
@[simp] theorem fcntlSetFl_refused : s.fcntlSetFl fd param false = s := by
  unfold fcntlSetFl
  split
  · rfl
  · dsimp only
    split <;> rfl

/-- `F_SETFL` of a descriptor that has a `rpchook_t`. -/
theorem fcntlSetFl_entry {old : Flags} (hlp : s.getByFd fd = some lp)
    (hold : s.flags fd = some old) (he : s.cEnableSysHook = true) :
    s.fcntlSetFl fd param true = (s.setFlags fd (some (sysSetFl old (param ||| oNonblock)))
      (some param)).setEntry fd (some { lp with userFlag := param }) := by
  have hfd : ¬fd < 0 := by
    have := (inTable_of_getByFd hlp).1
    omega
  simp [fcntlSetFl, hfd, hlp, hold, he]

/-- After it, the `user_flag` is what the program asked for, and the kernel has `O_NONBLOCK`. -/
theorem fcntlSetFl_spec (param : Flags) {old : Flags} (hlp : s.getByFd fd = some lp)
    (hold : s.flags fd = some old) (he : s.cEnableSysHook = true) :
    (s.fcntlSetFl fd param true).getByFd fd = some { lp with userFlag := param } ∧
      Entry { lp with userFlag := param } ((s.fcntlSetFl fd param true).flags fd)
        ((s.fcntlSetFl fd param true).asked fd) := by
  rw [fcntlSetFl_entry hlp hold he]
  refine ⟨?_, sysSetFl old (param ||| oNonblock), Function.update_self .., ?_, fun _ => ?_⟩
  · rw [getByFd_setEntry, if_pos ⟨rfl, inTable_of_getByFd hlp⟩]
  · change param = (Function.update s.asked fd (some param) fd).getD 0
    rw [Function.update_self, Option.getD_some]
  · exact nonblock_sysSetFl.mpr (nonblock_or.mpr (.inr nonblock_oNonblock))

/-- A descriptor without a `rpchook_t` does not get one. -/
theorem fcntlSetFl_none (hlp : s.getByFd fd = none) :
    (s.fcntlSetFl fd param ok).getByFd fd = none := by
  unfold fcntlSetFl
  split
  · exact hlp
  · simp only [hlp]
    split
    · exact hlp
    · split <;> exact hlp

theorem userFlag_allocByFd (hlp : (s.allocByFd fd).getByFd fd = some lp)
    (hno : s.getByFd fd = none) : lp.userFlag = 0 := by
  unfold allocByFd at hlp
  split at hlp
  · rename_i hin
    rw [getByFd_setEntry, if_pos ⟨rfl, hin⟩] at hlp
    rw [← Option.some.inj hlp]
  · rw [hno] at hlp
    cases hlp

/-- A descriptor that is not open has no `rpchook_t`. -/
theorem Inv.getByFd_eq_none (hi : Inv s) (h : s.flags fd = none) : s.getByFd fd = none := by
  by_contra hne
  obtain ⟨lp, hlp⟩ := Option.ne_none_iff_exists'.mp hne
  obtain ⟨flag, hflag, -⟩ := hi fd lp hlp
  rw [h] at hflag
  cases hflag

theorem init_inv : Inv init := by
  intro fd lp hlp
  simp [init, getByFd] at hlp

/-! ## One step -/

theorem fcntlSetFl_inv (hi : Inv s) (he : s.getByFd fd ≠ none → s.cEnableSysHook = true) :
    Inv (s.fcntlSetFl fd param ok) := by
  cases ok with
  | false =>
    rw [fcntlSetFl_refused]
    exact hi
  | true =>
    refine Only.fcntlSetFl.inv hi fun lp' hlp' => ?_
    cases hlp : s.getByFd fd with
    | none =>
      rw [fcntlSetFl_none hlp] at hlp'
      cases hlp'
    | some lp =>
      obtain ⟨old, hold, -⟩ := hi fd lp hlp
      obtain ⟨hget, hentry⟩ := fcntlSetFl_spec param hlp hold (he (by simp [hlp]))
      obtain rfl := Option.some.inj (hget.symm.trans hlp')
      exact hentry

theorem accept_inv (hi : Inv s) (hnew : s.flags fd = none) : Inv (s.accept fd flag) := by
  refine (Only.setFlags _ _).inv hi fun lp hlp => ?_
  have hlp : s.getByFd fd = some lp := hlp
  rw [hi.getByFd_eq_none hnew] at hlp
  cases hlp

theorem coAccept_inv (hi : Inv s) (hnew : s.flags fd = none) : Inv (s.coAccept fd flag) := by
  refine Only.allocByFd.inv (accept_inv hi hnew) fun lp hlp => ?_
  rw [allocByFd_flags, allocByFd_asked, accept, setFlags_flags, setFlags_asked]
  exact ⟨flag, rfl, userFlag_allocByFd hlp (hi.getByFd_eq_none hnew), fun hne => absurd rfl hne⟩

/-- Before its `F_SETFL`, a new socket is like one that was accepted. -/
theorem socket_inv (hi : Inv s) (hnew : s.flags fd = none) (e : s.socket fd flag ok = some s') :
    Inv s' := by
  unfold socket at e
  dsimp only at e
  split at e
  · rename_i he
    obtain ⟨lp, -, rfl⟩ := Option.map_eq_some_iff.mp e
    exact fcntlSetFl_inv (coAccept_inv hi hnew) fun _ => allocByFd_cEnableSysHook.trans he
  · obtain rfl := Option.some.inj e
    exact accept_inv hi hnew

/-- Only the timeouts of a `rpchook_t` change. -/
theorem setEntry_inv {lp' : Rpchook} (hi : Inv s) (hlp : s.getByFd fd = some lp)
    (hflag : lp'.userFlag = lp.userFlag) : Inv (s.setEntry fd (some lp')) := by
  refine (Only.setEntry _).inv hi fun lp'' hlp'' => ?_
  rw [getByFd_setEntry, if_pos ⟨rfl, inTable_of_getByFd hlp⟩] at hlp''
  obtain rfl := Option.some.inj hlp''
  obtain ⟨flag, hfl, hasked, hnon⟩ := hi fd lp hlp
  exact ⟨flag, hfl, hflag.trans hasked, hnon⟩

theorem setsockopt_inv (hi : Inv s) (name : SockOpt) (val : TimeVal) :
    Inv (s.setsockopt fd name val) := by
  unfold setsockopt
  split
  · split
    · exact hi
    · rename_i hlp
      exact setEntry_inv hi hlp rfl
    · rename_i hlp
      exact setEntry_inv hi hlp rfl
  · exact hi

theorem close_inv (hi : Inv s) (he : s.getByFd fd ≠ none → s.cEnableSysHook = true) :
    Inv (s.close fd) := by
  have honly : Only fd s (s.close fd) := by
    unfold close
    split
    · exact Only.freeByFd.trans (Only.setFlags _ _)
    · exact Only.setFlags _ _
  refine honly.inv hi fun lp hlp => ?_
  have hnone : (s.close fd).getByFd fd = none := by
    unfold close
    split
    · rw [getByFd_setFlags, freeByFd]
      split
      · rename_i hin
        rw [getByFd_setEntry, if_pos ⟨rfl, hin⟩]
      · rename_i hin
        rw [getByFd, if_neg hin]
    · rename_i hdis
      by_contra hne
      exact hdis (he hne)
  rw [hnone] at hlp
  cases hlp

theorem step_inv (hi : Inv s) (ha : s.Allowed a) (e : s.step a = some s') : Inv s' := by
  cases a with
  | socket => exact socket_inv hi ha.2 e
  | run =>
    obtain rfl := Option.some.inj e
    exact hi
  | accept =>
    obtain rfl := Option.some.inj e
    exact accept_inv hi ha.2
  | coAccept =>
    obtain rfl := Option.some.inj e
    exact coAccept_inv hi ha.2
  | setFl =>
    obtain rfl := Option.some.inj e
    exact fcntlSetFl_inv hi ha
  | setsockopt =>
    obtain rfl := Option.some.inj e
    exact setsockopt_inv hi _ _
  | close =>
    obtain rfl := Option.some.inj e
    exact close_inv hi ha

/-! ## Whole runs -/

/-- A call of the `write` of the system: from which byte of the buffer on, how many bytes it is
given, and what it returns. -/
structure WriteCall where
  offset : ℕ
  size : ℕ
  ret : ℤ
  deriving DecidableEq

/-- The bytes of the buffer that the system takes. -/
def WriteCall.taken (c : WriteCall) : List ℕ := List.range' c.offset c.ret.toNat

/-- What `write` returns behind its loop. -/
def writeResult (writeret : ℤ) (wrotelen : ℕ) : ℤ :=
  if writeret ≤ 0 ∧ wrotelen = 0 then writeret else wrotelen

/-- The loop of `write` and of `send`, for what the system returns to its calls: what it returns,
and the calls. It polls before each of them. There is no value if the loop is not over after
these. -/
def writeLoop (nbyte : ℕ) : ℕ → ℤ → List ℤ → Option (ℤ × List WriteCall)
  | wrotelen, writeret, [] =>
    if wrotelen < nbyte then none else some (writeResult writeret wrotelen, [])
  | wrotelen, writeret, ret :: rets =>
    if wrotelen < nbyte then
      let c : WriteCall := ⟨wrotelen, nbyte - wrotelen, ret⟩
      if ret ≤ 0 then some (writeResult ret wrotelen, [c])
      else (writeLoop nbyte (wrotelen + ret.toNat) ret rets).map fun p => (p.1, c :: p.2)
    else some (writeResult writeret wrotelen, [])

/-- `write` and `send`, of a descriptor that is waited for. -/
def hookedWrite (nbyte : ℕ) : List ℤ → Option (ℤ × List WriteCall)
  | [] => none
  | ret :: rets =>
    let c : WriteCall := ⟨0, nbyte, ret⟩
    if ret = 0 then some (0, [c])
    else (writeLoop nbyte ret.toNat ret rets).map fun p => (p.1, c :: p.2)

/-- What the loop tells of its calls, when it starts with `wrotelen` bytes written: they take the
next bytes of the buffer, in order and each once; the loop returns how many bytes were taken, or, if
there are none, what the last call returned; and it stops before all are only on a call that took
none. -/
structure Wrote (nbyte wrotelen : ℕ) (writeret r : ℤ) (calls : List WriteCall) (n : ℕ) : Prop where
  le : wrotelen + n ≤ nbyte
  taken : calls.flatMap WriteCall.taken = List.range' wrotelen n
  result : 0 < wrotelen + n → r = (wrotelen + n : ℕ)
  failed : wrotelen + n = 0 → writeret ≤ 0 → r = (calls.map WriteCall.ret).getLast?.getD writeret ∧
    r ≤ 0
  stop : wrotelen + n < nbyte → ∃ c, calls.getLast? = some c ∧ c.ret ≤ 0

variable {nbyte wrotelen n : ℕ} {writeret ret r : ℤ} {rets : List ℤ} {calls : List WriteCall}

/-- All is written. -/
theorem wrote_nil (h : nbyte = wrotelen) :
    Wrote nbyte wrotelen writeret (writeResult writeret wrotelen) [] 0 := by
  refine ⟨h.ge, rfl, fun hpos => ?_, fun hz hle => ?_, fun hlt => by omega⟩
  · rw [writeResult, if_neg fun hh => by omega]
    rfl
  · rw [writeResult, if_pos ⟨hle, by omega⟩]
    exact ⟨rfl, hle⟩

/-- A call that took nothing. -/
theorem wrote_stop (hlt : wrotelen < nbyte) (hret : ret ≤ 0) :
    Wrote nbyte wrotelen writeret (writeResult ret wrotelen)
      [⟨wrotelen, nbyte - wrotelen, ret⟩] 0 := by
  refine ⟨hlt.le, ?_, fun hpos => ?_, fun hz _ => ?_, fun _ => ⟨_, rfl, hret⟩⟩
  · simp [WriteCall.taken, Int.toNat_of_nonpos hret]
  · rw [writeResult, if_neg fun hh => by omega]
    rfl
  · rw [writeResult, if_pos ⟨hret, by omega⟩]
    exact ⟨rfl, hret⟩

/-- A call that took some bytes, before the others. -/
theorem Wrote.cons (hpos : 0 < ret) (h : Wrote nbyte (wrotelen + ret.toNat) ret r calls n) :
    Wrote nbyte wrotelen writeret r (⟨wrotelen, nbyte - wrotelen, ret⟩ :: calls)
      (ret.toNat + n) := by
  have hle := h.le
  refine ⟨by omega, ?_, fun _ => ?_, fun hz => by omega, fun hlt => ?_⟩
  · rw [List.flatMap_cons, h.taken, WriteCall.taken, List.range'_append_1]
  · rw [h.result (by omega), Nat.add_assoc]
  · obtain ⟨c, hc, hret⟩ := h.stop (by omega)
    refine ⟨c, ?_, hret⟩
    rw [List.getLast?_cons, hc]
    rfl

theorem writeLoop_wrote (hle : wrotelen ≤ nbyte)
    (e : writeLoop nbyte wrotelen writeret rets = some (r, calls))
    (hb : ∀ c ∈ calls, c.ret ≤ c.size) : ∃ n, Wrote nbyte wrotelen writeret r calls n := by
  induction rets generalizing wrotelen writeret calls with
  | nil =>
    rw [writeLoop] at e
    split at e
    · cases e
    · obtain ⟨rfl, rfl⟩ := Prod.mk.inj (Option.some.inj e)
      exact ⟨0, wrote_nil (by omega)⟩
  | cons ret rets ih =>
    rw [writeLoop] at e
    split at e
    · rename_i hlt
      dsimp only at e
      split at e
      · rename_i hret
        obtain ⟨rfl, rfl⟩ := Prod.mk.inj (Option.some.inj e)
        exact ⟨0, wrote_stop hlt hret⟩
      · rename_i hret
        obtain ⟨⟨r', calls'⟩, e', hp⟩ := Option.map_eq_some_iff.mp e
        obtain ⟨rfl, rfl⟩ := Prod.mk.inj hp
        have hsize : ret ≤ (nbyte - wrotelen : ℕ) := hb _ List.mem_cons_self
        obtain ⟨n, hn⟩ := ih (by omega) e' fun c hc => hb c (List.mem_cons_of_mem _ hc)
        exact ⟨_, hn.cons (not_le.mp hret)⟩
    · obtain ⟨rfl, rfl⟩ := Prod.mk.inj (Option.some.inj e)
      exact ⟨0, wrote_nil (by omega)⟩

/-- A first call that failed, which the loop does not stop on. -/
theorem Wrote.failedFirst (hret : ret ≤ 0) (h : Wrote nbyte 0 ret r calls n) :
    Wrote nbyte 0 writeret r (⟨0, nbyte, ret⟩ :: calls) n := by
  refine ⟨h.le, ?_, h.result, fun hz _ => ?_, fun hlt => ?_⟩
  · rw [List.flatMap_cons, h.taken, WriteCall.taken, Int.toNat_of_nonpos hret]
    rfl
  · rw [List.map_cons, List.getLast?_cons]
    exact h.failed hz hret
  · obtain ⟨c, hc, hcret⟩ := h.stop hlt
    refine ⟨c, ?_, hcret⟩
    rw [List.getLast?_cons, hc]
    rfl

theorem hookedWrite_wrote (e : hookedWrite nbyte rets = some (r, calls))
    (hb : ∀ c ∈ calls, c.ret ≤ c.size) : calls ≠ [] ∧ ∃ n, Wrote nbyte 0 0 r calls n := by
  cases rets with
  | nil => cases e
  | cons ret rets =>
    rw [hookedWrite] at e
    split at e
    · rename_i hz
      obtain ⟨rfl, rfl⟩ := Prod.mk.inj (Option.some.inj e)
      refine ⟨by simp, 0, Nat.zero_le _, ?_, fun h => by omega, fun _ _ => by simp [hz], fun _ =>
        ⟨_, rfl, hz.le⟩⟩
      simp [WriteCall.taken, hz]
    · rename_i hz
      obtain ⟨⟨r', calls'⟩, e', hp⟩ := Option.map_eq_some_iff.mp e
      obtain ⟨rfl, rfl⟩ := Prod.mk.inj hp
      have hsize : ret ≤ nbyte := hb _ List.mem_cons_self
      obtain ⟨n, hn⟩ := writeLoop_wrote (by omega) e' fun c hc => hb c (List.mem_cons_of_mem _ hc)
      refine ⟨by simp, ?_⟩
      rcases lt_or_gt_of_ne hz with hneg | hpos
      · rw [Int.toNat_of_nonpos hneg.le] at hn
        exact ⟨n, hn.failedFirst hneg.le⟩
      · have h0 : Wrote nbyte (0 + ret.toNat) ret r' calls' n := (Nat.zero_add _).symm ▸ hn
        exact ⟨_, h0.cons hpos⟩

/-- **A hooked `write`** that returns a positive number has written the first so many bytes, in
order and each once; where it returns another number, which is what the last call returned, it has
written none. It returns less than it was given only after a call that took none. -/
theorem hookedWrite_faithful (e : hookedWrite nbyte rets = some (r, calls))
    (hb : ∀ c ∈ calls, c.ret ≤ c.size) :
    r ≤ nbyte ∧ calls.flatMap WriteCall.taken = List.range r.toNat ∧
      (r ≤ 0 → (calls.map WriteCall.ret).getLast? = some r) ∧
      (r < nbyte → ∃ c, calls.getLast? = some c ∧ c.ret ≤ 0) := by
  obtain ⟨hne, n, hn⟩ := hookedWrite_wrote e hb
  have hle := hn.le
  have hr : r.toNat = n ∧ r ≤ n := by
    rcases Nat.eq_zero_or_pos n with rfl | hpos
    · obtain ⟨-, hr⟩ := hn.failed rfl le_rfl
      omega
    · have := hn.result (by omega)
      omega
  have hfail : r ≤ 0 → (calls.map WriteCall.ret).getLast? = some r := by
    intro hz
    obtain ⟨hlast, -⟩ := hn.failed (by omega) le_rfl
    cases h : (calls.map WriteCall.ret).getLast? with
    | none => exact absurd (List.map_eq_nil_iff.mp (List.getLast?_eq_none_iff.mp h)) hne
    | some x => rw [hlast, h, Option.getD_some]
  refine ⟨by omega, ?_, hfail, fun hlt => ?_⟩
  · rw [hn.taken, hr.1, List.range_eq_range']
  · rcases Nat.eq_zero_or_pos n with rfl | hpos
    · have hz : r ≤ 0 := by omega
      have hlast := hfail hz
      rw [List.getLast?_map] at hlast
      obtain ⟨c, hc, hret⟩ := Option.map_eq_some_iff.mp hlast
      exact ⟨c, hc, hret.le.trans hz⟩
    · have := hn.result (by omega)
      exact hn.stop (by omega)

/-- `hookedWrite_faithful` for a socket that is full, then takes two bytes of five, and fails. -/
theorem hookedWrite_faithful_two :
    hookedWrite 5 [-1, 2, -1, 3] = some (2, [⟨0, 5, -1⟩, ⟨0, 5, 2⟩, ⟨2, 3, -1⟩]) ∧
      [⟨0, 5, -1⟩, ⟨0, 5, 2⟩, ⟨2, 3, -1⟩].flatMap WriteCall.taken = List.range 2 := by
  have e : hookedWrite 5 [-1, 2, -1, 3] = some (2, [⟨0, 5, -1⟩, ⟨0, 5, 2⟩, ⟨2, 3, -1⟩]) := by decide
  exact ⟨e, (hookedWrite_faithful e (by decide)).2.1⟩

end Hooks

end WebServer.Libco
