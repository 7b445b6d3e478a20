import WebServer.Connection.Run

/-!
# Descriptors

`Epoll_Del` erases an entry by descriptor number, and the kernel reuses these numbers. `FdSafe` says
that no connection is hit by this: descriptors of live channels are open and all different,
`Epoll_Add` never finds the descriptor of a client in the map, `Epoll_Del` made through a channel
removes that channel or nothing, and each accepted descriptor is closed exactly once, by the
destructor of its channel.
-/

namespace WebServer.Connection

open WebServer.Lib

variable {ε : Type*}

/-- What a state says about descriptors. Connection `n` is closed as often as its channel was
destroyed: never while it waits for `Add_New_Connect` or has a channel, once afterwards. -/
structure FdSafe (s : St ε) : Prop where
  distinct : ∀ {c c' ch ch'}, s.chans c = some ch → s.chans c' = some ch' → ch.fd = ch'.fd → c = c'
  live_open : ∀ {c ch}, s.chans c = some ch → s.isOpen ch.fd = true
  own_number : ∀ {c ch}, s.chans c = some ch → s.accepted[c]? = some ch.fd
  no_addErrs : s.addErrs = []
  dels_own : ∀ {c x}, (c, x) ∈ s.dels → x = none ∨ x = some (.client c)
  closed_accepted : ∀ {n}, n ∈ s.closes → n < s.accepted.length
  closed_once : ∀ {n}, n < s.accepted.length →
    s.closes.count n = if n ∈ s.pending ∨ (s.chans n).isSome then 0 else 1

/-- A connection is closed once if it neither waits for its channel nor has one. -/
theorem Inv.count_closes {S : Setup ε} {s : St ε} (h : Inv S s) {n : ℕ}
    (hn : n < s.accepted.length) :
    s.closes.count n = if n ∈ s.pending ∨ (s.chans n).isSome then 0 else 1 := by
  split
  · rename_i hopen
    apply List.count_eq_zero.mpr
    rcases hopen with hp | hc
    · exact h.pending_not_closed hp
    · obtain ⟨ch, hch⟩ := Option.isSome_iff_exists.mp hc
      exact h.chan_not_closed hch
  · rename_i hopen
    rw [not_or] at hopen
    obtain hp | hcl | ⟨ch, hch⟩ := h.accepted_cases hn
    · exact absurd hp hopen.1
    · exact List.count_eq_one_of_mem h.closes_nodup hcl
    · exact absurd (by simp [hch]) hopen.2

theorem Inv.fdSafe {S : Setup ε} {s : St ε} (h : Inv S s) : FdSafe s where
  distinct := by
    intro c c' ch ch' hc hc' hfd
    have hu := h.uses_of_chan hc
    rw [hfd] at hu
    exact h.uses_unique hu (h.uses_of_chan hc')
  live_open := fun hc => h.uses_open (h.uses_of_chan hc)
  own_number := h.chan_accepted
  no_addErrs := h.no_addErrs
  dels_own := h.dels_own
  closed_accepted := h.closed_accepted
  closed_once := h.count_closes

variable [DecidableEq ε]

/-- **Deregistration by descriptor number never hits another connection**, in any run. -/
theorem deregistration_hits_own_channel {S : Setup ε} {l : List (Act ε)} {s : St ε}
    (h : Exec (step S) Always (init S) l s) : FdSafe s :=
  (reachable_inv h).fdSafe

/-- One `Epoll` with the listening channel on descriptor 3. -/
def oneEpoll : Setup Unit where
  own := fun _ fd => fd == 3
  isOpen := fun fd => decide (fd ≤ 4)
  timed := true
  own_open := by
    intro _ fd h
    simp only [beq_iff_eq] at h
    simp [h]

/-- A request without keep-alive on descriptor 5, and a second connection that gets the same
descriptor after the first is gone. -/
def reuseRun : List (Act Unit) :=
  [.accept 5, .addNewConnect 0 (), .poll () 5, .pollEnd (), .start (),
    .handler 0 (.read .data), .handler 0 (.parse false), .handler 0 (.send false),
    .handler 0 .lock, .handler 0 .ret, .handler 0 .decide, .handler 0 .lock, .handler 0 .close,
    .handler 0 .ret, .finish 0, .roundEnd (), .drop (), .drop (),
    .accept 5, .addNewConnect 1 ()]

theorem deregistration_hits_own_channel_reuse :
    ∃ s, Exec (step oneEpoll) Always (init oneEpoll) reuseRun s ∧ FdSafe s ∧
      s.accepted = [5, 5] ∧ s.closes = [0] ∧ s.mmap () 5 = some (.client 1) := by
  have hrun : ∃ s, runIf (step oneEpoll) Always (init oneEpoll) reuseRun = some s ∧
      s.accepted = [5, 5] ∧ s.closes = [0] ∧ s.mmap () 5 = some (.client 1) :=
    ⟨_, rfl, by decide, by decide, by decide⟩
  obtain ⟨s, hs, hrest⟩ := hrun
  exact ⟨s, exec_of_runIf hs, deregistration_hits_own_channel (exec_of_runIf hs), hrest⟩

end WebServer.Connection
