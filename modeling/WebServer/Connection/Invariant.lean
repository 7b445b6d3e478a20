import Mathlib.Data.List.Basic
import Mathlib.Data.List.Nodup
import WebServer.Connection.Model
import WebServer.Lib.Update

/-!
# The invariant of the connection system

`Inv` says what the references of the system are: every map entry, every vector and every handler
refers to a channel that exists, at the channel's own place; a timer item that still holds a channel
is the one the channel's `wp_time_round_item` refers to; and the connections that are not closed
yet (accepted and waiting, or wrapped in a channel) have open descriptors, all different. The steps
of the model are built from a few operations, and there is one lemma for each of them.
-/

namespace WebServer.Connection

open WebServer.Lib

variable {ε : Type*}

/-- The handler has detached the timer of its channel and has not armed another. -/
def Pc.quiet : Pc → Bool
  | .close _ _ => true
  | .ret _ _ => true
  | .decide => true
  | _ => false

/-- Connection `n` has the descriptor `fd` and has not been closed. -/
def Uses (s : St ε) (n fd : ℕ) : Prop := s.accepted[n]? = some fd ∧ n ∉ s.closes

/-- The item exists and still holds its channel. -/
def Holding (s : St ε) (i : ℕ) (it : Item) : Prop :=
  s.items i = some it ∧ it.live = true ∧ it.ptr = true

/-- The part of the invariant about connections: numbers, descriptors and references to channels. -/
structure Conns (S : Setup ε) (s : St ε) : Prop where
  chan_accepted : ∀ {c ch}, s.chans c = some ch → s.accepted[c]? = some ch.fd
  chan_not_closed : ∀ {c ch}, s.chans c = some ch → c ∉ s.closes
  chan_not_pending : ∀ {c ch}, s.chans c = some ch → c ∉ s.pending
  pending_accepted : ∀ {n}, n ∈ s.pending → n < s.accepted.length
  pending_not_closed : ∀ {n}, n ∈ s.pending → n ∉ s.closes
  pending_nodup : s.pending.Nodup
  closed_accepted : ∀ {n}, n ∈ s.closes → n < s.accepted.length
  closes_nodup : s.closes.Nodup
  accepted_cases : ∀ {n}, n < s.accepted.length →
    n ∈ s.pending ∨ n ∈ s.closes ∨ ∃ ch, s.chans n = some ch
  uses_open : ∀ {n fd}, Uses s n fd → s.isOpen fd = true
  uses_unique : ∀ {n n' fd}, Uses s n fd → Uses s n' fd → n = n'
  uses_own : ∀ {n fd e}, Uses s n fd → S.own e fd = false
  own_open : ∀ {e fd}, S.own e fd = true → s.isOpen fd = true
  entry_server : ∀ {e fd}, s.mmap e fd = some .server → S.own e fd = true
  entry_client : ∀ {e fd c}, s.mmap e fd = some (.client c) →
    ∃ ch, s.chans c = some ch ∧ ch.fd = fd ∧ ch.attachEpoll = e
  result_chan : ∀ {e c}, c ∈ s.results e → ∃ ch, s.chans c = some ch ∧ ch.attachEpoll = e
  todo_results : ∀ {e todo c}, s.loop e = .running todo → c ∈ todo → c ∈ s.results e
  frame_chan : ∀ {c pc}, s.frame c = some pc → ∃ ch, s.chans c = some ch
  no_addErrs : s.addErrs = []
  dels_own : ∀ {c x}, (c, x) ∈ s.dels → x = none ∨ x = some (.client c)

/-- The part about timer items: who holds them, and which of them hold a channel. -/
structure Timers (s : St ε) : Prop where
  item_lt : ∀ {i it}, s.items i = some it → i < s.nextItem
  holding_chan : ∀ {i it}, Holding s i it →
    ∃ ch, s.chans it.chan = some ch ∧ ch.wpTimeRoundItem = some i
  wp_item : ∀ {c ch i}, s.chans c = some ch → ch.wpTimeRoundItem = some i →
    ∃ it, s.items i = some it ∧ it.chan = c
  frame_item : ∀ {c pc i}, s.frame c = some pc → pc.held = some i →
    ∃ it, s.items i = some it ∧ it.live = true ∧ it.chan = c
  frame_quiet : ∀ {c pc i it}, s.frame c = some pc → pc.quiet = true → Holding s i it → it.chan ≠ c
  frame_reset : ∀ {c i f ch}, s.frame c = some (.reset i f) → s.chans c = some ch →
    ch.wpTimeRoundItem = some i
  fired_dead : ∀ {i}, i ∈ s.fired → ∃ it, s.items i = some it ∧ it.live = false
  fired_nodup : s.fired.Nodup

/-- **The invariant.** -/
structure Inv (S : Setup ε) (s : St ε) : Prop extends Conns S s, Timers s

theorem init_inv (S : Setup ε) : Inv S (init S) := by
  have hown : ∀ {e fd}, S.own e fd = true → S.isOpen fd = true := S.own_open _ _
  refine { toConns := ?_, toTimers := ?_ }
  · constructor <;> simp [init, Uses]
    exact hown
  · constructor <;> simp [init, Holding]

namespace Inv

variable {S : Setup ε} {s : St ε}

/-- The connection of a channel is not closed. -/
theorem uses_of_chan (h : Inv S s) {c : ℕ} {ch : Chan ε} (hc : s.chans c = some ch) :
    Uses s c ch.fd :=
  ⟨h.chan_accepted hc, h.chan_not_closed hc⟩

/-- The entry of the descriptor of a channel is that channel, if there is one. -/
theorem entry_own (h : Inv S s) {c : ℕ} {ch : Chan ε} (hc : s.chans c = some ch) :
    s.mmap ch.attachEpoll ch.fd = none ∨ s.mmap ch.attachEpoll ch.fd = some (.client c) := by
  cases hx : s.mmap ch.attachEpoll ch.fd with
  | none => exact .inl rfl
  | some x =>
    cases x with
    | server =>
      have := h.uses_own (e := ch.attachEpoll) (h.uses_of_chan hc)
      rw [h.entry_server hx] at this
      cases this
    | client x =>
      obtain ⟨ch', hx', hfd, -⟩ := h.entry_client hx
      have hu : Uses s x ch.fd := hfd ▸ h.uses_of_chan hx'
      obtain rfl := h.uses_unique hu (h.uses_of_chan hc)
      exact .inr rfl

/-- A channel has at most one item that holds it. -/
theorem holding_unique (h : Inv S s) {i j : ℕ} {it jt : Item} (hi : Holding s i it)
    (hj : Holding s j jt) (hc : it.chan = jt.chan) : i = j := by
  obtain ⟨ch, hch, hwp⟩ := h.holding_chan hi
  obtain ⟨ch', hch', hwp'⟩ := h.holding_chan hj
  rw [hc, hch'] at hch
  obtain rfl := Option.some.inj hch
  exact Option.some.inj (hwp.symm.trans hwp')

theorem timed_of_holding (h : Inv S s) {i : ℕ} {it : Item} (hi : Holding s i it) :
    s.Timed it.chan :=
  ⟨i, h.item_lt hi.1, it, hi.1, hi.2.1, hi.2.2, rfl⟩

/-- **`Add_New_Connect` never finds its descriptor in the map.** -/
theorem entry_pending (h : Inv S s) {n fd : ℕ} (hn : n ∈ s.pending)
    (hfd : s.accepted[n]? = some fd) (e : ε) : s.mmap e fd = none := by
  have hu : Uses s n fd := ⟨hfd, h.pending_not_closed hn⟩
  cases hx : s.mmap e fd with
  | none => rfl
  | some x =>
    cases x with
    | server =>
      have := h.uses_own (e := e) hu
      rw [h.entry_server hx] at this
      cases this
    | client c =>
      obtain ⟨ch, hc, rfl, -⟩ := h.entry_client hx
      obtain rfl := h.uses_unique hu (h.uses_of_chan hc)
      exact absurd hn (h.chan_not_pending hc)

/-! ## Operations -/

/-- **Dropping a reference to a channel.** If it was the last one, the descriptor is closed, and
nothing referred to the channel any more. -/
theorem release (h : Inv S s) (c : ℕ) : Inv S (s.release c) := by
  unfold St.release
  cases hc : s.chans c with
  | none => exact h
  | some ch =>
    dsimp only
    split
    · exact h
    rename_i href
    simp only [St.Referenced, not_or, not_not] at href
    obtain ⟨hmap, hres, hframe, htimed⟩ := href
    have hlt : c < s.accepted.length := by
      have := h.chan_accepted hc
      exact (List.getElem?_eq_some_iff.mp this).1
    -- every other channel stays, and whatever refers to a channel refers to another one
    have keep : ∀ {x y},
        Function.update s.chans c none x = some y ↔ x ≠ c ∧ s.chans x = some y := by
      intro x y
      by_cases hx : x = c
      · subst hx; simp
      · simp [hx]
    have other : ∀ {x y}, s.chans x = some y → x ≠ c → Function.update s.chans c none x = some y :=
      fun hy hx => keep.2 ⟨hx, hy⟩
    have uses : ∀ {n fd}, Uses { s with
        chans := Function.update s.chans c none
        isOpen := Function.update s.isOpen ch.fd false
        closes := s.closes ++ [c] } n fd → n ≠ c ∧ Uses s n fd := by
      intro n fd hn
      obtain ⟨hn, hnot⟩ := hn
      simp only [List.mem_append, List.mem_singleton, not_or] at hnot
      exact ⟨hnot.2, hn, hnot.1⟩
    have fd_ne : ∀ {n fd}, n ≠ c → Uses s n fd → fd ≠ ch.fd := by
      rintro n fd hn hu rfl
      exact hn (h.uses_unique hu (h.uses_of_chan hc))
    exact { h with
      chan_accepted := fun hx => h.chan_accepted (keep.1 hx).2
      chan_not_closed := by
        intro x y hx
        simpa [(keep.1 hx).1] using h.chan_not_closed (keep.1 hx).2
      chan_not_pending := fun hx => h.chan_not_pending (keep.1 hx).2
      pending_not_closed := by
        intro n hn
        have : n ≠ c := fun e => h.chan_not_pending hc (e ▸ hn)
        simpa [this] using h.pending_not_closed hn
      closed_accepted := by
        intro n hn
        rcases List.mem_append.mp hn with hn | hn
        · exact h.closed_accepted hn
        · rw [List.mem_singleton.mp hn]; exact hlt
      closes_nodup := by
        refine List.nodup_append.mpr ⟨h.closes_nodup, by simp, ?_⟩
        rintro a ha b hb rfl
        exact h.chan_not_closed hc (List.mem_singleton.mp hb ▸ ha)
      accepted_cases := by
        intro n hn
        by_cases hnc : n = c
        · exact .inr (.inl (by simp [hnc]))
        · obtain hp | hp | ⟨y, hy⟩ := h.accepted_cases hn
          · exact .inl hp
          · exact .inr (.inl (List.mem_append_left _ hp))
          · exact .inr (.inr ⟨y, other hy hnc⟩)
      uses_open := by
        intro n fd hu
        obtain ⟨hn, hu⟩ := uses hu
        simpa [fd_ne hn hu] using h.uses_open hu
      uses_unique := fun hu hu' => h.uses_unique (uses hu).2 (uses hu').2
      uses_own := fun hu => h.uses_own (uses hu).2
      own_open := by
        intro e fd ho
        have hne : fd ≠ ch.fd := by
          rintro rfl
          rw [h.uses_own (h.uses_of_chan hc)] at ho
          cases ho
        simpa [hne] using h.own_open ho
      entry_client := by
        intro e fd x hx
        obtain ⟨y, hy, rfl, rfl⟩ := h.entry_client hx
        refine ⟨y, other hy ?_, rfl, rfl⟩
        rintro rfl
        obtain rfl := Option.some.inj (hc.symm.trans hy)
        exact hmap hx
      result_chan := by
        intro e x hx
        obtain ⟨y, hy, rfl⟩ := h.result_chan hx
        refine ⟨y, other hy ?_, rfl⟩
        rintro rfl
        obtain rfl := Option.some.inj (hc.symm.trans hy)
        exact hres hx
      frame_chan := by
        intro x pc hx
        obtain ⟨y, hy⟩ := h.frame_chan hx
        refine ⟨y, other hy ?_⟩
        rintro rfl
        rw [hframe] at hx
        cases hx
      holding_chan := by
        intro i it hi
        obtain ⟨y, hy, hwp⟩ := h.holding_chan hi
        refine ⟨y, other hy ?_, hwp⟩
        rintro rfl
        exact htimed (h.timed_of_holding hi)
      wp_item := fun hx => h.wp_item (keep.1 hx).2
      frame_reset := fun hx hy => h.frame_reset hx (keep.1 hy).2 }

/-- Moving a handler. -/
theorem setFrame (h : Inv S s) {c : ℕ} {pc : Pc} (hc : ∃ ch, s.chans c = some ch)
    (hitem : ∀ i, pc.held = some i → ∃ it, s.items i = some it ∧ it.live = true ∧ it.chan = c)
    (hquiet : pc.quiet = true → ∀ i it, Holding s i it → it.chan ≠ c)
    (hreset : ∀ i f ch, pc = .reset i f → s.chans c = some ch → ch.wpTimeRoundItem = some i) :
    Inv S (s.setFrame c pc) := by
  exact { h with
    frame_chan := by
      intro x p hx
      obtain ⟨rfl, rfl⟩ | ⟨-, hx⟩ := update_some_cases hx
      · exact hc
      · exact h.frame_chan hx
    frame_item := by
      intro x p i hx hp
      obtain ⟨rfl, rfl⟩ | ⟨-, hx⟩ := update_some_cases hx
      · exact hitem i hp
      · exact h.frame_item hx hp
    frame_quiet := by
      intro x p i it hx hp hi
      obtain ⟨rfl, rfl⟩ | ⟨-, hx⟩ := update_some_cases hx
      · exact hquiet hp i it hi
      · exact h.frame_quiet hx hp hi
    frame_reset := by
      intro x i f ch hx hch
      obtain ⟨rfl, hp⟩ | ⟨-, hx⟩ := update_some_cases hx
      · exact hreset i f ch hp.symm hch
      · exact h.frame_reset hx hch }

/-- Changing an item that holds no more than before. -/
theorem setItem (h : Inv S s) {i : ℕ} {it it' : Item} (hi : s.items i = some it)
    (hchan : it'.chan = it.chan) (hlive : it'.live = true → it.live = true)
    (hptr : it'.ptr = true → it.ptr = true)
    (hdead : it'.live = false → ∀ pc, s.frame it.chan = some pc → pc.held ≠ some i) :
    Inv S (s.setItem i it') := by
  have hold : ∀ {j jt}, Holding (s.setItem i it') j jt →
      ∃ jt', Holding s j jt' ∧ jt.chan = jt'.chan := by
    rintro j jt ⟨hj, hl, hp⟩
    obtain ⟨rfl, rfl⟩ | ⟨-, hj⟩ := update_some_cases hj
    · exact ⟨it, ⟨hi, hlive hl, hptr hp⟩, hchan⟩
    · exact ⟨jt, ⟨hj, hl, hp⟩, rfl⟩
  exact { h with
    item_lt := by
      intro j jt hj
      obtain ⟨rfl, rfl⟩ | ⟨-, hj⟩ := update_some_cases hj
      · exact h.item_lt hi
      · exact h.item_lt hj
    holding_chan := by
      intro j jt hj
      obtain ⟨jt', hj', e⟩ := hold hj
      rw [e]
      exact h.holding_chan hj'
    wp_item := by
      intro c ch j hc hwp
      obtain ⟨jt, hj, rfl⟩ := h.wp_item hc hwp
      by_cases hji : j = i
      · subst hji
        obtain rfl := Option.some.inj (hi.symm.trans hj)
        exact ⟨it', Function.update_self .., hchan⟩
      · exact ⟨jt, (Function.update_of_ne hji ..).trans hj, rfl⟩
    frame_item := by
      intro c pc j hc hp
      obtain ⟨jt, hj, hl, rfl⟩ := h.frame_item hc hp
      by_cases hji : j = i
      · subst hji
        obtain rfl := Option.some.inj (hi.symm.trans hj)
        have : it'.live = true := by
          by_contra hl'
          exact hdead (by simpa using hl') pc hc hp
        exact ⟨it', Function.update_self .., this, hchan⟩
      · exact ⟨jt, (Function.update_of_ne hji ..).trans hj, hl, rfl⟩
    frame_quiet := by
      intro c pc j jt hc hp hj
      obtain ⟨jt', hj', e⟩ := hold hj
      rw [e]
      exact h.frame_quiet hc hp hj'
    fired_dead := by
      intro j hj
      obtain ⟨jt, hjt, hl⟩ := h.fired_dead hj
      by_cases hji : j = i
      · subst hji
        obtain rfl := Option.some.inj (hi.symm.trans hjt)
        refine ⟨it', Function.update_self .., ?_⟩
        by_contra hl'
        rw [hlive (by simpa using hl')] at hl
        cases hl
      · exact ⟨jt, (Function.update_of_ne hji ..).trans hjt, hl⟩ }

/-- Recording a call of `Epoll_Del`. -/
theorem addDel (h : Inv S s) {c : ℕ} {x : Option Entry} (hx : x = none ∨ x = some (.client c)) :
    Inv S { s with dels := s.dels ++ [(c, x)] } :=
  { h with
    dels_own := by
      intro c' x' hm
      rcases List.mem_append.mp hm with hm | hm
      · exact h.dels_own hm
      · obtain ⟨rfl, rfl⟩ := Prod.mk.inj (List.mem_singleton.mp hm)
        exact hx }

/-- Recording the `Close` of a dead item. -/
theorem addFired (h : Inv S s) {i : ℕ} {it : Item} (hi : s.items i = some it)
    (hl : it.live = false) (hn : i ∉ s.fired) : Inv S { s with fired := s.fired ++ [i] } :=
  { h with
    fired_dead := by
      intro j hj
      rcases List.mem_append.mp hj with hj | hj
      · exact h.fired_dead hj
      · obtain rfl := List.mem_singleton.mp hj
        exact ⟨it, hi, hl⟩
    fired_nodup := by
      refine List.nodup_append.mpr ⟨h.fired_nodup, by simp, ?_⟩
      rintro a ha b hb rfl
      exact hn (List.mem_singleton.mp hb ▸ ha) }

theorem resetItem (h : Inv S s) {i : ℕ} {it : Item} (hi : s.items i = some it)
    (hl : it.live = true) : Inv S (s.resetItem i) := by
  simp only [St.resetItem, hi]
  have hset : Inv S (s.setItem i { it with ptr := false }) :=
    h.setItem hi rfl (fun _ => hl) (by simp) (by simp [hl])
  exact hset.release _

/-- Changing a channel but not its descriptor or its `Epoll`. -/
theorem setChan_conns (h : Inv S s) {c : ℕ} {ch ch' : Chan ε} (hc : s.chans c = some ch)
    (hfd : ch'.fd = ch.fd) (he : ch'.attachEpoll = ch.attachEpoll) : Conns S (s.setChan c ch') := by
  have old : ∀ {x y}, Function.update s.chans c (some ch') x = some y →
      ∃ z, s.chans x = some z ∧ y.fd = z.fd := by
    intro x y hx
    obtain ⟨rfl, rfl⟩ | ⟨-, hx⟩ := update_some_cases hx
    · exact ⟨ch, hc, hfd⟩
    · exact ⟨y, hx, rfl⟩
  have new : ∀ {x z}, s.chans x = some z → ∃ y, Function.update s.chans c (some ch') x = some y ∧
      y.fd = z.fd ∧ y.attachEpoll = z.attachEpoll := by
    intro x z hx
    by_cases hxc : x = c
    · subst hxc
      obtain rfl := Option.some.inj (hc.symm.trans hx)
      exact ⟨_, Function.update_self .., hfd, he⟩
    · exact ⟨z, (Function.update_of_ne hxc ..).trans hx, rfl, rfl⟩
  exact { h with
    chan_accepted := by
      intro x y hx
      obtain ⟨z, hz, hfd⟩ := old hx
      rw [hfd]
      exact h.chan_accepted hz
    chan_not_closed := by
      intro x y hx
      obtain ⟨z, hz, -⟩ := old hx
      exact h.chan_not_closed hz
    chan_not_pending := by
      intro x y hx
      obtain ⟨z, hz, -⟩ := old hx
      exact h.chan_not_pending hz
    accepted_cases := by
      intro n hn
      obtain hp | hp | ⟨z, hz⟩ := h.accepted_cases hn
      · exact .inl hp
      · exact .inr (.inl hp)
      · obtain ⟨y, hy, -⟩ := new hz
        exact .inr (.inr ⟨y, hy⟩)
    entry_client := by
      intro e fd x hx
      obtain ⟨z, hz, rfl, rfl⟩ := h.entry_client hx
      exact new hz
    result_chan := by
      intro e x hx
      obtain ⟨z, hz, rfl⟩ := h.result_chan hx
      obtain ⟨y, hy, -, he⟩ := new hz
      exact ⟨y, hy, he⟩
    frame_chan := by
      intro x pc hx
      obtain ⟨z, hz⟩ := h.frame_chan hx
      obtain ⟨y, hy, -⟩ := new hz
      exact ⟨y, hy⟩ }

/-- Parsing a request changes only `Keep_Alive`. -/
theorem setKeepAlive (h : Inv S s) {c : ℕ} {ch : Chan ε} (hc : s.chans c = some ch) (ka : Bool) :
    Inv S (s.setChan c { ch with keepAlive := ka }) := by
  have old : ∀ {x y}, Function.update s.chans c (some { ch with keepAlive := ka }) x = some y →
      ∃ z, s.chans x = some z ∧ y.wpTimeRoundItem = z.wpTimeRoundItem := by
    intro x y hx
    obtain ⟨rfl, rfl⟩ | ⟨-, hx⟩ := update_some_cases hx
    · exact ⟨ch, hc, rfl⟩
    · exact ⟨y, hx, rfl⟩
  have hconns : Conns S (s.setChan c { ch with keepAlive := ka }) := h.setChan_conns hc rfl rfl
  exact { hconns, h with
    holding_chan := by
      intro i it hi
      obtain ⟨z, hz, hwp⟩ := h.holding_chan hi
      by_cases hic : it.chan = c
      · rw [hic] at hz ⊢
        obtain rfl := Option.some.inj (hc.symm.trans hz)
        exact ⟨_, Function.update_self .., hwp⟩
      · exact ⟨z, (Function.update_of_ne hic ..).trans hz, hwp⟩
    wp_item := by
      intro x y i hx hwp
      obtain ⟨z, hz, hwp'⟩ := old hx
      exact h.wp_item hz (hwp'.symm.trans hwp)
    frame_reset := by
      intro x i f y hx hy
      obtain ⟨z, hz, hwp⟩ := old hy
      exact hwp.trans (h.frame_reset hx hz) }

/-- A new item for a channel that no item holds, recorded in `wp_time_round_item`. -/
theorem arm (h : Inv S s) {c : ℕ} {ch : Chan ε} (hc : s.chans c = some ch)
    (hno : ∀ i it, Holding s i it → it.chan ≠ c) (hf : s.frame c = some .done) :
    Inv S (s.arm c ch) := by
  have olditem : ∀ {i it}, s.items i = some it →
      Function.update s.items s.nextItem (some ⟨c, true, false, true⟩) i = some it :=
    fun hi => (Function.update_of_ne (Nat.ne_of_lt (h.item_lt hi)) ..).trans hi
  have hold : ∀ {i it}, Holding (s.arm c ch) i it →
      it.chan = c ∧ i = s.nextItem ∨ Holding s i it := by
    rintro i it ⟨hi, hl, hp⟩
    obtain ⟨rfl, rfl⟩ | ⟨-, hi⟩ := update_some_cases hi
    · exact .inl ⟨rfl, rfl⟩
    · exact .inr ⟨hi, hl, hp⟩
  have hconns : Conns S (s.setChan c { ch with wpTimeRoundItem := some s.nextItem }) :=
    h.setChan_conns hc rfl rfl
  exact { hconns, h with
    item_lt := by
      intro i it hi
      obtain ⟨rfl, rfl⟩ | ⟨-, hi⟩ := update_some_cases hi
      · exact Nat.lt_succ_self _
      · exact Nat.lt_succ_of_lt (h.item_lt hi)
    holding_chan := by
      intro i it hi
      obtain ⟨rfl, rfl⟩ | hi := hold hi
      · exact ⟨_, Function.update_self .., rfl⟩
      · obtain ⟨z, hz, hwp⟩ := h.holding_chan hi
        exact ⟨z, (Function.update_of_ne (hno i it hi) ..).trans hz, hwp⟩
    wp_item := by
      intro x y i hx hwp
      obtain ⟨rfl, rfl⟩ | ⟨-, hx⟩ := update_some_cases hx
      · obtain rfl := Option.some.inj hwp
        exact ⟨_, Function.update_self .., rfl⟩
      · obtain ⟨it, hi, e⟩ := h.wp_item hx hwp
        exact ⟨it, olditem hi, e⟩
    frame_item := by
      intro x pc i hx hp
      obtain ⟨it, hi, hl, e⟩ := h.frame_item hx hp
      exact ⟨it, olditem hi, hl, e⟩
    frame_quiet := by
      intro x pc i it hx hq hi
      obtain ⟨e, rfl⟩ | hi := hold hi
      · rintro rfl
        rw [e] at hx
        obtain rfl := Option.some.inj (hf.symm.trans hx)
        cases hq
      · exact h.frame_quiet hx hq hi
    frame_reset := by
      intro x i f y hx hy
      obtain ⟨rfl, -⟩ | ⟨-, hy⟩ := update_some_cases hy
      · cases hf.symm.trans hx
      · exact h.frame_reset hx hy
    fired_dead := by
      intro i hi
      obtain ⟨it, hit, hl⟩ := h.fired_dead hi
      exact ⟨it, olditem hit, hl⟩ }

/-- The end of `handle_event`. -/
theorem clearFrame (h : Inv S s) (c : ℕ) :
    Inv S { s with frame := Function.update s.frame c none } := by
  have keep : ∀ {x pc}, Function.update s.frame c none x = some pc → s.frame x = some pc := by
    intro x pc hx
    by_cases hxc : x = c
    · subst hxc; simp at hx
    · simpa [hxc] using hx
  exact { h with
    frame_chan := fun hx => h.frame_chan (keep hx)
    frame_item := fun hx => h.frame_item (keep hx)
    frame_quiet := fun hx => h.frame_quiet (keep hx)
    frame_reset := fun hx => h.frame_reset (keep hx) }

/-- A descriptor that is not open gets the next number. -/
theorem accept (h : Inv S s) {fd : ℕ} (hfd : s.isOpen fd = false) :
    Inv S { s with
      isOpen := Function.update s.isOpen fd true
      accepted := s.accepted ++ [fd]
      pending := s.pending ++ [s.accepted.length] } := by
  have keep : ∀ {n x : ℕ}, s.accepted[n]? = some x → (s.accepted ++ [fd])[n]? = some x := by
    intro n x hn
    rw [List.getElem?_append_left (List.getElem?_eq_some_iff.mp hn).1]
    exact hn
  have open_mono : ∀ {x}, s.isOpen x = true → Function.update s.isOpen fd true x = true := by
    intro x hx
    by_cases hxf : x = fd
    · simp [hxf]
    · simpa [hxf] using hx
  have uses : ∀ {n x : ℕ}, (s.accepted ++ [fd])[n]? = some x → n ∉ s.closes →
      Uses s n x ∨ n = s.accepted.length ∧ x = fd := by
    intro n x hn hcl
    rcases Nat.lt_trichotomy n s.accepted.length with hlt | rfl | hgt
    · exact .inl ⟨by rwa [List.getElem?_append_left hlt] at hn, hcl⟩
    · exact .inr ⟨rfl, by simpa using hn.symm⟩
    · have : (s.accepted ++ [fd])[n]? = none := by simp; omega
      rw [this] at hn
      cases hn
  have used_ne : ∀ {n}, ¬ Uses s n fd := by
    intro n hu
    rw [h.uses_open hu] at hfd
    cases hfd
  exact { h with
    chan_accepted := fun hc => keep (h.chan_accepted hc)
    chan_not_pending := by
      intro c ch hc hm
      rcases List.mem_append.mp hm with hm | hm
      · exact h.chan_not_pending hc hm
      · have := (List.getElem?_eq_some_iff.mp (h.chan_accepted hc)).1
        rw [List.mem_singleton.mp hm] at this
        exact Nat.lt_irrefl _ this
    pending_accepted := by
      intro n hn
      rw [List.length_append, List.length_singleton]
      rcases List.mem_append.mp hn with hn | hn
      · exact Nat.lt_succ_of_lt (h.pending_accepted hn)
      · rw [List.mem_singleton.mp hn]
        exact Nat.lt_succ_self _
    pending_not_closed := by
      intro n hn
      rcases List.mem_append.mp hn with hn | hn
      · exact h.pending_not_closed hn
      · intro hcl
        have := h.closed_accepted hcl
        rw [List.mem_singleton.mp hn] at this
        exact Nat.lt_irrefl _ this
    pending_nodup := by
      refine List.nodup_append.mpr ⟨h.pending_nodup, by simp, ?_⟩
      rintro a ha b hb rfl
      have := h.pending_accepted ha
      rw [List.mem_singleton.mp hb] at this
      exact Nat.lt_irrefl _ this
    closed_accepted := by
      intro n hn
      rw [List.length_append]
      exact Nat.lt_add_right _ (h.closed_accepted hn)
    accepted_cases := by
      intro n hn
      rw [List.length_append, List.length_singleton] at hn
      rcases Nat.lt_succ_iff_lt_or_eq.mp hn with hn | rfl
      · obtain hp | hrest := h.accepted_cases hn
        · exact .inl (List.mem_append_left _ hp)
        · exact .inr hrest
      · exact .inl (by simp)
    uses_open := by
      rintro n x ⟨hn, hcl⟩
      obtain hu | ⟨-, rfl⟩ := uses hn hcl
      · exact open_mono (h.uses_open hu)
      · simp
    uses_unique := by
      rintro n n' x ⟨hn, hcl⟩ ⟨hn', hcl'⟩
      obtain hu | ⟨rfl, rfl⟩ := uses hn hcl
      · obtain hu' | ⟨rfl, rfl⟩ := uses hn' hcl'
        · exact h.uses_unique hu hu'
        · exact absurd hu used_ne
      · obtain hu' | ⟨rfl, -⟩ := uses hn' hcl'
        · exact absurd hu' used_ne
        · rfl
    uses_own := by
      rintro n x e ⟨hn, hcl⟩
      obtain hu | ⟨-, rfl⟩ := uses hn hcl
      · exact h.uses_own hu
      · by_contra hne
        have := h.own_open (e := e) (by simpa using hne)
        rw [this] at hfd
        cases hfd
    own_open := fun ho => open_mono (h.own_open ho) }

variable [DecidableEq ε]

/-- Erasing an entry. -/
theorem eraseEntry (h : Inv S s) (e : ε) (fd : ℕ) : Inv S (s.setEntry e fd none) := by
  have keep : ∀ {e' fd' x},
      (s.setEntry e fd none).mmap e' fd' = some x → s.mmap e' fd' = some x := by
    intro e' fd' x hx
    by_cases he : e' = e
    · subst he
      by_cases hfd : fd' = fd
      · subst hfd; simp [St.setEntry] at hx
      · simpa [St.setEntry, hfd] using hx
    · simpa [St.setEntry, he] using hx
  exact { h with
    entry_server := fun hx => h.entry_server (keep hx)
    entry_client := fun hx => h.entry_client (keep hx) }

/-- The loops only move references around. -/
theorem setLoop (h : Inv S s) {e : ε} {pc : LoopPc}
    (hpc : ∀ todo c, pc = .running todo → c ∈ todo → c ∈ s.results e) : Inv S (s.setLoop e pc) :=
  { h with
    todo_results := by
      intro e' todo c he hm
      by_cases hee : e' = e
      · subst hee
        exact hpc todo c (by simpa [St.setLoop] using he) hm
      · exact h.todo_results (by simpa [St.setLoop, hee] using he) hm }

theorem setResults (h : Inv S s) {e : ε} {cs : List ℕ}
    (hcs : ∀ c ∈ cs, ∃ ch, s.chans c = some ch ∧ ch.attachEpoll = e)
    (htodo : ∀ todo, s.loop e ≠ .running todo) : Inv S (s.setResults e cs) :=
  { h with
    result_chan := by
      intro e' c hc
      by_cases hee : e' = e
      · subst hee
        exact hcs c (by simpa [St.setResults] using hc)
      · exact h.result_chan (by simpa [St.setResults, hee] using hc)
    todo_results := by
      intro e' todo c he hm
      by_cases hee : e' = e
      · subst hee
        exact absurd he (htodo todo)
      · simpa [St.setResults, hee] using h.todo_results he hm }

end Inv

/-! ## What closing and destroying come to -/

section Operations

variable {S : Setup ε} {s : St ε}

theorem release_of_referenced {c : ℕ} {ch : Chan ε} (hc : s.chans c = some ch)
    (href : s.Referenced c ch) : s.release c = s := by
  simp [St.release, hc, href]

variable [DecidableEq ε]

/-- `Close` of a channel that keeps another reference erases its own entry, if it is still there,
and destroys nothing. -/
theorem close_eq {c : ℕ} {ch : Chan ε} (hc : s.chans c = some ch)
    (hx : s.mmap ch.attachEpoll ch.fd = none ∨ s.mmap ch.attachEpoll ch.fd = some (.client c))
    (href : s.frame c ≠ none ∨ s.Timed c) :
    s.close c ch =
      { s with dels := s.dels ++ [(c, s.mmap ch.attachEpoll ch.fd)] }.setEntry
        ch.attachEpoll ch.fd none := by
  rcases hx with hx | hx
  · have : Function.update (s.mmap ch.attachEpoll) ch.fd none = s.mmap ch.attachEpoll := by
      rw [← hx, Function.update_eq_self]
    simp [St.close, hx, St.setEntry, this]
  · simp only [St.close, hx]
    exact release_of_referenced hc (.inr (.inr href))

/-- The destructor of an item that no handler holds. -/
theorem destroyItem_eq (h : Inv S s) {i : ℕ} {it : Item} (hi : Holding s i it) {ch : Chan ε}
    (hc : s.chans it.chan = some ch) :
    s.destroyItem i it = ({ s.setItem i { it with ptr := false, live := false } with
      fired := s.fired ++ [i]
      dels := s.dels ++ [(it.chan, s.mmap ch.attachEpoll ch.fd)] }.setEntry
        ch.attachEpoll ch.fd none).release it.chan := by
  have hclose := close_eq (s := { s with fired := s.fired ++ [i] }) hc (h.entry_own hc)
    (.inr (h.timed_of_holding hi))
  simp only [St.destroyItem, hi.2.2, hc]
  rw [hclose]
  rfl

namespace Inv

theorem close (h : Inv S s) {c : ℕ} {ch : Chan ε} (hc : s.chans c = some ch)
    (href : s.frame c ≠ none ∨ s.Timed c) : Inv S (s.close c ch) := by
  rw [close_eq hc (h.entry_own hc) href]
  exact (h.addDel (h.entry_own hc)).eraseEntry _ _

/-- **The destructor of an item** that no handler holds. -/
theorem destroyItem (h : Inv S s) {i : ℕ} {it : Item} (hi : s.items i = some it)
    (hl : it.live = true) (hf : (s.frame it.chan).bind Pc.held ≠ some i) :
    Inv S (s.destroyItem i it) := by
  have hdead : ∀ pc, s.frame it.chan = some pc → pc.held ≠ some i := by
    intro pc hpc hp
    simp [hpc, hp] at hf
  have hset : Inv S (s.setItem i { it with ptr := false, live := false }) :=
    h.setItem hi rfl (by simp) (by simp) fun _ => hdead
  cases hp : it.ptr with
  | false => simpa [St.destroyItem, hp] using hset
  | true =>
    obtain ⟨ch, hc, -⟩ := h.holding_chan ⟨hi, hl, hp⟩
    have hfresh : i ∉ s.fired := by
      intro hm
      obtain ⟨jt, hjt, hjl⟩ := h.fired_dead hm
      obtain rfl := Option.some.inj (hi.symm.trans hjt)
      rw [hl] at hjl
      cases hjl
    rw [destroyItem_eq h ⟨hi, hl, hp⟩ hc]
    have hfired := hset.addFired (Function.update_self ..) rfl hfresh
    exact ((hfired.addDel (h.entry_own hc)).eraseEntry _ _).release _

theorem dropItem (h : Inv S s) {i : ℕ} {it : Item} (hi : s.items i = some it)
    (hl : it.live = true) : Inv S (s.dropItem i) := by
  simp only [St.dropItem, hi]
  split
  · exact h
  · rename_i hn
    exact h.destroyItem hi hl (not_or.mp hn).2

/-- A connection accepted earlier gets its channel and its entry. -/
theorem addNewConnect (h : Inv S s) {n fd : ℕ} (hn : n ∈ s.pending)
    (hfd : s.accepted[n]? = some fd) (e : ε) : Inv S (s.addNewConnect n fd e) := by
  have hno : s.chans n = none := by
    cases hc : s.chans n with
    | none => rfl
    | some ch => exact absurd hn (h.chan_not_pending hc)
  have hmap := h.entry_pending hn hfd e
  simp only [St.addNewConnect, hmap]
  have other : ∀ {x y}, s.chans x = some y →
      Function.update s.chans n (some ⟨fd, e, false, none⟩) x = some y := by
    intro x y hx
    rw [Function.update_of_ne, hx]
    rintro rfl
    simp [hno] at hx
  have entry : ∀ {e' fd' x}, Function.update s.mmap e (Function.update (s.mmap e) fd
      (some (.client n))) e' fd' = some x →
      e' = e ∧ fd' = fd ∧ x = .client n ∨ s.mmap e' fd' = some x := by
    intro e' fd' x hx
    by_cases he : e' = e
    · subst he
      by_cases hf : fd' = fd
      · subst hf
        simp only [Function.update_self, Option.some.injEq] at hx
        exact .inl ⟨rfl, rfl, hx.symm⟩
      · exact .inr (by simpa [hf] using hx)
    · exact .inr (by simpa [he] using hx)
  exact { h with
    chan_accepted := by
      intro x y hx
      obtain ⟨rfl, rfl⟩ | ⟨-, hx⟩ := update_some_cases hx
      · exact hfd
      · exact h.chan_accepted hx
    chan_not_closed := by
      intro x y hx
      obtain ⟨rfl, rfl⟩ | ⟨-, hx⟩ := update_some_cases hx
      · exact h.pending_not_closed hn
      · exact h.chan_not_closed hx
    chan_not_pending := by
      intro x y hx hm
      obtain ⟨rfl, rfl⟩ | ⟨-, hx⟩ := update_some_cases hx
      · exact (h.pending_nodup.not_mem_erase) hm
      · exact h.chan_not_pending hx (List.mem_of_mem_erase hm)
    pending_accepted := fun hm => h.pending_accepted (List.mem_of_mem_erase hm)
    pending_not_closed := fun hm => h.pending_not_closed (List.mem_of_mem_erase hm)
    pending_nodup := h.pending_nodup.erase _
    accepted_cases := by
      intro m hm
      by_cases hmn : m = n
      · subst hmn
        exact .inr (.inr ⟨_, Function.update_self ..⟩)
      · obtain hp | hp | ⟨y, hy⟩ := h.accepted_cases hm
        · exact .inl ((List.mem_erase_of_ne hmn).mpr hp)
        · exact .inr (.inl hp)
        · exact .inr (.inr ⟨y, other hy⟩)
    entry_server := by
      intro e' fd' hx
      obtain ⟨-, -, hx⟩ | hx := entry hx
      · cases hx
      · exact h.entry_server hx
    entry_client := by
      intro e' fd' c hx
      obtain ⟨rfl, rfl, hxn⟩ | hx := entry hx
      · obtain rfl := Entry.client.inj hxn
        exact ⟨_, Function.update_self .., rfl, rfl⟩
      · obtain ⟨ch, hc, hrest⟩ := h.entry_client hx
        exact ⟨ch, other hc, hrest⟩
    result_chan := by
      intro e' c hm
      obtain ⟨ch, hc, hrest⟩ := h.result_chan hm
      exact ⟨ch, other hc, hrest⟩
    frame_chan := by
      intro c pc hc
      obtain ⟨ch, hc⟩ := h.frame_chan hc
      exact ⟨ch, other hc⟩
    holding_chan := by
      intro i it hi
      obtain ⟨ch, hc, hwp⟩ := h.holding_chan hi
      exact ⟨ch, other hc, hwp⟩
    wp_item := by
      intro x y i hx hwp
      obtain ⟨rfl, rfl⟩ | ⟨-, hx⟩ := update_some_cases hx
      · cases hwp
      · exact h.wp_item hx hwp
    frame_reset := by
      intro x i f y hx hy
      obtain ⟨rfl, rfl⟩ | ⟨-, hy⟩ := update_some_cases hy
      · obtain ⟨ch, hc⟩ := h.frame_chan hx
        simp [hno] at hc
      · exact h.frame_reset hx hy }

end Inv

end Operations

end WebServer.Connection
