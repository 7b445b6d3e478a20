import WebServer.Connection.Timer

/-!
# Timed connections and registered connections

A connection whose timer runs should still be registered: its channel is the entry of its descriptor
in the map of its `Epoll` (`TimedRegistered`). `handle_event` arms a new timer for a keep-alive
connection without looking whether the channel is still registered, and there are two ways in which
it is not: the old timer expired after `Poll` took its reference and before `SeparateTimer`, or
`send` returned 0 and `writen` called `handle_close`.

`Timely` says of a step that it does neither. In a run of timely steps every channel held by an item
is registered, inside and outside `handle_event` (`Reg`).
-/

namespace WebServer.Connection

open WebServer.Lib

variable {ε : Type*} {S : Setup ε} {s t : St ε} {c i : ℕ} {ch : Chan ε} {it : Item} {pc : Pc}

/-- The channel `c` is the entry for its descriptor in the map of its `Epoll`. -/
def Registered (s : St ε) (c : ℕ) : Prop :=
  ∃ ch ∈ s.chans c, s.mmap ch.attachEpoll ch.fd = some (.client c)

instance : Decidable (Registered s c) := inferInstanceAs (Decidable (∃ ch ∈ s.chans c, _))

/-- Every client channel that an item of the wheel holds, and that is not inside `handle_event`, is
registered. -/
def TimedRegistered (s : St ε) : Prop :=
  ∀ i it, s.items i = some it → it.live = true → it.node = true → it.ptr = true →
    s.frame it.chan = none → Registered s it.chan

/-- The step is not one of those after which a timer is armed for a channel that is not registered:
a keep-alive request of such a channel, `send` returning 0 on a keep-alive connection, or the expiry
of its timer between the request and `SeparateTimer`. -/
def Timely (S : Setup ε) (s : St ε) : Act ε → Prop
  | .handler c (.parse ka) =>
    S.timed = true → ∀ ch ∈ s.chans c, (ch.keepAlive || ka) = true → Registered s c
  | .handler c (.send true) => S.timed = true → ∀ ch ∈ s.chans c, ch.keepAlive = false
  | .expire i => ∀ it ∈ s.items i, it.ptr = true →
    s.frame it.chan ≠ some .sending ∧ s.frame it.chan ≠ some (.lock .separateTimer)
  | _ => True

instance (S : Setup ε) (s : St ε) (a : Act ε) : Decidable (Timely S s a) :=
  match a with
  | .handler c (.parse ka) => inferInstanceAs (Decidable
      (S.timed = true → ∀ ch ∈ s.chans c, (ch.keepAlive || ka) = true → Registered s c))
  | .handler c (.send true) =>
    inferInstanceAs (Decidable (S.timed = true → ∀ ch ∈ s.chans c, ch.keepAlive = false))
  | .expire i => inferInstanceAs (Decidable (∀ it ∈ s.items i, it.ptr = true →
      s.frame it.chan ≠ some .sending ∧ s.frame it.chan ≠ some (.lock .separateTimer)))
  | .handler _ (.send false) => isTrue trivial
  | .handler _ (.read _) | .handler _ .lock | .handler _ .reset | .handler _ .close
  | .handler _ .ret | .handler _ .decide | .handler _ .addNode | .handler _ .dropSp
  | .accept _ | .addNewConnect _ _ | .poll _ _ | .pollEnd _ | .start _ | .finish _ | .roundEnd _
  | .drop _ => isTrue trivial

/-- On the way from the request to the branch that arms a timer. -/
def Pc.arming : Pc → Bool
  | .sending => true
  | .lock .separateTimer => true
  | .reset _ .separateTimer => true
  | .ret _ .separateTimer => true
  | .decide => true
  | _ => false

/-- In the `handle_close` of `writen`. -/
def Pc.closingEarly : Pc → Bool
  | .lock (.handleClose .separate) => true
  | .reset _ (.handleClose .separate) => true
  | .close _ .separate => true
  | .ret _ (.handleClose .separate) => true
  | _ => false

/-- The invariant of timely runs. -/
structure Reg (S : Setup ε) (s : St ε) : Prop where
  holding : ∀ {i it}, Holding s i it → Registered s it.chan
  arming : ∀ {c pc ch}, S.timed = true → s.frame c = some pc → pc.arming = true →
    s.chans c = some ch → ch.keepAlive = true → Registered s c
  closing : ∀ {c pc ch}, S.timed = true → s.frame c = some pc → pc.closingEarly = true →
    s.chans c = some ch → ch.keepAlive = false

theorem Reg.timedRegistered (h : Reg S s) : TimedRegistered s :=
  fun _ _ hi hl _ hp _ => h.holding ⟨hi, hl, hp⟩

theorem init_reg (S : Setup ε) : Reg S (init S) := by
  constructor <;> simp [init, Holding]

/-! ## What the operations do to registrations -/

/-- A channel that is destroyed was not registered. -/
theorem Registered.release (h : Registered s c) (x : ℕ) : Registered (s.release x) c := by
  unfold St.release
  split
  · exact h
  · rename_i ch hx
    split
    · exact h
    · rename_i href
      obtain ⟨ch', hc, hm⟩ := h
      have hne : c ≠ x := by
        rintro rfl
        obtain rfl := Option.some.inj (hx.symm.trans hc)
        exact href (.inl hm)
      exact ⟨ch', (Function.update_of_ne hne ..).trans hc, hm⟩

theorem Registered.setChan (h : Registered s c) {x : ℕ} {ch ch' : Chan ε} (hx : s.chans x = some ch)
    (hfd : ch'.fd = ch.fd) (he : ch'.attachEpoll = ch.attachEpoll) :
    Registered (s.setChan x ch') c := by
  obtain ⟨z, hz, hm⟩ := h
  by_cases hcx : c = x
  · subst hcx
    obtain rfl := Option.some.inj (hx.symm.trans hz)
    exact ⟨ch', Function.update_self .., by rw [hfd, he]; exact hm⟩
  · exact ⟨z, (Function.update_of_ne hcx ..).trans hz, hm⟩

/-- Moving a handler. -/
theorem Reg.setFrame (h : Reg S s)
    (harm : S.timed = true → pc.arming = true → ∀ ch, s.chans c = some ch → ch.keepAlive = true →
      Registered s c)
    (hclose : S.timed = true → pc.closingEarly = true → ∀ ch, s.chans c = some ch →
      ch.keepAlive = false) : Reg S (s.setFrame c pc) where
  holding := h.holding
  arming := by
    intro x p ch ht hx hp hc hk
    obtain ⟨rfl, rfl⟩ | ⟨-, hx⟩ := update_some_cases hx
    · exact harm ht hp ch hc hk
    · exact h.arming ht hx hp hc hk
  closing := by
    intro x p ch ht hx hp hc
    obtain ⟨rfl, rfl⟩ | ⟨-, hx⟩ := update_some_cases hx
    · exact hclose ht hp ch hc
    · exact h.closing ht hx hp hc

/-- The end of `handle_event`. -/
theorem Reg.clearFrame (h : Reg S s) (c : ℕ) :
    Reg S { s with frame := Function.update s.frame c none } := by
  have keep : ∀ {x pc}, Function.update s.frame c none x = some pc → s.frame x = some pc := by
    intro x pc hx
    by_cases hxc : x = c
    · subst hxc; simp at hx
    · simpa [hxc] using hx
  exact ⟨h.holding, fun ht hx => h.arming ht (keep hx), fun ht hx => h.closing ht (keep hx)⟩

/-- Dropping a reference to a channel. -/
theorem Reg.release (h : Reg S s) (x : ℕ) : Reg S (s.release x) := by
  constructor
  · intro i it hi
    exact (h.holding ((release_holding s x i).1 hi)).release x
  · intro c pc ch ht hf hp hc hk
    rw [release_frame] at hf
    exact (h.arming ht hf hp (release_chans hc) hk).release x
  · intro c pc ch ht hf hp hc
    rw [release_frame] at hf
    exact h.closing ht hf hp (release_chans hc)

/-- Changing an item that holds no more than before. -/
theorem Reg.setItem (h : Reg S s) {it' : Item} (hi : s.items i = some it)
    (hchan : it'.chan = it.chan) (hlive : it'.live = true → it.live = true)
    (hptr : it'.ptr = true → it.ptr = true) : Reg S (s.setItem i it') where
  holding := by
    rintro j jt ⟨hj, hl, hp⟩
    obtain ⟨rfl, rfl⟩ | ⟨-, hj⟩ := update_some_cases hj
    · rw [hchan]
      exact h.holding ⟨hi, hlive hl, hptr hp⟩
    · exact h.holding ⟨hj, hl, hp⟩
  arming := h.arming
  closing := h.closing

theorem afterReset_arming (f : Call) (temp : Option ℕ) :
    (f.afterReset temp).arming = (Pc.lock f).arming := by
  rcases f with _ | _ | _ <;> rfl

theorem afterReset_closingEarly (f : Call) (temp : Option ℕ) :
    (f.afterReset temp).closingEarly = (Pc.lock f).closingEarly := by
  rcases f with _ | _ | _ <;> rfl

/-- Moving a handler to a place from which it arms a timer, or closes early, only if it was in such
a place before. -/
theorem Reg.move {pc' : Pc} (h : Reg S s) (hf : s.frame c = some pc)
    (harm : pc'.arming = true → pc.arming = true)
    (hclose : pc'.closingEarly = true → pc.closingEarly = true) : Reg S (s.setFrame c pc') :=
  h.setFrame (fun ht hp _ hc hk => h.arming ht hf (harm hp) hc hk)
    (fun ht hp _ hc => h.closing ht hf (hclose hp) hc)

/-- Returning from `SeparateTimer` or `handle_close`. -/
theorem Reg.ret (h : Reg S s) {temp : Option ℕ} {f : Call} (hf : s.frame c = some (.ret temp f)) :
    Reg S (s.setFrame c f.next) := by
  apply h.setFrame
  · intro ht hp ch hc hk
    rcases f with _ | _ | _
    · exact h.arming ht hf rfl hc hk
    · cases hp
    · -- after the early `handle_close`: the connection is not keep-alive
      rw [h.closing ht hf rfl hc] at hk
      cases hk
  · intro _ hp
    rcases f with _ | _ | _ <;> cases hp

/-- Parsing a request. -/
theorem Reg.parse (h : Reg S s) (hc : s.chans c = some ch) {ka : Bool}
    (hreg : S.timed = true → (ch.keepAlive || ka) = true → Registered s c) :
    Reg S ((s.setChan c { ch with keepAlive := ch.keepAlive || ka }).setFrame c .sending) := by
  have keep : ∀ {x}, Registered s x →
      Registered (s.setChan c { ch with keepAlive := ch.keepAlive || ka }) x :=
    fun hx => hx.setChan hc rfl rfl
  constructor
  · intro i it hi
    exact keep (h.holding hi)
  · intro x pc y ht hx hp hy hk
    obtain ⟨rfl, rfl⟩ | ⟨hxc, hx⟩ := update_some_cases hx
    · obtain ⟨-, rfl⟩ | ⟨hn, -⟩ := update_some_cases hy
      · exact keep (hreg ht hk)
      · exact absurd rfl hn
    · exact keep (h.arming ht hx hp ((Function.update_of_ne hxc ..).symm.trans hy) hk)
  · intro x pc y ht hx hp hy
    obtain ⟨rfl, rfl⟩ | ⟨hxc, hx⟩ := update_some_cases hx
    · cases hp
    · exact h.closing ht hx hp ((Function.update_of_ne hxc ..).symm.trans hy)

/-- Arming a timer for a registered channel. -/
theorem Reg.arm (h : Reg S s) (hc : s.chans c = some ch) (hreg : Registered s c) :
    Reg S ((s.arm c ch).setFrame c (.armed s.nextItem)) := by
  have keep : ∀ {x}, Registered s x →
      Registered (s.setChan c { ch with wpTimeRoundItem := some s.nextItem }) x :=
    fun hx => hx.setChan hc rfl rfl
  constructor
  · rintro i it ⟨hi, hl, hp⟩
    obtain ⟨rfl, rfl⟩ | ⟨-, hi⟩ := update_some_cases hi
    · exact keep hreg
    · exact keep (h.holding ⟨hi, hl, hp⟩)
  · intro x pc y ht hx hp hy hk
    obtain ⟨rfl, rfl⟩ | ⟨hxc, hx⟩ := update_some_cases hx
    · cases hp
    · exact keep (h.arming ht hx hp ((Function.update_of_ne hxc ..).symm.trans hy) hk)
  · intro x pc y ht hx hp hy
    obtain ⟨rfl, rfl⟩ | ⟨hxc, hx⟩ := update_some_cases hx
    · cases hp
    · exact h.closing ht hx hp ((Function.update_of_ne hxc ..).symm.trans hy)

/-- When a timely expiry destroys an item that holds its channel, the handler of the channel is not
on its way to a new timer: after `lock()` it holds the item itself, or has reset it. -/
theorem arming_eq_false_of_timely (hI : Inv S s) (hi : Holding s i it)
    (hT : Timely S s (.expire i)) (hf : s.frame it.chan = some pc) (hheld : pc.held ≠ some i) :
    pc.arming = false := by
  obtain ⟨hsend, hlock⟩ := hT it hi.1 hi.2.2
  cases pc with
  | sending => exact absurd hf hsend
  | lock f =>
    rcases f with _ | _ | _
    · exact absurd hf hlock
    · rfl
    · rfl
  | reset j f =>
    obtain ⟨ch, hc, hwp⟩ := hI.holding_chan hi
    have hj := hI.frame_reset hf hc
    exact absurd (hj.symm.trans hwp) hheld
  | ret temp f => exact absurd rfl (hI.frame_quiet hf rfl hi)
  | decide => exact absurd rfl (hI.frame_quiet hf rfl hi)
  | _ => rfl

variable [DecidableEq ε]

/-- Erasing the entry of one channel leaves the others registered. -/
theorem Registered.eraseEntry (h : Inv S s) (hr : Registered s c) {x : ℕ}
    (hx : s.chans x = some ch) (hne : c ≠ x) :
    Registered (s.setEntry ch.attachEpoll ch.fd none) c := by
  obtain ⟨ch', hc, hm⟩ := hr
  refine ⟨ch', hc, ?_⟩
  by_cases he : ch'.attachEpoll = ch.attachEpoll
  · by_cases hfd : ch'.fd = ch.fd
    · rw [he, hfd] at hm
      obtain hx' | hx' := h.entry_own hx <;> rw [hx'] at hm
      · cases hm
      · exact absurd (Entry.client.inj (Option.some.inj hm)).symm hne
    · simpa [St.setEntry, he, hfd] using hm
  · simpa [St.setEntry, he] using hm

theorem Registered.destroyItem (h : Inv S s) (hr : Registered s c) (hi : s.items i = some it)
    (hl : it.live = true) (hne : it.ptr = true → c ≠ it.chan) :
    Registered (s.destroyItem i it) c := by
  cases hp : it.ptr with
  | false =>
    simp only [St.destroyItem, hp]
    exact hr
  | true =>
    obtain ⟨ch, hc, -⟩ := h.holding_chan ⟨hi, hl, hp⟩
    rw [destroyItem_eq h ⟨hi, hl, hp⟩ hc]
    have herase := Registered.eraseEntry h hr hc (hne hp)
    exact Registered.release (by exact herase) _

theorem holding_of_destroyItem {j : ℕ} {jt : Item} (hj : Holding (s.destroyItem i it) j jt) :
    j ≠ i ∧ Holding s j jt := by
  obtain ⟨hj, hl, hp⟩ := hj
  rw [destroyItem_items] at hj
  obtain ⟨rfl, rfl⟩ | ⟨hji, hj⟩ := update_some_cases hj
  · cases hl
  · exact ⟨hji, hj, hl, hp⟩

/-- The destructor of an item, unless the channel it closes is about to get a new timer. -/
theorem Reg.destroyItem (hI : Inv S s) (h : Reg S s) (hi : s.items i = some it)
    (hl : it.live = true)
    (hf : it.ptr = true → ∀ pc, s.frame it.chan = some pc → pc.arming = false) :
    Reg S (s.destroyItem i it) := by
  constructor
  · intro j jt hj
    obtain ⟨hji, hj⟩ := holding_of_destroyItem hj
    apply Registered.destroyItem hI (h.holding hj) hi hl
    intro hp e
    exact hji (hI.holding_unique hj ⟨hi, hl, hp⟩ e)
  · intro c pc ch ht hc hp hch hk
    rw [destroyItem_frame] at hc
    apply Registered.destroyItem hI (h.arming ht hc hp (destroyItem_chans hch) hk) hi hl
    rintro hptr rfl
    rw [hf hptr pc hc] at hp
    cases hp
  · intro c pc ch ht hc hp hch
    rw [destroyItem_frame] at hc
    exact h.closing ht hc hp (destroyItem_chans hch)

/-- Dropping a reference to an item that a handler or the wheel held. -/
theorem Reg.dropItem (hI : Inv S s) (h : Reg S s) (hi : s.items i = some it) (hl : it.live = true)
    (hf : it.ptr = true → ∀ pc, s.frame it.chan = some pc → pc.held ≠ some i → pc.arming = false) :
    Reg S (s.dropItem i) := by
  simp only [St.dropItem, hi]
  split
  · exact h
  · rename_i hn
    apply Reg.destroyItem hI h hi hl
    intro hp pc hpc
    apply hf hp pc hpc
    intro hheld
    exact hn (.inr (by simp [hpc, hheld]))

/-! ## Steps -/

/-- The `Close` of `handle_close`, when no item holds the channel. -/
theorem Reg.closeSelf (hI : Inv S s) (h : Reg S s) (hc : s.chans c = some ch) {temp : Option ℕ}
    {k : After} (hf : s.frame c = some (.close temp k)) :
    Reg S ((s.close c ch).setFrame c (.ret temp (.handleClose k))) := by
  rw [close_eq hc (hI.entry_own hc) (.inl (by simp [hf]))]
  have keep : ∀ {x}, Registered s x → x ≠ c →
      Registered (s.setEntry ch.attachEpoll ch.fd none) x :=
    fun hx hne => hx.eraseEntry hI hc hne
  constructor
  · intro i it hi
    exact keep (h.holding hi) (hI.frame_quiet hf rfl hi)
  · intro x pc y ht hx hp hy hk
    obtain ⟨rfl, rfl⟩ | ⟨hxc, hx⟩ := update_some_cases hx
    · cases hp
    · exact keep (h.arming ht hx hp hy hk) hxc
  · intro x pc y ht hx hp hy
    obtain ⟨rfl, rfl⟩ | ⟨hxc, hx⟩ := update_some_cases hx
    · exact h.closing ht hf (by cases k <;> first | rfl | cases hp) hy
    · exact h.closing ht hx hp hy

/-- A new channel has no timer. -/
theorem Reg.addNewConnect (hI : Inv S s) (h : Reg S s) {n fd : ℕ} (hn : n ∈ s.pending)
    (hfd : s.accepted[n]? = some fd) (e : ε) : Reg S (s.addNewConnect n fd e) := by
  have hmap := hI.entry_pending hn hfd e
  simp only [St.addNewConnect, hmap]
  have old : ∀ {x y}, s.chans x = some y → x ≠ n := by
    rintro x y hx rfl
    exact hI.chan_not_pending hx hn
  have keep : ∀ {x}, Registered s x →
      Registered ((s.setChan n ⟨fd, e, false, none⟩).setEntry e fd (some (.client n))) x := by
    rintro x ⟨y, hx, hm⟩
    refine ⟨y, (Function.update_of_ne (old hx) ..).trans hx, ?_⟩
    by_cases he : y.attachEpoll = e
    · by_cases hf : y.fd = fd
      · rw [he, hf, hmap] at hm
        cases hm
      · simpa [St.setEntry, St.setChan, he, hf] using hm
    · simpa [St.setEntry, St.setChan, he] using hm
  constructor
  · intro i it hi
    exact keep (h.holding hi)
  · intro x pc y ht hx hp hy hk
    obtain ⟨z, hz⟩ := hI.frame_chan hx
    exact keep (h.arming ht hx hp ((Function.update_of_ne (old hz) ..).symm.trans hy) hk)
  · intro x pc y ht hx hp hy
    obtain ⟨z, hz⟩ := hI.frame_chan hx
    exact h.closing ht hx hp ((Function.update_of_ne (old hz) ..).symm.trans hy)

/-- A timely step of a handler. -/
theorem handlerStep_reg (hI : Inv S s) (h : Reg S s) {a : HAct} (hc : s.chans c = some ch)
    (hf : s.frame c = some pc) (hT : Timely S s (.handler c a))
    (hs : HandlerStep S s c ch pc a t) : Reg S t := by
  cases hs with
  | parse ka => exact h.parse hc fun ht hk => hT ht ch hc hk
  | sendClosed =>
    -- `send` returned 0: the connection is not keep-alive
    apply h.setFrame (by simp [Pc.arming])
    intro ht _ ch' hc'
    exact hT ht ch' hc'
  | send => exact h.move hf (fun _ => rfl) (by simp [Pc.closingEarly])
  | @lock i f _ => refine h.move hf ?_ ?_ <;> rcases f with _ | _ | _ <;> exact id
  | @lockNone f _ =>
    apply h.move hf
    · rw [afterReset_arming]; exact id
    · rw [afterReset_closingEarly]; exact id
  | @reset i f =>
    obtain ⟨it, hi, hl, -⟩ := hI.frame_item hf rfl
    have hset : Reg S (s.setItem i { it with ptr := false }) :=
      h.setItem hi rfl (fun _ => hl) (by simp)
    have hreset : Reg S (s.resetItem i) := by
      simp only [St.resetItem, hi]
      exact hset.release _
    have hframe : (s.resetItem i).frame c = some (.reset i f) := by
      simpa [St.resetItem, hi, St.setItem] using hf
    apply hreset.move hframe
    · rw [afterReset_arming]
      rcases f with _ | _ | _ <;> exact id
    · rw [afterReset_closingEarly]
      rcases f with _ | _ | _ <;> exact id
  | close => exact Reg.closeSelf hI h hc hf
  | retNone => exact h.ret hf
  | @ret i f =>
    -- the item of `temp` was reset: its destructor calls nothing
    obtain ⟨it, hi, hl, hchan⟩ := hI.frame_item hf rfl
    apply Reg.dropItem (hI.setFrame_next hc hf rfl f) (h.ret hf) hi hl
    intro hp
    exact absurd hchan (hI.frame_quiet hf rfl ⟨hi, hl, hp⟩)
  | arm ht hk => exact h.arm hc (h.arming ht hf rfl hc hk)
  | @addNode i it hi =>
    obtain ⟨it', hi', hl, -⟩ := hI.frame_item hf rfl
    obtain rfl := Option.some.inj (hi.symm.trans hi')
    have hset : Reg S (s.setItem i { it with node := true }) := h.setItem hi rfl (fun _ => hl) id
    exact hset.move hf (by simp [Pc.arming]) (by simp [Pc.closingEarly])
  | dropSp =>
    obtain ⟨it, hi, hl, rfl⟩ := hI.frame_item hf rfl
    have hI' : Inv S (s.setFrame it.chan .done) :=
      hI.setFrame ⟨ch, hc⟩ (by simp [Pc.held]) (by simp [Pc.quiet]) (by simp)
    have hdone : Reg S (s.setFrame it.chan .done) :=
      h.move hf (by simp [Pc.arming]) (by simp [Pc.closingEarly])
    apply Reg.dropItem hI' hdone hi hl
    intro _ pc hpc _
    obtain ⟨-, rfl⟩ | ⟨hn, -⟩ := update_some_cases hpc
    · rfl
    · exact absurd rfl hn
  | _ => exact h.move hf (by simp [Pc.arming]) (by simp [Pc.closingEarly])

/-- **A timely step keeps every timed channel registered.** -/
theorem step_reg (hI : Inv S s) (h : Reg S s) {a : Act ε} (hT : Timely S s a)
    (hs : step S s a = some t) : Reg S t := by
  cases step_cases hs with
  | @addNewConnect n fd e hfd hn => exact Reg.addNewConnect hI h hn hfd e
  | poll _ =>
    unfold St.pollOne
    split <;> exact ⟨h.holding, h.arming, h.closing⟩
  | @start e c todo _ _ =>
    have hloop : Reg S (s.setLoop e (.running todo)) := ⟨h.holding, h.arming, h.closing⟩
    exact hloop.setFrame (by simp [Pc.arming]) (by simp [Pc.closingEarly])
  | handler hf hc hstep => exact handlerStep_reg hI h hc hf hT hstep
  | @finish c _ => exact (h.clearFrame c).release c
  | @drop e c cs _ _ =>
    have hres : Reg S (s.setResults e cs) := ⟨h.holding, h.arming, h.closing⟩
    exact hres.release c
  | @expire i it hi hl _ =>
    have hI' : Inv S (s.setItem i { it with node := false }) :=
      hI.setItem hi rfl (fun _ => hl) id (by simp [hl])
    have hset : Reg S (s.setItem i { it with node := false }) :=
      h.setItem hi rfl (fun _ => hl) id
    apply Reg.dropItem hI' hset (Function.update_self ..) hl
    intro hp pc hpc hheld
    exact arming_eq_false_of_timely hI ⟨hi, hl, hp⟩ hT hpc hheld
  | _ => exact ⟨h.holding, h.arming, h.closing⟩

/-- **In a timely run a timed connection is a registered connection.** -/
theorem timed_registered_of_timely {l : List (Act ε)}
    (h : Exec (step S) (Timely S) (init S) l s) : TimedRegistered s := by
  have key : Inv S s ∧ Reg S s := by
    refine h.invariant (I := fun v => Inv S v ∧ Reg S v) ⟨init_inv S, init_reg S⟩ ?_
    rintro u a v ⟨hI, hR⟩ hT hs
    exact ⟨step_inv hI hs, step_reg hI hR hT hs⟩
  exact key.2.timedRegistered

/-- A second keep-alive request, in time: the first timer expires while `temp` refers to it. -/
def timelyRun : List (Act Unit) :=
  firstRequest ++ [.poll () 5, .pollEnd (), .start (), .handler 0 (.read .data),
    .handler 0 (.parse true), .handler 0 (.send false), .handler 0 .lock, .expire 0,
    .handler 0 .reset, .handler 0 .ret, .handler 0 .decide, .handler 0 .addNode,
    .handler 0 .dropSp, .finish 0]

theorem timed_registered_of_timely_two_requests :
    ∃ s, Exec (step oneEpoll) (Timely oneEpoll) (init oneEpoll) timelyRun s ∧ TimedRegistered s ∧
      s.items 1 = some ⟨0, true, true, true⟩ := by
  have hrun : ∃ s, runIf (step oneEpoll) (Timely oneEpoll) (init oneEpoll) timelyRun = some s ∧
      s.items 1 = some ⟨0, true, true, true⟩ := ⟨_, rfl, by decide⟩
  obtain ⟨s, hs, hi⟩ := hrun
  exact ⟨s, exec_of_runIf hs, timed_registered_of_timely (exec_of_runIf hs), hi⟩

/-- The timer expires after `Poll` took its reference: the second request is answered on a channel
that is not registered, and gets a new timer. -/
def lateExpiryRun : List (Act Unit) :=
  firstRequest ++ [.poll () 5, .expire 0, .pollEnd (), .start (), .handler 0 (.read .data),
    .handler 0 (.parse true), .handler 0 (.send false), .handler 0 .lock, .handler 0 .ret,
    .handler 0 .decide, .handler 0 .addNode, .handler 0 .dropSp, .finish 0]

/-- `send` returns 0 for a keep-alive request: `writen` closes the channel, which then gets a
timer. -/
def sendClosedRun : List (Act Unit) :=
  [.accept 5, .addNewConnect 0 (), .poll () 5, .pollEnd (), .start (),
    .handler 0 (.read .data), .handler 0 (.parse true), .handler 0 (.send true),
    .handler 0 .lock, .handler 0 .close, .handler 0 .ret, .handler 0 .lock, .handler 0 .ret,
    .handler 0 .decide, .handler 0 .addNode, .handler 0 .dropSp, .finish 0]

/-- After either run the wheel holds a channel that is not registered. -/
theorem timed_not_registered :
    (∃ s, Exec (step oneEpoll) Always (init oneEpoll) lateExpiryRun s ∧ ¬ TimedRegistered s) ∧
      ∃ s, Exec (step oneEpoll) Always (init oneEpoll) sendClosedRun s ∧ ¬ TimedRegistered s := by
  constructor
  · have hrun : ∃ s, runIf (step oneEpoll) Always (init oneEpoll) lateExpiryRun = some s ∧
        s.items 1 = some ⟨0, true, true, true⟩ ∧ s.frame 0 = none ∧ ¬ Registered s 0 :=
      ⟨_, rfl, by decide, by decide, by decide⟩
    obtain ⟨s, hs, hi, hf, hr⟩ := hrun
    exact ⟨s, exec_of_runIf hs, fun h => hr (h 1 _ hi rfl rfl rfl hf)⟩
  · have hrun : ∃ s, runIf (step oneEpoll) Always (init oneEpoll) sendClosedRun = some s ∧
        s.items 0 = some ⟨0, true, true, true⟩ ∧ s.frame 0 = none ∧ ¬ Registered s 0 :=
      ⟨_, rfl, by decide, by decide, by decide⟩
    obtain ⟨s, hs, hi, hf, hr⟩ := hrun
    exact ⟨s, exec_of_runIf hs, fun h => hr (h 0 _ hi rfl rfl rfl hf)⟩

end WebServer.Connection
