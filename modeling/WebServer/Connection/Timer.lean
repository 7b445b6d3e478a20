import WebServer.Connection.Fd

/-!
# Superseded timers

A keep-alive connection gets a new `TimeRoundItem` with every request; `SeparateTimer` and
`handle_close` first detach the one before. `OneTimer` says that at most one item holds a channel,
the one `wp_time_round_item` refers to. An item that is dead or was reset is `Spent`: no step brings
it back, and it never calls `Close` (`step_calm`). When `SeparateTimer` or `handle_close` returns,
every item made for the channel so far is spent.
-/

namespace WebServer.Connection

open WebServer.Lib

variable {ε : Type*} {S : Setup ε} {s t u : St ε} {i : ℕ}

/-- An item that holds a channel is the one the channel's `wp_time_round_item` refers to, and the
only one. -/
structure OneTimer (s : St ε) : Prop where
  wp : ∀ {i it}, Holding s i it → ∃ ch, s.chans it.chan = some ch ∧ ch.wpTimeRoundItem = some i
  unique : ∀ {i j it jt}, Holding s i it → Holding s j jt → it.chan = jt.chan → i = j

/-- The item was made and is dead, or was reset. -/
def Spent (s : St ε) (i : ℕ) : Prop :=
  ∃ it, s.items i = some it ∧ ¬ (it.live = true ∧ it.ptr = true)

/-- If `i` is spent in `s`, it is spent in `t` and did not call `Close` in between. -/
def Calm (i : ℕ) (s t : St ε) : Prop := Spent s i → Spent t i ∧ (i ∈ t.fired → i ∈ s.fired)

namespace Calm

theorem of_eq (hi : t.items = s.items) (hf : t.fired = s.fired) : Calm i s t := by
  intro h
  refine ⟨?_, by rw [hf]; exact id⟩
  obtain ⟨it, hit, hn⟩ := h
  exact ⟨it, by rw [hi]; exact hit, hn⟩

theorem trans (h : Calm i s t) (h' : Calm i t u) : Calm i s u := by
  intro hs
  obtain ⟨ht, hf⟩ := h hs
  obtain ⟨hu, hf'⟩ := h' ht
  exact ⟨hu, fun hm => hf (hf' hm)⟩

/-- Changing an item that holds no more than before. -/
theorem setItem {j : ℕ} {jt jt' : Item} (hj : s.items j = some jt)
    (hl : jt'.live = true → jt.live = true) (hp : jt'.ptr = true → jt.ptr = true) :
    Calm i s (s.setItem j jt') := by
  rintro ⟨it, hit, hn⟩
  refine ⟨?_, id⟩
  by_cases hij : i = j
  · subst hij
    obtain rfl := Option.some.inj (hj.symm.trans hit)
    exact ⟨jt', Function.update_self .., fun h => hn ⟨hl h.1, hp h.2⟩⟩
  · exact ⟨it, (Function.update_of_ne hij ..).trans hit, hn⟩

theorem release (c : ℕ) : Calm i s (s.release c) := of_eq (release_items s c) (release_fired s c)

variable [DecidableEq ε]

/-- A destructor calls `Close` only for an item that holds its channel. -/
theorem destroyItem {j : ℕ} {jt : Item} (hj : s.items j = some jt) (hl : jt.live = true) :
    Calm i s (s.destroyItem j jt) := by
  have hset : Calm i s (s.setItem j { jt with ptr := false, live := false }) :=
    setItem hj (by simp) (by simp)
  unfold St.destroyItem
  split
  · rename_i ch hp hc
    intro hs
    -- the record of `Close` gets `j`, which is not spent
    have hij : i ≠ j := by
      rintro rfl
      obtain ⟨it, hit, hn⟩ := hs
      obtain rfl := Option.some.inj (hj.symm.trans hit)
      exact hn ⟨hl, hp⟩
    obtain ⟨⟨it, hit, hn⟩, -⟩ := hset hs
    refine ⟨⟨it, by simpa [St.setItem] using hit, hn⟩, ?_⟩
    simp [St.setItem, hij]
  · exact hset

theorem dropItem {j : ℕ} {jt : Item} (hj : s.items j = some jt) (hl : jt.live = true) :
    Calm i s (s.dropItem j) := by
  simp only [St.dropItem, hj]
  split
  · exact of_eq rfl rfl
  · exact destroyItem hj hl

end Calm

variable [DecidableEq ε]

theorem handlerStep_calm (h : Inv S s) {c : ℕ} {ch : Chan ε} {pc : Pc} {a : HAct}
    (hf : s.frame c = some pc) (hs : HandlerStep S s c ch pc a t) : Calm i s t := by
  cases hs with
  | @reset j f =>
    obtain ⟨jt, hj, hl, -⟩ := h.frame_item hf rfl
    have hset : Calm i s (s.setItem j { jt with ptr := false }) :=
      .setItem hj (fun _ => hl) (by simp)
    simp only [St.resetItem, hj]
    exact (hset.trans (.release _)).trans (.of_eq rfl rfl)
  | close => exact .of_eq (close_items s c ch) (close_fired s c ch)
  | @ret j f =>
    obtain ⟨jt, hj, hl, -⟩ := h.frame_item hf rfl
    have hmove : Calm i s (s.setFrame c f.next) := .of_eq rfl rfl
    exact hmove.trans (.dropItem hj hl)
  | arm _ _ =>
    rintro ⟨it, hit, hn⟩
    have hne : i ≠ s.nextItem := Nat.ne_of_lt (h.item_lt hit)
    exact ⟨⟨it, (Function.update_of_ne hne ..).trans hit, hn⟩, id⟩
  | @addNode j jt hj =>
    obtain ⟨jt', hj', hl, -⟩ := h.frame_item hf rfl
    obtain rfl := Option.some.inj (hj.symm.trans hj')
    have hset : Calm i s (s.setItem j { jt with node := true }) := .setItem hj (fun _ => hl) id
    exact hset.trans (.of_eq rfl rfl)
  | @dropSp j =>
    obtain ⟨jt, hj, hl, -⟩ := h.frame_item hf rfl
    have hmove : Calm i s (s.setFrame c .done) := .of_eq rfl rfl
    exact hmove.trans (.dropItem hj hl)
  | _ => exact .of_eq rfl rfl

/-- **A spent item stays spent and never calls `Close`.** -/
theorem step_calm (h : Inv S s) {a : Act ε} (hs : step S s a = some t) : Calm i s t := by
  cases step_cases hs with
  | @addNewConnect n fd e hfd hn =>
    simp only [St.addNewConnect, h.entry_pending hn hfd e]
    exact .of_eq rfl rfl
  | poll _ =>
    unfold St.pollOne
    split <;> exact .of_eq rfl rfl
  | handler hf _ hstep => exact handlerStep_calm h hf hstep
  | @finish c _ => exact .of_eq (release_items _ c) (release_fired _ c)
  | drop _ _ => exact .of_eq (release_items _ _) (release_fired _ _)
  | @expire j jt hj hl _ =>
    have hset : Calm i s (s.setItem j { jt with node := false }) :=
      .setItem hj (fun _ => hl) id
    exact hset.trans (.dropItem (Function.update_self ..) hl)
  | _ => exact .of_eq rfl rfl

/-- A whole run is calm for an item that is spent at its start. -/
theorem exec_calm {l : List (Act ε)} (h : Inv S s) (hl : Exec (step S) Always s l t) :
    Calm i s t := by
  have key : Inv S t ∧ Calm i s t := by
    refine hl.invariant (I := fun v => Inv S v ∧ Calm i s v) ⟨h, .of_eq rfl rfl⟩ ?_
    rintro u a v ⟨hu, hc⟩ - hs
    exact ⟨step_inv hu hs, hc.trans (step_calm hu hs)⟩
  exact key.2

/-- Dropping a reference makes no item and keeps the channels of the items. -/
theorem dropItem_chan {j : ℕ} {it : Item} (hi : (s.dropItem j).items i = some it) :
    ∃ jt, s.items i = some jt ∧ jt.chan = it.chan := by
  unfold St.dropItem at hi
  split at hi
  · exact ⟨it, hi, rfl⟩
  · rename_i jt hj
    split at hi
    · exact ⟨it, hi, rfl⟩
    · rw [destroyItem_items] at hi
      obtain ⟨rfl, rfl⟩ | ⟨-, hi⟩ := update_some_cases hi
      · exact ⟨jt, hj, rfl⟩
      · exact ⟨it, hi, rfl⟩

/-- **When `SeparateTimer` or `handle_close` returns, every item of the channel is spent.** -/
theorem spent_of_ret (h : Inv S s) {c : ℕ} (hs : step S s (.handler c .ret) = some t) {it : Item}
    (hi : t.items i = some it) (hc : it.chan = c) : Spent t i := by
  have before : ∃ temp f, s.frame c = some (.ret temp f) ∧
      ∃ jt, s.items i = some jt ∧ jt.chan = c := by
    cases step_cases hs with
    | handler hf _ hstep =>
      cases hstep with
      | @retNone f => exact ⟨none, f, hf, it, hi, hc⟩
      | @ret j f =>
        obtain ⟨jt, hjt, hchan⟩ := dropItem_chan hi
        exact ⟨some j, f, hf, jt, hjt, hchan.trans hc⟩
  obtain ⟨temp, f, hf, jt, hjt, hjc⟩ := before
  have hspent : Spent s i := ⟨jt, hjt, fun hlp => h.frame_quiet hf rfl ⟨hjt, hlp.1, hlp.2⟩ hjc⟩
  exact (step_calm h hs hspent).1

/-- **A superseded timer never closes a connection.** In every state of every run, an item that
holds a channel is the one `wp_time_round_item` refers to, and no item has called `Close` twice;
and once `SeparateTimer` or `handle_close` has returned, the items made for the channel until then
make no further call of `Close`, however the run goes on. -/
theorem superseded_timer_never_closes (S : Setup ε) :
    (∀ l s, Exec (step S) Always (init S) l s → OneTimer s ∧ s.fired.Nodup) ∧
      ∀ l u c v l' w, Exec (step S) Always (init S) l u → step S u (.handler c .ret) = some v →
        Exec (step S) Always v l' w →
        ∀ i it, v.items i = some it → it.chan = c → i ∈ w.fired → i ∈ v.fired := by
  constructor
  · intro l s hl
    have h := reachable_inv hl
    exact ⟨⟨h.holding_chan, h.holding_unique⟩, h.fired_nodup⟩
  · intro l u c v l' w hl hs hl' i it hi hc
    have hu := reachable_inv hl
    exact (exec_calm (step_inv hu hs) hl' (spent_of_ret hu hs hi hc)).2

/-- A connection on descriptor 5 and its first request, answered with keep-alive. -/
def firstRequest : List (Act Unit) :=
  [.accept 5, .addNewConnect 0 (), .poll () 5, .pollEnd (), .start (),
    .handler 0 (.read .data), .handler 0 (.parse true), .handler 0 (.send false),
    .handler 0 .lock, .handler 0 .ret, .handler 0 .decide, .handler 0 .addNode, .handler 0 .dropSp,
    .finish 0, .roundEnd (), .drop (), .drop ()]

/-- A second request, up to the return from `SeparateTimer`. -/
def rearmRun : List (Act Unit) :=
  firstRequest ++ [.poll () 5, .pollEnd (), .start (), .handler 0 (.read .data),
    .handler 0 (.parse true), .handler 0 (.send false), .handler 0 .lock, .handler 0 .reset]

/-- The rest of the second request, and both items expire. -/
def expiryRun : List (Act Unit) :=
  [.handler 0 .decide, .handler 0 .addNode, .handler 0 .dropSp, .finish 0, .roundEnd (), .expire 0,
    .drop (), .drop (), .expire 1]

theorem superseded_timer_never_closes_rearm :
    ∃ u v w, Exec (step oneEpoll) Always (init oneEpoll) rearmRun u ∧
      step oneEpoll u (.handler 0 .ret) = some v ∧ Exec (step oneEpoll) Always v expiryRun w ∧
      OneTimer u ∧ v.fired = [] ∧ (0 ∈ w.fired → 0 ∈ v.fired) ∧ w.fired = [1] ∧ w.closes = [0] := by
  have hrun : ∃ u v w, runIf (step oneEpoll) Always (init oneEpoll) rearmRun = some u ∧
      step oneEpoll u (.handler 0 .ret) = some v ∧
      runIf (step oneEpoll) Always v expiryRun = some w ∧
      v.items 0 = some ⟨0, false, true, true⟩ ∧ v.fired = [] ∧ w.fired = [1] ∧ w.closes = [0] :=
    ⟨_, _, _, rfl, rfl, rfl, by decide, by decide, by decide, by decide⟩
  obtain ⟨u, v, w, hu, hv, hw, hi, hfired, hrest⟩ := hrun
  have main := superseded_timer_never_closes oneEpoll
  exact ⟨u, v, w, exec_of_runIf hu, hv, exec_of_runIf hw, (main.1 _ _ (exec_of_runIf hu)).1, hfired,
    main.2 _ _ _ _ _ _ (exec_of_runIf hu) hv (exec_of_runIf hw) 0 _ hi rfl, hrest⟩

end WebServer.Connection
