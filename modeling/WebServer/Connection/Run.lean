import WebServer.Connection.Invariant

/-!
# Every run keeps the invariant

One lemma for the steps of a handler, one for the steps of the system, and by induction the
invariant of every reachable state.
-/

namespace WebServer.Connection

open WebServer.Lib

variable {ε : Type*} {S : Setup ε} {s t : St ε}

/-! ## What the operations leave alone -/

section Frame

variable (s) (c i : ℕ)

@[simp] theorem release_frame : (s.release c).frame = s.frame := by
  unfold St.release; split <;> [rfl; (split <;> rfl)]

@[simp] theorem release_items : (s.release c).items = s.items := by
  unfold St.release; split <;> [rfl; (split <;> rfl)]

@[simp] theorem release_fired : (s.release c).fired = s.fired := by
  unfold St.release; split <;> [rfl; (split <;> rfl)]

/-- No operation makes a channel. -/
theorem release_chans {s : St ε} {c x : ℕ} {ch : Chan ε} (hc : (s.release x).chans c = some ch) :
    s.chans c = some ch := by
  unfold St.release at hc
  split at hc
  · exact hc
  · split at hc
    · exact hc
    · by_cases hcx : c = x
      · subst hcx; simp at hc
      · simpa [hcx] using hc

theorem release_holding {it : Item} : Holding (s.release c) i it ↔ Holding s i it := by
  unfold Holding
  rw [release_items]

variable [DecidableEq ε] (ch : Chan ε)

@[simp] theorem close_frame : (s.close c ch).frame = s.frame := by
  unfold St.close; split <;> simp [St.setEntry]

@[simp] theorem close_items : (s.close c ch).items = s.items := by
  unfold St.close; split <;> simp [St.setEntry]

@[simp] theorem close_fired : (s.close c ch).fired = s.fired := by
  unfold St.close; split <;> simp [St.setEntry]

variable (it : Item)

theorem destroyItem_items : (s.destroyItem i it).items =
    Function.update s.items i (some { it with ptr := false, live := false }) := by
  unfold St.destroyItem; split <;> simp [St.setItem]

theorem destroyItem_frame : (s.destroyItem i it).frame = s.frame := by
  unfold St.destroyItem; split <;> simp [St.setItem]

theorem close_chans {s : St ε} {c x : ℕ} {ch ch' : Chan ε}
    (hc : (s.close x ch').chans c = some ch) : s.chans c = some ch := by
  unfold St.close at hc
  split at hc
  · exact hc
  · exact hc
  · exact release_chans (s := ({ s with
      dels := s.dels ++ [(x, s.mmap ch'.attachEpoll ch'.fd)] }.setEntry _ _ none)) hc

theorem destroyItem_chans {s : St ε} {c i : ℕ} {it : Item} {ch : Chan ε}
    (hc : (s.destroyItem i it).chans c = some ch) : s.chans c = some ch := by
  unfold St.destroyItem at hc
  split at hc
  · have hclose := release_chans hc
    exact close_chans (s := { s with fired := s.fired ++ [i] }) hclose
  · exact hc

end Frame

/-- `lock()` gives the item `wp_time_round_item` refers to, and it exists. -/
theorem lockItem_eq_some {wp : Option ℕ} {i : ℕ} (h : s.lockItem wp = some i) :
    wp = some i ∧ ∃ it, s.items i = some it ∧ it.live = true := by
  obtain ⟨hwp, hi⟩ := Option.filter_eq_some_iff.mp h
  refine ⟨hwp, ?_⟩
  cases hit : s.items i with
  | none => simp [hit] at hi
  | some it => exact ⟨it, rfl, by simpa [hit] using hi⟩

/-- When `lock()` gives none, no item holds the channel. -/
theorem not_holding_of_lockItem (h : Inv S s) {c : ℕ} {ch : Chan ε} (hc : s.chans c = some ch)
    (hl : s.lockItem ch.wpTimeRoundItem = none) {i : ℕ} {it : Item} (hi : Holding s i it) :
    it.chan ≠ c := by
  rintro rfl
  obtain ⟨ch', hc', hwp⟩ := h.holding_chan hi
  obtain rfl := Option.some.inj (hc.symm.trans hc')
  simp [St.lockItem, hwp, hi.1, hi.2.1] at hl

theorem afterReset_held (f : Call) (temp : Option ℕ) : (f.afterReset temp).held = temp := by
  cases f <;> rfl

theorem afterReset_ne_reset (f g : Call) (temp : Option ℕ) (i : ℕ) :
    f.afterReset temp ≠ .reset i g := by
  cases f <;> simp [Call.afterReset]

theorem next_held (f : Call) : f.next.held = none := by
  rcases f with _ | _ | _ <;> rfl

theorem next_ne_reset (f g : Call) (i : ℕ) : f.next ≠ .reset i g := by
  rcases f with _ | _ | _ <;> simp [Call.next]

/-- After `reset` of the item that `wp_time_round_item` refers to, no item holds the channel. -/
theorem not_holding_of_reset (h : Inv S s) {c i : ℕ} {f : Call} {ch : Chan ε}
    (hc : s.chans c = some ch) (hf : s.frame c = some (.reset i f)) {j : ℕ} {jt : Item}
    (hj : Holding (s.resetItem i) j jt) : jt.chan ≠ c := by
  obtain ⟨it, hi, -, -⟩ := h.frame_item hf rfl
  simp only [St.resetItem, hi, release_holding] at hj
  obtain ⟨hj, hl, hp⟩ := hj
  obtain ⟨rfl, rfl⟩ | ⟨hji, hj⟩ := update_some_cases hj
  · cases hp
  · rintro rfl
    obtain ⟨ch', hc', hwp⟩ := h.holding_chan ⟨hj, hl, hp⟩
    obtain rfl := Option.some.inj (hc.symm.trans hc')
    exact hji (Option.some.inj (hwp.symm.trans (h.frame_reset hf hc)))

/-- The return from `SeparateTimer` or `handle_close`, when no item holds the channel. -/
theorem Inv.setFrame_next (h : Inv S s) {c : ℕ} {ch : Chan ε} {pc : Pc} (hc : s.chans c = some ch)
    (hf : s.frame c = some pc) (hq : pc.quiet = true) (f : Call) :
    Inv S (s.setFrame c f.next) := by
  refine h.setFrame ⟨ch, hc⟩ (by simp [next_held]) ?_ ?_
  · intro _ j jt hj
    exact h.frame_quiet hf hq hj
  · intro j g _ e
    exact absurd e (next_ne_reset f g j)

/-! ## Steps -/

variable [DecidableEq ε]

/-- **A step of a handler keeps the invariant.** -/
theorem handlerStep_inv (h : Inv S s) {c : ℕ} {ch : Chan ε} {pc : Pc} {a : HAct}
    (hc : s.chans c = some ch) (hf : s.frame c = some pc) (hs : HandlerStep S s c ch pc a t) :
    Inv S t := by
  -- moving to a place with no item in hand and nothing detached
  have move : ∀ {pc'}, Pc.held pc' = none → Pc.quiet pc' = false →
      (∀ i f, pc' ≠ .reset i f) → Inv S (s.setFrame c pc') := by
    intro pc' h1 h2 h3
    refine h.setFrame ⟨ch, hc⟩ (by simp [h1]) (by simp [h2]) ?_
    intro i f _ e
    exact absurd e (h3 i f)
  cases hs with
  | data => exact move rfl rfl (by simp)
  | nothing => exact move rfl rfl (by simp)
  | eof => exact move rfl rfl (by simp)
  | parse ka =>
    refine (h.setKeepAlive hc _).setFrame ⟨_, Function.update_self ..⟩ ?_ ?_ ?_ <;>
      simp [Pc.held, Pc.quiet]
  | sendClosed => exact move rfl rfl (by simp)
  | send => exact move rfl rfl (by simp)
  | lock hl =>
    obtain ⟨hwp, it, hi, hlive⟩ := lockItem_eq_some hl
    obtain ⟨it', hi', hchan⟩ := h.wp_item hc hwp
    obtain rfl := Option.some.inj (hi.symm.trans hi')
    refine h.setFrame ⟨ch, hc⟩ ?_ (by simp [Pc.quiet]) ?_
    · intro j hj
      obtain rfl := Option.some.inj hj
      exact ⟨it, hi, hlive, hchan⟩
    · intro j g ch' e hc'
      obtain ⟨rfl, -⟩ := Pc.reset.inj e
      obtain rfl := Option.some.inj (hc.symm.trans hc')
      exact hwp
  | @lockNone f hl =>
    refine h.setFrame ⟨ch, hc⟩ (by simp [afterReset_held]) ?_ ?_
    · intro _ i it hi
      exact not_holding_of_lockItem h hc hl hi
    · intro i g ch' e
      exact absurd e (afterReset_ne_reset f g none i)
  | @reset i f =>
    obtain ⟨it, hi, hlive, rfl⟩ := h.frame_item hf rfl
    have hr := h.resetItem hi hlive
    have hframe : (s.resetItem i).frame it.chan = some (.reset i f) := by
      simpa [St.resetItem, hi, St.setItem] using hf
    apply hr.setFrame (hr.frame_chan hframe)
    · intro j hj
      rw [afterReset_held] at hj
      obtain rfl := Option.some.inj hj
      exact hr.frame_item hframe rfl
    · intro _ j jt hj
      exact not_holding_of_reset h hc hf hj
    · intro j g ch' e
      exact absurd e (afterReset_ne_reset f g (some i) j)
  | close =>
    have href : s.frame c ≠ none ∨ s.Timed c := .inl (by simp [hf])
    have hcl := h.close hc href
    rw [close_eq hc (h.entry_own hc) href] at hcl ⊢
    refine hcl.setFrame ⟨ch, hc⟩ ?_ ?_ (by simp)
    · intro i hi
      exact h.frame_item hf hi
    · intro _ i it hi
      exact h.frame_quiet hf rfl hi
  | @retNone f => exact h.setFrame_next hc hf rfl f
  | @ret i f =>
    obtain ⟨it, hi, hlive, -⟩ := h.frame_item hf rfl
    exact (h.setFrame_next hc hf rfl f).dropItem hi hlive
  | arm _ _ =>
    have hno : ∀ i it, Holding s i it → it.chan ≠ c := fun i it hi => h.frame_quiet hf rfl hi
    have hdone : Inv S (s.setFrame c .done) := move rfl rfl (by simp)
    have harm : Inv S ((s.setFrame c .done).arm c ch) :=
      hdone.arm hc hno (Function.update_self ..)
    have hset : Inv S (((s.setFrame c .done).arm c ch).setFrame c (.armed s.nextItem)) := by
      refine harm.setFrame ⟨_, Function.update_self ..⟩ ?_ (by simp [Pc.quiet]) (by simp)
      intro i hi
      obtain rfl := Option.some.inj hi
      exact ⟨_, Function.update_self .., rfl, rfl⟩
    simpa [St.setFrame, St.arm, St.setChan, St.setItem] using hset
  | closeNow _ => exact move rfl rfl (by simp)
  | untimed _ _ => exact move rfl rfl (by simp)
  | @addNode i it hi =>
    obtain ⟨it', hi', hlive, hchan⟩ := h.frame_item hf rfl
    obtain rfl := Option.some.inj (hi.symm.trans hi')
    have hset : Inv S (s.setItem i { it with node := true }) :=
      h.setItem hi rfl (fun _ => hlive) (fun hp => hp) (by simp [hlive])
    refine hset.setFrame ⟨ch, hc⟩ ?_ (by simp [Pc.quiet]) (by simp)
    intro j hj
    obtain rfl := Option.some.inj hj
    exact ⟨_, Function.update_self .., hlive, hchan⟩
  | dropSp =>
    obtain ⟨it, hi, hlive, -⟩ := h.frame_item hf rfl
    have hdone : Inv S (s.setFrame c .done) := move rfl rfl (by simp)
    exact hdone.dropItem hi hlive

/-- **A step keeps the invariant.** -/
theorem step_inv (h : Inv S s) {a : Act ε} (hs : step S s a = some t) : Inv S t := by
  cases step_cases hs with
  | accept hfd => exact h.accept hfd
  | addNewConnect hfd hn => exact h.addNewConnect hn hfd _
  | poll hl =>
    unfold St.pollOne
    split
    · rename_i c hx
      refine h.setResults ?_ (by simp [hl])
      intro x hm
      rcases List.mem_append.mp hm with hm | hm
      · exact h.result_chan hm
      · obtain rfl := List.mem_singleton.mp hm
        obtain ⟨ch, hc, -, he⟩ := h.entry_client hx
        exact ⟨ch, hc, he⟩
    · exact h
  | pollEnd _ =>
    apply h.setLoop
    intro todo c e' hc
    obtain rfl := LoopPc.running.inj e'
    exact hc
  | @start e c todo hl _ =>
    have hloop : Inv S (s.setLoop e (.running todo)) := by
      apply h.setLoop
      intro todo' x e' hx
      obtain rfl := LoopPc.running.inj e'
      exact h.todo_results hl (List.mem_cons_of_mem _ hx)
    obtain ⟨ch, hc, -⟩ := h.result_chan (h.todo_results hl (List.mem_cons_self ..))
    refine hloop.setFrame ⟨ch, hc⟩ ?_ ?_ ?_ <;> simp [Pc.held, Pc.quiet]
  | handler hf hc hstep => exact handlerStep_inv h hc hf hstep
  | @finish c _ => exact (h.clearFrame c).release c
  | roundEnd _ _ => exact h.setLoop (by simp)
  | dropEnd _ _ => exact h.setLoop (by simp)
  | @drop e c cs hl hr =>
    have hres : Inv S (s.setResults e cs) := by
      refine h.setResults ?_ (by simp [hl])
      intro x hm
      exact h.result_chan (hr ▸ List.mem_cons_of_mem _ hm)
    exact hres.release c
  | @expire i it hi hlive _ =>
    have hset : Inv S (s.setItem i { it with node := false }) :=
      h.setItem hi rfl (fun _ => hlive) (fun hp => hp) (by simp [hlive])
    exact hset.dropItem (Function.update_self ..) hlive

/-- **Every reachable state satisfies the invariant.** -/
theorem reachable_inv {l : List (Act ε)} (h : Exec (step S) Always (init S) l s) : Inv S s :=
  h.invariant (init_inv S) fun _ _ _ hu _ hs => step_inv hu hs

end WebServer.Connection
