import WebServer.Lib.Exec
import WebServer.Libco.Invariant

/-!
# What libco resumes

A run here is one whose steps are `Allowed`: among others, `AddTimeout` accepts the timeout of every
poll on descriptors, and no time is 2^31 ms or more after the start of the wheel.

* `step_inv`: every step that libco allows is defined, and keeps the invariant; in particular the
  event loop never accesses an item that was freed, and never resumes a coroutine that is running or
  has ended.
* `resumed_exactly_once`: in every run, a coroutine is resumed from a suspension at most once, and
  one that was not is still suspended in it; `co_poll_inner` returns the number of the events that
  were handled for it.
* `round_resumes`: at the end of a round of `co_eventloop`, every coroutine has been resumed for
  which the round found an event or whose time had come, and every one that was signalled.
-/

namespace WebServer.Libco

open WebServer.Lib

namespace Sched

variable {s s' t : Sched} {q q' : Queues} {lists lists' : ℕ → List Ptr} {c d : ℕ} {x y : Ptr}
  {a : Act} {now : ℕ}

/-! ## One step -/

/-- What was on the active list is there still, or its coroutine has been resumed. -/
def Served (q : Queues) (s' : Sched) (q' : Queues) : Prop :=
  ∀ y ∈ q.active, y ∈ q'.active ∨ ∃ c, (c, y) ∈ s'.resumed

/-- **A step that libco allows** is defined, and keeps the invariant. -/
theorem step_inv (hi : Inv s q lists) (ha : s.Allowed a) :
    ∃ s' q' lists', s.step a = some s' ∧ Inv s' q' lists' ∧ Effect s s' ∧ Served q s' q' := by
  cases a with
  | enter =>
    exact ⟨_, q, lists, rfl, { hi with }, .neutral ⟨rfl, rfl, le_rfl, fun _ => rfl⟩,
      fun _ h => .inl h⟩
  | round events now =>
    obtain ⟨-, -, -, he, -, hgap⟩ := ha
    obtain ⟨s', q', e, hi', hn, hact, -⟩ := hi.round he hgap
    exact ⟨s', q', lists, e, hi', .neutral hn, fun y hy => .inl (hact y hy)⟩
  | pop =>
    obtain ⟨hlen, -, hne⟩ := ha
    obtain ⟨x, l, hq⟩ : ∃ x l, q.active = x :: l := by
      rw [hi.head_active] at hne
      exact List.exists_cons_of_ne_nil fun h => hne (by rw [h, List.head?_nil])
    obtain ⟨s', q', lists', c, e, hi', he, hc, -, hact, -⟩ := hi.pop hq hlen
    refine ⟨s', q', lists', e, hi', he, fun y hy => ?_⟩
    by_cases hyx : y = x
    · exact .inr ⟨c, hyx ▸ hc⟩
    · exact .inl (hact y hy hyx)
  | endRound leave =>
    exact ⟨_, q, lists, rfl, { hi with }, .neutral ⟨rfl, rfl, le_rfl, fun _ => rfl⟩,
      fun _ h => .inl h⟩
  | create =>
    exact ⟨_, q, lists, rfl, { hi with }, .neutral ⟨rfl, rfl, le_rfl, fun _ => rfl⟩,
      fun _ h => .inl h⟩
  | resume c =>
    obtain ⟨-, -, hc, hlen⟩ := ha
    obtain ⟨s', e, hi', hn, -⟩ := hi.resume hc hlen
    exact ⟨s', q, lists, e, hi', .neutral hn, fun _ h => .inl h⟩
  | yield =>
    have hst : CoState.yielded.item = none := rfl
    obtain ⟨s', e, hi', hn⟩ := hi.yieldPlain hst (by simp) ha
    exact ⟨s', q, lists, e, hi', .neutral hn, fun _ h => .inl h⟩
  | finish =>
    have hst : CoState.ended.item = none := rfl
    obtain ⟨s', e, hi', hn⟩ := hi.yieldPlain hst (by simp) ha
    exact ⟨s', q, lists, e, hi', .neutral hn, fun _ h => .inl h⟩
  | poll fds timeout pollfunc now =>
    obtain ⟨hlen, hgap, hacc⟩ := ha
    obtain ⟨s', q', e, hi', he, hact, -⟩ := hi.poll hlen hgap hacc
    exact ⟨s', q', lists, e, hi', he, fun y hy => .inl (hact y hy)⟩
  | condWait link ms now =>
    obtain ⟨s', q', lists', e, hi', he, hact, -⟩ := hi.condWait ha.1 ha.2
    exact ⟨s', q', lists', e, hi', he, fun y hy => .inl (hact y hy)⟩
  | signal si =>
    obtain ⟨s', q', lists', e, hi', hn, hact, -⟩ := hi.signal si
    exact ⟨s', q', lists', e, hi', .neutral hn, fun y hy => .inl (hact y hy)⟩
  | broadcast si =>
    obtain ⟨s', q', lists', e, hi', hn, hact, -⟩ := hi.broadcast si
    exact ⟨s', q', lists', e, hi', .neutral hn, fun y hy => .inl (hact y hy)⟩
  | close fd =>
    exact ⟨_, q, lists, rfl, hi.close fd, .neutral ⟨rfl, rfl, le_rfl, fun _ => rfl⟩,
      fun _ h => .inl h⟩

/-! ## The history of a run -/

/-- What has been suspended and resumed so far. -/
structure Hist (s : Sched) : Prop where
  nodup : (s.suspended.map Prod.snd).Nodup
  resumed_nodup : s.resumed.Nodup
  suspended_iff : ∀ c x, (c, x) ∈ s.suspended ↔ (c, x) ∈ s.resumed ∨ (s.co c).item = some x
  resumed_item : ∀ c x, (c, x) ∈ s.resumed → (s.co c).item ≠ some x
  lt_fresh : ∀ e ∈ s.suspended, e.2 < s.wheel.heap.fresh

namespace Hist

theorem init : Hist (init now) where
  nodup := .nil
  resumed_nodup := .nil
  suspended_iff := by
    intro c x
    by_cases hc : c = 0 <;> simp [Sched.init, hc, CoState.item]
  resumed_item := by simp [Sched.init]
  lt_fresh := by simp [Sched.init]

/-- An item is that of one suspension. -/
theorem eq_of_mem (h : Hist s) (hc : (c, x) ∈ s.suspended) (hd : (d, x) ∈ s.suspended) : c = d :=
  congrArg Prod.fst (List.inj_on_of_nodup_map h.nodup hc hd rfl)

/-- Every effect of a step on the coroutines keeps the history. -/
theorem effect (h : Hist s) (he : Effect s s') : Hist s' := by
  cases he with
  | neutral hn =>
    obtain ⟨hs, hr, hf, hitem⟩ := hn
    refine ⟨by rw [hs]; exact h.nodup, by rw [hr]; exact h.resumed_nodup, fun c x => ?_,
      fun c x hx => ?_, fun e hx => ?_⟩
    · rw [hs, hr, hitem]
      exact h.suspended_iff c x
    · rw [hr] at hx
      rw [hitem]
      exact h.resumed_item c x hx
    · rw [hs] at hx
      exact (h.lt_fresh e hx).trans_le hf
  | suspends c x hs hr hx hf hc hitem =>
    subst hx
    have hnew : ∀ d, (d, s.wheel.heap.fresh) ∉ s.suspended := fun d hd =>
      lt_irrefl _ (h.lt_fresh _ hd)
    refine ⟨?_, by rw [hr]; exact h.resumed_nodup, fun d y => ?_, fun d y hy => ?_, fun e hx => ?_⟩
    · rw [hs, List.map_append, List.map_singleton, ← List.concat_eq_append]
      refine h.nodup.concat fun hm => ?_
      obtain ⟨⟨d, y⟩, hd, rfl⟩ := List.mem_map.mp hm
      exact hnew d hd
    · rw [hs, hr, hitem, List.mem_append, List.mem_singleton, h.suspended_iff d y]
      by_cases hdc : d = c
      · subst hdc
        simp [hc, eq_comm]
      · simp [hdc]
    · rw [hr] at hy
      rw [hitem]
      split
      · rintro e
        obtain rfl := Option.some.inj e
        exact hnew d ((h.suspended_iff d _).mpr (.inl hy))
      · exact h.resumed_item d y hy
    · rw [hs, List.mem_append, List.mem_singleton] at hx
      rcases hx with hx | rfl
      · exact (h.lt_fresh e hx).trans hf
      · exact hf
  | resumes c x hs hr hf hc hitem =>
    refine ⟨by rw [hs]; exact h.nodup, ?_, fun d y => ?_, fun d y hy => ?_, fun e hx => ?_⟩
    · rw [hr, ← List.concat_eq_append]
      exact h.resumed_nodup.concat fun hm => h.resumed_item c x hm hc
    · rw [hs, hr, hitem, h.suspended_iff d y, List.mem_append, List.mem_singleton]
      by_cases hdc : d = c
      · subst hdc
        simp [hc, eq_comm]
      · simp [hdc]
    · rw [hitem]
      split
      · simp
      · rename_i hdc
        rw [hr, List.mem_append, List.mem_singleton] at hy
        rcases hy with hy | hy
        · exact h.resumed_item d y hy
        · exact absurd (congrArg Prod.fst hy) hdc
    · rw [hs] at hx
      rw [hf]
      exact h.lt_fresh e hx

end Hist

/-- What has been resumed stays so. -/
theorem Effect.resumed_mono (he : Effect s s') (hx : (c, x) ∈ s.resumed) : (c, x) ∈ s'.resumed := by
  cases he with
  | neutral hn => rwa [hn.resumed]
  | suspends _ _ _ hr => rwa [hr]
  | resumes _ _ _ hr =>
    rw [hr]
    exact List.mem_append_left _ hx

theorem Effect.suspended_mono (he : Effect s s') (hx : (c, x) ∈ s.suspended) :
    (c, x) ∈ s'.suspended := by
  cases he with
  | neutral hn => rwa [hn.suspended]
  | suspends _ _ hs =>
    rw [hs]
    exact List.mem_append_left _ hx
  | resumes _ _ hs => rwa [hs]

/-- Every run keeps the invariant and the history. -/
theorem run_inv (hnow : 0 < now) {acts : List Act}
    (hrun : Exec step Allowed (init now) acts s) : ∃ q lists, Inv s q lists ∧ Hist s := by
  refine hrun.invariant (I := fun s => ∃ q lists, Inv s q lists ∧ Hist s)
    ⟨_, _, init_inv hnow, .init⟩ ?_
  rintro u a v ⟨q, lists, hi, hh⟩ ha hs
  obtain ⟨s', q', lists', e, hi', he, -⟩ := step_inv hi ha
  obtain rfl := Option.some.inj (hs.symm.trans e)
  exact ⟨q', lists', hi', hh.effect he⟩

/-- **Every suspension ends once.** In every run whose steps are allowed, no two suspensions have
one item; a coroutine is resumed from a suspension at most once, and where it was not, it is still
suspended; `co_poll_inner` returned the number of the events that were handled for its `stPoll_t`;
and the next step that libco allows is defined. -/
theorem resumed_exactly_once (hnow : 0 < now) {acts : List Act}
    (hrun : Exec step Allowed (init now) acts s) :
    (s.suspended.map Prod.snd).Nodup ∧ s.resumed.Nodup ∧
      (∀ c x, (c, x) ∈ s.suspended ↔ (c, x) ∈ s.resumed ∨ (s.co c).item = some x) ∧
      (∀ c x, (c, x) ∈ s.resumed → (s.co c).item ≠ some x) ∧
      (∀ x n, (x, n) ∈ s.results → n = s.raised.count x) ∧
      ∀ a, s.Allowed a → (s.step a).isSome := by
  obtain ⟨q, lists, hi, hh⟩ := run_inv hnow hrun
  refine ⟨hh.nodup, hh.resumed_nodup, hh.suspended_iff, hh.resumed_item,
    fun x n h => (hi.results x n h).1, fun a ha => ?_⟩
  obtain ⟨s', -, -, e, -⟩ := step_inv hi ha
  rw [e]
  rfl

/-- Coroutine 1 polls on a descriptor, coroutine 2 waits for a condition variable, and the first
coroutine goes into the event loop. -/
def pollAndWait : List Act :=
  [.create, .create, .resume 1, .poll [⟨5, 1, .ok⟩] 100 false 1000, .resume 2,
    .condWait 0 50 1001, .enter]

/-- The descriptor is ready; coroutine 1 signals coroutine 2, and polls again. -/
def signalAndPoll : List Act :=
  [.pop, .signal 0, .poll [⟨5, 1, .ok⟩, ⟨7, 1, .ok⟩] 10 false 1011, .pop, .yield]

/-- `resumed_exactly_once` on these two, one after the other. -/
theorem resumed_exactly_once_signal :
    ∃ s, runIf step Allowed (init 1000) (pollAndWait ++ .round [(5, 1)] 1010 :: signalAndPoll) =
        some s ∧ s.suspended = [(1, 0), (2, 1), (1, 2)] ∧ s.resumed = [(1, 0), (2, 1)] ∧
      (s.co 1).item = some 2 ∧ s.results = [(0, 1)] ∧ s.raised.count 0 = 1 := by
  let s := (runIf step Allowed (init 1000)
    (pollAndWait ++ .round [(5, 1)] 1010 :: signalAndPoll)).get (by decide)
  have hs : runIf step Allowed (init 1000) (pollAndWait ++ .round [(5, 1)] 1010 :: signalAndPoll) =
    some s := (Option.some_get _).symm
  have h₁ : s.suspended = [(1, 0), (2, 1), (1, 2)] := by decide
  have h₂ : s.resumed = [(1, 0), (2, 1)] := by decide
  have h₃ : s.results = [(0, 1)] := by decide
  obtain ⟨-, -, hiff, -, hres, -⟩ := resumed_exactly_once (by decide) (exec_of_runIf hs)
  refine ⟨s, hs, h₁, h₂, ?_, h₃, (hres 0 1 (by rw [h₃]; simp)).symm⟩
  refine ((hiff 1 2).mp (by rw [h₁]; simp)).resolve_left ?_
  rw [h₂]
  decide

/-! ## The end of a round -/

/-- What was on the active list has been resumed when the list is empty. -/
theorem resumed_of_active (hi : Inv s q lists) (hh : Hist s) {acts : List Act}
    (hrun : Exec step Allowed s acts t) (hnil : (t.wheel.heap.link .active).head = none)
    (hc : (s.co c).item = some x) (hx : x ∈ q.active) : (c, x) ∈ t.resumed := by
  have hsus : (c, x) ∈ s.suspended := (hh.suspended_iff c x).mpr (.inr hc)
  obtain ⟨q', lists', hi', hh', hact, hsus'⟩ : ∃ q' lists', Inv t q' lists' ∧ Hist t ∧
      (x ∈ q'.active ∨ ∃ d, (d, x) ∈ t.resumed) ∧ (c, x) ∈ t.suspended := by
    refine hrun.invariant (I := fun t => ∃ q' lists', Inv t q' lists' ∧ Hist t ∧
      (x ∈ q'.active ∨ ∃ d, (d, x) ∈ t.resumed) ∧ (c, x) ∈ t.suspended)
      ⟨q, lists, hi, hh, .inl hx, hsus⟩ ?_
    rintro u a v ⟨q₁, lists₁, hi₁, hh₁, hact, hsus₁⟩ ha hs
    obtain ⟨v', q₂, lists₂, e, hi₂, he, hserved⟩ := step_inv hi₁ ha
    obtain rfl := Option.some.inj (hs.symm.trans e)
    refine ⟨q₂, lists₂, hi₂, hh₁.effect he, ?_, he.suspended_mono hsus₁⟩
    rcases hact with hact | ⟨d, hd⟩
    · exact hserved x hact
    · exact .inr ⟨d, he.resumed_mono hd⟩
  rcases hact with hact | ⟨d, hd⟩
  · rw [hi'.head_active, List.head?_eq_none_iff] at hnil
    rw [hnil] at hact
    cases hact
  · rwa [hh'.eq_of_mem hsus' ((hh'.suspended_iff d x).mpr (.inl hd))]

/-- **A round serves all.** When a round of `co_eventloop` has come to its end, in a run whose steps
are allowed, every coroutine has been resumed whose item was on the active list before it, for whose
`stPoll_t` it found an event, or, if the clock was not set back to before the start of the wheel,
whose time had come. -/
theorem round_resumes (hnow : 0 < now) {acts acts' : List Act} {events : List (ℕ × ℕ)} {now' : ℕ}
    (hrun : Exec step Allowed (init now) acts s)
    (ha : s.Allowed (.round events now')) (hs : s.step (.round events now') = some s')
    (hrun' : Exec step Allowed s' acts' t) (hend : t.Allowed (.endRound false)) :
    (∀ c x, (s.co c).item = some x → s.wheel.heap.owner x = some .active → (c, x) ∈ t.resumed) ∧
      (∀ e ∈ events, ∃ r c, s.epoll e.1 = some r ∧ s.co c = .polling r.pPoll ∧
        (c, r.pPoll) ∈ t.resumed) ∧
      (s.wheel.ullStart ≤ now' → ∀ c x i, (s.co c).item = some x →
        s.wheel.heap.owner x = some (.slot i) → Timeout.expire s.wheel.heap x ≤ now' →
          (c, x) ∈ t.resumed) := by
  obtain ⟨q, lists, hi, hh⟩ := run_inv hnow hrun
  obtain ⟨-, -, -, he, -, hgap⟩ := ha
  obtain ⟨s₁, q₁, e₁, hi₁, hn, hact, hev, hpend, -⟩ := hi.round he hgap
  obtain rfl := Option.some.inj (hs.symm.trans e₁)
  have key : ∀ c x, (s.co c).item = some x → x ∈ q₁.active → (c, x) ∈ t.resumed := fun c x hc hx =>
    resumed_of_active hi₁ (hh.effect (.neutral hn)) hrun' hend.2.2 ((hn.item c).trans hc) hx
  refine ⟨fun c x hc ho => key c x hc (hact x (hi.waits.mem_active.mpr ho)), fun e hm => ?_,
    fun hle c x i hc ho hx =>
      key c x hc (hpend hle x _ (hi.waits.mem_pending.mpr ⟨⟨i, ho⟩, rfl⟩) hx)⟩
  obtain ⟨r, hr⟩ := Option.ne_none_iff_exists'.mp (he e hm)
  obtain ⟨p, hp, -⟩ := hi.registered _ r hr
  obtain ⟨c, hc⟩ := (hi.polls_iff r.pPoll).mp (by simp [hp])
  exact ⟨r, c, hr, hc, key c _ (by simp [hc, CoState.item]) (hev e hm r hr)⟩

/-- `round_resumes` on the round of this run: the coroutine that polls is resumed for the event. -/
theorem round_resumes_poll :
    ∃ s s' t, runIf step Allowed (init 1000) pollAndWait = some s ∧
      s.step (.round [(5, 1)] 1010) = some s' ∧
      runIf step Allowed s' signalAndPoll = some t ∧
      ∃ c, s.co c = .polling 0 ∧ (c, 0) ∈ t.resumed := by
  let s := (runIf step Allowed (init 1000) pollAndWait).get (by decide)
  have hs : runIf step Allowed (init 1000) pollAndWait = some s := (Option.some_get _).symm
  let s' := (s.step (.round [(5, 1)] 1010)).get (by decide)
  have hs' : s.step (.round [(5, 1)] 1010) = some s' := (Option.some_get _).symm
  let t := (runIf step Allowed s' signalAndPoll).get (by decide)
  have ht : runIf step Allowed s' signalAndPoll = some t := (Option.some_get _).symm
  refine ⟨s, s', t, hs, hs', ht, ?_⟩
  obtain ⟨-, hev, -⟩ := round_resumes (by decide) (exec_of_runIf hs)
    (show s.Allowed (.round [(5, 1)] 1010) by decide) hs' (exec_of_runIf ht) (by decide)
  obtain ⟨r, c, hr, hc, hm⟩ := hev (5, 1) (by simp)
  have hr' : s.epoll 5 = some ⟨0, 0, 1⟩ := by decide
  obtain rfl := Option.some.inj (hr.symm.trans hr')
  exact ⟨c, hc, hm⟩

/-- **A signal is not lost.** When a round of `co_eventloop` has come to its end after a
`co_cond_signal`, in a run whose steps are allowed, the coroutine whose `stCoCondItem_t` was the
first of the list has been resumed; after a `co_cond_broadcast`, all have that were in the list. -/
theorem signalled_resumes (psi : Ptr) (hnow : 0 < now) {acts acts' : List Act} {k : ℕ}
    (hrun : Exec step Allowed (init now) acts s) (hc : s.co c = .waiting psi x)
    (hs : (s.conds.link k).head = some psi ∧ s.step (.signal k) = some s' ∨
      s.conds.owner psi = some k ∧ s.step (.broadcast k) = some s')
    (hrun' : Exec step Allowed s' acts' t) (hend : t.Allowed (.endRound false)) :
    (c, x) ∈ t.resumed := by
  obtain ⟨q, lists, hi, hh⟩ := run_inv hnow hrun
  have hitem : (s.co c).item = some x := by simp [hc, CoState.item]
  have htag : s.tag psi = some x := (hi.psi_iff psi x).mpr ⟨c, hc⟩
  rcases hs with ⟨hhead, hs⟩ | ⟨ho, hs⟩
  · obtain ⟨s₁, q₁, lists₁, e₁, hi₁, hn, -, hwoken⟩ := hi.signal k
    obtain rfl := Option.some.inj (hs.symm.trans e₁)
    rw [hi.head_link] at hhead
    exact resumed_of_active hi₁ (hh.effect (.neutral hn)) hrun' hend.2.2 ((hn.item c).trans hitem)
      (hwoken psi x hhead htag)
  · obtain ⟨s₁, q₁, lists₁, e₁, hi₁, hn, -, hwoken⟩ := hi.broadcast k
    obtain rfl := Option.some.inj (hs.symm.trans e₁)
    exact resumed_of_active hi₁ (hh.effect (.neutral hn)) hrun' hend.2.2 ((hn.item c).trans hitem)
      (hwoken psi x ((hi.conds.owner k psi).mpr ho) htag)

/-- `signalled_resumes` for the signal of this run. -/
theorem signalled_resumes_two :
    ∃ s s' t, runIf step Allowed (init 1000) (pollAndWait ++ [.round [(5, 1)] 1010, .pop]) =
        some s ∧ s.step (.signal 0) = some s' ∧
      runIf step Allowed s' [.poll [⟨5, 1, .ok⟩, ⟨7, 1, .ok⟩] 10 false 1011, .pop, .yield] =
        some t ∧ (2, 1) ∈ t.resumed := by
  let s := (runIf step Allowed (init 1000)
    (pollAndWait ++ [.round [(5, 1)] 1010, .pop])).get (by decide)
  have hs : runIf step Allowed (init 1000) (pollAndWait ++ [.round [(5, 1)] 1010, .pop]) =
    some s := (Option.some_get _).symm
  let s' := (s.step (.signal 0)).get (by decide)
  have hs' : s.step (.signal 0) = some s' := (Option.some_get _).symm
  let t := (runIf step Allowed s'
    [.poll [⟨5, 1, .ok⟩, ⟨7, 1, .ok⟩] 10 false 1011, .pop, .yield]).get (by decide)
  have ht : runIf step Allowed s' [.poll [⟨5, 1, .ok⟩, ⟨7, 1, .ok⟩] 10 false 1011, .pop, .yield] =
    some t := (Option.some_get _).symm
  exact ⟨s, s', t, hs, hs', ht, signalled_resumes 0 (k := 0) (by decide)
    (exec_of_runIf hs) (by decide) (.inl ⟨by decide, hs'⟩) (exec_of_runIf ht) (by decide)⟩

end Sched

end WebServer.Libco
