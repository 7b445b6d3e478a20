import WebServer.Coroutine.OnLibco

/-!
# The pool on libco simulates the pool

The states of the pool on libco stand for states of its model. While the thread itself has control,
such a state is one the model reaches (`Stands`); while a coroutine has control, whatever it does up
to its next yield leads to one. The yields to come are guessed: a step that yields shows one guess
right, and all others wrong, so the statement is about every guess.

* `step_sim`: every allowed step is defined, and keeps this.
* `pool_on_libco`: in every run of allowed steps, the list of `cond` and the active list of libco
  are those of a state that the model reaches, and every call of a function of libco is defined.
* `run_returns_idle`: where `Run` has returned in such a run, every coroutine is in the list of
  `cond`, libco holds no other item, and no descriptor is registered with its `epoll`.
-/

namespace WebServer.Coroutine

open WebServer.Lib Libco

variable {α : Type*} {coNum : ℕ}

/-! ## Oracles -/

/-- The yields are given, and what the `p`-th pass finds ready. -/
def Oracle.of (coNum : ℕ) (yields : ℕ → ℕ) (p : ℕ) {ready : List ℕ} (h : ready.Nodup) :
    Oracle coNum where
  yields := yields
  ready q := if q = p then ready else List.range coNum
  ready_nodup q := by
    split
    · exact h
    · exact List.nodup_range
  ready_fair c hc q := by
    refine ⟨max q (p + 1), le_max_left .., ?_⟩
    rw [if_neg (by omega)]
    exact List.mem_range.mpr hc

/-- Some oracle. -/
def Oracle.any (coNum : ℕ) : Oracle coNum := .of coNum (fun _ => 0) 0 List.nodup_nil

/-- `CoroutineFun` asks for the yields of the calls that it starts. -/
theorem coroutineFun_congr {o o' : Oracle coNum} {c : ℕ} (task : List (ℕ × α)) (s : St α)
    (h : ∀ j ≥ s.started.length, o.yields j = o'.yields j) :
    coroutineFun o c task s = coroutineFun o' c task s := by
  induction task generalizing s with
  | nil => rfl
  | cons x task ih =>
    have hih := ih { s with task := task, started := s.started ++ [(c, x)] } fun j hj =>
      h j (by rw [List.length_append] at hj; omega)
    unfold coroutineFun
    dsimp only
    rw [h _ le_rfl]
    split
    · exact hih
    · rfl

/-- A call of `handle_event` that does not yield: the loop goes on. -/
theorem coroutineFun_skip (o : Oracle coNum) (c : ℕ) (x : ℕ × α) (task : List (ℕ × α)) (s : St α) :
    ∃ o' : Oracle coNum, coroutineFun o' c (x :: task) s =
      coroutineFun o c task { s with task := task, started := s.started ++ [(c, x)] } := by
  let o' : Oracle coNum := { o with yields := Function.update o.yields s.started.length 0 }
  have hzero : o'.yields s.started.length = 0 := Function.update_self ..
  refine ⟨o', ?_⟩
  have hcongr : coroutineFun o' c task { s with task := task, started := s.started ++ [(c, x)] } =
      coroutineFun o c task { s with task := task, started := s.started ++ [(c, x)] } := by
    refine coroutineFun_congr task _ fun j hj => ?_
    rw [List.length_append, List.length_singleton] at hj
    exact Function.update_of_ne (by omega) ..
  rw [← hcongr]
  conv_lhs => unfold coroutineFun
  simp only [hzero]

/-- A call of `handle_event` that yields. -/
theorem coroutineFun_yield (c y : ℕ) (x : ℕ × α) (task : List (ℕ × α)) (s : St α) :
    ∃ o : Oracle coNum, coroutineFun o c (x :: task) s =
      { s with
        task := task
        started := s.started ++ [(c, x)]
        inside := Function.update s.inside c (some (x.1, y)) } :=
  ⟨.of coNum (fun _ => y + 1) 0 List.nodup_nil, rfl⟩

/-! ## The states a machine stands for -/

/-- The state of the model, given its lists, the passes so far and the yields to come. -/
def Machine.abs (m : Machine α) (cond active : List ℕ) (p : ℕ) (y : ℕ → ℕ) : St α where
  freeCoNum := m.freeCoNum
  cond := cond
  active := active
  inside c := (m.inside c).map fun k => (k, y c)
  task := m.task
  started := m.started
  puts := m.puts
  passes := p
  pc := m.pc

/-- Coroutine `c` has left `handle_event`. -/
def Machine.leave (m : Machine α) (c : ℕ) : Machine α :=
  { m with inside := Function.update m.inside c none }

/-- Whatever coroutine `c` does from the head of its loop on leads to a state that is reached. -/
def AtLoop (coNum c : ℕ) (s : St α) : Prop :=
  ∀ o : Oracle coNum, Reachable coNum (coroutineFun o c s.task s)

/-- The machine stands for states of the model that are reached, or will be when the coroutine that
has control yields. -/
def Stands (coNum : ℕ) (m : Machine α) (cond active : List ℕ) (p : ℕ) : Prop :=
  match m.control with
  | none => ∀ y, Reachable coNum (m.abs cond active p y)
  | some c =>
    match m.inside c with
    | none => ∀ y, AtLoop coNum c (m.abs cond active p y)
    | some _ => ∀ y, Reachable coNum (m.abs cond active p y) ∧
        AtLoop coNum c ((m.leave c).abs cond active p y)

/-- The simulation. -/
def Sim (coNum : ℕ) (m : Machine α) : Prop :=
  ∃ q lists cond active p, Holds m q lists cond active ∧ Stands coNum m cond active p

section

variable {m : Machine α} {q q' : Queues} {lists lists' : ℕ → List Ptr} {cond active : List ℕ}
  {c n p : ℕ} {s : Sched}

theorem stands_main (hm : m.control = none) :
    Stands coNum m cond active p ↔ ∀ y, Reachable coNum (m.abs cond active p y) := by
  rw [Stands, hm]

theorem stands_loop (hm : m.control = some c) (hc : m.inside c = none) :
    Stands coNum m cond active p ↔ ∀ y, AtLoop coNum c (m.abs cond active p y) := by
  rw [Stands, hm]
  dsimp only
  rw [hc]

theorem stands_within (hm : m.control = some c) (hc : m.inside c ≠ none) :
    Stands coNum m cond active p ↔ ∀ y, Reachable coNum (m.abs cond active p y) ∧
      AtLoop coNum c ((m.leave c).abs cond active p y) := by
  obtain ⟨k, hk⟩ := Option.ne_none_iff_exists'.mp hc
  rw [Stands, hm]
  dsimp only
  rw [hk]

/-- The thread itself goes on, as the model does. -/
theorem stands_step {m' : Machine α} {cond' active' : List ℕ} {p' : ℕ} (hm : m.control = none)
    (hm' : m'.control = none) (h : Stands coNum m cond active p)
    (hstep : ∃ o : Oracle coNum, ∀ y,
      step o (m.abs cond active p y) = m'.abs cond' active' p' y) :
    Stands coNum m' cond' active' p' := by
  obtain ⟨o, ho⟩ := hstep
  rw [stands_main hm] at h
  rw [stands_main hm']
  intro y
  rw [← ho y]
  exact .step o (h y)

/-! ## Steps of the thread itself -/

theorem abs_leave (m : Machine α) (cond active : List ℕ) (p c : ℕ) (y : ℕ → ℕ) :
    (m.leave c).abs cond active p y = { m.abs cond active p y with
      inside := Function.update (m.abs cond active p y).inside c none } := by
  have : (fun d => ((m.leave c).inside d).map fun k => (k, y d)) =
      Function.update (m.abs cond active p y).inside c none := by
    funext d
    by_cases hd : d = c
    · subst hd
      simp [Machine.leave]
    · simp [Machine.leave, Machine.abs, hd]
  exact congrArg (fun f => { m.abs cond active p y with inside := f }) this

/-- `Run` tests its conditions. -/
theorem sim_pc {pc : Pc} (hm : m.control = none) (h : Holds m q lists cond active)
    (hs : Stands coNum m cond active p) (hloop : pc.loop = m.pc.loop)
    (hstep : ∃ o : Oracle coNum, ∀ y,
      step o (m.abs cond active p y) = { m with pc := pc }.abs cond active p y) :
    Sim coNum { m with pc := pc } :=
  ⟨q, lists, cond, active, p, h.congr rfl rfl hloop, stands_step hm hm hs hstep⟩

/-- The thread gives control to the first coroutine of the active list. -/
theorem stands_resume (hm : m.control = none) (hpc : m.pc = .process n)
    (hs : Stands coNum m cond (c :: active) p)
    (hc : { m with sched := s }.control = some c) :
    Stands coNum { m with sched := s } cond active p := by
  rw [stands_main hm] at hs
  have hstep : ∀ (o : Oracle coNum) (y : ℕ → ℕ),
      step o (m.abs cond (c :: active) p y) = coResume o c (m.abs cond active p y) := fun o y =>
    step_process_cons (s := m.abs cond (c :: active) p y) hpc rfl
  have hreach : ∀ o y, Reachable coNum (coResume o c (m.abs cond active p y)) := fun o y => by
    rw [← hstep]
    exact .step o (hs y)
  by_cases hin : m.inside c = none
  · rw [stands_loop hc hin]
    intro y o
    have hy := hreach o y
    have hnone : (m.abs cond active p y).inside c = none := by simp [Machine.abs, hin]
    unfold coResume at hy
    rw [hnone] at hy
    exact hy
  · obtain ⟨k, hk⟩ := Option.ne_none_iff_exists'.mp hin
    rw [stands_within hc hin]
    intro y
    have hsome : ∀ w : ℕ → ℕ, (m.abs cond active p w).inside c = some (k, w c) := by
      intro w
      simp [Machine.abs, hk]
    constructor
    · -- one yield more was to come
      have hy := hreach (.any coNum) (Function.update y c (y c + 1))
      unfold coResume at hy
      rw [hsome, Function.update_self] at hy
      have hinside : Function.update
          (m.abs cond active p (Function.update y c (y c + 1))).inside c (some (k, y c)) =
            (m.abs cond active p y).inside := by
        funext d
        by_cases hd : d = c
        · subst hd
          rw [Function.update_self, hsome]
        · simp [Machine.abs, hd]
      dsimp only at hy
      rw [hinside] at hy
      exact hy
    · -- none was to come
      intro o
      have hy := hreach o (Function.update y c 0)
      unfold coResume at hy
      rw [hsome, Function.update_self] at hy
      have hinside : Function.update (m.abs cond active p (Function.update y c 0)).inside c none =
          Function.update (m.abs cond active p y).inside c none := by
        funext d
        by_cases hd : d = c
        · subst hd
          rw [Function.update_self, Function.update_self]
        · simp [Machine.abs, hd]
      dsimp only at hy
      rw [hinside] at hy
      show Reachable coNum (coroutineFun o c m.task ((m.leave c).abs cond active p y))
      rw [abs_leave]
      exact hy

/-! ## Steps of a coroutine -/

/-- A coroutine takes an element and goes into `handle_event`. -/
theorem stands_take {x : ℕ × α} {task : List (ℕ × α)} (hc : m.control = some c)
    (hin : m.inside c = none) (ht : m.task = x :: task) (hs : Stands coNum m cond active p) :
    Stands coNum { m with
      task := task
      started := m.started ++ [(c, x)]
      inside := Function.update m.inside c (some x.1) } cond active p := by
  rw [stands_loop hc hin] at hs
  -- the state in which `handle_event` has been called
  let m' : Machine α := { m with
    task := task
    started := m.started ++ [(c, x)]
    inside := Function.update m.inside c (some x.1) }
  have hin' : m'.inside c ≠ none := by simp [m']
  have hreach : ∀ (y : ℕ → ℕ) (o : Oracle coNum),
      Reachable coNum (coroutineFun o c (x :: task) (m.abs cond active p y)) := fun y o => by
    have hy := hs y o
    rwa [show (m.abs cond active p y).task = x :: task from ht] at hy
  refine (stands_within (m := m') hc hin').mpr fun y => ⟨?_, fun o => ?_⟩
  · obtain ⟨o, ho⟩ : ∃ o : Oracle coNum, coroutineFun o c (x :: task) (m.abs cond active p y) = _ :=
      coroutineFun_yield c (y c) x task _
    have hy := hreach y o
    rw [ho] at hy
    have hinside : Function.update (m.abs cond active p y).inside c (some (x.1, y c)) =
        (m'.abs cond active p y).inside := by
      funext d
      by_cases hd : d = c
      · subst hd
        simp [m', Machine.abs]
      · simp [m', Machine.abs, hd]
    rw [hinside] at hy
    exact hy
  · obtain ⟨o', ho'⟩ := coroutineFun_skip o c x task (m.abs cond active p y)
    have hy := hreach y o'
    rw [ho'] at hy
    have habs : (m'.leave c).abs cond active p y =
        { m.abs cond active p y with task := task, started := m.started ++ [(c, x)] } := by
      rw [abs_leave]
      have hinside : Function.update (m'.abs cond active p y).inside c none =
          (m.abs cond active p y).inside := by
        funext d
        by_cases hd : d = c
        · subst hd
          simp [Machine.abs, hin]
        · simp [m', Machine.abs, hd]
      rw [hinside]
      rfl
    rw [habs]
    exact hy

/-- A coroutine finds the queue empty, and parks. -/
theorem stands_park (hc : m.control = some c) (hin : m.inside c = none) (ht : m.task = [])
    (hs : Stands coNum m cond active p)
    (hm : { m with sched := s, freeCoNum := m.freeCoNum + 1 }.control = none) :
    Stands coNum { m with sched := s, freeCoNum := m.freeCoNum + 1 } (cond ++ [c]) active p := by
  rw [stands_loop hc hin] at hs
  rw [stands_main hm]
  intro y
  have hy := hs y (.any coNum)
  rw [show (m.abs cond active p y).task = [] from ht] at hy
  have e : coroutineFun (.any coNum) c [] (m.abs cond active p y) =
      { m with sched := s, freeCoNum := m.freeCoNum + 1 }.abs (cond ++ [c]) active p y := by
    rw [coroutineFun]
    simp only [Machine.abs, ht]
  rwa [e] at hy

/-- `handle_event` returns. -/
theorem stands_leave (hc : m.control = some c) (hin : m.inside c ≠ none)
    (hs : Stands coNum m cond active p) : Stands coNum (m.leave c) cond active p := by
  rw [stands_within hc hin] at hs
  rw [stands_loop (m := m.leave c) hc (Function.update_self ..)]
  exact fun y => (hs y).2

/-- `handle_event` polls, and the coroutine is suspended. -/
theorem stands_poll (hc : m.control = some c) (hin : m.inside c ≠ none)
    (hs : Stands coNum m cond active p) (hm : { m with sched := s }.control = none) :
    Stands coNum { m with sched := s } cond active p := by
  rw [stands_within hc hin] at hs
  rw [stands_main hm]
  exact fun y => (hs y).1

/-- What libco does leaves control where it is. -/
theorem stands_sched (hs : Stands coNum m cond active p)
    (hc : { m with sched := s }.control = m.control) :
    Stands coNum { m with sched := s } cond active p := by
  rw [Stands, hc]
  exact hs

/-! ## One step -/

/-- The model's invariant, for the lists of a machine while the thread itself has control. -/
theorem stands_good (hco : 0 < coNum) (hm : m.control = none) (hs : Stands coNum m cond active p) :
    Good coNum (m.abs cond active p fun _ => 0) ∧
      Settled coNum (m.abs cond active p fun _ => 0) :=
  ((stands_main hm).mp hs _).invariant hco

theorem within_iff {b : Bool} :
    m.Within b ↔ ∃ c, m.control = some c ∧ (m.inside c).isSome = b := by
  rw [Machine.Within]
  cases m.control <;> simp

/-- **`Run`, and `co_eventloop` for it.** -/
theorem next_sim (hco : 0 < coNum) (h : Holds m q lists cond active)
    (hs : Stands coNum m cond active p) (hm : m.control = none) (hidle : m.pc ≠ .idle)
    (hwait : m.sched.pc ≠ .wait) : ∃ m', m.next coNum = some m' ∧ Sim coNum m' := by
  obtain ⟨hG, -⟩ := stands_good hco hm hs
  have hpc := h.pc
  cases hmpc : m.pc with
  | idle => exact absurd hmpc hidle
  | wait n =>
    rw [hmpc] at hpc
    exact absurd hpc hwait
  | outer n =>
    refine ⟨{ m with pc := if n > 0 then .inner n else .idle }, by simp [Machine.next, hmpc],
      sim_pc hm h hs ?_ ⟨.any coNum, fun y => ?_⟩⟩
    · rw [hmpc]
      split <;> rfl
    · simp only [step, Machine.abs, hmpc]
  | inner n =>
    by_cases hsignal : m.freeCoNum > 0 ∧ n > 0
    · obtain ⟨c, cond', rfl⟩ : ∃ c cond', cond = c :: cond' := by
        refine List.exists_cons_of_ne_nil (List.ne_nil_of_length_pos ?_)
        exact hG.inv.free_eq ▸ hsignal.1
      have hnot : c ∉ active := hG.inv.cond_not_active (c := c) List.mem_cons_self
      obtain ⟨s, q', lists', e, h', hstack⟩ := h.signal hnot
      have hmain : { m with sched := s }.control = none :=
        h'.control_none.mpr (hstack.trans (h.control_none.mp hm))
      refine ⟨{ m with sched := s, freeCoNum := m.freeCoNum - 1, pc := .inner (n - 1) }, ?_,
        q', lists', cond', active ++ [c], p, h'.congr rfl rfl (by rw [hmpc]; rfl), ?_⟩
      · simp [Machine.next, hmpc, hsignal, Sched.step, e]
      · refine stands_step hm hmain hs ⟨.any coNum, fun y => ?_⟩
        simp only [step, Machine.abs, hmpc, if_pos hsignal, St.condSignal]
    · refine ⟨{ m with pc := .test n }, by simp only [Machine.next, hmpc, if_neg hsignal],
        sim_pc hm h hs (by rw [hmpc]; rfl) ⟨.any coNum, fun y => ?_⟩⟩
      simp only [step, Machine.abs, hmpc, if_neg hsignal]
  | test n =>
    by_cases hfree : m.freeCoNum < coNum
    · refine ⟨{ m with sched := { m.sched with pc := .wait }, pc := .wait n },
        by simp [Machine.next, hmpc, hfree, Sched.step], q, lists, cond, active, p,
        { h with inv := { h.inv with }, pc := rfl }, ?_⟩
      refine stands_step hm hm hs ⟨.any coNum, fun y => ?_⟩
      simp only [step, Machine.abs, hmpc, if_pos hfree]
    · refine ⟨{ m with pc := .outer n }, by simp only [Machine.next, hmpc, if_neg hfree],
        sim_pc hm h hs (by rw [hmpc]; rfl) ⟨.any coNum, fun y => ?_⟩⟩
      simp only [step, Machine.abs, hmpc, if_neg hfree]
  | process n =>
    have hhead := h.inv.head_active
    cases active with
    | nil =>
      have hq : q.active = [] := List.forall₂_nil_left_iff.mp h.active
      rw [hq, List.head?_nil] at hhead
      refine ⟨{ m with
          sched := { m.sched with pc := if m.freeCoNum = coNum then .outside else .wait }
          pc := if m.freeCoNum = coNum then .outer n else .wait n },
        by simp [Machine.next, hmpc, hhead, Sched.step], q, lists, cond, [], p,
        { h with inv := { h.inv with }, pc := ?_ }, ?_⟩
      · dsimp only
        split <;> rfl
      · refine stands_step hm hm hs ⟨.any coNum, fun y => ?_⟩
        have e := step_process_nil (n := n) (o := Oracle.any coNum)
          (s := m.abs cond [] p y) hmpc rfl
        rw [e]
        rfl
    | cons c active =>
      have hnodup := hG.inv.active_nodup
      have hnot : c ∉ active := (List.nodup_cons.mp hnodup).1
      have hcond : c ∉ cond := fun hc => hG.inv.cond_not_active hc List.mem_cons_self
      obtain ⟨s, q', lists', e, h', hstack⟩ := h.pop hm hcond hnot
      have hne : q.active.head? ≠ none := by
        obtain ⟨x, l, -, -, hq⟩ := List.forall₂_cons_left_iff.mp h.active
        simp [hq]
      obtain ⟨x, hx⟩ := Option.ne_none_iff_exists'.mp (hhead ▸ hne)
      refine ⟨{ m with sched := s }, ?_, q', lists', cond, active, p, h',
        stands_resume hm hmpc hs (h'.control_some.mpr hstack)⟩
      simp [Machine.next, hmpc, hx, Sched.step, e]

/-- **One step.** Every step that is allowed is defined, and leads from a machine that stands for
states of the model to another one. -/
theorem step_sim (hco : 0 < coNum) (hsim : Sim coNum m) {a : Machine.Act α} (ha : m.Allowed a) :
    ∃ m', m.step coNum a = some m' ∧ Sim coNum m' := by
  obtain ⟨q, lists, cond, active, p, h, hs⟩ := hsim
  cases a with
  | put channel =>
    obtain ⟨hm, hidle⟩ := ha
    let m' : Machine α := { m with task := m.task ++ [(m.puts, channel)], puts := m.puts + 1 }
    have hm' : m'.control = none := hm
    refine ⟨m', rfl, q, lists, cond, active, p, h.congr rfl rfl rfl,
      (stands_main hm').mpr fun y => ?_⟩
    exact .put channel ((stands_main hm).mp hs y) hidle
  | run =>
    obtain ⟨hm, hidle⟩ := ha
    let m' : Machine α := { m with pc := .outer (m.task.length % 2 ^ 32) }
    have hm' : m'.control = none := hm
    refine ⟨m', rfl, q, lists, cond, active, p, h.congr rfl rfl (by rw [hidle]; rfl),
      (stands_main hm').mpr fun y => ?_⟩
    exact .run ((stands_main hm).mp hs y) hidle
  | next => exact next_sim hco h hs ha.1 ha.2.1 ha.2.2
  | round events now =>
    obtain ⟨hm, hwait, -, he, -, hgap⟩ := ha
    obtain ⟨hG, -⟩ := stands_good hco hm hs
    obtain ⟨n, hpc⟩ : ∃ n, m.pc = .wait n := by
      have hloop := h.pc
      rw [hwait] at hloop
      cases hmpc : m.pc with
      | wait n => exact ⟨n, rfl⟩
      | _ => simp [hmpc, Pc.loop] at hloop
    have hset : ∀ c ∈ active, m.inside c = none := by
      intro c hc
      have hnone := hG.settled (by simp [Machine.abs, hpc]) c hc
      simpa [Machine.abs] using hnone
    obtain ⟨s, q', ready, e, h', hstack, hnodup, hin⟩ := h.round he hgap hset n
    have hmain : { m with sched := s, pc := .process n }.control = none :=
      h'.control_none.mpr (hstack.trans (h.control_none.mp hm))
    refine ⟨{ m with sched := s, pc := .process n }, by simp [Machine.step, hpc, Sched.step, e],
      q', lists, cond, active ++ ready, p + 1, h',
      stands_step hm hmain hs ⟨.of coNum (fun _ => 0) p hnodup, fun y => ?_⟩⟩
    have hfilter : ready.filter (fun c => ((m.abs cond active p y).inside c).isSome) = ready := by
      refine List.filter_eq_self.mpr fun c hc => ?_
      obtain ⟨k, hk⟩ := Option.ne_none_iff_exists'.mp (hin c hc)
      simp [Machine.abs, hk]
    have hready : (Oracle.of coNum (fun _ => 0) p hnodup).ready p = ready := if_pos rfl
    have hstep : step (Oracle.of coNum (fun _ => 0) p hnodup) (m.abs cond active p y) =
        { m.abs cond active p y with
          active := active ++
            ((Oracle.of coNum (fun _ => 0) p hnodup).ready p).filter fun c =>
              ((m.abs cond active p y).inside c).isSome
          passes := p + 1
          pc := .process n } := by
      unfold step
      rw [show (m.abs cond active p y).pc = .wait n from hpc]
      rfl
    rw [hstep, hready, hfilter]
    rfl
  | turn =>
    obtain ⟨c, hc, hin⟩ := within_iff.mp ha
    rw [Option.isSome_eq_false_iff, Option.isNone_iff_eq_none] at hin
    cases ht : m.task with
    | nil =>
      obtain ⟨s, lists', e, h', hstack, -⟩ := h.park hc hin
      refine ⟨{ m with sched := s, freeCoNum := m.freeCoNum + 1 },
        by simp [Machine.step, hc, Machine.turn, ht, Sched.step, e], q, lists', cond ++ [c], active,
        p, h'.congr rfl rfl rfl, stands_park hc hin ht hs (h'.control_none.mpr hstack)⟩
    | cons x task =>
      refine ⟨{ m with
          task := task
          started := m.started ++ [(c, x)]
          inside := Function.update m.inside c (some x.1) },
        by simp only [Machine.step, hc, Option.bind_some, Machine.turn, ht], q, lists, cond,
        active, p, (h.setInside hc (some x.1)).congr rfl rfl rfl, stands_take hc hin ht hs⟩
  | poll fds timeout pollfunc now =>
    obtain ⟨hw, hgap, hacc⟩ := ha
    obtain ⟨c, hc, hin⟩ := within_iff.mp hw
    have hne : m.inside c ≠ none := Option.isSome_iff_ne_none.mp hin
    obtain ⟨s, q', e, h', hstack⟩ := h.poll hc hne pollfunc hgap hacc
    refine ⟨{ m with sched := s }, by simp [Machine.step, Sched.step, e], q', lists, cond, active,
      p, h', ?_⟩
    rcases hstack with hstack | hstack
    · exact stands_poll hc hne hs (h'.control_none.mpr hstack)
    · refine stands_sched hs ?_
      rw [hc]
      exact h'.control_some.mpr (hstack.trans (h.control_some.mp hc))
  | handled =>
    obtain ⟨c, hc, hin⟩ := within_iff.mp ha
    have hne : m.inside c ≠ none := Option.isSome_iff_ne_none.mp hin
    exact ⟨m.leave c, by simp [Machine.step, hc, Machine.leave], q, lists, cond, active, p,
      h.setInside hc none, stands_leave hc hne hs⟩
  | close fd =>
    refine ⟨_, rfl, q, lists, cond, active, p, { h with inv := h.inv.close fd }, ?_⟩
    exact stands_sched hs rfl

end

/-! ## Runs -/

section

variable {now : ℕ} {m m₀ : Machine α} {acts : List (Machine.Act α)}

/-- The machine in `Start`, when `k` coroutines have parked. -/
structure Started (k : ℕ) (m : Machine α) : Prop where
  holds : ∃ q lists, Holds m q lists (List.range k) []
  control : m.control = none
  eq : m = ⟨m.sched, k, fun _ => none, [], [], 0, .idle⟩
  ready : ∀ d ≥ k, m.sched.co (d + 1) = .ready

theorem init_started (hnow : 0 < now) : Started 0 (Machine.init now : Machine α) where
  holds := by
    refine ⟨_, _, {
      inv := Sched.init_inv hnow
      cond := .nil
      active := .nil
      polling := fun c x hc => ?_
      waiting := fun c psi x hc => ?_
      pending := by simp
      stack := .inl rfl
      pc := rfl }⟩
    · simp [Machine.init, Sched.init] at hc
    · simp [Machine.init, Sched.init] at hc
  control := rfl
  eq := rfl
  ready := by simp [Machine.init, Sched.init]

/-- **A turn of the loop of `Start`.** -/
theorem startOne_started {k : ℕ} (h : Started k m) :
    ∃ m', m.startOne k = some m' ∧ Started (k + 1) m' := by
  obtain ⟨q, lists, hh⟩ := h.holds
  -- `co_create`
  have hcreated : Holds { m with sched := { m.sched with numCo := m.sched.numCo + 1 } } q lists
      (List.range k) [] := { hh with inv := { hh.inv with } }
  obtain ⟨s, e, hr, hstack, hother⟩ := hcreated.resume h.control (h.ready k le_rfl)
  have hc : { m with sched := s }.control = some k := hr.control_some.mpr hstack
  have hin : m.inside k = none := by rw [h.eq]
  obtain ⟨s', lists', e', hp, hstack', hother'⟩ := hr.park hc hin
  have ht : m.task = [] := by rw [h.eq]
  refine ⟨{ m with sched := s', freeCoNum := m.freeCoNum + 1 }, ?_, ?_, ?_, ?_, fun d hd => ?_⟩
  · simp only [Machine.startOne, Sched.step, Option.bind_some]
    rw [e, Option.bind_some, Machine.turn]
    simp only [ht, Sched.step]
    rw [e']
    rfl
  · rw [List.range_succ]
    exact ⟨q, lists', hp.congr rfl rfl rfl⟩
  · exact (hp.control_none.mpr hstack' : { m with sched := s' }.control = none)
  · rw [h.eq]
  · have hdk : d ≠ k := by omega
    show s'.co (d + 1) = .ready
    rw [hother' d hdk, hother d hdk]
    exact h.ready d (by omega)

/-- **`Start`** is defined, and leaves every coroutine parked. -/
theorem start_sim (coNum : ℕ) (hnow : 0 < now) :
    ∃ m : Machine α, Machine.start coNum now = some m ∧ Sim coNum m := by
  have key : ∀ k, ∃ m : Machine α,
      (List.range k).foldlM Machine.startOne (Machine.init now) = some m ∧ Started k m := by
    intro k
    induction k with
    | zero => exact ⟨_, rfl, init_started hnow⟩
    | succ k ih =>
      obtain ⟨m, e, h⟩ := ih
      obtain ⟨m', e', h'⟩ := startOne_started h
      refine ⟨m', ?_, h'⟩
      rw [List.range_succ, List.foldlM_append, e]
      show (m.startOne k).bind _ = _
      rw [e']
      rfl
  obtain ⟨m, e, h⟩ := key coNum
  obtain ⟨q, lists, hh⟩ := h.holds
  refine ⟨m, e, q, lists, List.range coNum, [], 0, hh, (stands_main h.control).mpr fun y => ?_⟩
  have habs : m.abs (List.range coNum) [] 0 y = start (Oracle.any coNum) := by
    rw [start_eq, h.eq]
    rfl
  rw [habs]
  exact .start _

theorem run_sim (hco : 0 < coNum) (hnow : 0 < now) (hstart : Machine.start coNum now = some m₀)
    (hrun : Exec (Machine.step coNum) Machine.Allowed m₀ acts m) : Sim coNum m := by
  refine hrun.invariant (I := Sim coNum) ?_ fun u a v hu ha hv => ?_
  · obtain ⟨m, e, h⟩ := start_sim (α := α) coNum hnow
    obtain rfl := Option.some.inj (hstart.symm.trans e)
    exact h
  · obtain ⟨v', e, h⟩ := step_sim hco hu ha
    obtain rfl := Option.some.inj (hv.symm.trans e)
    exact h

/-- A machine and a state of the model agree: on the variables of the program, and on the lists,
which for the machine are read off the pointers of libco. -/
structure Represents (m : Machine α) (s : St α) : Prop where
  freeCoNum : m.freeCoNum = s.freeCoNum
  task : m.task = s.task
  started : m.started = s.started
  puts : m.puts = s.puts
  pc : m.pc = s.pc
  inside : ∀ c, m.inside c = (s.inside c).map Prod.fst
  cond : ∃ lists, m.sched.conds.Represents lists ∧
    List.Forall₂ (fun c psi => ∃ x, m.sched.co (c + 1) = .waiting psi x) s.cond (lists 0)
  active : ∃ lists, m.sched.wheel.heap.Represents lists ∧
    List.Forall₂ (fun c x => (m.sched.co (c + 1)).item = some x) s.active (lists .active)

/-- **The pool on libco refines its model.** `Start` is defined; in every run after it whose steps
are allowed, wherever the thread itself has control, the variables of the pool, the list of `cond`
and the active list are those of a state that the model reaches; and every step that is allowed is
defined, so that no call of a function of libco goes wrong. -/
theorem pool_on_libco (hco : 0 < coNum) (hnow : 0 < now) :
    ∃ m₀ : Machine α, Machine.start coNum now = some m₀ ∧
      ∀ acts m, Exec (Machine.step coNum) Machine.Allowed m₀ acts m →
        (m.control = none → ∃ s, Reachable coNum s ∧ Represents m s) ∧
          ∀ a, m.Allowed a → (m.step coNum a).isSome := by
  obtain ⟨m₀, hstart, -⟩ := start_sim (α := α) coNum hnow
  refine ⟨m₀, hstart, fun acts m hrun => ?_⟩
  have hsim := run_sim hco hnow hstart hrun
  refine ⟨fun hm => ?_, fun a ha => ?_⟩
  · obtain ⟨q, lists, cond, active, p, h, hs⟩ := hsim
    refine ⟨_, (stands_main hm).mp hs fun _ => 0, rfl, rfl, rfl, rfl, rfl, fun c => ?_,
      ⟨lists, h.inv.conds, h.cond⟩, ?_⟩
    · show m.inside c = ((m.inside c).map fun k => (k, 0)).map Prod.fst
      rw [Option.map_map]
      exact (Option.map_id' ..).symm
    · obtain ⟨ls, hh, hq⟩ := h.inv.waits
      refine ⟨ls, hh.repr, ?_⟩
      have hactive : ls .active = q.active := congrArg Queues.active hq
      rw [hactive]
      exact h.active
  · obtain ⟨m', e, -⟩ := step_sim hco hsim ha
    rw [e]
    rfl

/-- **Between two rounds libco holds the parked coroutines and nothing else.** In every run whose
steps are allowed, where `Run` has not been called or has returned: all coroutines are in the list
of `cond`, none is inside `handle_event`, no item is in the wheel or on the active list, no
`stPoll_t` is left, and no descriptor is registered with the `epoll` of libco; and the elements put
were started in order, but for those still queued. -/
theorem run_returns_idle (hco : 0 < coNum) (hnow : 0 < now)
    (hstart : Machine.start coNum now = some m₀)
    (hrun : Exec (Machine.step coNum) Machine.Allowed m₀ acts m) (hm : m.control = none)
    (hpc : m.pc = .idle) :
    m.freeCoNum = coNum ∧ (∀ c, m.inside c = none) ∧
      (∀ c < coNum, ∃ psi x, m.sched.co (c + 1) = .waiting psi x ∧
        m.sched.conds.owner psi = some 0) ∧
      (∀ x, m.sched.wheel.heap.owner x = none) ∧ (∀ x, m.sched.polls x = none) ∧
      (∀ fd, m.sched.epoll fd = none) ∧
      (m.started.map Prod.snd ++ m.task).map Prod.fst = List.range m.puts := by
  obtain ⟨q, lists, cond, active, p, h, hs⟩ := run_sim hco hnow hstart hrun
  obtain ⟨hG, hsettled⟩ := stands_good hco hm hs
  have hidle : active = [] ∧ m.freeCoNum = coNum := by
    simpa [Settled, Machine.abs, hpc] using hsettled
  obtain ⟨rfl, hfree⟩ := hidle
  have hcond : ∀ c < coNum, c ∈ cond := fun c hc => hG.inv.mem_cond hfree hc
  have hinside : ∀ c, m.inside c = none := by
    intro c
    by_contra hin
    have hne : (m.abs cond [] p fun _ => 0).inside c ≠ none := by simpa [Machine.abs] using hin
    exact hne (hG.inv.cond_not_inside (hcond c (hG.inv.inside_lt hne)))
  have hpolls : ∀ x, m.sched.polls x = none := by
    intro x
    by_contra hne
    obtain ⟨c, hc⟩ := h.exists_polling (Option.isSome_iff_ne_none.mpr hne)
    exact h.polling c x hc (hinside c)
  refine ⟨hfree, hinside, fun c hc => ?_, fun x => ?_, hpolls, fun fd => ?_, hG.inv.numbered⟩
  · obtain ⟨psi, hpsi, x, hx⟩ := exists_of_forall₂ (List.Forall₂.flip h.cond) (hcond c hc)
    exact ⟨psi, x, hx, (h.inv.conds.owner 0 psi).mp hpsi⟩
  · by_contra hne
    rcases h.inv.waits.has_iff.mpr hne with hx | hx | hx
    · obtain ⟨e, he, -⟩ := List.mem_map.mp hx
      obtain ⟨c, hc⟩ := h.pending e he
      exact h.polling c _ hc (hinside c)
    · rw [h.inv.timeout_nil] at hx
      cases hx
    · rw [List.forall₂_nil_left_iff.mp h.active] at hx
      cases hx
  · by_contra hne
    obtain ⟨r, hr⟩ := Option.ne_none_iff_exists'.mp hne
    obtain ⟨u, hu, -⟩ := h.inv.registered fd r hr
    rw [hpolls] at hu
    cases hu

end

/-- One element on one coroutine: its `handle_event` polls on a descriptor, which is ready in the
next round. -/
def onePoll : List (Machine.Act ℕ) :=
  [.put 7, .run, .next, .next, .next, .next, .round [] 1001, .next, .turn,
    .poll [⟨5, 1, .ok⟩] 100 false 1001]

def onePollReturns : List (Machine.Act ℕ) :=
  onePoll ++ [.next, .round [(5, 1)] 1002, .next, .handled, .turn, .next, .next]

theorem pool_on_libco_one_poll :
    ∃ m₀ m : Machine ℕ, Machine.start 1 1000 = some m₀ ∧
      Exec (Machine.step 1) Machine.Allowed m₀ onePoll m ∧ m.control = none ∧
      m.inside 0 = some 0 ∧ ∃ s, Reachable 1 s ∧ Represents m s := by
  obtain ⟨m₀, hstart, hruns⟩ := pool_on_libco (α := ℕ) (show 0 < 1 by decide)
    (show 0 < 1000 by decide)
  have hrun : ∃ u v : Machine ℕ, Machine.start 1 1000 = some u ∧
      runIf (Machine.step 1) Machine.Allowed u onePoll = some v ∧ v.control = none ∧
      v.inside 0 = some 0 := ⟨_, _, rfl, rfl, by decide, by decide⟩
  obtain ⟨u, m, hu, hm, hcontrol, hinside⟩ := hrun
  obtain rfl := Option.some.inj (hstart.symm.trans hu)
  exact ⟨m₀, m, hstart, exec_of_runIf hm, hcontrol, hinside,
    (hruns _ m (exec_of_runIf hm)).1 hcontrol⟩

theorem run_returns_idle_one_poll :
    ∃ m₀ m : Machine ℕ, Machine.start 1 1000 = some m₀ ∧
      Exec (Machine.step 1) Machine.Allowed m₀ onePollReturns m ∧ m.started = [(0, 0, 7)] ∧
      m.freeCoNum = 1 ∧ ∀ fd, m.sched.epoll fd = none := by
  have hrun : ∃ u v : Machine ℕ, Machine.start 1 1000 = some u ∧
      runIf (Machine.step 1) Machine.Allowed u onePollReturns = some v ∧ v.control = none ∧
      v.pc = .idle ∧ v.started = [(0, 0, 7)] :=
    ⟨_, _, rfl, rfl, by decide, by decide, by decide⟩
  obtain ⟨m₀, m, hstart, hm, hcontrol, hpc, hstarted⟩ := hrun
  obtain ⟨hfree, -, -, -, -, hepoll, -⟩ := run_returns_idle (show 0 < 1 by decide)
    (show 0 < 1000 by decide) hstart (exec_of_runIf hm) hcontrol hpc
  exact ⟨m₀, m, hstart, exec_of_runIf hm, hstarted, hfree, hepoll⟩

end WebServer.Coroutine
