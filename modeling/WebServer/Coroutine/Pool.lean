import Mathlib.Algebra.Group.Nat.Defs
import Mathlib.Data.List.Nodup
import Mathlib.Logic.Function.Iterate

/-!
# The coroutine pool

`CoroutinePool` runs `handle_event` for the channels of a round of the event loop on `co_num`
coroutines. The coroutines and `Run` share one thread: control changes only where a coroutine parks
on `cond`, where it yields inside `handle_event`, and where `co_eventloop` resumes one.

Of libco the model has what the pool uses: `co_cond_timedwait` appends the caller to the waiting
list of `cond`, `co_cond_signal` moves the first of that list to the end of the active list, and a
pass of `co_eventloop` appends the coroutines whose event has come, resumes the active list from its
head, and calls `CheckFinish`.

What `handle_event` does is left open, but for its yields: an `Oracle` says how often the k-th call
of `handle_event` yields and which coroutines the p-th pass of `co_eventloop` finds ready. Every
coroutine is found ready again and again, so that a call that yields is resumed some time.

The elements of the task queue are numbered as they are put, so that two elements with the same
channel stay apart.
-/

namespace WebServer.Coroutine

/-- How the handlers yield and when they are resumed. -/
structure Oracle (coNum : ℕ) where
  yields : ℕ → ℕ
  ready : ℕ → List ℕ
  ready_nodup : ∀ p, (ready p).Nodup
  ready_fair : ∀ c < coNum, ∀ p, ∃ q ≥ p, c ∈ ready q

/-- Where `Run` is; `n` is its `task_size`. -/
inductive Pc
  /-- Outside `Run`. -/
  | idle
  /-- At `while(task_size > 0)`. -/
  | outer (n : ℕ)
  /-- At `while(free_co_num > 0 && task_size > 0)`. -/
  | inner (n : ℕ)
  /-- At `if(free_co_num < co_num)`. -/
  | test (n : ℕ)
  /-- In `co_eventloop`, at `co_epoll_wait`. -/
  | wait (n : ℕ)
  /-- In `co_eventloop`, at the head of the active list. -/
  | process (n : ℕ)
  deriving DecidableEq

variable {α : Type*}

/-- The state of the pool. `inside c` is the element whose `handle_event` coroutine `c` is suspended
in, with the number of yields still to come; `started` records the calls of `handle_event` with the
coroutine that made them. -/
structure St (α : Type*) where
  freeCoNum : ℕ
  cond : List ℕ
  active : List ℕ
  inside : ℕ → Option (ℕ × ℕ)
  task : List (ℕ × α)
  started : List (ℕ × ℕ × α)
  puts : ℕ
  passes : ℕ
  pc : Pc

namespace St

/-- `PutTask`. -/
def putTask (s : St α) (channel : α) : St α :=
  { s with task := s.task ++ [(s.puts, channel)], puts := s.puts + 1 }

/-- `co_cond_signal(cond)`. -/
def condSignal (s : St α) : St α :=
  match s.cond with
  | [] => s
  | c :: cond => { s with cond := cond, active := s.active ++ [c] }

end St

variable {coNum : ℕ}

/-- The loop of `CoroutineFun` in coroutine `c`, from its test of `task.size()` to the next place
where the coroutine yields. -/
def coroutineFun (o : Oracle coNum) (c : ℕ) : List (ℕ × α) → St α → St α
  | [], s => { s with task := [], freeCoNum := s.freeCoNum + 1, cond := s.cond ++ [c] }
  | x :: task, s =>
    let s' := { s with task := task, started := s.started ++ [(c, x)] }
    match o.yields s.started.length with
    | 0 => coroutineFun o c task s'
    | y + 1 => { s' with inside := Function.update s'.inside c (some (x.1, y)) }

/-- `co_resume` of coroutine `c`, up to its next yield. -/
def coResume (o : Oracle coNum) (c : ℕ) (s : St α) : St α :=
  match s.inside c with
  | some (k, y + 1) => { s with inside := Function.update s.inside c (some (k, y)) }
  | some (_, 0) =>
    coroutineFun o c s.task { s with inside := Function.update s.inside c none }
  | none => coroutineFun o c s.task s

/-- `Start`: every coroutine runs until it parks. -/
def start (o : Oracle coNum) : St α :=
  (List.range coNum).foldl (fun s c => coResume o c s)
    ⟨0, [], [], fun _ => none, [], [], 0, 0, .idle⟩

/-- The body of a round of `EventLoop::loop`: `PutTask` for each channel, then the call of `Run`,
whose `task_size` is a `uint32_t`. -/
def enter (channels : List α) (s : St α) : St α :=
  let s' := channels.foldl St.putTask s
  { s' with pc := .outer (s'.task.length % 2 ^ 32) }

/-- One step of `Run`. -/
def step (o : Oracle coNum) (s : St α) : St α :=
  match s.pc with
  | .idle => s
  | .outer n => { s with pc := if n > 0 then .inner n else .idle }
  | .inner n =>
    if s.freeCoNum > 0 ∧ n > 0 then
      { s.condSignal with freeCoNum := s.freeCoNum - 1, pc := .inner (n - 1) }
    else { s with pc := .test n }
  | .test n => { s with pc := if s.freeCoNum < coNum then .wait n else .outer n }
  | .wait n =>
    { s with
      active := s.active ++ (o.ready s.passes).filter fun c => (s.inside c).isSome
      passes := s.passes + 1
      pc := .process n }
  | .process n =>
    match s.active with
    | c :: active => coResume o c { s with active := active }
    -- `CheckFinish`
    | [] => { s with pc := if s.freeCoNum = coNum then .outer n else .wait n }

/-- The loop without coroutines: `handle_event` for one channel after the other. -/
def plainLoop (handled : List α) (channels : List α) : List α :=
  channels.foldl (fun handled channel => handled ++ [channel]) handled

/-! ## Invariant -/

/-- The elements put so far: those whose `handle_event` was started, then those still queued. -/
def history (s : St α) : List (ℕ × α) := s.started.map Prod.snd ++ s.task

/-- The invariant of the pool, while the coroutine `r` has control (`none`: while `Run` has). Each
other coroutine is parked, on the active list or suspended inside `handle_event`, `free_co_num`
counts the parked ones, and the elements are numbered in the order in which they are started. -/
structure Inv (coNum : ℕ) (r : Option ℕ) (s : St α) : Prop where
  cond_nodup : s.cond.Nodup
  active_nodup : s.active.Nodup
  free_eq : s.freeCoNum = s.cond.length
  cond_lt : ∀ {c}, c ∈ s.cond → c < coNum
  active_lt : ∀ {c}, c ∈ s.active → c < coNum
  inside_lt : ∀ {c}, s.inside c ≠ none → c < coNum
  cover : ∀ {c}, c < coNum → r ≠ some c → c ∈ s.cond ∨ c ∈ s.active ∨ s.inside c ≠ none
  cond_not_active : ∀ {c}, c ∈ s.cond → c ∉ s.active
  cond_not_inside : ∀ {c}, c ∈ s.cond → s.inside c = none
  control : ∀ {c}, r = some c → c < coNum ∧ c ∉ s.cond ∧ c ∉ s.active ∧ s.inside c = none
  numbered : (history s).map Prod.fst = List.range s.puts
  inside_started : ∀ {c k y}, s.inside c = some (k, y) → ∃ x, (c, k, x) ∈ s.started

/-- No element is started twice. -/
theorem Inv.started_nodup {r : Option ℕ} {s : St α} (h : Inv coNum r s) :
    (s.started.map fun x => x.2.1).Nodup := by
  have hrange : ((history s).map Prod.fst).Nodup := by
    rw [h.numbered]
    exact List.nodup_range
  rw [history, List.map_append, List.map_map] at hrange
  exact (List.nodup_append.mp hrange).1

section Coroutine

variable {o : Oracle coNum} {c : ℕ} {s : St α}

/-- What `CoroutineFun` leaves alone. -/
theorem coroutineFun_frame (task : List (ℕ × α)) (s : St α) :
    (coroutineFun o c task s).active = s.active ∧ (coroutineFun o c task s).puts = s.puts ∧
      (coroutineFun o c task s).passes = s.passes ∧ (coroutineFun o c task s).pc = s.pc ∧
      ∀ d ≠ c, (coroutineFun o c task s).inside d = s.inside d := by
  induction task generalizing s with
  | nil => exact ⟨rfl, rfl, rfl, rfl, fun _ _ => rfl⟩
  | cons x task ih =>
    unfold coroutineFun
    dsimp only
    split
    · exact ih _
    · exact ⟨rfl, rfl, rfl, rfl, fun d hd => Function.update_of_ne hd ..⟩

theorem coroutineFun_history (task : List (ℕ × α)) (s : St α) (ht : s.task = task) :
    history (coroutineFun o c task s) = history s := by
  induction task generalizing s with
  | nil => simp [coroutineFun, history, ht]
  | cons x task ih =>
    unfold coroutineFun
    dsimp only
    split
    · rw [ih _ rfl]
      simp [history, ht]
    · simp [history, ht]

/-- When the coroutine gives control back, the queue is empty or it is inside `handle_event`. -/
theorem coroutineFun_busy (task : List (ℕ × α)) (s : St α) :
    (coroutineFun o c task s).task = [] ∨ (coroutineFun o c task s).inside c ≠ none := by
  induction task generalizing s with
  | nil => exact .inl rfl
  | cons x task ih =>
    unfold coroutineFun
    dsimp only
    split
    · exact ih _
    · exact .inr (by simp)

/-- **`CoroutineFun` keeps the invariant** and gives control back. -/
theorem coroutineFun_inv (task : List (ℕ × α)) (s : St α) (ht : s.task = task)
    (h : Inv coNum (some c) s) : Inv coNum none (coroutineFun o c task s) := by
  obtain ⟨hlt, hcond, hactive, hinside⟩ := h.control rfl
  induction task generalizing s with
  | nil =>
    unfold coroutineFun
    exact { h with
      cond_nodup := by
        refine List.nodup_append.mpr ⟨h.cond_nodup, by simp, ?_⟩
        rintro a ha b hb rfl
        exact hcond (List.mem_singleton.mp hb ▸ ha)
      free_eq := by simp [h.free_eq]
      cond_lt := by
        intro d hd
        rcases List.mem_append.mp hd with hd | hd
        · exact h.cond_lt hd
        · rw [List.mem_singleton.mp hd]; exact hlt
      cover := by
        intro d hd _
        by_cases hdc : d = c
        · exact .inl (by simp [hdc])
        · obtain h1 | h2 := h.cover hd (by simpa using Ne.symm hdc)
          · exact .inl (List.mem_append_left _ h1)
          · exact .inr h2
      cond_not_active := by
        intro d hd
        rcases List.mem_append.mp hd with hd | hd
        · exact h.cond_not_active hd
        · rw [List.mem_singleton.mp hd]; exact hactive
      cond_not_inside := by
        intro d hd
        rcases List.mem_append.mp hd with hd | hd
        · exact h.cond_not_inside hd
        · rw [List.mem_singleton.mp hd]; exact hinside
      control := by simp
      numbered := by simpa [history, ht] using h.numbered }
  | cons x task ih =>
    -- the state in which `handle_event` of `x` has been started
    have hstart : Inv coNum (some c) { s with task := task, started := s.started ++ [(c, x)] } :=
      { h with
        numbered := by simpa [history, ht] using h.numbered
        inside_started := by
          intro d k y hd
          obtain ⟨z, hz⟩ := h.inside_started hd
          exact ⟨z, List.mem_append_left _ hz⟩ }
    unfold coroutineFun
    dsimp only
    split
    · exact ih _ rfl hstart hcond hactive hinside
    · rename_i y hy
      exact { hstart with
        inside_lt := by
          intro d hd
          by_cases hdc : d = c
          · rw [hdc]; exact hlt
          · exact h.inside_lt (by simpa [hdc] using hd)
        cover := by
          intro d hd _
          by_cases hdc : d = c
          · exact .inr (.inr (by simp [hdc]))
          · obtain h1 | h2 | h3 := h.cover hd (by simpa using Ne.symm hdc)
            · exact .inl h1
            · exact .inr (.inl h2)
            · exact .inr (.inr (by simpa [hdc] using h3))
        cond_not_inside := by
          intro d hd
          have hdc : d ≠ c := fun e => hcond (e ▸ hd)
          simpa [hdc] using h.cond_not_inside hd
        control := by simp
        inside_started := by
          intro d k z hd
          by_cases hdc : d = c
          · subst hdc
            simp only [Function.update_self, Option.some.injEq, Prod.mk.injEq] at hd
            exact ⟨x.2, by simp [← hd.1]⟩
          · exact hstart.inside_started (by simpa [hdc] using hd) }

end Coroutine

end WebServer.Coroutine
