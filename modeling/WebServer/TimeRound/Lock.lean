import Mathlib.Data.Int.Notation
import Mathlib.Logic.Function.Basic
import WebServer.Lib.Exec

/-!
# The mutex of the timer wheel

`TimeRound::Mutex` is taken through `Lock_Guard` (`TimeRound.cpp`), whose constructor locks, whose
`unlock` unlocks and whose destructor unlocks once more, whether or not `unlock` was called. The
workers' `AddTimeRoundItemNode` and `UpdateTimeRoundItemNode` rely on the destructor alone. A pass
of `TimeRound::fun` calls `lock.unlock()` after its tick loop, expires the time-out list, and then
leaves the scope of the guard.

The threads are any number of workers and the timer thread; a label is one step of one thread. The
mutex is a default one: unlocking sets it free, whoever calls it. Every call of
`pthread_mutex_unlock` is recorded with its caller and with the holder at that moment.

* `Held` is the invariant: the holder of the mutex is the one thread inside a guarded section. Only
  the destructor at the end of a pass can break it (`step_held`), and does so when another thread
  has locked the mutex since `lock.unlock()`.
* `exclusive_of_free_dtor`: in the runs where it does not, guarded sections do not overlap. The
  modules that take a guarded section as one step are about these runs.
* `exclusion_iff_no_pass_ends` says when a run keeps the whole discipline: exactly when no pass
  reaches the destructor of its guard.
-/

namespace WebServer.TimeRound.Lock

open WebServer.Lib

/-- The threads: the workers, named by `τ`, and the timer thread. -/
inductive Thread (τ : Type*)
  | worker (w : τ)
  | timer
  deriving DecidableEq

/-- The two operations of the workers that take the mutex. -/
inductive Call
  | add
  | update
  deriving DecidableEq

/-- Where a worker is. -/
inductive WorkerPc
  /-- Not in one of the two operations. -/
  | outside
  /-- In the constructor of the guard, at `pthread_mutex_lock`. -/
  | atLock (c : Call)
  /-- Inside the guarded section. -/
  | inside (c : Call)
  deriving DecidableEq

/-- Where the timer thread is in `TimeRound::fun`. -/
inductive TimerPc
  /-- About to read the clock, after `sleep(1)`. -/
  | sleeping
  /-- In the constructor of the guard, at `pthread_mutex_lock`. -/
  | atLock
  /-- In the tick loop, inside the guarded section. -/
  | inside
  /-- After `lock.unlock()`: `HandleTimeOutList`, then the end of the guard's scope. -/
  | handling
  deriving DecidableEq

variable {τ : Type*}

/-- The state of the lock protocol; `unlocks` lists every unlock so far, with its caller and the
holder at that moment. -/
structure St (τ : Type*) where
  mutex : Option (Thread τ)
  worker : τ → WorkerPc
  timer : TimerPc
  curTime : ℤ
  unlocks : List (Thread τ × Option (Thread τ))

/-- All threads outside, the mutex free, the wheel started at time `c`. -/
def init (c : ℤ) : St τ := ⟨none, fun _ => .outside, .sleeping, c, []⟩

/-! ## The discipline -/

/-- The thread is inside a section guarded by the mutex. -/
def InSection (s : St τ) : Thread τ → Prop
  | .worker w => ∃ c, s.worker w = .inside c
  | .timer => s.timer = .inside

/-- At most one thread is inside a guarded section. -/
def Exclusive (s : St τ) : Prop := ∀ t t', InSection s t → InSection s t' → t = t'

/-- Every unlock so far was executed by the thread that held the mutex. -/
def UnlockedByHolder (s : St τ) : Prop := ∀ e ∈ s.unlocks, e.2 = some e.1

/-- The invariant: the holder of the mutex is the thread inside a guarded section. -/
def Held (s : St τ) : Prop := ∀ t, s.mutex = some t ↔ InSection s t

theorem Held.exclusive {s : St τ} (h : Held s) : Exclusive s := by
  intro t t' ht ht'
  have e : some t = some t' := ((h t).2 ht).symm.trans ((h t').2 ht')
  exact Option.some.inj e

theorem init_held (c : ℤ) : Held (init c : St τ) := by
  rintro (w | _) <;> simp [init, InSection]

/-! ## One step -/

/-- The steps of the threads. -/
inductive Act (τ : Type*)
  /-- A worker calls `AddTimeRoundItemNode`. -/
  | callAdd (w : τ)
  /-- A worker calls `UpdateTimeRoundItemNode`, having computed `new_index` and read `index`. -/
  | callUpdate (w : τ) (newIndex index : ℤ)
  /-- The timer thread reads the clock. -/
  | clock (now : ℤ)
  /-- `pthread_mutex_lock` in the constructor of a guard. -/
  | lock (t : Thread τ)
  /-- A step inside a guarded section. -/
  | work (t : Thread τ)
  /-- `lock.unlock()` in `TimeRound::fun`. -/
  | guardUnlock
  /-- `~Lock_Guard`. -/
  | guardDtor (t : Thread τ)
  deriving DecidableEq

namespace St

/-- `pthread_mutex_unlock` called by `t`. -/
def mutexUnlock (s : St τ) (t : Thread τ) : St τ :=
  { s with mutex := none, unlocks := s.unlocks ++ [(t, s.mutex)] }

/-- Move a worker. -/
def setWorker [DecidableEq τ] (s : St τ) (w : τ) (pc : WorkerPc) : St τ :=
  { s with worker := Function.update s.worker w pc }

end St

variable [DecidableEq τ]

/-- One step of one thread. -/
def step (s : St τ) : Act τ → Option (St τ)
  | .callAdd w =>
    match s.worker w with
    | .outside => some (s.setWorker w (.atLock .add))
    | _ => none
  | .callUpdate w newIndex index =>
    match s.worker w with
    -- `if(new_index == index) return;` comes before the guard
    | .outside => some (if newIndex = index then s else s.setWorker w (.atLock .update))
    | _ => none
  | .clock now =>
    match s.timer with
    | .sleeping =>
      some (if now - s.curTime ≥ 1 then { s with timer := .atLock, curTime := now } else s)
    | _ => none
  | .lock (.worker w) =>
    match s.worker w, s.mutex with
    | .atLock c, none => some { s.setWorker w (.inside c) with mutex := some (.worker w) }
    | _, _ => none
  | .lock .timer =>
    match s.timer, s.mutex with
    | .atLock, none => some { s with timer := .inside, mutex := some .timer }
    | _, _ => none
  | .work (.worker w) =>
    match s.worker w with
    | .inside _ => some s
    | _ => none
  | .work .timer =>
    match s.timer with
    | .inside => some s
    | _ => none
  | .guardUnlock =>
    match s.timer with
    | .inside => some { s.mutexUnlock .timer with timer := .handling }
    | _ => none
  | .guardDtor (.worker w) =>
    match s.worker w with
    | .inside _ => some ((s.mutexUnlock (.worker w)).setWorker w .outside)
    | _ => none
  | .guardDtor .timer =>
    match s.timer with
    | .handling => some { s.mutexUnlock .timer with timer := .sleeping }
    | _ => none

section Step

variable {s v : St τ} {a : Act τ}

/-- Moving a worker that is in no section to a place in no section keeps the invariant. -/
theorem setWorker_held (h : Held s) {w : τ} {pc : WorkerPc} (hw : ∀ c, s.worker w ≠ .inside c)
    (hpc : ∀ c, pc ≠ .inside c) : Held (s.setWorker w pc) := by
  rintro (x | _)
  · by_cases hx : x = w
    · subst hx
      simpa [St.setWorker, InSection, hpc, hw] using h (.worker x)
    · simpa [St.setWorker, InSection, hx] using h (.worker x)
  · exact h .timer

/-- **A step keeps the invariant**, unless it is the destructor at the end of a pass and finds the
mutex taken. -/
theorem step_held (h : Held s) (hd : a = .guardDtor .timer → s.mutex = none)
    (hs : step s a = some v) : Held v := by
  cases a with
  | callAdd w =>
    cases hw : s.worker w <;> simp only [step, hw, Option.some.injEq, reduceCtorEq] at hs
    subst hs
    exact setWorker_held h (by simp [hw]) (by simp)
  | callUpdate w newIndex index =>
    cases hw : s.worker w <;> simp only [step, hw, Option.some.injEq, reduceCtorEq] at hs
    subst hs
    split
    · exact h
    · exact setWorker_held h (by simp [hw]) (by simp)
  | clock now =>
    cases ht : s.timer <;> simp only [step, ht, Option.some.injEq, reduceCtorEq] at hs
    subst hs
    split
    · rintro (x | _)
      · exact h (.worker x)
      · simpa [InSection, ht] using h .timer
    · exact h
  | lock t =>
    cases t with
    | worker w =>
      cases hw : s.worker w <;> cases hm : s.mutex <;>
        simp only [step, hw, hm, Option.some.injEq, reduceCtorEq] at hs
      subst hs
      -- the mutex was free, so no thread was inside; now exactly `w` is
      rintro (x | _)
      · by_cases hx : x = w
        · subst hx
          simp [St.setWorker, InSection]
        · have := h (.worker x)
          simp only [hm, reduceCtorEq, false_iff] at this
          simp only [St.setWorker, InSection, Function.update_of_ne hx, Option.some.injEq,
            Thread.worker.injEq, Ne.symm hx, false_iff]
          exact this
      · have := h .timer
        simp only [hm, reduceCtorEq, false_iff] at this
        simpa [St.setWorker, InSection] using this
    | timer =>
      cases ht : s.timer <;> cases hm : s.mutex <;>
        simp only [step, ht, hm, Option.some.injEq, reduceCtorEq] at hs
      subst hs
      rintro (x | _)
      · have := h (.worker x)
        simp only [hm, reduceCtorEq, false_iff] at this
        simpa [InSection] using this
      · simp [InSection]
  | work t =>
    obtain rfl : s = v := by
      cases t with
      | worker w => cases hw : s.worker w <;> simp_all [step]
      | timer => cases ht : s.timer <;> simp_all [step]
    exact h
  | guardUnlock =>
    cases ht : s.timer <;> simp only [step, ht, Option.some.injEq, reduceCtorEq] at hs
    subst hs
    have hm : s.mutex = some .timer := (h .timer).2 ht
    rintro (x | _)
    · have := h (.worker x)
      simp only [hm, Option.some.injEq, reduceCtorEq, false_iff] at this
      simpa [St.mutexUnlock, InSection] using this
    · simp [St.mutexUnlock, InSection]
  | guardDtor t =>
    cases t with
    | worker w =>
      cases hw : s.worker w with
      | outside => simp [step, hw] at hs
      | atLock c => simp [step, hw] at hs
      | inside c =>
        simp only [step, hw, Option.some.injEq] at hs
        subst hs
        have hm : s.mutex = some (.worker w) := (h (.worker w)).2 ⟨c, hw⟩
        rintro (x | _)
        · by_cases hx : x = w
          · subst hx
            simp [St.setWorker, St.mutexUnlock, InSection]
          · have := h (.worker x)
            simp only [hm, Option.some.injEq, Thread.worker.injEq, Ne.symm hx, false_iff] at this
            simp only [St.setWorker, St.mutexUnlock, InSection, Function.update_of_ne hx,
              reduceCtorEq, false_iff]
            exact this
        · have := h .timer
          simp only [hm, Option.some.injEq, reduceCtorEq, false_iff] at this
          simpa [St.setWorker, St.mutexUnlock, InSection] using this
    | timer =>
      cases ht : s.timer <;> simp only [step, ht, Option.some.injEq, reduceCtorEq] at hs
      subst hs
      have hm := hd rfl
      rintro (x | _)
      · simpa [St.mutexUnlock, InSection, hm] using h (.worker x)
      · simp [St.mutexUnlock, InSection]

/-- Every unlock but the one of the destructor at the end of a pass is the holder's. -/
theorem step_unlockedByHolder (h : Held s) (hu : UnlockedByHolder s)
    (hd : a ≠ .guardDtor .timer) (hs : step s a = some v) : UnlockedByHolder v := by
  -- an unlock appends one record; the holder is the caller because the caller is inside
  have key : ∀ t, InSection s t → UnlockedByHolder (s.mutexUnlock t) := by
    intro t ht e he
    rcases List.mem_append.mp he with he | he
    · exact hu e he
    · obtain rfl := List.mem_singleton.mp he
      exact (h t).2 ht
  cases a with
  | callAdd w =>
    cases hw : s.worker w <;> simp only [step, hw, Option.some.injEq, reduceCtorEq] at hs
    subst hs
    exact hu
  | callUpdate w newIndex index =>
    cases hw : s.worker w <;> simp only [step, hw, Option.some.injEq, reduceCtorEq] at hs
    subst hs
    split <;> exact hu
  | clock now =>
    cases ht : s.timer <;> simp only [step, ht, Option.some.injEq, reduceCtorEq] at hs
    subst hs
    split <;> exact hu
  | lock t =>
    cases t with
    | worker w =>
      cases hw : s.worker w <;> cases hm : s.mutex <;>
        simp only [step, hw, hm, Option.some.injEq, reduceCtorEq] at hs
      subst hs
      exact hu
    | timer =>
      cases ht : s.timer <;> cases hm : s.mutex <;>
        simp only [step, ht, hm, Option.some.injEq, reduceCtorEq] at hs
      subst hs
      exact hu
  | work t =>
    cases t with
    | worker w => cases hw : s.worker w <;> simp_all [step]
    | timer => cases ht : s.timer <;> simp_all [step]
  | guardUnlock =>
    cases ht : s.timer <;> simp only [step, ht, Option.some.injEq, reduceCtorEq] at hs
    subst hs
    exact key .timer ht
  | guardDtor t =>
    cases t with
    | worker w =>
      cases hw : s.worker w with
      | outside => simp [step, hw] at hs
      | atLock c => simp [step, hw] at hs
      | inside c =>
        simp only [step, hw, Option.some.injEq] at hs
        subst hs
        exact key (.worker w) ⟨c, hw⟩
    | timer => exact absurd rfl hd

/-- The destructor at the end of a pass is never the holder's unlock: `lock.unlock()` has already
given the mutex up. -/
theorem timer_dtor_not_holder (h : Held s) (hs : step s (.guardDtor .timer) = some v) :
    ¬ UnlockedByHolder v := by
  cases ht : s.timer <;> simp only [step, ht, Option.some.injEq, reduceCtorEq] at hs
  subst hs
  intro hu
  have hm : s.mutex = some .timer :=
    hu (.timer, s.mutex) (List.mem_append_right _ (List.mem_singleton.mpr rfl))
  have := (h .timer).1 hm
  simp [InSection, ht] at this

end Step

/-! ## Whole runs -/

variable {c : ℤ} {l : List (Act τ)} {s : St τ}

/-- The two halves of the discipline, in one state. -/
def Disciplined (s : St τ) : Prop := Exclusive s ∧ UnlockedByHolder s

/-- As long as every destructor at the end of a pass finds the mutex free, at most one thread is
inside a guarded section. -/
theorem exclusive_of_free_dtor
    (h : Exec step (fun u a => a = .guardDtor .timer → u.mutex = none) (init c) l s) :
    Exclusive s :=
  (h.invariant (init_held c) fun _ _ _ hu hd hs => step_held hu hd hs).exclusive

/-- A run in which no pass ends keeps the invariant and the record of unlocks. -/
theorem held_of_no_pass_ends (h : Exec step Always (init c) l s)
    (hl : Act.guardDtor .timer ∉ l) : Held s ∧ UnlockedByHolder s := by
  induction h with
  | nil => exact ⟨init_held c, by simp [UnlockedByHolder, init]⟩
  | @snoc l u a v _ _ hs ih =>
    simp only [List.mem_append, List.mem_singleton, not_or] at hl
    obtain ⟨hu, hr⟩ := ih hl.1
    exact ⟨step_held hu (fun e => absurd e.symm hl.2) hs,
      step_unlockedByHolder hu hr (fun e => hl.2 e.symm) hs⟩

/-- The first destructor at the end of a pass, and the run before it. -/
theorem exists_first_dtor (h : Exec step Always (init c) l s) (hl : Act.guardDtor .timer ∈ l) :
    ∃ l₁ l₂ u v, l = l₁ ++ .guardDtor .timer :: l₂ ∧ Act.guardDtor .timer ∉ l₁ ∧
      Exec step Always (init c) l₁ u ∧ step u (.guardDtor .timer) = some v := by
  induction h with
  | nil => simp at hl
  | @snoc l u a v h _ hs ih =>
    by_cases hl' : Act.guardDtor .timer ∈ l
    · obtain ⟨l₁, l₂, u', v', rfl, hn, h', hs'⟩ := ih hl'
      exact ⟨l₁, l₂ ++ [a], u', v', by simp, hn, h', hs'⟩
    · obtain rfl : Act.guardDtor .timer = a := by simpa [hl'] using hl
      exact ⟨l, [], u, v, rfl, hl', h, hs⟩

/-- **When the mutex of the wheel keeps its discipline.** In every run, at most one thread is
inside a guarded section and every unlock is the holder's, in all states passed through, if and
only if no pass of `TimeRound::fun` reaches the destructor of its guard. -/
theorem exclusion_iff_no_pass_ends (h : Exec step Always (init c) l s) :
    (∀ l₁ l₂ u, l = l₁ ++ l₂ → Exec step Always (init c) l₁ u → Disciplined u) ↔
      Act.guardDtor .timer ∉ l := by
  constructor
  · intro hall hl
    obtain ⟨l₁, l₂, u, v, rfl, hn, hu, hs⟩ := exists_first_dtor h hl
    have hv : Exec step Always (init c) (l₁ ++ [.guardDtor .timer]) v := .snoc hu trivial hs
    exact timer_dtor_not_holder (held_of_no_pass_ends hu hn).1 hs
      (hall _ l₂ v (by simp) hv).2
  · rintro hl l₁ l₂ u rfl hu
    obtain ⟨hh, hr⟩ := held_of_no_pass_ends hu fun hm => hl (List.mem_append_left _ hm)
    exact ⟨hh.exclusive, hr⟩

/-- A run with a worker and a pass that has not ended. -/
def openPassRun : List (Act Bool) :=
  [.callAdd true, .clock 1, .lock .timer, .work .timer, .guardUnlock, .lock (.worker true)]

theorem exclusion_iff_no_pass_ends_open_pass :
    ∃ s, Exec step Always (init 0) openPassRun s ∧ ∀ l₁ l₂ u, openPassRun = l₁ ++ l₂ →
      Exec step Always (init 0) l₁ u → Disciplined u := by
  have hrun : ∃ s, runIf step Always (init 0) openPassRun = some s := ⟨_, rfl⟩
  obtain ⟨s, hs⟩ := hrun
  have h := exec_of_runIf hs
  exact ⟨s, h, (exclusion_iff_no_pass_ends h).2 (by decide)⟩

/-- The run that loses the mutex: a worker locks after `lock.unlock()`, the destructor at the end
of the pass sets the mutex free under it, and a second worker enters. -/
def stolenRun : List (Act Bool) :=
  [.clock 1, .lock .timer, .guardUnlock, .callAdd true, .callAdd false, .lock (.worker true),
    .guardDtor .timer, .lock (.worker false)]

/-- Two workers inside at once, after an unlock by a thread that was not the holder. -/
theorem stolenRun_not_disciplined :
    ∃ s, Exec step Always (init 0) stolenRun s ∧ ¬ Exclusive s ∧ ¬ UnlockedByHolder s := by
  refine ⟨_, exec_of_runIf rfl, ?_, ?_⟩
  · intro h
    have := h (.worker true) (.worker false) ⟨.add, rfl⟩ ⟨.add, rfl⟩
    simp at this
  · intro h
    have := h (.timer, some (.worker true)) (by decide)
    simp at this

end WebServer.TimeRound.Lock
