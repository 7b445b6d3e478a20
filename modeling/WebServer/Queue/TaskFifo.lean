import WebServer.Lib.Update
import WebServer.Queue.Task

/-!
# The task queue is a bounded first-in-first-out queue

Each mutex is held by the one thread that is between its `lock` and its `unlock` (`Locks`). So what
a thread has tested stays true until it acts on it: a producer that pushes has room, a consumer that
pops has a task, and the swap thread exchanges the queues when `consum_task` is empty (`Tested`). A
step is then a move of a double buffer (`buffers_move`), and over every run, with spurious wake-ups
at any time, the tasks taken, then `consum_task`, then `product_task` are the tasks pushed
(`taken_fifo`).
-/

namespace WebServer.Queue.Task

open Lib

variable {ι κ α : Type*}

/-! ## Who holds which mutex -/

/-- The producer is between `lock` and `unlock` of `Product_Mutex`. -/
def ProducerPc.holds : ProducerPc α → Bool
  | .test _ | .full _ | .push _ _ | .unlock => true
  | .outside | .lock _ | .waiting _ => false

/-- The consumer is between `lock` and `unlock` of `Comsumer_Mutex`. -/
def ConsumerPc.holds : ConsumerPc → Bool
  | .test | .empty | .take | .unlock => true
  | .outside | .lock | .waiting => false

/-- The swap thread has `Product_Mutex`. -/
def SwapPc.holdsP : SwapPc → Bool
  | .testP | .sleepP | .swap | .broadcastC | .broadcastP | .unlockP => true
  | .lockC | .testC | .sleepC | .waitC | .lockP | .waitP | .unlockC => false

/-- The swap thread has `Comsumer_Mutex`, which it keeps while it waits with `Product_Mutex`. -/
def SwapPc.holdsC : SwapPc → Bool
  | .lockC | .waitC => false
  | .testC | .sleepC | .lockP | .testP | .sleepP | .waitP | .swap | .broadcastC | .broadcastP
  | .unlockP | .unlockC => true

@[simp] theorem ProducerPc.holds_wake (pc : ProducerPc α) : pc.wake.holds = pc.holds := by
  cases pc <;> rfl

@[simp] theorem ConsumerPc.holds_wake (pc : ConsumerPc) : pc.wake.holds = pc.holds := by
  cases pc <;> rfl

@[simp] theorem SwapPc.holdsP_wake (pc : SwapPc) : pc.wake.holdsP = pc.holdsP := by
  cases pc <;> rfl

@[simp] theorem SwapPc.holdsC_wake (pc : SwapPc) : pc.wake.holdsC = pc.holdsC := by
  cases pc <;> rfl

namespace St

variable (s : St ι κ α)

/-- The thread has `Product_Mutex`. -/
def HoldsP : Thread ι κ → Prop
  | .producer i => (s.producer i).holds
  | .consumer _ => False
  | .swapper => s.swapper.holdsP

/-- The thread has `Comsumer_Mutex`. -/
def HoldsC : Thread ι κ → Prop
  | .producer _ => False
  | .consumer j => (s.consumer j).holds
  | .swapper => s.swapper.holdsC

end St

/-- Both mutexes are held by the threads that are between their `lock` and `unlock`. -/
structure Locks (s : St ι κ α) : Prop where
  product : Held s.productMutex s.HoldsP
  comsumer : Held s.comsumerMutex s.HoldsC

theorem locks_init : Locks (init : St ι κ α) := by
  constructor <;> intro u <;> cases u <;> simp [init, St.HoldsP, St.HoldsC, ProducerPc.holds,
    ConsumerPc.holds, SwapPc.holdsP, SwapPc.holdsC]

section Holds

variable {s t : St ι κ α}

theorem holdsP_iff (hp : ∀ i, (t.producer i).holds = (s.producer i).holds)
    (hw : t.swapper.holdsP = s.swapper.holdsP) (u : Thread ι κ) : t.HoldsP u ↔ s.HoldsP u := by
  cases u with
  | producer i => simp only [St.HoldsP, hp]
  | consumer j => rfl
  | swapper => simp only [St.HoldsP, hw]

theorem holdsC_iff (hc : ∀ j, (t.consumer j).holds = (s.consumer j).holds)
    (hw : t.swapper.holdsC = s.swapper.holdsC) (u : Thread ι κ) : t.HoldsC u ↔ s.HoldsC u := by
  cases u with
  | producer i => rfl
  | consumer j => simp only [St.HoldsC, hc]
  | swapper => simp only [St.HoldsC, hw]

theorem holdsP_iff_of_ne_swapper (hp : t.producer = s.producer) (u : Thread ι κ)
    (hu : u ≠ .swapper) : t.HoldsP u ↔ s.HoldsP u := by
  cases u with
  | producer i => simp only [St.HoldsP, hp]
  | consumer j => rfl
  | swapper => exact absurd rfl hu

theorem holdsC_iff_of_ne_swapper (hc : t.consumer = s.consumer) (u : Thread ι κ)
    (hu : u ≠ .swapper) : t.HoldsC u ↔ s.HoldsC u := by
  cases u with
  | producer i => rfl
  | consumer j => simp only [St.HoldsC, hc]
  | swapper => exact absurd rfl hu

theorem holdsP_iff_of_ne_producer [DecidableEq ι] {i : ι} {pc : ProducerPc α}
    (hp : t.producer = Function.update s.producer i pc) (hw : t.swapper = s.swapper)
    (u : Thread ι κ) (hu : u ≠ .producer i) : t.HoldsP u ↔ s.HoldsP u := by
  cases u with
  | producer i' =>
    have hi : i' ≠ i := fun h => hu (h ▸ rfl)
    simp only [St.HoldsP, hp, Function.update_of_ne hi]
  | consumer j => rfl
  | swapper => simp only [St.HoldsP, hw]

theorem holdsC_iff_of_ne_consumer [DecidableEq κ] {j : κ} {pc : ConsumerPc}
    (hc : t.consumer = Function.update s.consumer j pc) (hw : t.swapper = s.swapper)
    (u : Thread ι κ) (hu : u ≠ .consumer j) : t.HoldsC u ↔ s.HoldsC u := by
  cases u with
  | producer i => rfl
  | consumer j' =>
    have hj : j' ≠ j := fun h => hu (h ▸ rfl)
    simp only [St.HoldsC, hc, Function.update_of_ne hj]
  | swapper => simp only [St.HoldsC, hw]

end Holds

variable [DecidableEq ι] [DecidableEq κ] {n : ℕ} {s t : St ι κ α} {a : Act ι κ α}

theorem productMutex_step (h : Held s.productMutex s.HoldsP) (hs : Step n s a t) :
    Held t.productMutex t.HoldsP := by
  cases hs
  case lockPut i rest hpc hm =>
    refine h.acquire hm ?_ (holdsP_iff_of_ne_producer rfl rfl)
    simp [St.HoldsP, ProducerPc.holds]
  case waitPut i rest hpc =>
    refine h.release (t := .producer i) ?_ ?_ (holdsP_iff_of_ne_producer rfl rfl)
    · simp [St.HoldsP, hpc, ProducerPc.holds]
    · simp [St.HoldsP, ProducerPc.holds]
  case unlockPut i hpc =>
    refine h.release (t := .producer i) ?_ ?_ (holdsP_iff_of_ne_producer rfl rfl)
    · simp [St.HoldsP, hpc, ProducerPc.holds]
    · simp [St.HoldsP, ProducerPc.holds]
  case lockP hpc hm =>
    exact h.acquire hm rfl (holdsP_iff_of_ne_swapper rfl)
  case waitP hpc =>
    refine h.release (t := .swapper) ?_ nofun (holdsP_iff_of_ne_swapper rfl)
    simp [St.HoldsP, hpc, SwapPc.holdsP]
  case unlockP hpc =>
    refine h.release (t := .swapper) ?_ nofun (holdsP_iff_of_ne_swapper rfl)
    simp [St.HoldsP, hpc, SwapPc.holdsP]
  -- a producer that stays inside, or outside, of its critical section
  case put | done | isFull | hasRoom | push =>
    refine h.keep (holdsP_iff (apply_update_eq ?_) ?_)
    · simp [*, ProducerPc.holds]
    · simp
  case wakePut i =>
    exact h.keep (holdsP_iff (apply_update_eq (ProducerPc.holds_wake _)) rfl)
  case isEmpty | wakeSwap => exact h.keep (holdsP_iff (fun _ => rfl) (SwapPc.holdsP_wake _))
  case broadcastP hpc =>
    exact h.keep (holdsP_iff (fun i => ProducerPc.holds_wake _) (by rw [hpc]; rfl))
  all_goals
    refine h.keep (holdsP_iff (fun _ => rfl) ?_)
    simp [*, SwapPc.holdsP]

theorem comsumerMutex_step (h : Held s.comsumerMutex s.HoldsC) (hs : Step n s a t) :
    Held t.comsumerMutex t.HoldsC := by
  cases hs
  case lockTake j hpc hm =>
    refine h.acquire hm ?_ (holdsC_iff_of_ne_consumer rfl rfl)
    simp [St.HoldsC, ConsumerPc.holds]
  case waitTake j hpc =>
    refine h.release (t := .consumer j) ?_ ?_ (holdsC_iff_of_ne_consumer rfl rfl)
    · simp [St.HoldsC, hpc, ConsumerPc.holds]
    · simp [St.HoldsC, ConsumerPc.holds]
  case unlockTake j hpc =>
    refine h.release (t := .consumer j) ?_ ?_ (holdsC_iff_of_ne_consumer rfl rfl)
    · simp [St.HoldsC, hpc, ConsumerPc.holds]
    · simp [St.HoldsC, ConsumerPc.holds]
  case lockC hpc hm =>
    exact h.acquire hm rfl (holdsC_iff_of_ne_swapper rfl)
  case waitC hpc =>
    refine h.release (t := .swapper) ?_ nofun (holdsC_iff_of_ne_swapper rfl)
    simp [St.HoldsC, hpc, SwapPc.holdsC]
  case unlockC hpc =>
    refine h.release (t := .swapper) ?_ nofun (holdsC_iff_of_ne_swapper rfl)
    simp [St.HoldsC, hpc, SwapPc.holdsC]
  -- a consumer that stays inside, or outside, of its critical section
  case take | isEmpty | hasTask | pop =>
    refine h.keep (holdsC_iff (apply_update_eq ?_) ?_)
    · simp [*, ConsumerPc.holds]
    · simp
  case wakeTake j =>
    exact h.keep (holdsC_iff (apply_update_eq (ConsumerPc.holds_wake _)) rfl)
  case done | isFull | wakeSwap =>
    exact h.keep (holdsC_iff (fun _ => rfl) (SwapPc.holdsC_wake _))
  case broadcastC hpc =>
    exact h.keep (holdsC_iff (fun j => ConsumerPc.holds_wake _) (by rw [hpc]; rfl))
  all_goals
    refine h.keep (holdsC_iff (fun _ => rfl) ?_)
    simp [*, SwapPc.holdsC]

theorem locks_step (h : Locks s) (hs : Step n s a t) : Locks t :=
  ⟨productMutex_step h.product hs, comsumerMutex_step h.comsumer hs⟩

omit [DecidableEq ι] [DecidableEq κ] in
/-- A consumer that has `Comsumer_Mutex` keeps the swap thread out. -/
theorem Locks.not_holdsC (hl : Locks s) {j : κ} (hj : (s.consumer j).holds) :
    s.swapper.holdsC = false := by
  cases hw : s.swapper.holdsC with
  | false => rfl
  | true =>
    have hC : s.HoldsC (.consumer j) := hj
    have heq := hl.comsumer.unique hC (show s.HoldsC .swapper from hw)
    cases heq

omit [DecidableEq ι] [DecidableEq κ] in
/-- A producer that has `Product_Mutex` keeps the swap thread out. -/
theorem Locks.not_holdsP (hl : Locks s) {i : ι} (hi : (s.producer i).holds) :
    s.swapper.holdsP = false := by
  cases hw : s.swapper.holdsP with
  | false => rfl
  | true =>
    have hP : s.HoldsP (.producer i) := hi
    have heq := hl.product.unique hP (show s.HoldsP .swapper from hw)
    cases heq

/-! ## What a thread has tested -/

/-- The swap thread has found `consum_task` empty and has not yet exchanged the queues. -/
def SwapPc.passedC : SwapPc → Bool
  | .lockP | .testP | .sleepP | .waitP | .swap => true
  | .lockC | .testC | .sleepC | .waitC | .broadcastC | .broadcastP | .unlockP | .unlockC => false

@[simp] theorem SwapPc.passedC_wake (pc : SwapPc) : pc.wake.passedC = pc.passedC := by
  cases pc <;> rfl

theorem SwapPc.holdsC_of_passedC {pc : SwapPc} (h : pc.passedC) : pc.holdsC := by
  cases pc <;> first | rfl | cases h

theorem ProducerPc.eq_push_of_wake {pc : ProducerPc α} {x : α} {rest : List α}
    (h : pc.wake = .push x rest) : pc = .push x rest := by
  cases pc with
  | waiting _ => cases h
  | outside | lock _ | test _ | full _ | push _ _ | unlock => exact h

theorem ConsumerPc.eq_take_of_wake {pc : ConsumerPc} (h : pc.wake = .take) : pc = .take := by
  cases pc with
  | waiting => cases h
  | outside | lock | test | empty | take | unlock => exact h

/-- What a thread has tested is still so: a producer at `push` has room, a consumer at `take` has a
task, and the swap thread exchanges an empty `consum_task` with a `product_task` that is not. -/
structure Tested (n : ℕ) (s : St ι κ α) : Prop where
  push {i : ι} {x : α} {rest : List α} : s.producer i = .push x rest → s.productTask.length < n
  take {j : κ} : s.consumer j = .take → s.consumTask ≠ []
  passedC : s.swapper.passedC → s.consumTask = []
  swap : s.swapper = .swap → s.productTask ≠ []

omit [DecidableEq ι] [DecidableEq κ] in
theorem tested_init : Tested n (init : St ι κ α) where
  push h := nomatch h
  take h := nomatch h
  passedC h := nomatch h
  swap h := nomatch h

theorem push_step (hl : Locks s) (hb : s.productTask.length ≤ n) (h : Tested n s)
    (hs : Step n s a t) {i : ι} {x : α} {rest : List α} (hi : t.producer i = .push x rest) :
    t.productTask.length < n := by
  cases hs
  case hasRoom i' x' rest' hpc hroom => exact Nat.lt_of_le_of_ne hb hroom
  case push i' x' rest' hpc =>
    -- two producers cannot both be at the push
    have hne : i ≠ i' := by
      rintro rfl
      simp at hi
    have hi' : s.producer i = .push x rest := eq_of_update_eq hi nofun
    have heq := hl.product.unique (t := .producer i) (u := .producer i')
      (by simp [St.HoldsP, hi', ProducerPc.holds]) (by simp [St.HoldsP, hpc, ProducerPc.holds])
    exact absurd (Thread.producer.inj heq) hne
  case swap hpc =>
    have hi' : s.producer i = .push x rest := hi
    have hP := hl.not_holdsP (i := i) (by rw [hi']; rfl)
    rw [hpc] at hP
    cases hP
  case put | lockPut | done | isFull | waitPut | unlockPut =>
    exact h.push (eq_of_update_eq hi nofun)
  case wakePut i' =>
    by_cases hi' : i = i'
    · subst hi'
      rw [St.setProducer_producer, Function.update_self] at hi
      exact h.push (ProducerPc.eq_push_of_wake hi)
    · rw [St.setProducer_producer, Function.update_of_ne hi'] at hi
      exact h.push hi
  case broadcastP => exact h.push (ProducerPc.eq_push_of_wake hi)
  all_goals exact h.push hi

theorem take_step (hl : Locks s) (h : Tested n s) (hs : Step n s a t) {j : κ}
    (hj : t.consumer j = .take) : t.consumTask ≠ [] := by
  cases hs
  case hasTask j' hpc hne => exact hne
  case pop j' x rest hpc hx =>
    -- two consumers cannot both be at the pop
    have hne : j ≠ j' := by
      rintro rfl
      simp at hj
    have hj' : s.consumer j = .take := eq_of_update_eq hj nofun
    have heq := hl.comsumer.unique (t := .consumer j) (u := .consumer j')
      (by simp [St.HoldsC, hj', ConsumerPc.holds]) (by simp [St.HoldsC, hpc, ConsumerPc.holds])
    exact absurd (Thread.consumer.inj heq) hne
  case swap hpc => exact h.swap hpc
  case take | lockTake | isEmpty | waitTake | unlockTake =>
    exact h.take (eq_of_update_eq hj nofun)
  case wakeTake j' =>
    by_cases hj' : j = j'
    · subst hj'
      rw [St.setConsumer_consumer, Function.update_self] at hj
      exact h.take (ConsumerPc.eq_take_of_wake hj)
    · rw [St.setConsumer_consumer, Function.update_of_ne hj'] at hj
      exact h.take hj
  case broadcastC => exact h.take (ConsumerPc.eq_take_of_wake hj)
  all_goals exact h.take hj

theorem passedC_step (hl : Locks s) (h : Tested n s) (hs : Step n s a t)
    (hw : t.swapper.passedC) : t.consumTask = [] := by
  cases hs
  case pop j x rest hpc hx =>
    have hC := hl.not_holdsC (j := j) (by rw [hpc]; rfl)
    exact absurd (SwapPc.holdsC_of_passedC hw) (Bool.eq_false_iff.mp hC)
  case passC hpc hempty => exact hempty
  case lockP hpc _ => exact h.passedC (by rw [hpc]; rfl)
  case sleepP hpc _ => exact h.passedC (by rw [hpc]; rfl)
  case passP hpc _ => exact h.passedC (by rw [hpc]; rfl)
  case waitP hpc => exact h.passedC (by rw [hpc]; rfl)
  case done | isFull | isEmpty | wakeSwap => exact h.passedC (by simpa using hw)
  all_goals first | exact h.passedC hw | cases hw

theorem swap_step (h : Tested n s) (hs : Step n s a t) (hw : t.swapper = .swap) :
    t.productTask ≠ [] := by
  have hwake : ∀ {pc : SwapPc}, pc.wake = .swap → pc = .swap := by
    intro pc hpc
    cases pc <;> first | rfl | cases hpc
  cases hs
  case passP hpc hne => exact hne
  case push => exact List.append_ne_nil_of_right_ne_nil _ (List.cons_ne_nil _ _)
  case done | isFull | isEmpty | wakeSwap => exact h.swap (hwake hw)
  all_goals first | exact h.swap hw | cases hw

/-! ## Every step is a move of the double buffer -/

/-- The two queues, with what was pushed and what was taken. -/
def buffers (s : St ι κ α) : Buffers α := ⟨s.pushed, s.taken, s.consumTask, s.productTask⟩

theorem buffers_move (h : Tested n s) (hs : Step n s a t) :
    (buffers s).Move (some n) (buffers t) := by
  cases hs
  case push i x rest hpc =>
    exact .push x fun k hk => Option.some.inj hk ▸ h.push hpc
  case pop j x rest hpc hx => exact .pop hx
  case swap hpc =>
    have hempty : s.consumTask = [] := h.passedC (by rw [hpc]; rfl)
    have hmove : (buffers s).Move (some n) _ := .swap hempty
    simpa [buffers, hempty] using hmove
  all_goals exact .stay

/-- The invariant of the queue. -/
structure Inv (n : ℕ) (s : St ι κ α) : Prop where
  locks : Locks s
  tested : Tested n s
  fifo : (buffers s).Fifo
  bounded : (buffers s).Bounded n

omit [DecidableEq ι] [DecidableEq κ] in
theorem inv_init : Inv n (init : St ι κ α) :=
  ⟨locks_init, tested_init, rfl, Nat.zero_le n, Nat.zero_le n⟩

theorem inv_step (h : Inv n s) (hs : step n s a = some t) : Inv n t := by
  have hstep := step_cases hs
  have hmove := buffers_move h.tested hstep
  refine ⟨locks_step h.locks hstep, ?_, hmove.fifo h.fifo, hmove.bounded h.bounded⟩
  constructor
  · exact push_step h.locks h.bounded.2 h.tested hstep
  · exact take_step h.locks h.tested hstep
  · exact passedC_step h.locks h.tested hstep
  · exact swap_step h.tested hstep

theorem inv_exec {l : List (Act ι κ α)} (h : Exec (step n) Always init l s) : Inv n s :=
  h.invariant inv_init fun _ _ _ hu _ hs => inv_step hu hs

/-- **The task queue is a bounded first-in-first-out queue.** In every run, with any producers and
consumers and spurious wake-ups at any time, the tasks taken are the first ones pushed, the others
are those in `consum_task` and then those in `product_task`, and neither queue has more than
`max_task_num` tasks. -/
theorem taken_fifo (maxTaskNum : ℕ) (s : St ι κ α) (l : List (Act ι κ α))
    (h : Exec (step maxTaskNum) Always init l s) :
    s.taken <+: s.pushed ∧ s.taken ++ (s.consumTask ++ s.productTask) = s.pushed ∧
      s.consumTask.length ≤ maxTaskNum ∧ s.productTask.length ≤ maxTaskNum := by
  have hinv := inv_exec h
  exact ⟨hinv.fifo.popped_isPrefix, hinv.fifo, hinv.bounded.1, hinv.bounded.2⟩

/-- Room for one task: a producer blocks in the middle of its batch of two until the queues are
exchanged, and a consumer takes the first of the two. -/
def blockedRun : List (Act Unit Unit ℕ) :=
  [.put () [7, 8]] ++ List.replicate 5 (.run (.producer ())) ++ List.replicate 9 (.run .swapper) ++
    List.replicate 3 (.run (.producer ())) ++ [.take ()] ++ List.replicate 3 (.run (.consumer ()))

theorem taken_fifo_blocked :
    ∃ s : St Unit Unit ℕ, Exec (step 1) Always init blockedRun s ∧ s.taken = [7] ∧
      s.pushed = [7, 8] ∧ s.taken <+: s.pushed ∧
      s.taken ++ (s.consumTask ++ s.productTask) = s.pushed ∧ s.consumTask.length ≤ 1 ∧
      s.productTask.length ≤ 1 := by
  have hrun : ∃ s : St Unit Unit ℕ, runIf (step 1) Always init blockedRun = some s ∧
      s.taken = [7] ∧ s.pushed = [7, 8] := ⟨_, rfl, rfl, rfl⟩
  obtain ⟨s, hs, htaken, hpushed⟩ := hrun
  have hexec := exec_of_runIf hs
  exact ⟨s, hexec, htaken, hpushed, taken_fifo 1 s blockedRun hexec⟩

end WebServer.Queue.Task
