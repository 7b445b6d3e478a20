import Mathlib.Data.Nat.Notation
import Mathlib.Logic.Function.Basic
import Mathlib.Tactic.Simps.Basic
import WebServer.Lib.Buffers
import WebServer.Lib.Exec
import WebServer.Lib.Mutex

/-!
# The task queue

`Task` hands tasks from any number of producers (`put_task`) to any number of consumers
(`take_task`). Producers push onto `product_task` under `Product_Mutex`, consumers pop from
`consum_task` under `Comsumer_Mutex`, and the thread of `swap_task` exchanges the two when the one
is empty and the other is not.

Every thread is at a place of its function. `pthread_cond_wait` releases the mutex and goes to a
waiting place, which only a signal, a broadcast or a spurious wake-up leaves; the thread then has to
take the mutex again, so that it is back at the `lock` before its test. Only the swap thread waits
on `Swap_Cond`.
-/

namespace WebServer.Queue.Task

open Lib

/-- Places of `put_task`, with the tasks that are still to be pushed. -/
inductive ProducerPc (α : Type*)
  | outside
  | lock (rest : List α)
  /-- At the tests of the two loops. -/
  | test (rest : List α)
  /-- The queue was full and `Swap_Cond` signalled: before the wait. -/
  | full (rest : List α)
  | waiting (rest : List α)
  | push (x : α) (rest : List α)
  | unlock

/-- Places of `take_task`. -/
inductive ConsumerPc
  | outside
  | lock
  | test
  /-- The queue was empty and `Swap_Cond` signalled: before the wait. -/
  | empty
  | waiting
  | take
  | unlock
  deriving DecidableEq

/-- Places of `swap_task`. -/
inductive SwapPc
  | lockC
  | testC
  /-- `consum_task` was not empty: before the wait with `Comsumer_Mutex`. -/
  | sleepC
  | waitC
  | lockP
  | testP
  /-- `product_task` was empty: before the wait with `Product_Mutex`. -/
  | sleepP
  | waitP
  | swap
  | broadcastC
  | broadcastP
  | unlockP
  | unlockC
  deriving DecidableEq

/-- The threads. -/
inductive Thread (ι κ : Type*)
  | producer (i : ι)
  | consumer (j : κ)
  | swapper
  deriving DecidableEq

/-- A `Task`, with the places of its threads and the records of what was pushed and taken. -/
structure St (ι κ α : Type*) where
  productTask : List α
  consumTask : List α
  productMutex : Option (Thread ι κ)
  comsumerMutex : Option (Thread ι κ)
  producer : ι → ProducerPc α
  consumer : κ → ConsumerPc
  swapper : SwapPc
  pushed : List α
  taken : List α

variable {ι κ α : Type*}

/-- A new `Task`: the constructor starts the swap thread. -/
def init : St ι κ α :=
  ⟨[], [], none, none, fun _ => .outside, fun _ => .outside, .lockC, [], []⟩

/-- The steps. -/
inductive Act (ι κ α : Type*)
  /-- `put_task` is called. -/
  | put (i : ι) (newTask : List α)
  /-- `take_task` is called. -/
  | take (j : κ)
  /-- The next step of a thread. -/
  | run (t : Thread ι κ)
  /-- A spurious wake-up. -/
  | spurious (t : Thread ι κ)

namespace St

variable [DecidableEq ι] [DecidableEq κ] (s : St ι κ α)

@[simps]
def setProducer (i : ι) (pc : ProducerPc α) : St ι κ α :=
  { s with producer := Function.update s.producer i pc }

@[simps]
def setConsumer (j : κ) (pc : ConsumerPc) : St ι κ α :=
  { s with consumer := Function.update s.consumer j pc }

end St

/-- A thread that waits on `Swap_Cond` is woken. -/
def SwapPc.wake : SwapPc → SwapPc
  | .waitC => .lockC
  | .waitP => .lockP
  | pc => pc

/-- A thread that waits on `ComsumCond` is woken. -/
def ConsumerPc.wake : ConsumerPc → ConsumerPc
  | .waiting => .lock
  | pc => pc

/-- A thread that waits on `ProductCond` is woken. -/
def ProducerPc.wake : ProducerPc α → ProducerPc α
  | .waiting rest => .lock rest
  | pc => pc

section Step

variable [DecidableEq ι] [DecidableEq κ] (maxTaskNum : ℕ) (s : St ι κ α)

/-- The next step of producer `i`. -/
def putTask (i : ι) : Option (St ι κ α) :=
  match s.producer i with
  | .outside => none
  | .lock rest =>
    if s.productMutex = none then
      some { s.setProducer i (.test rest) with productMutex := some (.producer i) }
    else none
  | .test [] => some { s.setProducer i .unlock with swapper := s.swapper.wake }
  | .test (x :: rest) =>
    if s.productTask.length = maxTaskNum then
      some { s.setProducer i (.full (x :: rest)) with swapper := s.swapper.wake }
    else some (s.setProducer i (.push x rest))
  | .full rest => some { s.setProducer i (.waiting rest) with productMutex := none }
  | .waiting _ => none
  | .push x rest =>
    some { s.setProducer i (.test rest) with
      productTask := s.productTask ++ [x], pushed := s.pushed ++ [x] }
  | .unlock => some { s.setProducer i .outside with productMutex := none }

/-- The next step of consumer `j`. There is no `front` of an empty queue. -/
def takeTask (j : κ) : Option (St ι κ α) :=
  match s.consumer j with
  | .outside => none
  | .lock =>
    if s.comsumerMutex = none then
      some { s.setConsumer j .test with comsumerMutex := some (.consumer j) }
    else none
  | .test =>
    if s.consumTask.length = 0 then
      some { s.setConsumer j .empty with swapper := s.swapper.wake }
    else some (s.setConsumer j .take)
  | .empty => some { s.setConsumer j .waiting with comsumerMutex := none }
  | .waiting => none
  | .take =>
    match s.consumTask with
    | [] => none
    | x :: rest =>
      some { s.setConsumer j .unlock with consumTask := rest, taken := s.taken ++ [x] }
  | .unlock => some { s.setConsumer j .outside with comsumerMutex := none }

/-- The next step of the swap thread. -/
def swapTask : Option (St ι κ α) :=
  match s.swapper with
  | .lockC =>
    if s.comsumerMutex = none then
      some { s with swapper := .testC, comsumerMutex := some .swapper }
    else none
  | .testC => some { s with swapper := if s.consumTask.length ≠ 0 then .sleepC else .lockP }
  | .sleepC => some { s with swapper := .waitC, comsumerMutex := none }
  | .waitC => none
  | .lockP =>
    if s.productMutex = none then
      some { s with swapper := .testP, productMutex := some .swapper }
    else none
  | .testP => some { s with swapper := if s.productTask.length = 0 then .sleepP else .swap }
  | .sleepP => some { s with swapper := .waitP, productMutex := none }
  | .waitP => none
  | .swap =>
    some { s with
      swapper := .broadcastC, productTask := s.consumTask, consumTask := s.productTask }
  | .broadcastC => some { s with swapper := .broadcastP, consumer := fun j => (s.consumer j).wake }
  | .broadcastP => some { s with swapper := .unlockP, producer := fun i => (s.producer i).wake }
  | .unlockP => some { s with swapper := .unlockC, productMutex := none }
  | .unlockC => some { s with swapper := .lockC, comsumerMutex := none }

/-- The next step of a thread; it has none outside the three functions, while it waits, and while
another thread has the mutex it is at. -/
def run : Thread ι κ → Option (St ι κ α)
  | .producer i => putTask maxTaskNum s i
  | .consumer j => takeTask s j
  | .swapper => swapTask s

/-- A step. -/
def step : Act ι κ α → Option (St ι κ α)
  | .put i newTask =>
    match s.producer i with
    | .outside => some (s.setProducer i (.lock newTask))
    | _ => none
  | .take j =>
    match s.consumer j with
    | .outside => some (s.setConsumer j .lock)
    | _ => none
  | .run t => run maxTaskNum s t
  | .spurious (.producer i) => some (s.setProducer i (s.producer i).wake)
  | .spurious (.consumer j) => some (s.setConsumer j (s.consumer j).wake)
  | .spurious .swapper => some { s with swapper := s.swapper.wake }

end Step

/-! ## What a step can do -/

section Cases

variable [DecidableEq ι] [DecidableEq κ]

/-- What a step can do, one constructor for each place. -/
inductive Step (maxTaskNum : ℕ) (s : St ι κ α) : Act ι κ α → St ι κ α → Prop
  | put {i : ι} (newTask : List α) : s.producer i = .outside →
      Step maxTaskNum s (.put i newTask) (s.setProducer i (.lock newTask))
  | lockPut {i : ι} {rest : List α} : s.producer i = .lock rest → s.productMutex = none →
      Step maxTaskNum s (.run (.producer i))
        { s.setProducer i (.test rest) with productMutex := some (.producer i) }
  | done {i : ι} : s.producer i = .test [] → Step maxTaskNum s (.run (.producer i))
      { s.setProducer i .unlock with swapper := s.swapper.wake }
  | isFull {i : ι} {x : α} {rest : List α} : s.producer i = .test (x :: rest) →
      s.productTask.length = maxTaskNum → Step maxTaskNum s (.run (.producer i))
        { s.setProducer i (.full (x :: rest)) with swapper := s.swapper.wake }
  | hasRoom {i : ι} {x : α} {rest : List α} : s.producer i = .test (x :: rest) →
      s.productTask.length ≠ maxTaskNum →
        Step maxTaskNum s (.run (.producer i)) (s.setProducer i (.push x rest))
  | waitPut {i : ι} {rest : List α} : s.producer i = .full rest →
      Step maxTaskNum s (.run (.producer i))
        { s.setProducer i (.waiting rest) with productMutex := none }
  | push {i : ι} {x : α} {rest : List α} : s.producer i = .push x rest →
      Step maxTaskNum s (.run (.producer i))
        { s.setProducer i (.test rest) with
          productTask := s.productTask ++ [x], pushed := s.pushed ++ [x] }
  | unlockPut {i : ι} : s.producer i = .unlock → Step maxTaskNum s (.run (.producer i))
      { s.setProducer i .outside with productMutex := none }
  | take {j : κ} : s.consumer j = .outside → Step maxTaskNum s (.take j) (s.setConsumer j .lock)
  | lockTake {j : κ} : s.consumer j = .lock → s.comsumerMutex = none →
      Step maxTaskNum s (.run (.consumer j))
        { s.setConsumer j .test with comsumerMutex := some (.consumer j) }
  | isEmpty {j : κ} : s.consumer j = .test → s.consumTask = [] →
      Step maxTaskNum s (.run (.consumer j))
        { s.setConsumer j .empty with swapper := s.swapper.wake }
  | hasTask {j : κ} : s.consumer j = .test → s.consumTask ≠ [] →
      Step maxTaskNum s (.run (.consumer j)) (s.setConsumer j .take)
  | waitTake {j : κ} : s.consumer j = .empty → Step maxTaskNum s (.run (.consumer j))
      { s.setConsumer j .waiting with comsumerMutex := none }
  | pop {j : κ} {x : α} {rest : List α} : s.consumer j = .take → s.consumTask = x :: rest →
      Step maxTaskNum s (.run (.consumer j))
        { s.setConsumer j .unlock with consumTask := rest, taken := s.taken ++ [x] }
  | unlockTake {j : κ} : s.consumer j = .unlock → Step maxTaskNum s (.run (.consumer j))
      { s.setConsumer j .outside with comsumerMutex := none }
  | lockC : s.swapper = .lockC → s.comsumerMutex = none → Step maxTaskNum s (.run .swapper)
      { s with swapper := .testC, comsumerMutex := some .swapper }
  | sleepC : s.swapper = .testC → s.consumTask ≠ [] →
      Step maxTaskNum s (.run .swapper) { s with swapper := .sleepC }
  | passC : s.swapper = .testC → s.consumTask = [] →
      Step maxTaskNum s (.run .swapper) { s with swapper := .lockP }
  | waitC : s.swapper = .sleepC →
      Step maxTaskNum s (.run .swapper) { s with swapper := .waitC, comsumerMutex := none }
  | lockP : s.swapper = .lockP → s.productMutex = none → Step maxTaskNum s (.run .swapper)
      { s with swapper := .testP, productMutex := some .swapper }
  | sleepP : s.swapper = .testP → s.productTask = [] →
      Step maxTaskNum s (.run .swapper) { s with swapper := .sleepP }
  | passP : s.swapper = .testP → s.productTask ≠ [] →
      Step maxTaskNum s (.run .swapper) { s with swapper := .swap }
  | waitP : s.swapper = .sleepP →
      Step maxTaskNum s (.run .swapper) { s with swapper := .waitP, productMutex := none }
  | swap : s.swapper = .swap → Step maxTaskNum s (.run .swapper)
      { s with
        swapper := .broadcastC, productTask := s.consumTask, consumTask := s.productTask }
  | broadcastC : s.swapper = .broadcastC → Step maxTaskNum s (.run .swapper)
      { s with swapper := .broadcastP, consumer := fun j => (s.consumer j).wake }
  | broadcastP : s.swapper = .broadcastP → Step maxTaskNum s (.run .swapper)
      { s with swapper := .unlockP, producer := fun i => (s.producer i).wake }
  | unlockP : s.swapper = .unlockP →
      Step maxTaskNum s (.run .swapper) { s with swapper := .unlockC, productMutex := none }
  | unlockC : s.swapper = .unlockC →
      Step maxTaskNum s (.run .swapper) { s with swapper := .lockC, comsumerMutex := none }
  | wakePut (i : ι) : Step maxTaskNum s (.spurious (.producer i))
      (s.setProducer i (s.producer i).wake)
  | wakeTake (j : κ) : Step maxTaskNum s (.spurious (.consumer j))
      (s.setConsumer j (s.consumer j).wake)
  | wakeSwap : Step maxTaskNum s (.spurious .swapper) { s with swapper := s.swapper.wake }

variable {maxTaskNum : ℕ} {s t : St ι κ α} {a : Act ι κ α}

theorem putTask_cases {i : ι} (hs : putTask maxTaskNum s i = some t) :
    Step maxTaskNum s (.run (.producer i)) t := by
  unfold putTask at hs
  split at hs
  · cases hs
  · rename_i rest hpc
    split at hs
    · rename_i hm
      obtain rfl := Option.some.inj hs
      exact .lockPut hpc hm
    · cases hs
  · rename_i hpc
    obtain rfl := Option.some.inj hs
    exact .done hpc
  · rename_i x rest hpc
    split at hs
    · rename_i hfull
      obtain rfl := Option.some.inj hs
      exact .isFull hpc hfull
    · rename_i hroom
      obtain rfl := Option.some.inj hs
      exact .hasRoom hpc hroom
  · rename_i rest hpc
    obtain rfl := Option.some.inj hs
    exact .waitPut hpc
  · cases hs
  · rename_i x rest hpc
    obtain rfl := Option.some.inj hs
    exact .push hpc
  · rename_i hpc
    obtain rfl := Option.some.inj hs
    exact .unlockPut hpc

theorem takeTask_cases {j : κ} (hs : takeTask s j = some t) :
    Step maxTaskNum s (.run (.consumer j)) t := by
  unfold takeTask at hs
  split at hs
  · cases hs
  · rename_i hpc
    split at hs
    · rename_i hm
      obtain rfl := Option.some.inj hs
      exact .lockTake hpc hm
    · cases hs
  · rename_i hpc
    split at hs
    · rename_i hempty
      obtain rfl := Option.some.inj hs
      exact .isEmpty hpc (List.length_eq_zero_iff.mp hempty)
    · rename_i hne
      obtain rfl := Option.some.inj hs
      exact .hasTask hpc (fun h => hne (List.length_eq_zero_iff.mpr h))
  · rename_i hpc
    obtain rfl := Option.some.inj hs
    exact .waitTake hpc
  · cases hs
  · rename_i hpc
    split at hs
    · cases hs
    · rename_i x rest hx
      obtain rfl := Option.some.inj hs
      exact .pop hpc hx
  · rename_i hpc
    obtain rfl := Option.some.inj hs
    exact .unlockTake hpc

theorem swapTask_cases (hs : swapTask s = some t) : Step maxTaskNum s (.run .swapper) t := by
  unfold swapTask at hs
  split at hs
  case h_2 hpc =>
    obtain rfl := Option.some.inj hs
    by_cases hlen : s.consumTask.length = 0
    · rw [if_neg (not_not.mpr hlen)]
      exact .passC hpc (List.length_eq_zero_iff.mp hlen)
    · rw [if_pos hlen]
      exact .sleepC hpc fun h => hlen (List.length_eq_zero_iff.mpr h)
  case h_6 hpc =>
    obtain rfl := Option.some.inj hs
    by_cases hlen : s.productTask.length = 0
    · rw [if_pos hlen]
      exact .sleepP hpc (List.length_eq_zero_iff.mp hlen)
    · rw [if_neg hlen]
      exact .passP hpc fun h => hlen (List.length_eq_zero_iff.mpr h)
  case h_1 hpc =>
    split at hs
    · rename_i hm
      obtain rfl := Option.some.inj hs
      exact .lockC hpc hm
    · cases hs
  case h_5 hpc =>
    split at hs
    · rename_i hm
      obtain rfl := Option.some.inj hs
      exact .lockP hpc hm
    · cases hs
  case h_4 => cases hs
  case h_8 => cases hs
  all_goals
    rename_i hpc
    obtain rfl := Option.some.inj hs
    constructor
    exact hpc

/-- **A step does one of these.** -/
theorem step_cases (hs : step maxTaskNum s a = some t) : Step maxTaskNum s a t := by
  cases a with
  | put i newTask =>
    simp only [step] at hs
    split at hs
    · rename_i hpc
      obtain rfl := Option.some.inj hs
      exact .put newTask hpc
    · cases hs
  | take j =>
    simp only [step] at hs
    split at hs
    · rename_i hpc
      obtain rfl := Option.some.inj hs
      exact .take hpc
    · cases hs
  | run t =>
    cases t with
    | producer i => exact putTask_cases hs
    | consumer j => exact takeTask_cases hs
    | swapper => exact swapTask_cases hs
  | spurious t =>
    cases t with
    | producer i =>
      obtain rfl := Option.some.inj hs
      exact .wakePut i
    | consumer j =>
      obtain rfl := Option.some.inj hs
      exact .wakeTake j
    | swapper =>
      obtain rfl := Option.some.inj hs
      exact .wakeSwap

end Cases

end WebServer.Queue.Task
