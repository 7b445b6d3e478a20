import Mathlib.Tactic.Simps.Basic
import WebServer.Http.Response
import WebServer.Lib.Buffers
import WebServer.Lib.Exec
import WebServer.Lib.Mutex
import WebServer.Lib.Update

/-!
# The log file

`LogFile` takes records from any number of threads (`put_write_string`), which push them onto
`Wait_WriteTask` under `put_Mutex`. The thread of `write_file` drains `WriteTask` into the file
under `get_Mutex`, and the thread of `swap` exchanges the two queues when the one is empty and the
other is not; it releases the mutexes in the order in which it took them.

The threads and their waits are as in the task queue. Only the swap thread waits on `Swap_Cond`, and
only the writer on `get_Cond`.
-/

namespace WebServer.Queue.LogFile

open Http (Bytes cStr)
open Lib

/-- A record: the array behind the pointer, which has the terminating zero. -/
structure Record where
  buff : Bytes
  terminated : 0 ∈ buff
  deriving DecidableEq

/-- The bytes `write` appends for a record: the first `strlen` ones. -/
def Record.text (r : Record) : Bytes := cStr r.buff

/-- Places of `put_write_string`. -/
inductive ProducerPc
  | outside
  | lock (buff : Record)
  | push (buff : Record)
  | broadcast
  | unlock
  deriving DecidableEq

/-- Places of `write_file`. -/
inductive WriterPc
  /-- The thread has not been created. -/
  | outside
  | lock
  | test
  /-- The queue was empty and `Swap_Cond` signalled: before the wait. -/
  | empty
  | waiting
  /-- At the test of the second loop. -/
  | drain
  | unlock
  deriving DecidableEq

/-- Places of `swap`. -/
inductive SwapPc
  /-- The thread has not been created. -/
  | outside
  | lockG
  | testG
  /-- `WriteTask` was not empty: before the wait with `get_Mutex`. -/
  | sleepG
  | waitG
  | lockP
  | testP
  /-- `Wait_WriteTask` was empty: before the wait with `put_Mutex`. -/
  | sleepP
  | waitP
  | swap
  | broadcast
  | unlockG
  | unlockP
  deriving DecidableEq

/-- The threads. -/
inductive Thread (ι : Type*)
  | producer (i : ι)
  | writer
  | swapper
  deriving DecidableEq

/-- A `LogFile`, with the places of its threads, the bytes appended to the file, and the records of
what was submitted and written. -/
structure St (ι : Type*) where
  writeTask : List Record
  waitWriteTask : List Record
  putMutex : Option (Thread ι)
  getMutex : Option (Thread ι)
  producer : ι → ProducerPc
  writer : WriterPc
  swapper : SwapPc
  file : Bytes
  submitted : List Record
  written : List Record

variable {ι : Type*}

/-- A new `LogFile`. -/
def init : St ι := ⟨[], [], none, none, fun _ => .outside, .outside, .outside, [], [], []⟩

/-- The steps. -/
inductive Act (ι : Type*)
  /-- `Start_Log` creates the swap thread. -/
  | startSwap
  /-- `Start_Log` creates the writer. -/
  | startWrite
  /-- `put_write_string` is called. -/
  | put (i : ι) (buff : Record)
  /-- The next step of a thread. -/
  | run (t : Thread ι)
  /-- A spurious wake-up of the writer. -/
  | spuriousWriter
  /-- A spurious wake-up of the swap thread. -/
  | spuriousSwap

/-- The thread that waits on `Swap_Cond` is woken. -/
def SwapPc.wake : SwapPc → SwapPc
  | .waitG => .lockG
  | .waitP => .lockP
  | pc => pc

/-- The thread that waits on `get_Cond` is woken. -/
def WriterPc.wake : WriterPc → WriterPc
  | .waiting => .lock
  | pc => pc

section Step

variable [DecidableEq ι] (s : St ι)

@[simps]
def St.setProducer (i : ι) (pc : ProducerPc) : St ι :=
  { s with producer := Function.update s.producer i pc }

/-- The next step of the caller `i` of `put_write_string`. -/
def putWriteString (i : ι) : Option (St ι) :=
  match s.producer i with
  | .outside => none
  | .lock buff =>
    if s.putMutex = none then
      some { s.setProducer i (.push buff) with putMutex := some (.producer i) }
    else none
  | .push buff =>
    some { s.setProducer i .broadcast with
      waitWriteTask := s.waitWriteTask ++ [buff], submitted := s.submitted ++ [buff] }
  | .broadcast => some { s.setProducer i .unlock with swapper := s.swapper.wake }
  | .unlock => some { s.setProducer i .outside with putMutex := none }

/-- The next step of the writer; popping a record and writing it is one step. -/
def writeFile : Option (St ι) :=
  match s.writer with
  | .outside => none
  | .lock =>
    if s.getMutex = none then some { s with writer := .test, getMutex := some .writer } else none
  | .test =>
    if s.writeTask.length = 0 then some { s with writer := .empty, swapper := s.swapper.wake }
    else some { s with writer := .drain }
  | .empty => some { s with writer := .waiting, getMutex := none }
  | .waiting => none
  | .drain =>
    match s.writeTask with
    | [] => some { s with writer := .unlock }
    | buff :: rest =>
      some { s with
        writeTask := rest, file := s.file ++ buff.text, written := s.written ++ [buff] }
  | .unlock => some { s with writer := .lock, getMutex := none }

/-- The next step of the swap thread. -/
def swap : Option (St ι) :=
  match s.swapper with
  | .outside => none
  | .lockG =>
    if s.getMutex = none then some { s with swapper := .testG, getMutex := some .swapper } else none
  | .testG =>
    if s.writeTask.length ≠ 0 then some { s with swapper := .sleepG }
    else some { s with swapper := .lockP }
  | .sleepG => some { s with swapper := .waitG, getMutex := none }
  | .waitG => none
  | .lockP =>
    if s.putMutex = none then some { s with swapper := .testP, putMutex := some .swapper } else none
  | .testP =>
    if s.waitWriteTask.length = 0 then some { s with swapper := .sleepP }
    else some { s with swapper := .swap }
  | .sleepP => some { s with swapper := .waitP, putMutex := none }
  | .waitP => none
  | .swap =>
    some { s with
      swapper := .broadcast, writeTask := s.waitWriteTask, waitWriteTask := s.writeTask }
  | .broadcast => some { s with swapper := .unlockG, writer := s.writer.wake }
  | .unlockG => some { s with swapper := .unlockP, getMutex := none }
  | .unlockP => some { s with swapper := .lockG, putMutex := none }

/-- The next step of a thread; it has none outside the three functions, while it waits, and while
another thread has the mutex it is at. -/
def run : Thread ι → Option (St ι)
  | .producer i => putWriteString s i
  | .writer => writeFile s
  | .swapper => swap s

/-- A step. `Start_Log` creates the swap thread before the writer. -/
def step : Act ι → Option (St ι)
  | .startSwap => if s.swapper = .outside then some { s with swapper := .lockG } else none
  | .startWrite =>
    if s.writer = .outside ∧ s.swapper ≠ .outside then some { s with writer := .lock } else none
  | .put i buff =>
    if s.producer i = .outside then some (s.setProducer i (.lock buff)) else none
  | .run t => run s t
  | .spuriousWriter => some { s with writer := s.writer.wake }
  | .spuriousSwap => some { s with swapper := s.swapper.wake }

end Step

/-! ## What a step can do -/

section Cases

variable [DecidableEq ι]

/-- What a step can do, one constructor for each way through the code. -/
inductive Step (s : St ι) : Act ι → St ι → Prop
  | startSwap : s.swapper = .outside → Step s .startSwap { s with swapper := .lockG }
  | startWrite : s.writer = .outside → s.swapper ≠ .outside →
      Step s .startWrite { s with writer := .lock }
  | put {i : ι} (buff : Record) : s.producer i = .outside →
      Step s (.put i buff) (s.setProducer i (.lock buff))
  | lockPut {i : ι} {buff : Record} : s.producer i = .lock buff → s.putMutex = none →
      Step s (.run (.producer i))
        { s.setProducer i (.push buff) with putMutex := some (.producer i) }
  | push {i : ι} {buff : Record} : s.producer i = .push buff → Step s (.run (.producer i))
      { s.setProducer i .broadcast with
        waitWriteTask := s.waitWriteTask ++ [buff], submitted := s.submitted ++ [buff] }
  | broadcastPut {i : ι} : s.producer i = .broadcast → Step s (.run (.producer i))
      { s.setProducer i .unlock with swapper := s.swapper.wake }
  | unlockPut {i : ι} : s.producer i = .unlock → Step s (.run (.producer i))
      { s.setProducer i .outside with putMutex := none }
  | lockWrite : s.writer = .lock → s.getMutex = none →
      Step s (.run .writer) { s with writer := .test, getMutex := some .writer }
  | isEmpty : s.writer = .test → s.writeTask = [] →
      Step s (.run .writer) { s with writer := .empty, swapper := s.swapper.wake }
  | hasRecord : s.writer = .test → s.writeTask ≠ [] →
      Step s (.run .writer) { s with writer := .drain }
  | waitWrite : s.writer = .empty →
      Step s (.run .writer) { s with writer := .waiting, getMutex := none }
  | pop {buff : Record} {rest : List Record} : s.writer = .drain → s.writeTask = buff :: rest →
      Step s (.run .writer) { s with
        writeTask := rest, file := s.file ++ buff.text, written := s.written ++ [buff] }
  | drained : s.writer = .drain → s.writeTask = [] →
      Step s (.run .writer) { s with writer := .unlock }
  | unlockWrite : s.writer = .unlock →
      Step s (.run .writer) { s with writer := .lock, getMutex := none }
  | lockG : s.swapper = .lockG → s.getMutex = none →
      Step s (.run .swapper) { s with swapper := .testG, getMutex := some .swapper }
  | sleepG : s.swapper = .testG → s.writeTask ≠ [] →
      Step s (.run .swapper) { s with swapper := .sleepG }
  | passG : s.swapper = .testG → s.writeTask = [] →
      Step s (.run .swapper) { s with swapper := .lockP }
  | waitG : s.swapper = .sleepG →
      Step s (.run .swapper) { s with swapper := .waitG, getMutex := none }
  | lockP : s.swapper = .lockP → s.putMutex = none →
      Step s (.run .swapper) { s with swapper := .testP, putMutex := some .swapper }
  | sleepP : s.swapper = .testP → s.waitWriteTask = [] →
      Step s (.run .swapper) { s with swapper := .sleepP }
  | passP : s.swapper = .testP → s.waitWriteTask ≠ [] →
      Step s (.run .swapper) { s with swapper := .swap }
  | waitP : s.swapper = .sleepP →
      Step s (.run .swapper) { s with swapper := .waitP, putMutex := none }
  | swap : s.swapper = .swap → Step s (.run .swapper)
      { s with
        swapper := .broadcast, writeTask := s.waitWriteTask, waitWriteTask := s.writeTask }
  | broadcastSwap : s.swapper = .broadcast →
      Step s (.run .swapper) { s with swapper := .unlockG, writer := s.writer.wake }
  | unlockG : s.swapper = .unlockG →
      Step s (.run .swapper) { s with swapper := .unlockP, getMutex := none }
  | unlockP : s.swapper = .unlockP →
      Step s (.run .swapper) { s with swapper := .lockG, putMutex := none }
  | wakeWriter : Step s .spuriousWriter { s with writer := s.writer.wake }
  | wakeSwap : Step s .spuriousSwap { s with swapper := s.swapper.wake }

variable {s t : St ι} {a : Act ι}

theorem putWriteString_cases {i : ι} (hs : putWriteString s i = some t) :
    Step s (.run (.producer i)) t := by
  unfold putWriteString at hs
  split at hs
  · cases hs
  · rename_i buff hpc
    split at hs
    · rename_i hm
      obtain rfl := Option.some.inj hs
      exact .lockPut hpc hm
    · cases hs
  · rename_i buff hpc
    obtain rfl := Option.some.inj hs
    exact .push hpc
  · rename_i hpc
    obtain rfl := Option.some.inj hs
    exact .broadcastPut hpc
  · rename_i hpc
    obtain rfl := Option.some.inj hs
    exact .unlockPut hpc

theorem writeFile_cases (hs : writeFile s = some t) : Step s (.run .writer) t := by
  unfold writeFile at hs
  split at hs
  · cases hs
  · rename_i hpc
    split at hs
    · rename_i hm
      obtain rfl := Option.some.inj hs
      exact .lockWrite hpc hm
    · cases hs
  · rename_i hpc
    split at hs
    · rename_i hlen
      obtain rfl := Option.some.inj hs
      exact .isEmpty hpc (List.length_eq_zero_iff.mp hlen)
    · rename_i hlen
      obtain rfl := Option.some.inj hs
      exact .hasRecord hpc fun h => hlen (List.length_eq_zero_iff.mpr h)
  · rename_i hpc
    obtain rfl := Option.some.inj hs
    exact .waitWrite hpc
  · cases hs
  · rename_i hpc
    split at hs
    · rename_i hempty
      obtain rfl := Option.some.inj hs
      exact .drained hpc hempty
    · rename_i buff rest hx
      obtain rfl := Option.some.inj hs
      exact .pop hpc hx
  · rename_i hpc
    obtain rfl := Option.some.inj hs
    exact .unlockWrite hpc

theorem swap_cases (hs : swap s = some t) : Step s (.run .swapper) t := by
  unfold swap at hs
  split at hs
  case h_1 => cases hs
  case h_2 hpc =>
    split at hs
    · rename_i hm
      obtain rfl := Option.some.inj hs
      exact .lockG hpc hm
    · cases hs
  case h_3 hpc =>
    split at hs
    · rename_i hlen
      obtain rfl := Option.some.inj hs
      exact .sleepG hpc fun h => hlen (List.length_eq_zero_iff.mpr h)
    · rename_i hlen
      obtain rfl := Option.some.inj hs
      exact .passG hpc (List.length_eq_zero_iff.mp (not_not.mp hlen))
  case h_5 => cases hs
  case h_6 hpc =>
    split at hs
    · rename_i hm
      obtain rfl := Option.some.inj hs
      exact .lockP hpc hm
    · cases hs
  case h_7 hpc =>
    split at hs
    · rename_i hlen
      obtain rfl := Option.some.inj hs
      exact .sleepP hpc (List.length_eq_zero_iff.mp hlen)
    · rename_i hlen
      obtain rfl := Option.some.inj hs
      exact .passP hpc fun h => hlen (List.length_eq_zero_iff.mpr h)
  case h_9 => cases hs
  all_goals
    rename_i hpc
    obtain rfl := Option.some.inj hs
    constructor
    exact hpc

/-- **A step does one of these.** -/
theorem step_cases (hs : step s a = some t) : Step s a t := by
  cases a with
  | startSwap =>
    simp only [step] at hs
    split at hs
    · rename_i hpc
      obtain rfl := Option.some.inj hs
      exact .startSwap hpc
    · cases hs
  | startWrite =>
    simp only [step] at hs
    split at hs
    · rename_i hpc
      obtain rfl := Option.some.inj hs
      exact .startWrite hpc.1 hpc.2
    · cases hs
  | put i buff =>
    simp only [step] at hs
    split at hs
    · rename_i hpc
      obtain rfl := Option.some.inj hs
      exact .put buff hpc
    · cases hs
  | run t =>
    cases t with
    | producer i => exact putWriteString_cases hs
    | writer => exact writeFile_cases hs
    | swapper => exact swap_cases hs
  | spuriousWriter =>
    obtain rfl := Option.some.inj hs
    exact .wakeWriter
  | spuriousSwap =>
    obtain rfl := Option.some.inj hs
    exact .wakeSwap

end Cases

end WebServer.Queue.LogFile
