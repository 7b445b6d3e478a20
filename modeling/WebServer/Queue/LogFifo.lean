import WebServer.Queue.LogFile

/-!
# The log file is the sequence of the submitted records

As for the task queue: each mutex is held by the one thread between its `lock` and its `unlock`
(`Locks`), the swap thread exchanges the queues when `WriteTask` is empty, and a step is a move of a
double buffer without a bound (`buffers_move`). Over every run the file is the texts of the records
written, in the order in which they were pushed, and the others are still queued (`file_records`).
-/

namespace WebServer.Queue.LogFile

open Lib

variable {ι : Type*}

/-! ## Who holds which mutex -/

/-- The caller is between `lock` and `unlock` of `put_Mutex`. -/
def ProducerPc.holds : ProducerPc → Bool
  | .push _ | .broadcast | .unlock => true
  | .outside | .lock _ => false

/-- The writer is between `lock` and `unlock` of `get_Mutex`. -/
def WriterPc.holds : WriterPc → Bool
  | .test | .empty | .drain | .unlock => true
  | .outside | .lock | .waiting => false

/-- The swap thread has `put_Mutex`. -/
def SwapPc.holdsP : SwapPc → Bool
  | .testP | .sleepP | .swap | .broadcast | .unlockG | .unlockP => true
  | .outside | .lockG | .testG | .sleepG | .waitG | .lockP | .waitP => false

/-- The swap thread has `get_Mutex`, which it keeps while it waits with `put_Mutex`. -/
def SwapPc.holdsG : SwapPc → Bool
  | .outside | .lockG | .waitG | .unlockP => false
  | .testG | .sleepG | .lockP | .testP | .sleepP | .waitP | .swap | .broadcast | .unlockG => true

@[simp] theorem WriterPc.holds_wake (pc : WriterPc) : pc.wake.holds = pc.holds := by
  cases pc <;> rfl

@[simp] theorem SwapPc.holdsP_wake (pc : SwapPc) : pc.wake.holdsP = pc.holdsP := by
  cases pc <;> rfl

@[simp] theorem SwapPc.holdsG_wake (pc : SwapPc) : pc.wake.holdsG = pc.holdsG := by
  cases pc <;> rfl

namespace St

variable (s : St ι)

/-- The thread has `put_Mutex`. -/
def HoldsP : Thread ι → Prop
  | .producer i => (s.producer i).holds
  | .writer => False
  | .swapper => s.swapper.holdsP

/-- The thread has `get_Mutex`. -/
def HoldsG : Thread ι → Prop
  | .producer _ => False
  | .writer => s.writer.holds
  | .swapper => s.swapper.holdsG

end St

/-- Both mutexes are held by the threads that are between their `lock` and `unlock`. -/
structure Locks (s : St ι) : Prop where
  put : Held s.putMutex s.HoldsP
  get : Held s.getMutex s.HoldsG

theorem locks_init : Locks (init : St ι) := by
  constructor <;> intro u <;> cases u <;>
    simp [init, St.HoldsP, St.HoldsG, ProducerPc.holds, WriterPc.holds, SwapPc.holdsP,
      SwapPc.holdsG]

section Holds

variable {s t : St ι}

theorem holdsP_iff (hp : ∀ i, (t.producer i).holds = (s.producer i).holds)
    (hw : t.swapper.holdsP = s.swapper.holdsP) (u : Thread ι) : t.HoldsP u ↔ s.HoldsP u := by
  cases u with
  | producer i => simp only [St.HoldsP, hp]
  | writer => rfl
  | swapper => simp only [St.HoldsP, hw]

theorem holdsG_iff (hr : t.writer.holds = s.writer.holds)
    (hw : t.swapper.holdsG = s.swapper.holdsG) (u : Thread ι) : t.HoldsG u ↔ s.HoldsG u := by
  cases u with
  | producer i => rfl
  | writer => simp only [St.HoldsG, hr]
  | swapper => simp only [St.HoldsG, hw]

theorem holdsP_iff_of_ne_swapper (hp : t.producer = s.producer) (u : Thread ι)
    (hu : u ≠ .swapper) : t.HoldsP u ↔ s.HoldsP u := by
  cases u with
  | producer i => simp only [St.HoldsP, hp]
  | writer => rfl
  | swapper => exact absurd rfl hu

theorem holdsG_iff_of_ne_swapper (hr : t.writer = s.writer) (u : Thread ι)
    (hu : u ≠ .swapper) : t.HoldsG u ↔ s.HoldsG u := by
  cases u with
  | producer i => rfl
  | writer => simp only [St.HoldsG, hr]
  | swapper => exact absurd rfl hu

theorem holdsG_iff_of_ne_writer (hw : t.swapper = s.swapper) (u : Thread ι)
    (hu : u ≠ .writer) : t.HoldsG u ↔ s.HoldsG u := by
  cases u with
  | producer i => rfl
  | writer => exact absurd rfl hu
  | swapper => simp only [St.HoldsG, hw]

theorem holdsP_iff_of_ne_producer [DecidableEq ι] {i : ι} {pc : ProducerPc}
    (hp : t.producer = Function.update s.producer i pc) (hw : t.swapper = s.swapper)
    (u : Thread ι) (hu : u ≠ .producer i) : t.HoldsP u ↔ s.HoldsP u := by
  cases u with
  | producer i' =>
    have hi : i' ≠ i := fun h => hu (h ▸ rfl)
    simp only [St.HoldsP, hp, Function.update_of_ne hi]
  | writer => rfl
  | swapper => simp only [St.HoldsP, hw]

end Holds

variable [DecidableEq ι] {s t : St ι} {a : Act ι}

theorem putMutex_step (h : Held s.putMutex s.HoldsP) (hs : Step s a t) :
    Held t.putMutex t.HoldsP := by
  cases hs
  case lockPut i buff hpc hm =>
    refine h.acquire hm ?_ (holdsP_iff_of_ne_producer rfl rfl)
    simp [St.HoldsP, ProducerPc.holds]
  case unlockPut i hpc =>
    refine h.release (t := .producer i) ?_ ?_ (holdsP_iff_of_ne_producer rfl rfl)
    · simp [St.HoldsP, hpc, ProducerPc.holds]
    · simp [St.HoldsP, ProducerPc.holds]
  case lockP hpc hm =>
    exact h.acquire hm rfl (holdsP_iff_of_ne_swapper rfl)
  case waitP hpc =>
    refine h.release (t := .swapper) ?_ nofun (holdsP_iff_of_ne_swapper rfl)
    simp [St.HoldsP, hpc, SwapPc.holdsP]
  case unlockP hpc =>
    refine h.release (t := .swapper) ?_ nofun (holdsP_iff_of_ne_swapper rfl)
    simp [St.HoldsP, hpc, SwapPc.holdsP]
  -- a caller that stays inside, or outside, of its critical section
  case put | push | broadcastPut =>
    refine h.keep (holdsP_iff (apply_update_eq ?_) ?_)
    · simp [*, ProducerPc.holds]
    · simp
  case isEmpty | wakeSwap => exact h.keep (holdsP_iff (fun _ => rfl) (SwapPc.holdsP_wake _))
  all_goals
    refine h.keep (holdsP_iff (fun _ => rfl) ?_)
    simp [*, SwapPc.holdsP]

theorem getMutex_step (h : Held s.getMutex s.HoldsG) (hs : Step s a t) :
    Held t.getMutex t.HoldsG := by
  cases hs
  case lockWrite hpc hm =>
    exact h.acquire hm rfl (holdsG_iff_of_ne_writer rfl)
  case waitWrite hpc =>
    refine h.release (t := .writer) ?_ nofun (holdsG_iff_of_ne_writer rfl)
    simp [St.HoldsG, hpc, WriterPc.holds]
  case unlockWrite hpc =>
    refine h.release (t := .writer) ?_ nofun (holdsG_iff_of_ne_writer rfl)
    simp [St.HoldsG, hpc, WriterPc.holds]
  case lockG hpc hm =>
    exact h.acquire hm rfl (holdsG_iff_of_ne_swapper rfl)
  case waitG hpc =>
    refine h.release (t := .swapper) ?_ nofun (holdsG_iff_of_ne_swapper rfl)
    simp [St.HoldsG, hpc, SwapPc.holdsG]
  case unlockG hpc =>
    refine h.release (t := .swapper) ?_ nofun (holdsG_iff_of_ne_swapper rfl)
    simp [St.HoldsG, hpc, SwapPc.holdsG]
  -- the writer stays inside, or outside, of its critical section
  case startWrite hpc _ | hasRecord hpc _ | drained hpc _ =>
    exact h.keep (holdsG_iff (by rw [hpc]; rfl) rfl)
  case isEmpty hpc _ => exact h.keep (holdsG_iff (by rw [hpc]; rfl) (SwapPc.holdsG_wake _))
  case wakeWriter => exact h.keep (holdsG_iff (WriterPc.holds_wake _) rfl)
  case wakeSwap => exact h.keep (holdsG_iff rfl (SwapPc.holdsG_wake _))
  case broadcastPut => exact h.keep (holdsG_iff rfl (SwapPc.holdsG_wake _))
  case broadcastSwap hpc => exact h.keep (holdsG_iff (WriterPc.holds_wake _) (by rw [hpc]; rfl))
  all_goals
    refine h.keep (holdsG_iff rfl ?_)
    simp [*, SwapPc.holdsG]

theorem locks_step (h : Locks s) (hs : Step s a t) : Locks t :=
  ⟨putMutex_step h.put hs, getMutex_step h.get hs⟩

omit [DecidableEq ι] in
/-- The writer that has `get_Mutex` keeps the swap thread out. -/
theorem Locks.not_holdsG (hl : Locks s) (hr : s.writer.holds) : s.swapper.holdsG = false := by
  cases hw : s.swapper.holdsG with
  | false => rfl
  | true =>
    have hG : s.HoldsG .writer := hr
    have heq := hl.get.unique hG (show s.HoldsG .swapper from hw)
    cases heq

omit [DecidableEq ι] in
/-- A caller that has `put_Mutex` keeps the swap thread out. -/
theorem Locks.not_holdsP (hl : Locks s) {i : ι} (hi : (s.producer i).holds) :
    s.swapper.holdsP = false := by
  cases hw : s.swapper.holdsP with
  | false => rfl
  | true =>
    have hP : s.HoldsP (.producer i) := hi
    have heq := hl.put.unique hP (show s.HoldsP .swapper from hw)
    cases heq

/-! ## Every step is a move of the double buffer -/

/-- The swap thread has found `WriteTask` empty and has not yet exchanged the queues. -/
def SwapPc.passedG : SwapPc → Bool
  | .lockP | .testP | .sleepP | .waitP | .swap => true
  | .outside | .lockG | .testG | .sleepG | .waitG | .broadcast | .unlockG | .unlockP => false

@[simp] theorem SwapPc.passedG_wake (pc : SwapPc) : pc.wake.passedG = pc.passedG := by
  cases pc <;> rfl

theorem SwapPc.holdsG_of_passedG {pc : SwapPc} (h : pc.passedG) : pc.holdsG := by
  cases pc <;> first | rfl | cases h

theorem passedG_step (hl : Locks s) (h : s.swapper.passedG → s.writeTask = []) (hs : Step s a t)
    (hw : t.swapper.passedG) : t.writeTask = [] := by
  cases hs
  case pop buff rest hpc hx =>
    have hG := hl.not_holdsG (by rw [hpc]; rfl)
    exact absurd (SwapPc.holdsG_of_passedG hw) (Bool.eq_false_iff.mp hG)
  case passG hpc hempty => exact hempty
  case lockP hpc _ | sleepP hpc _ | passP hpc _ => exact h (by rw [hpc]; rfl)
  case waitP hpc => exact h (by rw [hpc]; rfl)
  case broadcastPut | isEmpty | wakeSwap => exact h (by simpa using hw)
  all_goals first | exact h hw | cases hw

/-- The two queues, with what was submitted and what was written. -/
def buffers (s : St ι) : Buffers Record := ⟨s.submitted, s.written, s.writeTask, s.waitWriteTask⟩

theorem buffers_move (h : s.swapper.passedG → s.writeTask = []) (hs : Step s a t) :
    (buffers s).Move none (buffers t) := by
  cases hs
  case push i buff hpc => exact .push buff nofun
  case pop buff rest hpc hx => exact .pop hx
  case swap hpc =>
    have hempty : s.writeTask = [] := h (by rw [hpc]; rfl)
    have hmove : (buffers s).Move none _ := .swap hempty
    simpa [buffers, hempty] using hmove
  all_goals exact .stay

/-- The texts of the records, one after another. -/
def texts (l : List Record) : Http.Bytes := l.flatMap Record.text

theorem file_step (h : s.file = texts s.written) (hs : Step s a t) : t.file = texts t.written := by
  cases hs
  case pop buff rest hpc hx =>
    show s.file ++ buff.text = texts (s.written ++ [buff])
    rw [h, texts, texts, List.flatMap_append, List.flatMap_singleton]
  all_goals exact h

/-- The invariant of the log file. -/
structure Inv (s : St ι) : Prop where
  locks : Locks s
  passedG : s.swapper.passedG → s.writeTask = []
  fifo : (buffers s).Fifo
  file : s.file = texts s.written

omit [DecidableEq ι] in
theorem inv_init : Inv (init : St ι) := ⟨locks_init, nofun, rfl, rfl⟩

theorem inv_step (h : Inv s) (hs : step s a = some t) : Inv t := by
  have hstep := step_cases hs
  exact ⟨locks_step h.locks hstep, passedG_step h.locks h.passedG hstep,
    (buffers_move h.passedG hstep).fifo h.fifo, file_step h.file hstep⟩

theorem inv_exec {l : List (Act ι)} (h : Exec step Always init l s) : Inv s :=
  h.invariant inv_init fun _ _ _ hu _ hs => inv_step hu hs

/-- **The log file is the sequence of the submitted records.** In every run, with spurious wake-ups
at any time, the submitted records are those whose texts make up the file, in their order, and then
those in `WriteTask` and those in `Wait_WriteTask`. -/
theorem file_records (s : St ι) (l : List (Act ι)) (h : Exec step Always init l s) :
    ∃ done : List Record, done <+: s.submitted ∧ s.file = (done.map Record.text).flatten ∧
      done ++ (s.writeTask ++ s.waitWriteTask) = s.submitted := by
  have hinv := inv_exec h
  refine ⟨s.written, hinv.fifo.popped_isPrefix, ?_, hinv.fifo⟩
  rw [hinv.file, texts, List.flatMap_def]

/-- Two callers; the swap thread exchanges the queues between their two pushes, and the writer has
written the first record, up to its terminating zero. -/
def raceRun : List (Act Bool) :=
  [.put true ⟨[104, 105, 0, 7], by decide⟩, .put false ⟨[111, 0], by decide⟩, .startSwap] ++
    List.replicate 4 (.run (.producer true)) ++ List.replicate 8 (.run .swapper) ++
    List.replicate 2 (.run (.producer false)) ++ [.startWrite] ++ List.replicate 3 (.run .writer)

theorem file_records_race :
    ∃ s : St Bool, Exec step Always init raceRun s ∧ s.file = [104, 105] ∧
      s.waitWriteTask = [⟨[111, 0], by decide⟩] ∧
      ∃ done : List Record, done <+: s.submitted ∧ s.file = (done.map Record.text).flatten ∧
        done ++ (s.writeTask ++ s.waitWriteTask) = s.submitted := by
  have hrun : ∃ s : St Bool, runIf step Always init raceRun = some s ∧ s.file = [104, 105] ∧
      s.waitWriteTask = [⟨[111, 0], by decide⟩] := ⟨_, rfl, rfl, rfl⟩
  obtain ⟨s, hs, hfile, hwait⟩ := hrun
  have hexec := exec_of_runIf hs
  exact ⟨s, hexec, hfile, hwait, file_records s raceRun hexec⟩

end WebServer.Queue.LogFile
