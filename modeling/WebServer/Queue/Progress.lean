import WebServer.Queue.LogFifo
import WebServer.Queue.TaskFifo

/-!
# No lost wake-ups

A signal wakes only a thread that already waits. `Wakeful` says why none is lost: the consumers that
wait do so because `consum_task` is empty, or are about to be woken; when the swap thread waits for
the consumers, none of them waits for it; and when it waits for the producers although something was
pushed, the producer that pushed it still has `Product_Mutex` and has not yet signalled.

So with work queued and a consumer inside, some thread has a next step (`never_stuck`), in the task
queue and in the log file.
-/

namespace WebServer.Queue

open Lib

namespace Task

variable {ι κ α : Type*}

/-- The producer has `Product_Mutex` and will signal `Swap_Cond` before it releases it. -/
def ProducerPc.signals : ProducerPc α → Bool
  | .test _ | .push _ _ => true
  | .outside | .lock _ | .full _ | .waiting _ | .unlock => false

/-- Nobody waits for a signal that was already sent. -/
structure Wakeful (s : St ι κ α) : Prop where
  empty {j : κ} : s.consumer j = .empty → s.consumTask = []
  waiting {j : κ} : s.consumer j = .waiting → s.consumTask = [] ∨ s.swapper = .broadcastC
  sleepC : s.swapper = .sleepC → s.consumTask ≠ []
  waitC : s.swapper = .waitC → ∀ j, s.consumer j ≠ .empty ∧ s.consumer j ≠ .waiting
  sleepP : s.swapper = .sleepP → s.productTask = []
  waitP : s.swapper = .waitP → s.productTask = [] ∨ ∃ i, (s.producer i).signals

theorem wakeful_init : Wakeful (init : St ι κ α) where
  empty h := nomatch h
  waiting h := nomatch h
  sleepC h := nomatch h
  waitC h := nomatch h
  sleepP h := nomatch h
  waitP h := nomatch h

/-! ### Places a signal does not lead to -/

theorem SwapPc.eq_of_wake {pc p : SwapPc} (hC : p ≠ .lockC) (hP : p ≠ .lockP) (h : pc.wake = p) :
    pc = p := by
  cases pc with
  | waitC => exact absurd h.symm hC
  | waitP => exact absurd h.symm hP
  | lockC | testC | sleepC | lockP | testP | sleepP | swap | broadcastC | broadcastP | unlockP
  | unlockC => exact h

theorem SwapPc.wake_ne_waitC (pc : SwapPc) : pc.wake ≠ .waitC := by
  cases pc <;> nofun

theorem SwapPc.wake_ne_waitP (pc : SwapPc) : pc.wake ≠ .waitP := by
  cases pc <;> nofun

theorem ConsumerPc.eq_empty_of_wake {pc : ConsumerPc} (h : pc.wake = .empty) : pc = .empty := by
  cases pc with
  | waiting => cases h
  | outside | lock | test | empty | take | unlock => exact h

theorem ConsumerPc.wake_ne_waiting (pc : ConsumerPc) : pc.wake ≠ .waiting := by
  cases pc <;> nofun

theorem ProducerPc.signals_wake (pc : ProducerPc α) : pc.wake.signals = pc.signals := by
  cases pc <;> rfl

/-! ### Steps -/

variable [DecidableEq ι] [DecidableEq κ] {n : ℕ} {s t : St ι κ α} {a : Act ι κ α}

theorem empty_step (hl : Locks s) (h : Wakeful s) (hs : Step n s a t) {j : κ}
    (hj : t.consumer j = .empty) : t.consumTask = [] := by
  cases hs
  case isEmpty j' hpc hempty => exact hempty
  case swap hpc =>
    have hj' : s.consumer j = .empty := hj
    have hC := hl.not_holdsC (j := j) (by rw [hj']; rfl)
    rw [hpc] at hC
    cases hC
  case pop j' x rest hpc hx =>
    have hj' : s.consumer j = .empty := eq_of_update_eq hj nofun
    have hnil := h.empty hj'
    rw [hx] at hnil
    cases hnil
  case take | lockTake | hasTask | waitTake | unlockTake =>
    exact h.empty (eq_of_update_eq hj nofun)
  case wakeTake j' => exact h.empty (eq_of_update_apply_eq hj ConsumerPc.eq_empty_of_wake)
  case broadcastC => exact h.empty (ConsumerPc.eq_empty_of_wake hj)
  all_goals exact h.empty hj

theorem waiting_step (hl : Locks s) (h : Wakeful s) (hs : Step n s a t) {j : κ}
    (hj : t.consumer j = .waiting) : t.consumTask = [] ∨ t.swapper = .broadcastC := by
  cases hs
  case pop j' x rest hpc hx =>
    have hj' : s.consumer j = .waiting := eq_of_update_eq hj nofun
    rcases h.waiting hj' with hnil | hw
    · rw [hx] at hnil
      cases hnil
    · have hC := hl.not_holdsC (j := j') (by rw [hpc]; rfl)
      rw [hw] at hC
      cases hC
  case waitTake j' hpc => exact .inl (h.empty hpc)
  case swap hpc => exact .inr rfl
  case broadcastC => exact absurd hj (ConsumerPc.wake_ne_waiting _)
  case wakeTake j' => exact h.waiting (eq_of_update_eq hj (ConsumerPc.wake_ne_waiting _))
  case take | lockTake | hasTask | unlockTake => exact h.waiting (eq_of_update_eq hj nofun)
  case isEmpty j' hpc hempty => exact .inl hempty
  -- the swap thread does not leave `broadcastC` before it has woken the consumers
  case done | isFull | wakeSwap =>
    refine (h.waiting hj).imp_right fun hw => ?_
    rw [hw]
    rfl
  all_goals
    refine (h.waiting hj).imp_right fun hw => ?_
    first | exact hw | simp_all

theorem sleepC_step (hl : Locks s) (h : Wakeful s) (hs : Step n s a t) (hw : t.swapper = .sleepC) :
    t.consumTask ≠ [] := by
  cases hs
  case sleepC hpc hne => exact hne
  case pop j x rest hpc hx =>
    have hC := hl.not_holdsC (j := j) (by rw [hpc]; rfl)
    have hw' : s.swapper = .sleepC := hw
    rw [hw'] at hC
    cases hC
  case done | isFull | isEmpty | wakeSwap =>
    exact h.sleepC (SwapPc.eq_of_wake nofun nofun hw)
  all_goals first | exact h.sleepC hw | cases hw

theorem sleepP_step (hl : Locks s) (h : Wakeful s) (hs : Step n s a t) (hw : t.swapper = .sleepP) :
    t.productTask = [] := by
  cases hs
  case sleepP hpc hempty => exact hempty
  case push i x rest hpc =>
    have hP := hl.not_holdsP (i := i) (by rw [hpc]; rfl)
    have hw' : s.swapper = .sleepP := hw
    rw [hw'] at hP
    cases hP
  case done | isFull | isEmpty | wakeSwap =>
    exact h.sleepP (SwapPc.eq_of_wake nofun nofun hw)
  all_goals first | exact h.sleepP hw | cases hw

theorem waitC_step (h : Wakeful s) (hs : Step n s a t) (hw : t.swapper = .waitC) (j : κ) :
    t.consumer j ≠ .empty ∧ t.consumer j ≠ .waiting := by
  cases hs
  case waitC hpc =>
    -- the queue is not empty, so no consumer waits; none is about to
    have hne := h.sleepC hpc
    refine ⟨fun hj => hne (h.empty hj), fun hj => ?_⟩
    rcases h.waiting hj with hnil | hb
    · exact hne hnil
    · rw [hpc] at hb
      cases hb
  case done | isFull | isEmpty | wakeSwap => exact absurd hw (SwapPc.wake_ne_waitC _)
  case take | lockTake | hasTask | pop | unlockTake =>
    exact ⟨fun hj => (h.waitC hw j).1 (eq_of_update_eq hj nofun),
      fun hj => (h.waitC hw j).2 (eq_of_update_eq hj nofun)⟩
  case waitTake j' hpc => exact absurd hpc (h.waitC hw j').1
  case wakeTake j' =>
    exact ⟨fun hj => (h.waitC hw j).1 (eq_of_update_apply_eq hj ConsumerPc.eq_empty_of_wake),
      fun hj => (h.waitC hw j).2 (eq_of_update_eq hj (ConsumerPc.wake_ne_waiting _))⟩
  all_goals first | exact h.waitC hw j | cases hw

theorem waitP_step (h : Wakeful s) (hs : Step n s a t) (hw : t.swapper = .waitP) :
    t.productTask = [] ∨ ∃ i, (t.producer i).signals := by
  cases hs
  case waitP hpc => exact .inl (h.sleepP hpc)
  case push i x rest hpc => exact .inr ⟨i, by simp [ProducerPc.signals]⟩
  case done | isFull | isEmpty | wakeSwap => exact absurd hw (SwapPc.wake_ne_waitP _)
  case wakePut i =>
    refine (h.waitP hw).imp_right fun ⟨i', hi'⟩ => ⟨i', ?_⟩
    rw [St.setProducer_producer, apply_update_eq (ProducerPc.signals_wake _)]
    exact hi'
  case put | lockPut | hasRoom | waitPut | unlockPut =>
    -- the producer that signals is another one, or comes nearer to its signal
    refine (h.waitP hw).imp_right fun ⟨i', hi'⟩ => ⟨i', ?_⟩
    simp only [St.setProducer_producer, Function.update_apply]
    split
    · simp_all [ProducerPc.signals]
    · exact hi'
  all_goals first | exact h.waitP hw | cases hw

theorem wakeful_step (hl : Locks s) (h : Wakeful s) (hs : Step n s a t) : Wakeful t where
  empty := empty_step hl h hs
  waiting := waiting_step hl h hs
  sleepC := sleepC_step hl h hs
  waitC := waitC_step h hs
  sleepP := sleepP_step hl h hs
  waitP := waitP_step h hs

theorem wakeful_exec {l : List (Act ι κ α)} (h : Exec (step n) Always init l s) :
    Inv n s ∧ Wakeful s :=
  h.invariant (I := fun s => Inv n s ∧ Wakeful s) ⟨inv_init, wakeful_init⟩ fun _ _ _ hu _ hs =>
    ⟨inv_step hu.1 hs, wakeful_step hu.1.locks hu.2 (step_cases hs)⟩

/-! ### Enabled threads -/

/-- The thread is inside one of the three functions. -/
def St.Inside (s : St ι κ α) : Thread ι κ → Prop
  | .producer i => s.producer i ≠ .outside
  | .consumer j => s.consumer j ≠ .outside
  | .swapper => True

/-- Some thread that is inside has a next step. -/
def Progress (n : ℕ) (s : St ι κ α) : Prop := ∃ u, s.Inside u ∧ (run n s u).isSome

theorem ProducerPc.holds_of_signals {pc : ProducerPc α} (h : pc.signals) : pc.holds := by
  cases pc <;> first | rfl | cases h

/-- A producer that has the mutex is not stopped. -/
theorem progress_of_producer {i : ι} (hi : (s.producer i).holds) : Progress n s := by
  refine ⟨.producer i, fun h => by simp [h, ProducerPc.holds] at hi, ?_⟩
  cases hpc : s.producer i with
  | outside | lock _ | waiting _ =>
    rw [hpc] at hi
    cases hi
  | test rest =>
    cases rest with
    | nil => simp [run, putTask, hpc]
    | cons x rest => by_cases hfull : s.productTask.length = n <;> simp [run, putTask, hpc, hfull]
  | full _ | push _ _ | unlock => simp [run, putTask, hpc]

/-- A consumer that has the mutex is not stopped. -/
theorem progress_of_consumer (h : Tested n s) {j : κ} (hj : (s.consumer j).holds) :
    Progress n s := by
  refine ⟨.consumer j, fun h => by simp [h, ConsumerPc.holds] at hj, ?_⟩
  cases hpc : s.consumer j with
  | outside | lock | waiting =>
    rw [hpc] at hj
    cases hj
  | test => by_cases hempty : s.consumTask.length = 0 <;> simp [run, takeTask, hpc, hempty]
  | take =>
    obtain ⟨x, rest, hx⟩ := List.exists_cons_of_ne_nil (h.take hpc)
    simp [run, takeTask, hpc, hx]
  | empty | unlock => simp [run, takeTask, hpc]

/-- The swap thread with `Comsumer_Mutex` is not stopped, or waits for a producer that is not. -/
theorem progress_of_swapper (h : Inv n s) (hw : Wakeful s)
    (hq : s.consumTask ++ s.productTask ≠ []) (hC : s.swapper.holdsC) : Progress n s := by
  cases hpc : s.swapper with
  | lockC | waitC =>
    rw [hpc] at hC
    cases hC
  | lockP =>
    cases hm : s.productMutex with
    | none => exact ⟨.swapper, trivial, by simp [run, swapTask, hpc, hm]⟩
    | some u =>
      have hu := (h.locks.product u).mp hm
      cases u with
      | producer i => exact progress_of_producer hu
      | consumer j => cases hu
      | swapper => simp [St.HoldsP, hpc, SwapPc.holdsP] at hu
  | waitP =>
    have hempty : s.consumTask = [] := h.tested.passedC (by rw [hpc]; rfl)
    rw [hempty, List.nil_append] at hq
    obtain ⟨i, hi⟩ := (hw.waitP hpc).resolve_left hq
    exact progress_of_producer (ProducerPc.holds_of_signals hi)
  | testC | sleepC | testP | sleepP | swap | broadcastC | broadcastP | unlockP | unlockC =>
    exact ⟨.swapper, trivial, by simp [run, swapTask, hpc]⟩

theorem progress (h : Inv n s) (hw : Wakeful s) (hq : s.consumTask ++ s.productTask ≠ []) {j : κ}
    (hj : s.consumer j ≠ .outside) : Progress n s := by
  cases hm : s.comsumerMutex with
  | some u =>
    have hu := (h.locks.comsumer u).mp hm
    cases u with
    | producer i => cases hu
    | consumer j' => exact progress_of_consumer h.tested hu
    | swapper => exact progress_of_swapper h hw hq hu
  | none =>
    have hfree : ∀ u, ¬ s.HoldsC u := Held.not_holds (hm ▸ h.locks.comsumer)
    cases hpc : s.consumer j with
    | outside => exact absurd hpc hj
    | lock => exact ⟨.consumer j, hj, by simp [run, takeTask, hpc, hm]⟩
    | waiting =>
      cases hsw : s.swapper with
      | lockC => exact ⟨.swapper, trivial, by simp [run, swapTask, hsw, hm]⟩
      | waitC => exact absurd hpc (hw.waitC hsw j).2
      | testC | sleepC | lockP | testP | sleepP | waitP | swap | broadcastC | broadcastP | unlockP
      | unlockC => exact absurd (by simp [St.HoldsC, hsw, SwapPc.holdsC]) (hfree .swapper)
    | test | empty | take | unlock =>
      exact absurd (by simp [St.HoldsC, hpc, ConsumerPc.holds]) (hfree (.consumer j))

end Task

namespace LogFile

variable {ι : Type*}

/-- The caller has `put_Mutex` and will signal `Swap_Cond` before it releases it. -/
def ProducerPc.signals : ProducerPc → Bool
  | .push _ | .broadcast => true
  | .outside | .lock _ | .unlock => false

/-- Nobody waits for a signal that was already sent, and the writer is not alone. -/
structure Wakeful (s : St ι) : Prop where
  started : s.writer ≠ .outside → s.swapper ≠ .outside
  empty : s.writer = .empty → s.writeTask = []
  waiting : s.writer = .waiting → s.writeTask = [] ∨ s.swapper = .broadcast
  sleepG : s.swapper = .sleepG → s.writeTask ≠ []
  waitG : s.swapper = .waitG → s.writer ≠ .empty ∧ s.writer ≠ .waiting
  sleepP : s.swapper = .sleepP → s.waitWriteTask = []
  waitP : s.swapper = .waitP → s.waitWriteTask = [] ∨ ∃ i, (s.producer i).signals

theorem wakeful_init : Wakeful (init : St ι) where
  started h := absurd rfl h
  empty h := nomatch h
  waiting h := nomatch h
  sleepG h := nomatch h
  waitG h := nomatch h
  sleepP h := nomatch h
  waitP h := nomatch h

/-! ### Places a signal does not lead to -/

theorem SwapPc.eq_of_wake {pc p : SwapPc} (hG : p ≠ .lockG) (hP : p ≠ .lockP) (h : pc.wake = p) :
    pc = p := by
  cases pc with
  | waitG => exact absurd h.symm hG
  | waitP => exact absurd h.symm hP
  | outside | lockG | testG | sleepG | lockP | testP | sleepP | swap | broadcast | unlockG
  | unlockP => exact h

theorem SwapPc.wake_ne_waitG (pc : SwapPc) : pc.wake ≠ .waitG := by
  cases pc <;> nofun

theorem SwapPc.wake_ne_waitP (pc : SwapPc) : pc.wake ≠ .waitP := by
  cases pc <;> nofun

theorem WriterPc.eq_of_wake {pc p : WriterPc} (hl : p ≠ .lock) (h : pc.wake = p) : pc = p := by
  cases pc with
  | waiting => exact absurd h.symm hl
  | outside | lock | test | empty | drain | unlock => exact h

theorem WriterPc.wake_ne_waiting (pc : WriterPc) : pc.wake ≠ .waiting := by
  cases pc <;> nofun

/-! ### Steps -/

variable [DecidableEq ι] {s t : St ι} {a : Act ι}

theorem started_step (h : Wakeful s) (hs : Step s a t) (hr : t.writer ≠ .outside) :
    t.swapper ≠ .outside := by
  cases hs
  case startWrite hpc hw => exact hw
  case broadcastPut | wakeSwap =>
    exact fun hw => h.started hr (SwapPc.eq_of_wake nofun nofun hw)
  case isEmpty hpc _ =>
    exact fun hw => h.started (by rw [hpc]; nofun) (SwapPc.eq_of_wake nofun nofun hw)
  case wakeWriter => exact h.started fun hw => hr (by rw [hw]; rfl)
  case lockWrite hpc _ | hasRecord hpc _ | drained hpc _ => exact h.started (by rw [hpc]; nofun)
  case waitWrite hpc | unlockWrite hpc => exact h.started (by rw [hpc]; nofun)
  all_goals first | exact h.started hr | nofun

theorem empty_step (hl : Locks s) (h : Wakeful s) (hs : Step s a t) (hr : t.writer = .empty) :
    t.writeTask = [] := by
  cases hs
  case isEmpty hpc hempty => exact hempty
  case swap hpc =>
    have hG := hl.not_holdsG (by rw [show s.writer = .empty from hr]; rfl)
    rw [hpc] at hG
    cases hG
  case pop buff rest hpc hx =>
    have hr' : s.writer = .empty := hr
    rw [hpc] at hr'
    cases hr'
  case wakeWriter | broadcastSwap => exact h.empty (WriterPc.eq_of_wake nofun hr)
  all_goals first | exact h.empty hr | cases hr

theorem waiting_step (h : Wakeful s) (hs : Step s a t) (hr : t.writer = .waiting) :
    t.writeTask = [] ∨ t.swapper = .broadcast := by
  cases hs
  case waitWrite hpc => exact .inl (h.empty hpc)
  case swap => exact .inr rfl
  case wakeWriter | broadcastSwap => exact absurd hr (WriterPc.wake_ne_waiting _)
  case pop buff rest hpc hx =>
    have hr' : s.writer = .waiting := hr
    rw [hpc] at hr'
    cases hr'
  -- the swap thread does not leave `broadcast` before it has woken the writer
  case broadcastPut | wakeSwap =>
    refine (h.waiting hr).imp_right fun hw => ?_
    rw [hw]
    rfl
  all_goals
    first
      | exact h.waiting hr
      | cases hr
      | refine (h.waiting hr).imp_right fun hw => ?_
        simp_all

theorem sleepG_step (hl : Locks s) (h : Wakeful s) (hs : Step s a t) (hw : t.swapper = .sleepG) :
    t.writeTask ≠ [] := by
  cases hs
  case sleepG hpc hne => exact hne
  case pop buff rest hpc hx =>
    have hG := hl.not_holdsG (by rw [hpc]; rfl)
    rw [show s.swapper = .sleepG from hw] at hG
    cases hG
  case broadcastPut | isEmpty | wakeSwap => exact h.sleepG (SwapPc.eq_of_wake nofun nofun hw)
  all_goals first | exact h.sleepG hw | cases hw

theorem sleepP_step (hl : Locks s) (h : Wakeful s) (hs : Step s a t) (hw : t.swapper = .sleepP) :
    t.waitWriteTask = [] := by
  cases hs
  case sleepP hpc hempty => exact hempty
  case push i buff hpc =>
    have hP := hl.not_holdsP (i := i) (by rw [hpc]; rfl)
    rw [show s.swapper = .sleepP from hw] at hP
    cases hP
  case broadcastPut | isEmpty | wakeSwap => exact h.sleepP (SwapPc.eq_of_wake nofun nofun hw)
  all_goals first | exact h.sleepP hw | cases hw

theorem waitG_step (h : Wakeful s) (hs : Step s a t) (hw : t.swapper = .waitG) :
    t.writer ≠ .empty ∧ t.writer ≠ .waiting := by
  cases hs
  case waitG hpc =>
    -- the queue is not empty, so the writer does not wait, nor is it about to
    have hne := h.sleepG hpc
    refine ⟨fun hr => hne (h.empty hr), fun hr => ?_⟩
    rcases h.waiting hr with hnil | hb
    · exact hne hnil
    · rw [hpc] at hb
      cases hb
  case broadcastPut | isEmpty | wakeSwap => exact absurd hw (SwapPc.wake_ne_waitG _)
  case waitWrite hpc => exact absurd hpc (h.waitG hw).1
  case wakeWriter =>
    exact ⟨fun hr => (h.waitG hw).1 (WriterPc.eq_of_wake nofun hr), WriterPc.wake_ne_waiting _⟩
  case startWrite | lockWrite | hasRecord | drained | unlockWrite => exact ⟨nofun, nofun⟩
  all_goals first | exact h.waitG hw | cases hw

theorem waitP_step (h : Wakeful s) (hs : Step s a t) (hw : t.swapper = .waitP) :
    t.waitWriteTask = [] ∨ ∃ i, (t.producer i).signals := by
  cases hs
  case waitP hpc => exact .inl (h.sleepP hpc)
  case push i buff hpc => exact .inr ⟨i, by simp [ProducerPc.signals]⟩
  case broadcastPut | isEmpty | wakeSwap => exact absurd hw (SwapPc.wake_ne_waitP _)
  case put | lockPut | unlockPut =>
    -- the caller that signals is another one
    refine (h.waitP hw).imp_right fun ⟨i', hi'⟩ => ⟨i', ?_⟩
    simp only [St.setProducer_producer, Function.update_apply]
    split
    · simp_all [ProducerPc.signals]
    · exact hi'
  all_goals first | exact h.waitP hw | cases hw

theorem wakeful_step (hl : Locks s) (h : Wakeful s) (hs : Step s a t) : Wakeful t where
  started := started_step h hs
  empty := empty_step hl h hs
  waiting := waiting_step h hs
  sleepG := sleepG_step hl h hs
  waitG := waitG_step h hs
  sleepP := sleepP_step hl h hs
  waitP := waitP_step h hs

theorem wakeful_exec {l : List (Act ι)} (h : Exec step Always init l s) : Inv s ∧ Wakeful s :=
  h.invariant (I := fun s => Inv s ∧ Wakeful s) ⟨inv_init, wakeful_init⟩ fun _ _ _ hu _ hs =>
    ⟨inv_step hu.1 hs, wakeful_step hu.1.locks hu.2 (step_cases hs)⟩

/-! ### Enabled threads -/

/-- The thread is inside one of the three functions. -/
def St.Inside (s : St ι) : Thread ι → Prop
  | .producer i => s.producer i ≠ .outside
  | .writer => s.writer ≠ .outside
  | .swapper => s.swapper ≠ .outside

/-- Some thread that is inside has a next step. -/
def Progress (s : St ι) : Prop := ∃ u, s.Inside u ∧ (run s u).isSome

theorem ProducerPc.holds_of_signals {pc : ProducerPc} (h : pc.signals) : pc.holds := by
  cases pc <;> first | rfl | cases h

/-- A caller that has the mutex is not stopped. -/
theorem progress_of_producer {i : ι} (hi : (s.producer i).holds) : Progress s := by
  refine ⟨.producer i, fun h => by simp [h, ProducerPc.holds] at hi, ?_⟩
  cases hpc : s.producer i with
  | outside | lock _ =>
    rw [hpc] at hi
    cases hi
  | push _ | broadcast | unlock => simp [run, putWriteString, hpc]

/-- The writer that has the mutex is not stopped. -/
theorem progress_of_writer (hr : s.writer.holds) : Progress s := by
  refine ⟨.writer, fun h => by simp [h, WriterPc.holds] at hr, ?_⟩
  cases hpc : s.writer with
  | outside | lock | waiting =>
    rw [hpc] at hr
    cases hr
  | test => by_cases hempty : s.writeTask.length = 0 <;> simp [run, writeFile, hpc, hempty]
  | drain => cases hx : s.writeTask <;> simp [run, writeFile, hpc, hx]
  | empty | unlock => simp [run, writeFile, hpc]

/-- The swap thread that has `get_Mutex` is not stopped, or waits for a caller that is not. -/
theorem progress_of_swapper (h : Inv s) (hw : Wakeful s)
    (hq : s.writeTask ++ s.waitWriteTask ≠ []) (hG : s.swapper.holdsG) : Progress s := by
  have hin : s.Inside .swapper := fun hpc => by simp [hpc, SwapPc.holdsG] at hG
  cases hpc : s.swapper with
  | outside | lockG | waitG | unlockP =>
    rw [hpc] at hG
    cases hG
  | lockP =>
    cases hm : s.putMutex with
    | none => exact ⟨.swapper, hin, by simp [run, swap, hpc, hm]⟩
    | some u =>
      have hu := (h.locks.put u).mp hm
      cases u with
      | producer i => exact progress_of_producer hu
      | writer => cases hu
      | swapper => simp [St.HoldsP, hpc, SwapPc.holdsP] at hu
  | waitP =>
    have hempty : s.writeTask = [] := h.passedG (by rw [hpc]; rfl)
    rw [hempty, List.nil_append] at hq
    obtain ⟨i, hi⟩ := (hw.waitP hpc).resolve_left hq
    exact progress_of_producer (ProducerPc.holds_of_signals hi)
  | testG =>
    refine ⟨.swapper, hin, ?_⟩
    by_cases hlen : s.writeTask.length = 0 <;> simp [run, swap, hpc, hlen]
  | testP =>
    refine ⟨.swapper, hin, ?_⟩
    by_cases hlen : s.waitWriteTask.length = 0 <;> simp [run, swap, hpc, hlen]
  | sleepG | sleepP | swap | broadcast | unlockG =>
    exact ⟨.swapper, hin, by simp [run, LogFile.swap, hpc]⟩

theorem progress (h : Inv s) (hw : Wakeful s) (hq : s.writeTask ++ s.waitWriteTask ≠ [])
    (hr : s.writer ≠ .outside) : Progress s := by
  cases hm : s.getMutex with
  | some u =>
    have hu := (h.locks.get u).mp hm
    cases u with
    | producer i => cases hu
    | writer => exact progress_of_writer hu
    | swapper => exact progress_of_swapper h hw hq hu
  | none =>
    have hfree : ∀ u, ¬ s.HoldsG u := Held.not_holds (hm ▸ h.locks.get)
    have hin : s.Inside .swapper := hw.started hr
    cases hpc : s.writer with
    | outside => exact absurd hpc hr
    | lock => exact ⟨.writer, hr, by simp [run, writeFile, hpc, hm]⟩
    | waiting =>
      cases hsw : s.swapper with
      | outside => exact absurd hsw hin
      | lockG => exact ⟨.swapper, hin, by simp [run, swap, hsw, hm]⟩
      | unlockP => exact ⟨.swapper, hin, by simp [run, swap, hsw]⟩
      | waitG => exact absurd hpc (hw.waitG hsw).2
      | testG | sleepG | lockP | testP | sleepP | waitP | swap | broadcast | unlockG =>
        exact absurd (by simp [St.HoldsG, hsw, SwapPc.holdsG]) (hfree .swapper)
    | test | empty | drain | unlock =>
      exact absurd (by simp [St.HoldsG, hpc, WriterPc.holds]) (hfree .writer)

end LogFile

/-- **The two monitors are never stuck with work queued.** In every state either can reach, if
something is queued and a consumer is inside `take_task` (the writer has been created), some thread
inside one of the functions has a next step. -/
theorem never_stuck (ι κ α : Type*) [DecidableEq ι] [DecidableEq κ] (maxTaskNum : ℕ) :
    (∀ (s : Task.St ι κ α) (l : List (Task.Act ι κ α)),
      Exec (Task.step maxTaskNum) Always Task.init l s → s.consumTask ++ s.productTask ≠ [] →
        ∀ j, s.consumer j ≠ .outside → Task.Progress maxTaskNum s) ∧
    ∀ (s : LogFile.St ι) (l : List (LogFile.Act ι)),
      Exec LogFile.step Always LogFile.init l s → s.writeTask ++ s.waitWriteTask ≠ [] →
        s.writer ≠ .outside → LogFile.Progress s := by
  constructor
  · intro s l hexec hq j hj
    obtain ⟨hinv, hw⟩ := Task.wakeful_exec hexec
    exact Task.progress hinv hw hq hj
  · intro s l hexec hq hr
    obtain ⟨hinv, hw⟩ := LogFile.wakeful_exec hexec
    exact LogFile.progress hinv hw hq hr

/-- A consumer waits, the swap thread waits for the producers, and a producer has pushed a task and
not yet signalled. -/
def Task.pendingRun : List (Task.Act Unit Unit ℕ) :=
  [.take ()] ++ List.replicate 3 (.run (.consumer ())) ++ List.replicate 5 (.run .swapper) ++
    [.put () [5]] ++ List.replicate 3 (.run (.producer ()))

/-- The writer waits, the swap thread waits for the callers, and a caller has pushed a record and
not yet signalled. -/
def LogFile.pendingRun : List (LogFile.Act Unit) :=
  [.startSwap, .startWrite] ++ List.replicate 3 (.run .writer) ++
    List.replicate 5 (.run .swapper) ++
    [.put () ⟨[111, 0], List.mem_cons_of_mem _ List.mem_cons_self⟩] ++
    List.replicate 2 (.run (.producer ()))

theorem never_stuck_pending :
    (∃ s : Task.St Unit Unit ℕ, Exec (Task.step 1) Always Task.init Task.pendingRun s ∧
      s.consumer () = .waiting ∧ s.swapper = .waitP ∧ s.productTask = [5] ∧ Task.Progress 1 s) ∧
    ∃ s : LogFile.St Unit, Exec LogFile.step Always LogFile.init LogFile.pendingRun s ∧
      s.writer = .waiting ∧ s.swapper = .waitP ∧ s.waitWriteTask ≠ [] ∧ LogFile.Progress s := by
  have htask : ∃ s : Task.St Unit Unit ℕ,
      runIf (Task.step 1) Always Task.init Task.pendingRun = some s ∧ s.consumer () = .waiting ∧
        s.swapper = .waitP ∧ s.productTask = [5] ∧ s.consumTask ++ s.productTask ≠ [] :=
    ⟨_, rfl, rfl, rfl, rfl, List.cons_ne_nil _ _⟩
  have hlog : ∃ s : LogFile.St Unit,
      runIf LogFile.step Always LogFile.init LogFile.pendingRun = some s ∧ s.writer = .waiting ∧
        s.swapper = .waitP ∧ s.waitWriteTask ≠ [] ∧ s.writeTask ++ s.waitWriteTask ≠ [] :=
    ⟨_, rfl, rfl, rfl, List.cons_ne_nil _ _, List.cons_ne_nil _ _⟩
  obtain ⟨s, hs, hwait, hsw, hproduct, hq⟩ := htask
  obtain ⟨s', hs', hwait', hsw', hwrite, hq'⟩ := hlog
  have hexec := exec_of_runIf hs
  have hexec' := exec_of_runIf hs'
  constructor
  · exact ⟨s, hexec, hwait, hsw, hproduct,
      (never_stuck Unit Unit ℕ 1).1 s _ hexec hq () (by rw [hwait]; nofun)⟩
  · exact ⟨s', hexec', hwait', hsw', hwrite,
      (never_stuck Unit Unit ℕ 1).2 s' _ hexec' hq' (by rw [hwait']; nofun)⟩

end WebServer.Queue
