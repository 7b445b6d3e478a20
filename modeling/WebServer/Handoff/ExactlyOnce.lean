import Mathlib.Data.List.Perm.Subperm
import WebServer.Handoff.Model
import WebServer.Lib.Update

/-!
# When the hand-off is exactly-once

A counter holds one descriptor at a time: two writes without a read between them become one word,
the sum of both. `Prompt` says of a step that it is not such a write, and that `accept` did not
return descriptor 0, which `Maccept` takes for a failure.

* In a run of prompt steps every worker gets, in order, the descriptors dispatched to it: those it
  has passed to `Add_New_Connect`, those in its hands, and the one in its counter (`Fifo`).
* Every other step loses a connection for good (`step_total`), so in a state where nothing is under
  way the hand-off was exactly-once if and only if all steps were prompt (`exactlyOnce_iff_prompt`).
-/

namespace WebServer.Handoff

open WebServer.Lib

variable {n : ℕ} {s t : St} {a : Act}

/-! ## The property -/

/-- Nothing is under way: the main thread is outside `Maccept`, every worker outside `handle_event`,
and every counter is zero. -/
def Quiescent (n : ℕ) (s : St) : Prop := s.main = .outside ∧ ∀ w < n, s.worker w = ⟨0, .outside⟩

/-- The descriptors passed to `Add_New_Connect` are accepted ones, each passed at most as often as
it was accepted; and when nothing is under way, every accepted descriptor was dispatched to a worker
and passed by that worker, once for each time it was accepted. -/
structure ExactlyOnce (n : ℕ) (s : St) : Prop where
  passed_accepted : (s.passed.map Prod.snd).Subperm (s.accepted.map Int.ofNat)
  drained : Quiescent n s → s.dispatched.map Prod.snd = s.accepted ∧
    s.passed.Perm (s.dispatched.map fun x => (x.1, Int.ofNat x.2))

/-- The step is not a write to a counter that still holds a descriptor, and not an `accept` of
descriptor 0. -/
def Prompt (s : St) : Act → Prop
  | .accept connfd => connfd ≠ 0
  | .write =>
    match s.main with
    | .writing _ w => (s.worker w).counter = 0
    | _ => True
  | _ => True

instance (s : St) (a : Act) : Decidable (Prompt s a) :=
  match a with
  | .accept connfd => inferInstanceAs (Decidable (connfd ≠ 0))
  | .write =>
    match h : s.main with
    | .writing _ w => decidable_of_iff ((s.worker w).counter = 0) (by simp [Prompt, h])
    | .outside | .accepting | .picking _ => isTrue (by simp [Prompt, h])
  | .enter | .acceptFail _ | .pick | .wake _ | .read _ | .add _ => isTrue trivial

/-! ## What a state holds -/

/-- The words in the hands of a worker. -/
def WorkerPc.words : WorkerPc → List ℕ
  | .outside => []
  | .reading words => words
  | .adding words => words

/-- The words on their way through a worker: those in its hands, then its counter. -/
def Worker.flight (x : Worker) : List ℕ := x.pc.words ++ if x.counter = 0 then [] else [x.counter]

/-- The descriptor the main thread has accepted and not yet dispatched. -/
def MainPc.accepted : MainPc → List ℕ
  | .picking connfd => [connfd]
  | _ => []

/-- The descriptor the main thread has dispatched to `w` and not yet written. -/
def MainPc.unwritten (w : ℕ) : MainPc → List ℕ
  | .writing connfd w' => if w' = w then [connfd] else []
  | _ => []

/-- The descriptors the main thread holds. -/
def MainPc.inHand : MainPc → ℕ
  | .picking _ => 1
  | .writing _ _ => 1
  | _ => 0

/-- The main thread holds positive descriptors and writes to workers that exist; the others never
run. -/
structure Basic (n : ℕ) (s : St) : Prop where
  picking : ∀ {connfd}, s.main = .picking connfd → 0 < connfd ∧ connfd < 2 ^ 31
  writing : ∀ {connfd w}, s.main = .writing connfd w → 0 < connfd ∧ connfd < 2 ^ 31 ∧ w < n
  absent : ∀ {w}, n ≤ w → s.worker w = ⟨0, .outside⟩

theorem init_basic (n : ℕ) : Basic n init := by
  constructor <;> simp [init]

theorem afterAccept_inHand (e : Errno) : (St.afterAccept e).inHand = 0 := by
  cases e <;> rfl

theorem afterAccept_accepted (e : Errno) : (St.afterAccept e).accepted = [] := by
  cases e <;> rfl

theorem afterAccept_unwritten (e : Errno) (w : ℕ) : (St.afterAccept e).unwritten w = [] := by
  cases e <;> rfl

/-- A step of a worker that exists keeps `Basic`. -/
theorem Basic.setWorker (h : Basic n s) {w : ℕ} (hw : w < n) (x : Worker) :
    Basic n (s.setWorker w x) := by
  refine ⟨h.picking, h.writing, fun hv => ?_⟩
  exact (Function.update_of_ne (by omega) ..).trans (h.absent hv)

/-- A worker that is not outside exists. -/
theorem Basic.lt (h : Basic n s) {w : ℕ} (hw : (s.worker w).pc ≠ .outside) : w < n := by
  by_contra hn
  exact hw (by rw [h.absent (Nat.le_of_not_lt hn)])

theorem step_basic (hn : 0 < n) (h : Basic n s) (hs : step n s a = some t) : Basic n t := by
  cases step_cases hs with
  | enter _ => exact ⟨by simp, by simp, h.absent⟩
  | accept _ hpos hlt =>
    refine ⟨?_, by simp, h.absent⟩
    intro fd hfd
    obtain rfl := MainPc.picking.inj hfd
    exact ⟨hpos, hlt⟩
  | acceptZero _ => refine ⟨?_, ?_, h.absent⟩ <;> cases s.errno <;> simp [St.afterAccept]
  | @acceptFail e _ => refine ⟨?_, ?_, h.absent⟩ <;> cases e <;> simp [St.afterAccept]
  | pick hm =>
    refine ⟨by simp, ?_, h.absent⟩
    intro fd w hfd
    obtain ⟨rfl, rfl⟩ := MainPc.writing.inj hfd
    obtain ⟨h1, h2⟩ := h.picking hm
    exact ⟨h1, h2, Nat.mod_lt _ hn⟩
  | @write connfd w hm _ =>
    have hset := h.setWorker (h.writing hm).2.2
      { s.worker w with counter := (s.worker w).counter + connfd }
    exact ⟨by simp, by simp, hset.absent⟩
  | writeFail _ _ => exact ⟨by simp, by simp, h.absent⟩
  | wake hw _ => exact h.setWorker hw _
  | readEnd hpc _ => exact h.setWorker (h.lt (by simp [hpc])) _
  | read hpc _ _ => exact h.setWorker (h.lt (by simp [hpc])) _
  | addEnd hpc => exact h.setWorker (h.lt (by simp [hpc])) _
  | @add w word words hpc =>
    have hset := h.setWorker (h.lt (w := w) (by simp [hpc]))
      { s.worker w with pc := .adding words }
    exact ⟨hset.picking, hset.writing, hset.absent⟩

/-! ## Words on their way -/

section Flight

variable {x : Worker} {words : List ℕ}

/-- A write to a counter at zero is one more word. -/
theorem flight_write {connfd : ℕ} (h0 : x.counter = 0) (hpos : 0 < connfd) :
    ({ x with counter := x.counter + connfd } : Worker).flight = x.flight ++ [connfd] := by
  have hne : connfd ≠ 0 := by omega
  simp [Worker.flight, h0, hne]

/-- A write to any other counter is not. -/
theorem flight_write_full {connfd : ℕ} (h0 : x.counter ≠ 0) :
    ({ x with counter := x.counter + connfd } : Worker).flight.length = x.flight.length := by
  simp [Worker.flight, h0]

theorem flight_wake (hpc : x.pc = .outside) :
    ({ x with pc := .reading [] } : Worker).flight = x.flight := by
  simp [Worker.flight, hpc, WorkerPc.words]

theorem flight_readEnd (hpc : x.pc = .reading words) :
    ({ x with pc := .adding words } : Worker).flight = x.flight := by
  simp [Worker.flight, hpc, WorkerPc.words]

/-- A read moves the counter to the words in hand. -/
theorem flight_read (hpc : x.pc = .reading words) (h0 : x.counter ≠ 0) :
    (⟨0, .reading (words ++ [x.counter])⟩ : Worker).flight = x.flight := by
  simp [Worker.flight, hpc, h0, WorkerPc.words]

theorem flight_add {word : ℕ} (hpc : x.pc = .adding (word :: words)) :
    x.flight = word :: ({ x with pc := .adding words } : Worker).flight := by
  simp [Worker.flight, hpc, WorkerPc.words]

theorem flight_addEnd (hpc : x.pc = .adding []) :
    ({ x with pc := .outside } : Worker).flight = x.flight := by
  simp [Worker.flight, hpc, WorkerPc.words]

end Flight

/-! ## Counting connections -/

/-- The number of words under way. -/
def flights (n : ℕ) (worker : ℕ → Worker) : ℕ :=
  ∑ w ∈ Finset.range n, (worker w).flight.length

/-- The connections passed on or under way. -/
def total (n : ℕ) (s : St) : ℕ := s.passed.length + flights n s.worker + s.main.inHand

/-- How the number of words under way changes with one worker. -/
theorem flights_update (worker : ℕ → Worker) {w : ℕ} (hw : w < n) (x : Worker) :
    flights n (Function.update worker w x) + (worker w).flight.length =
      flights n worker + x.flight.length :=
  sum_range_update (fun x => x.flight.length) worker hw x

/-- A step of a worker that keeps its words. -/
theorem total_setWorker {w : ℕ} (hw : w < n) {x : Worker} (hx : x.flight = (s.worker w).flight) :
    total n (s.setWorker w x) = total n s := by
  have hsum := flights_update s.worker hw x
  rw [hx] at hsum
  simp only [total, St.setWorker]
  omega

/-- **A prompt step loses no connection, any other step loses one.** -/
theorem step_total (h : Basic n s) (hs : step n s a = some t) :
    if Prompt s a then total n t + s.accepted.length = total n s + t.accepted.length
    else total n t + s.accepted.length < total n s + t.accepted.length := by
  cases step_cases hs with
  | enter hm => simp [Prompt, total, hm, MainPc.inHand]
  | @accept connfd hm hpos _ =>
    have hprompt : Prompt s (.accept connfd) := Nat.ne_of_gt hpos
    simp only [if_pos hprompt, total, hm, MainPc.inHand, List.length_append, List.length_singleton]
    omega
  | acceptZero hm =>
    have hin : s.main.inHand = 0 := by rw [hm]; rfl
    have hafter := afterAccept_inHand s.errno
    simp [Prompt, total, hin, hafter]
  | @acceptFail e hm =>
    have hin : s.main.inHand = 0 := by rw [hm]; rfl
    have hafter := afterAccept_inHand e
    simp [Prompt, total, hin, hafter]
  | pick hm => simp [Prompt, total, hm, MainPc.inHand]
  | @write connfd w hm _ =>
    obtain ⟨hpos, -, hw⟩ := h.writing hm
    have hsum := flights_update s.worker hw ⟨(s.worker w).counter + connfd, (s.worker w).pc⟩
    by_cases h0 : (s.worker w).counter = 0
    · -- the counter takes the descriptor
      have hprompt : Prompt s .write := by simp [Prompt, hm, h0]
      rw [flight_write h0 hpos, List.length_append, List.length_singleton] at hsum
      simp only [if_pos hprompt, total, hm, MainPc.inHand, St.setWorker]
      omega
    · -- two descriptors become one word
      have hprompt : ¬ Prompt s .write := by simp [Prompt, hm, h0]
      rw [flight_write_full h0] at hsum
      simp only [if_neg hprompt, total, hm, MainPc.inHand, St.setWorker]
      omega
  | @writeFail connfd w hm hfull =>
    obtain ⟨-, hlt, -⟩ := h.writing hm
    have h0 : (s.worker w).counter ≠ 0 := by omega
    have hprompt : ¬ Prompt s .write := by simp [Prompt, hm, h0]
    simp only [if_neg hprompt, total, hm, MainPc.inHand]
    omega
  | @wake w hw hpc =>
    have hprompt : Prompt s (.wake w) := trivial
    rw [if_pos hprompt, total_setWorker hw (flight_wake hpc)]
    rfl
  | @readEnd w words hpc _ =>
    have hprompt : Prompt s (.read w) := trivial
    rw [if_pos hprompt, total_setWorker (h.lt (by simp [hpc])) (flight_readEnd hpc)]
    rfl
  | @read w words hpc _ h0 =>
    have hprompt : Prompt s (.read w) := trivial
    rw [if_pos hprompt, total_setWorker (h.lt (by simp [hpc])) (flight_read hpc h0)]
    rfl
  | @addEnd w hpc =>
    have hprompt : Prompt s (.add w) := trivial
    rw [if_pos hprompt, total_setWorker (h.lt (by simp [hpc])) (flight_addEnd hpc)]
    rfl
  | @add w word words hpc =>
    have hprompt : Prompt s (.add w) := trivial
    have hw : w < n := h.lt (by simp [hpc])
    have hsum := flights_update s.worker hw ⟨(s.worker w).counter, .adding words⟩
    rw [flight_add hpc, List.length_cons] at hsum
    simp only [if_pos hprompt, total, St.setWorker, List.length_append, List.length_singleton]
    omega

/-- No run passes on more connections than were accepted, and one that loses none has only prompt
steps. -/
theorem exec_total (hn : 0 < n) {l : List Act} (h : Exec (step n) Always init l s) :
    Basic n s ∧ total n s ≤ s.accepted.length ∧
      (total n s = s.accepted.length → Exec (step n) Prompt init l s) := by
  induction h with
  | nil =>
    refine ⟨init_basic n, ?_, fun _ => .nil⟩
    simp [total, flights, init, Worker.flight, WorkerPc.words, MainPc.inHand]
  | @snoc l u a v _ _ hs ih =>
    obtain ⟨hb, hle, hexec⟩ := ih
    have hstep := step_total hb hs
    refine ⟨step_basic hn hb hs, ?_, ?_⟩
    · split at hstep <;> omega
    · intro heq
      split at hstep
      · rename_i hp
        exact .snoc (hexec (by omega)) hp hs
      · omega

/-! ## The order of connections -/

/-- The part of a record that is about worker `w`. -/
def sentTo {β : Type*} (w : ℕ) (l : List (ℕ × β)) : List β :=
  (l.filter fun x => x.1 = w).map Prod.snd

theorem sentTo_append {β : Type*} (w : ℕ) (l l' : List (ℕ × β)) :
    sentTo w (l ++ l') = sentTo w l ++ sentTo w l' := by
  simp [sentTo]

theorem sentTo_self {β : Type*} (w : ℕ) (x : β) : sentTo w [(w, x)] = [x] := by
  simp [sentTo]

theorem sentTo_ne {β : Type*} {w v : ℕ} (h : v ≠ w) (x : β) : sentTo w [(v, x)] = [] := by
  simp [sentTo, h]

theorem count_sentTo {β : Type*} [DecidableEq β] (w : ℕ) (x : β) (l : List (ℕ × β)) :
    (sentTo w l).count x = l.count (w, x) := by
  induction l with
  | nil => rfl
  | cons y l ih =>
    obtain ⟨v, z⟩ := y
    rw [← List.singleton_append, sentTo_append, List.count_append, List.count_append, ih]
    by_cases hv : v = w
    · subst hv
      rw [sentTo_self]
      simp [List.count_singleton]
    · rw [sentTo_ne hv]
      simp [hv]

/-- The state of a run of prompt steps: every worker has passed on, holds or will read exactly the
descriptors dispatched to it, in order. -/
structure Fifo (s : St) : Prop where
  order : ∀ w, sentTo w s.passed ++ ((s.worker w).flight ++ s.main.unwritten w).map Int.ofNat =
    (sentTo w s.dispatched).map Int.ofNat
  accepted : s.dispatched.map Prod.snd ++ s.main.accepted = s.accepted
  small : ∀ {w connfd}, (w, connfd) ∈ s.dispatched → connfd < 2 ^ 31

theorem init_fifo : Fifo init := by
  constructor <;>
    simp [init, sentTo, Worker.flight, WorkerPc.words, MainPc.unwritten, MainPc.accepted]

/-- A word in the hands of a worker was dispatched to it. -/
theorem Fifo.mem_dispatched (h : Fifo s) {w word : ℕ} (hm : word ∈ (s.worker w).flight) :
    (w, word) ∈ s.dispatched := by
  have hmem : Int.ofNat word ∈ (sentTo w s.dispatched).map Int.ofNat := by
    rw [← h.order w]
    exact List.mem_append_right _ (List.mem_map_of_mem (List.mem_append_left _ hm))
  obtain ⟨x, hx, hxw⟩ := List.mem_map.mp hmem
  obtain rfl : x = word := Int.ofNat.inj hxw
  obtain ⟨⟨v, y⟩, hy, rfl⟩ := List.mem_map.mp hx
  obtain ⟨hyd, hv⟩ := List.mem_filter.mp hy
  obtain rfl : v = w := by simpa using hv
  exact hyd

/-- A step of a worker that passes nothing on and keeps its words. -/
theorem Fifo.setWorker (h : Fifo s) {w : ℕ} {x : Worker} (hx : x.flight = (s.worker w).flight) :
    Fifo (s.setWorker w x) := by
  refine ⟨fun v => ?_, h.accepted, h.small⟩
  by_cases hv : v = w
  · subst hv
    simpa [St.setWorker, hx] using h.order v
  · simpa [St.setWorker, hv] using h.order v

/-- A step of the main thread that dispatches and writes nothing. -/
theorem Fifo.of_main (h : Fifo s) (hd : t.dispatched = s.dispatched) (hp : t.passed = s.passed)
    (hw : t.worker = s.worker) (hu : ∀ w, t.main.unwritten w = s.main.unwritten w)
    (ha : s.dispatched.map Prod.snd ++ t.main.accepted = t.accepted) : Fifo t := by
  refine ⟨fun w => ?_, ?_, ?_⟩
  · rw [hd, hp, hw, hu]
    exact h.order w
  · rw [hd]
    exact ha
  · intro w connfd hm
    rw [hd] at hm
    exact h.small hm

/-- **A prompt step keeps the order.** -/
theorem step_fifo (hb : Basic n s) (h : Fifo s) (hp : Prompt s a) (hs : step n s a = some t) :
    Fifo t := by
  have hacc := h.accepted
  cases step_cases hs with
  | enter hm =>
    rw [hm] at hacc
    exact h.of_main rfl rfl rfl (fun _ => by rw [hm]; rfl) hacc
  | accept hm _ _ =>
    have hdisp : s.dispatched.map Prod.snd = s.accepted := by simpa [hm, MainPc.accepted] using hacc
    exact h.of_main rfl rfl rfl (fun _ => by rw [hm]; rfl) (by rw [hdisp]; rfl)
  | acceptZero _ => exact absurd rfl hp
  | @acceptFail e hm =>
    rw [hm] at hacc
    refine h.of_main rfl rfl rfl (fun w => ?_) ?_
    · rw [afterAccept_unwritten, hm]
      rfl
    · rw [afterAccept_accepted]
      exact hacc
  | @pick connfd hm =>
    rw [hm, MainPc.accepted] at hacc
    refine ⟨fun w => ?_, ?_, ?_⟩
    · have := h.order w
      simp only [hm, MainPc.unwritten, List.append_nil] at this
      simp only [sentTo_append, MainPc.unwritten]
      by_cases hw : (s.curEventEpoll + 1) % n = w
      · rw [hw, sentTo_self, if_pos rfl, List.map_append, List.map_append, ← this]
        simp
      · rw [sentTo_ne hw, if_neg hw]
        simpa using this
    · simp [MainPc.accepted, ← hacc]
    · intro w fd hm'
      rcases List.mem_append.mp hm' with hm' | hm'
      · exact h.small hm'
      · obtain ⟨-, rfl⟩ := Prod.mk.inj (List.mem_singleton.mp hm')
        exact (hb.picking hm).2
  | @write connfd w hm _ =>
    have h0 : (s.worker w).counter = 0 := by simpa [Prompt, hm] using hp
    rw [hm] at hacc
    refine ⟨fun v => ?_, hacc, h.small⟩
    have := h.order v
    simp only [hm, MainPc.unwritten] at this
    by_cases hv : v = w
    · subst hv
      simp only [St.setWorker, Function.update_self, flight_write h0 (hb.writing hm).1,
        MainPc.unwritten]
      simpa using this
    · simp only [St.setWorker, Function.update_of_ne hv, MainPc.unwritten]
      simpa [Ne.symm hv] using this
  | @writeFail connfd w hm hfull =>
    have h0 : (s.worker w).counter = 0 := by simpa [Prompt, hm] using hp
    obtain ⟨-, hlt, -⟩ := hb.writing hm
    omega
  | wake _ hpc => exact h.setWorker (flight_wake hpc)
  | readEnd hpc _ => exact h.setWorker (flight_readEnd hpc)
  | read hpc _ h0 => exact h.setWorker (flight_read hpc h0)
  | addEnd hpc => exact h.setWorker (flight_addEnd hpc)
  | @add w word words hpc =>
    have hword : toInt word = Int.ofNat word := by
      refine toInt_of_lt (h.small (h.mem_dispatched (w := w) ?_))
      rw [flight_add hpc]
      exact List.mem_cons_self ..
    refine ⟨fun v => ?_, h.accepted, h.small⟩
    have := h.order v
    simp only [sentTo_append]
    by_cases hv : v = w
    · subst hv
      rw [flight_add hpc] at this
      rw [sentTo_self, hword]
      simpa [St.setWorker] using this
    · rw [sentTo_ne (Ne.symm hv)]
      simpa [St.setWorker, hv] using this

/-- The record of dispatches, as arguments of `Add_New_Connect`. -/
theorem count_dispatched (w : ℕ) (x : ℤ) (l : List (ℕ × ℕ)) :
    (l.map fun y => (y.1, Int.ofNat y.2)).count (w, x) = ((sentTo w l).map Int.ofNat).count x := by
  have hmap : sentTo w (l.map fun y => (y.1, Int.ofNat y.2)) = (sentTo w l).map Int.ofNat := by
    unfold sentTo
    rw [List.filter_map, List.map_map, List.map_map]
    rfl
  rw [← hmap, count_sentTo]

theorem subperm_map {β γ : Type*} (f : β → γ) {l l' : List β} (h : l.Subperm l') :
    (l.map f).Subperm (l'.map f) := by
  obtain ⟨k, hperm, hsub⟩ := h
  exact ⟨k.map f, hperm.map f, hsub.map f⟩

/-- Prompt runs hand every connection on exactly once. -/
theorem Fifo.exactlyOnce (hb : Basic n s) (h : Fifo s) : ExactlyOnce n s := by
  have hsub : s.passed.Subperm (s.dispatched.map fun x => (x.1, Int.ofNat x.2)) := by
    apply List.subperm_ext_iff.mpr
    rintro ⟨w, x⟩ -
    rw [count_dispatched, ← h.order w, List.count_append, count_sentTo]
    exact Nat.le_add_right _ _
  constructor
  · -- passed is part of dispatched, which is part of accepted
    have hsnd := subperm_map Prod.snd hsub
    rw [List.map_map] at hsnd
    have hprefix : (s.dispatched.map Prod.snd).Subperm s.accepted := by
      rw [← h.accepted]
      exact (List.sublist_append_left ..).subperm
    have hacc := subperm_map Int.ofNat hprefix
    rw [List.map_map] at hacc
    exact hsnd.trans hacc
  · rintro ⟨hmain, hworker⟩
    refine ⟨by simpa [hmain, MainPc.accepted] using h.accepted, List.perm_iff_count.mpr ?_⟩
    rintro ⟨w, x⟩
    have hidle : s.worker w = ⟨0, .outside⟩ := by
      by_cases hw : w < n
      · exact hworker w hw
      · exact hb.absent (Nat.le_of_not_lt hw)
    have horder := h.order w
    rw [hidle, hmain] at horder
    rw [count_dispatched, ← horder, List.count_append, count_sentTo]
    simp [Worker.flight, WorkerPc.words, MainPc.unwritten]

/-- When nothing is under way, the connections counted are those passed on. -/
theorem total_of_quiescent (h : Quiescent n s) : total n s = s.passed.length := by
  have hzero : flights n s.worker = 0 := by
    refine Finset.sum_eq_zero fun w hw => ?_
    rw [h.2 w (Finset.mem_range.mp hw)]
    rfl
  rw [total, hzero, h.1]
  rfl

/-- **When the hand-off is exactly-once.** For any number of workers and any order of steps: a run
of prompt steps hands every connection on exactly once, in every state it passes through; and a run
that has come to a state where nothing is under way has done so if and only if all its steps were
prompt. -/
theorem exactlyOnce_iff_prompt (hn : 0 < n) {l : List Act} (h : Exec (step n) Always init l s) :
    (Exec (step n) Prompt init l s → ExactlyOnce n s) ∧
      (Quiescent n s → (ExactlyOnce n s ↔ Exec (step n) Prompt init l s)) := by
  have hgood : Exec (step n) Prompt init l s → ExactlyOnce n s := by
    intro hl
    have key : Basic n s ∧ Fifo s := by
      refine hl.invariant (I := fun v => Basic n v ∧ Fifo v) ⟨init_basic n, init_fifo⟩ ?_
      rintro u a v ⟨hb, hf⟩ hp hs
      exact ⟨step_basic hn hb hs, step_fifo hb hf hp hs⟩
    exact key.2.exactlyOnce key.1
  refine ⟨hgood, fun hq => ⟨fun hx => ?_, hgood⟩⟩
  obtain ⟨hdisp, hperm⟩ := hx.drained hq
  apply (exec_total hn h).2.2
  rw [total_of_quiescent hq, hperm.length_eq, List.length_map, ← hdisp, List.length_map]

/-- Two connections for one worker, the first read before the second is written. -/
def promptRun : List Act :=
  [.enter, .accept 5, .pick, .write, .wake 0, .read 0, .accept 6, .pick, .write, .read 0, .read 0,
    .add 0, .add 0, .add 0, .acceptFail .eagain]

theorem exactlyOnce_iff_prompt_two :
    ∃ s, Exec (step 1) Prompt init promptRun s ∧ Quiescent 1 s ∧ ExactlyOnce 1 s ∧
      s.passed = [(0, 5), (0, 6)] := by
  have hrun : ∃ s, runIf (step 1) Prompt init promptRun = some s ∧ s.main = .outside ∧
      s.worker 0 = ⟨0, .outside⟩ ∧ s.passed = [(0, 5), (0, 6)] :=
    ⟨_, rfl, by decide, by decide, by decide⟩
  obtain ⟨s, hs, hmain, hworker, hpassed⟩ := hrun
  have hexec := exec_of_runIf hs
  refine ⟨s, hexec, ⟨hmain, ?_⟩, (exactlyOnce_iff_prompt (by decide) hexec.always).1 hexec, hpassed⟩
  intro w hw
  obtain rfl : w = 0 := by omega
  exact hworker

/-- Two connections for one worker, both written before the first is read. -/
def mergedRun : List Act :=
  [.enter, .accept 5, .pick, .write, .accept 6, .pick, .write, .acceptFail .eagain,
    .wake 0, .read 0, .read 0, .add 0, .add 0]

/-- The worker passes on descriptor 11, which nobody accepted, and nothing is left under way. -/
theorem mergedRun_not_exactlyOnce :
    ∃ s, Exec (step 1) Always init mergedRun s ∧ Quiescent 1 s ∧ s.accepted = [5, 6] ∧
      s.passed = [(0, 11)] ∧ ¬ ExactlyOnce 1 s := by
  have hrun : ∃ s, runIf (step 1) Always init mergedRun = some s ∧ s.main = .outside ∧
      s.worker 0 = ⟨0, .outside⟩ ∧ s.accepted = [5, 6] ∧ s.passed = [(0, 11)] :=
    ⟨_, rfl, by decide, by decide, by decide, by decide⟩
  obtain ⟨s, hs, hmain, hworker, hacc, hpassed⟩ := hrun
  refine ⟨s, exec_of_runIf hs, ⟨hmain, ?_⟩, hacc, hpassed, ?_⟩
  · intro w hw
    obtain rfl : w = 0 := by omega
    exact hworker
  · intro hx
    have hmem := hx.passed_accepted.subset (show (11 : ℤ) ∈ s.passed.map Prod.snd by simp [hpassed])
    simp [hacc] at hmem

end WebServer.Handoff
