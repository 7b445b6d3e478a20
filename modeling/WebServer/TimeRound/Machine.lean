import WebServer.Lib.Exec
import WebServer.TimeRound.Ops

/-!
# The wheel while a pass is under way

The loop of `TimeRound::fun` step by step. A pass reads the clock, takes `Mutex`, makes its ticks,
releases `Mutex`, and then `HandleTimeOutList` takes the nodes over from `time_out_event_list` and
deletes them one by one. Other threads add nodes whenever `Mutex` is free, so also between the
deletions of a pass.

The wheel keeps its representation throughout (`Inv`): the nodes ever added are those of the
buckets, those of the list under expiry and the deleted ones, each in exactly one place and once
(`lists_well_formed`). The pass of the whole is a run of these steps (`exec_pass`).
-/

namespace WebServer.TimeRound

open Lib Wheel Represents

/-- Places of the loop of `fun`. -/
inductive Phase
  /-- Before the clock is read. -/
  | idle
  /-- `cur_time` is set; before `Mutex` is taken. -/
  | locking (diffTime : ℕ)
  /-- At the test of the tick loop, with `Mutex`. -/
  | ticking (diffTime : ℕ)
  /-- `Mutex` is released; before `HandleTimeOutList`. -/
  | handling
  /-- In the loop of `HandleTimeOutList`, at its test. -/
  | deleting (head : Option Ptr)
  deriving DecidableEq

/-- The pass has `Mutex`. -/
def Phase.locked : Phase → Bool
  | .ticking _ => true
  | .idle | .locking _ | .handling | .deleting _ => false

/-- The pass deletes the nodes it has taken over from `time_out_event_list`. -/
def Phase.detached : Phase → Bool
  | .deleting _ => true
  | .idle | .locking _ | .ticking _ | .handling => false

/-- A wheel and the place of its thread. -/
structure Machine where
  wheel : Wheel
  phase : Phase

/-- The steps. -/
inductive Act
  /-- Some thread adds a new node. -/
  | add (timeThreod : ℤ)
  /-- The thread of the wheel reads the clock. -/
  | clock (now : ℤ)
  /-- The next step of a pass. -/
  | next
  deriving DecidableEq

/-- The body of the tick loop. -/
def Wheel.tick (w : Wheel) : Option Wheel := do
  let w ← w.addToTimeOutList w.curIndex
  let i := w.curIndex + 1
  some { w with curIndex := if i ≥ w.maxTime then 0 else i }

theorem Wheel.tickLoop_succ (w : Wheel) (d : ℕ) :
    tickLoop (d + 1) w = w.tick.bind (tickLoop d) := by
  rw [tickLoop, tick]
  cases w.addToTimeOutList w.curIndex <;> rfl

namespace Machine

/-- The constructor and `start`. -/
def init (maxTime : ℕ) (now : ℤ) : Machine := ⟨start maxTime now, .idle⟩

/-- The next step of a pass. -/
def passStep (s : Machine) : Option Machine :=
  match s.phase with
  | .idle => none
  | .locking d => some { s with phase := .ticking d }
  | .ticking 0 => some { s with phase := .handling }
  | .ticking (d + 1) => s.wheel.tick.map fun w => ⟨w, .ticking d⟩
  | .handling =>
    some ⟨{ s.wheel with timeOutEventList := ⟨none, none⟩ },
      .deleting s.wheel.timeOutEventList.head⟩
  | .deleting none => some { s with phase := .idle }
  | .deleting (some p) =>
    (s.wheel.heap p).map fun node => ⟨s.wheel.deleteNode p, .deleting node.next⟩

/-- A step. -/
def step (s : Machine) : Act → Option Machine
  | .add t =>
    if s.phase.locked then none
    else ((s.wheel.newNode t).addTimeRoundItemNode (some s.wheel.fresh)).map fun w =>
      { s with wheel := w }
  | .clock now =>
    if s.phase = .idle then
      let diffTime := now - s.wheel.curTime
      if diffTime ≥ 1 then
        let diffTime := if diffTime ≥ s.wheel.maxTime then (s.wheel.maxTime : ℤ) - 1 else diffTime
        some ⟨{ s.wheel with curTime := now }, .locking diffTime.toNat⟩
      else some s
    else none
  | .next => passStep s

/-- Which steps the places allow: a node is added while `Mutex` is free, the clock is read between
passes, and a pass goes on until it is over. -/
def Allowed (s : Machine) : Act → Prop
  | .add _ => s.phase.locked = false
  | .clock _ => s.phase = .idle
  | .next => s.phase ≠ .idle

end Machine

/-! ## The list under expiry -/

/-- The wheel with another `time_out_event_list`. -/
def Wheel.withOut (w : Wheel) (ends : ItemList) : Wheel := { w with timeOutEventList := ends }

/-- The ends of a list. -/
def ends (l : List Ptr) : ItemList := ⟨l.head?, l.getLast?⟩

section WithOut

variable {w w' : Wheel} {slots : Calendar Ptr} {out : List Ptr}

theorem Wheel.withOut_self : w.withOut w.timeOutEventList = w := rfl

/-- Linking a node does not look at `time_out_event_list`. -/
theorem Wheel.linkNode_withOut (w : Wheel) (e : ItemList) (p : Ptr) (i : ℤ) :
    (w.withOut e).linkNode p i = (w.linkNode p i).map (·.withOut e) := by
  have hb : (w.withOut e).bucket i = w.bucket i := rfl
  unfold linkNode
  rw [hb]
  rcases w.bucket i with _ | _ | ⟨_ | head, _ | last⟩
  · rfl
  · rfl
  · rfl
  · rfl
  · rfl
  · change (w.heap last).bind _ = ((w.heap last).bind _).map _
    cases w.heap last with
    | none => rfl
    | some lastNode =>
      change ((w.setNode last { lastNode with next := some p }).heap p).bind _ =
        (((w.setNode last { lastNode with next := some p }).heap p).bind _).map _
      cases (w.setNode last { lastNode with next := some p }).heap p <;> rfl

/-- Adding a node does not look at `time_out_event_list`. -/
theorem Wheel.addTimeRoundItemNode_withOut (w : Wheel) (e : ItemList) (p : Ptr) :
    (w.withOut e).addTimeRoundItemNode (some p) =
      (w.addTimeRoundItemNode (some p)).map (·.withOut e) := by
  change (w.heap p).bind _ = ((w.heap p).bind _).map _
  cases w.heap p with
  | none => rfl
  | some node =>
    by_cases ht : node.timeThreod ≤ 0
    · simp only [Option.bind_some, if_pos ht]
      rfl
    · simp only [Option.bind_some, if_neg ht]
      exact linkNode_withOut (w.setNode p { node with index := _ }) e p _

/-- Adding a node leaves `time_out_event_list` as it is. -/
theorem Wheel.addTimeRoundItemNode_timeOutEventList {p : Ptr}
    (h : w.addTimeRoundItemNode (some p) = some w') : w'.timeOutEventList = w.timeOutEventList := by
  have hself := addTimeRoundItemNode_withOut w w.timeOutEventList p
  rw [withOut_self, h, Option.map_some] at hself
  calc w'.timeOutEventList = (w'.withOut w.timeOutEventList).timeOutEventList :=
        congrArg timeOutEventList (Option.some.inj hself)
    _ = w.timeOutEventList := rfl

/-- The first node of the list under expiry is deleted. -/
theorem Represents.deleteFirst {p : Ptr} {rest : List Ptr}
    (h : Represents (w.withOut (ends (p :: rest))) slots (p :: rest)) :
    Represents ((w.deleteNode p).withOut (ends rest)) slots rest := by
  have hnodup := List.nodup_append.mp h.nodup
  have hrest : Represents (w.withOut (ends rest)) slots rest :=
    { h with
      timeOut := ⟨rfl, rfl, h.timeOut.chain.2, (List.nodup_cons.mp h.timeOut.nodup).2⟩
      out_live := fun q hq => h.out_live q (List.mem_cons_of_mem p hq)
      nodup := List.nodup_append.mpr ⟨hnodup.1, (List.nodup_cons.mp hnodup.2.1).2,
        fun a ha b hb => hnodup.2.2 a ha b (List.mem_cons_of_mem p hb)⟩ }
  refine hrest.deleteNode_repr ?_ (List.nodup_cons.mp h.timeOut.nodup).1
  exact fun hp => hnodup.2.2 p hp p List.mem_cons_self rfl

end WithOut

/-! ## The invariant -/

namespace Machine

/-- The buckets hold the nodes of `slots`. The list under expiry, which is `time_out_event_list` or
what is reached from the `head` of `HandleTimeOutList`, holds those of `out`. Together with the
deleted nodes these are all the nodes, each once. -/
structure Inv (maxTime : ℕ) (s : Machine) (slots : Calendar Ptr) (out : List Ptr) : Prop where
  maxTime : s.wheel.maxTime = maxTime
  repr : Represents (s.wheel.withOut (ends out)) slots out
  timeOut : s.wheel.timeOutEventList = if s.phase.detached then ⟨none, none⟩ else ends out
  head {p : Option Ptr} : s.phase = .deleting p → p = out.head?
  idle : s.phase = .idle → out = []
  nodes : (slots.flatten ++ out ++ s.wheel.deleted).Perm (List.range s.wheel.fresh)

variable {maxTime : ℕ} {s t : Machine} {slots : Calendar Ptr} {out : List Ptr} {a : Act}

/-- Before `HandleTimeOutList` the list under expiry is `time_out_event_list`. -/
theorem Inv.represents (h : Inv maxTime s slots out) (hd : s.phase.detached = false) :
    Represents s.wheel slots out := by
  have htime := h.timeOut
  rw [hd] at htime
  have hself := h.repr
  rwa [← show s.wheel.timeOutEventList = ends out from htime, withOut_self] at hself

theorem init_inv (h : 1 ≤ maxTime) (now : ℤ) :
    Inv maxTime (init maxTime now) (List.replicate maxTime []) [] := by
  refine ⟨rfl, start_repr now h, rfl, nofun, fun _ => rfl, ?_⟩
  simp [init, start]

/-- One more node, in one of the places. -/
theorem perm_range_succ {n : ℕ} {l l' : List ℕ} (hl : l'.Perm (n :: l))
    (h : l.Perm (List.range n)) : l'.Perm (List.range (n + 1)) := by
  rw [List.range_succ]
  exact (hl.trans (h.cons n)).trans (List.perm_append_singleton n _).symm

theorem add_inv (h : Inv maxTime s slots out) (x : ℤ) (ha : Allowed s (.add x)) :
    ∃ t slots' out', step s (.add x) = some t ∧ Inv maxTime t slots' out' := by
  have hfree : ¬ (s.phase.locked = true) := Bool.eq_false_iff.mp ha
  have hwith := addTimeRoundItemNode_withOut (s.wheel.newNode x) (ends out) s.wheel.fresh
  by_cases hx : 1 ≤ x
  · obtain ⟨v, slots', hv, hr, hcal, hc, hdel⟩ := h.repr.addTimeRoundItemNode_repr hx
    obtain ⟨w, hw, rfl⟩ := Option.map_eq_some_iff.mp (hwith.symm.trans hv)
    have htime := addTimeRoundItemNode_timeOutEventList hw
    refine ⟨{ s with wheel := w }, slots', out, ?_, ?_⟩
    · rw [step, if_neg hfree, hw, Option.map_some]
    refine ⟨hc.maxTime.trans h.maxTime, hr, htime.trans h.timeOut, h.head, h.idle, ?_⟩
    have hlt : ahead s.wheel.maxTime x < (calendar (s.wheel.withOut (ends out)) slots).length := by
      rw [h.repr.length_calendar]
      have hpos := h.repr.curIndex_lt
      have hnonneg := h.repr.curIndex_nonneg
      simp only [ahead, withOut] at hpos hnonneg ⊢
      omega
    have hslots : slots'.flatten.Perm (s.wheel.fresh :: slots.flatten) := by
      apply (flatten_calendar_perm (w.withOut (ends out)) slots').symm.trans
      rw [hcal]
      exact (Calendar.flatten_add_perm hlt).trans ((flatten_calendar_perm _ slots).cons _)
    have hfresh : w.fresh = s.wheel.fresh + 1 := hc.fresh
    have hdeleted : w.deleted = s.wheel.deleted := hdel
    dsimp only
    rw [hfresh, hdeleted]
    refine perm_range_succ ?_ h.nodes
    simpa using (hslots.append_right out).append_right s.wheel.deleted
  · obtain ⟨v, hv, hr, hc, -, hdel⟩ := h.repr.addTimeRoundItemNode_nonpos (t := x) (by omega)
    obtain ⟨w, hw, rfl⟩ := Option.map_eq_some_iff.mp (hwith.symm.trans hv)
    have htime := addTimeRoundItemNode_timeOutEventList hw
    refine ⟨{ s with wheel := w }, slots, out, ?_, ?_⟩
    · rw [step, if_neg hfree, hw, Option.map_some]
    refine ⟨hc.maxTime.trans h.maxTime, hr, htime.trans h.timeOut, h.head, h.idle, ?_⟩
    have hfresh : w.fresh = s.wheel.fresh + 1 := hc.fresh
    have hdeleted : w.deleted = s.wheel.deleted ++ [s.wheel.fresh] := hdel
    dsimp only
    rw [hfresh, hdeleted, ← List.append_assoc]
    exact perm_range_succ (List.perm_append_singleton _ _) h.nodes

theorem clock_inv (h : Inv maxTime s slots out) (now : ℤ) (ha : Allowed s (.clock now)) :
    ∃ t slots' out', step s (.clock now) = some t ∧ Inv maxTime t slots' out' := by
  have hphase : s.phase = .idle := ha
  have hout := h.idle hphase
  subst hout
  have htime := h.timeOut
  rw [hphase] at htime
  by_cases hnow : now - s.wheel.curTime ≥ 1
  · obtain ⟨d, hd⟩ : ∃ d, step s (.clock now) =
        some ⟨{ s.wheel with curTime := now }, .locking d⟩ := by
      simp only [step, if_pos hphase, if_pos hnow]
      exact ⟨_, rfl⟩
    exact ⟨_, slots, [], hd, h.maxTime, { h.repr with }, htime, nofun, nofun, h.nodes⟩
  · refine ⟨s, slots, [], ?_, h⟩
    simp only [step, if_pos hphase, if_neg hnow]

theorem tick_inv {d : ℕ} (h : Inv maxTime s slots out) (hphase : s.phase = .ticking (d + 1)) :
    ∃ t slots' out', passStep s = some t ∧ Inv maxTime t slots' out' := by
  have hr := h.represents (by rw [hphase]; rfl)
  obtain ⟨w, slots', hloop, hw, hcal, hc, hdel, -⟩ := hr.tick_repr
  have htick : s.wheel.tick = some w := by
    have hone := tickLoop_succ s.wheel 0
    rw [hloop 0] at hone
    simpa [tickLoop] using hone.symm
  have hends : w.timeOutEventList = ends (out ++ (calendar s.wheel slots).headD []) := by
    have hhead := hw.timeOut.head_eq
    have htail := hw.timeOut.tail_eq
    rw [ends, ← hhead, ← htail]
  refine ⟨⟨w, .ticking d⟩, slots', out ++ (calendar s.wheel slots).headD [], ?_, ?_⟩
  · simp only [passStep, hphase, htick, Option.map_some]
  refine ⟨hc.maxTime.trans h.maxTime, ?_, hends, Phase.noConfusion, Phase.noConfusion, ?_⟩
  · rw [← hends, withOut_self]
    exact hw
  have hslots : (slots'.flatten ++ (calendar s.wheel slots).headD []).Perm slots.flatten := by
    apply ((flatten_calendar_perm w slots').symm.append_right _).trans
    rw [hcal]
    refine List.Perm.trans ?_ (flatten_calendar_perm s.wheel slots)
    cases calendar s.wheel slots with
    | nil => simp [Calendar.tick]
    | cons b cal => simpa [Calendar.tick] using List.perm_append_comm
  dsimp only
  rw [hc.fresh, hdel]
  refine List.Perm.trans (List.Perm.append_right _ ?_) h.nodes
  apply (List.perm_append_comm.append_left _).trans
  rw [← List.append_assoc]
  exact hslots.append_right out

theorem next_inv (h : Inv maxTime s slots out) (ha : Allowed s .next) :
    ∃ t slots' out', step s .next = some t ∧ Inv maxTime t slots' out' := by
  have htime := h.timeOut
  cases hphase : s.phase with
  | idle => exact absurd hphase ha
  | locking d =>
    rw [hphase] at htime
    exact ⟨{ s with phase := .ticking d }, slots, out, by simp only [step, passStep, hphase],
      h.maxTime, h.repr, htime, Phase.noConfusion, Phase.noConfusion, h.nodes⟩
  | ticking d =>
    cases d with
    | zero =>
      rw [hphase] at htime
      exact ⟨{ s with phase := .handling }, slots, out, by simp only [step, passStep, hphase],
        h.maxTime, h.repr, htime, Phase.noConfusion, Phase.noConfusion, h.nodes⟩
    | succ d => exact tick_inv h hphase
  | handling =>
    rw [hphase] at htime
    have hhead : s.wheel.timeOutEventList.head = out.head? := congrArg ItemList.head htime
    refine ⟨⟨s.wheel.withOut ⟨none, none⟩, .deleting s.wheel.timeOutEventList.head⟩, slots, out, ?_,
      h.maxTime, h.repr, rfl, ?_, Phase.noConfusion, h.nodes⟩
    · simp only [step, passStep, hphase]
      rfl
    · intro p hp
      exact (Phase.deleting.inj hp).symm.trans hhead
  | deleting p =>
    rw [hphase] at htime
    have hhead := h.head hphase
    cases out with
    | nil =>
      subst hhead
      exact ⟨{ s with phase := .idle }, slots, [],
        by simp only [step, passStep, hphase, List.head?_nil], h.maxTime, h.repr, htime,
        Phase.noConfusion, fun _ => rfl, h.nodes⟩
    | cons q rest =>
      subst hhead
      obtain ⟨node, hnode⟩ := Option.isSome_iff_exists.mp (h.repr.out_live q List.mem_cons_self)
      have hheap : s.wheel.heap q = some node := hnode
      have hnext : node.next = rest.head? := by
        have hchain := h.repr.timeOut.chain.1
        simpa [Wheel.next, hnode] using hchain
      refine ⟨⟨s.wheel.deleteNode q, .deleting node.next⟩, slots, rest, ?_, h.maxTime,
        h.repr.deleteFirst, htime, ?_, Phase.noConfusion, ?_⟩
      · simp only [step, passStep, hphase, List.head?_cons, hheap, Option.map_some]
      · intro p hp
        exact (Phase.deleting.inj hp).symm.trans hnext
      · refine List.Perm.trans ?_ h.nodes
        change (slots.flatten ++ rest ++ (s.wheel.deleted ++ [q])).Perm _
        rw [List.append_assoc, List.append_assoc]
        apply List.Perm.append_left _
        rw [← List.append_assoc]
        exact List.perm_append_singleton q _

theorem allowed_of_step (hs : step s a = some t) : Allowed s a := by
  cases a with
  | add x =>
    simp only [step] at hs
    split at hs
    · cases hs
    · rename_i hfree
      exact Bool.eq_false_iff.mpr hfree
  | clock now =>
    simp only [step] at hs
    split at hs
    · rename_i hphase
      exact hphase
    · cases hs
  | next =>
    intro hphase
    simp only [step, passStep, hphase] at hs
    cases hs

/-- Every allowed step is defined and keeps the invariant. -/
theorem step_inv (h : Inv maxTime s slots out) (ha : Allowed s a) :
    ∃ t slots' out', step s a = some t ∧ Inv maxTime t slots' out' := by
  cases a with
  | add x => exact add_inv h x ha
  | clock now => exact clock_inv h now ha
  | next => exact next_inv h ha

theorem exec_inv (hmax : 1 ≤ maxTime) {now : ℤ} {acts : List Act}
    (h : Exec step Always (init maxTime now) acts s) : ∃ slots out, Inv maxTime s slots out := by
  refine h.invariant (I := fun s => ∃ slots out, Inv maxTime s slots out)
    ⟨_, _, init_inv hmax now⟩ ?_
  rintro u a v ⟨slots, out, hu⟩ - hs
  obtain ⟨v', slots', out', hs', hv⟩ := step_inv hu (allowed_of_step hs)
  obtain rfl := Option.some.inj (hs.symm.trans hs')
  exact ⟨slots', out', hv⟩

/-- The list under expiry: `time_out_event_list`, or the nodes `HandleTimeOutList` has taken over
from it and not yet deleted. -/
def Expiring (s : Machine) (out : List Ptr) : Prop :=
  match s.phase with
  | .deleting head => s.wheel.timeOutEventList = ⟨none, none⟩ ∧
      Single s.wheel.next head out.getLast? out
  | _ => Single s.wheel.next s.wheel.timeOutEventList.head s.wheel.timeOutEventList.tail out

theorem Inv.expiring (h : Inv maxTime s slots out) : Expiring s out := by
  have htime := h.timeOut
  cases hphase : s.phase with
  | deleting p =>
    have hhead := h.head hphase
    rw [hphase] at htime
    simp only [Expiring, hphase, hhead]
    exact ⟨htime, h.repr.timeOut⟩
  | idle | locking d | ticking d | handling =>
    have hr := h.represents (by rw [hphase]; rfl)
    simp only [Expiring, hphase]
    exact hr.timeOut

/-- The bucket at place `i` is null or a doubly linked list of the nodes `l`, whose items have the
index of the bucket. -/
structure Bucket (w : Wheel) (i : ℕ) (l : List Ptr) : Prop where
  list : IsBucket w l w.timeRoundVector[i]?
  ends (b : ItemList) : w.timeRoundVector[i]? = some (some b) → (b.head = none ↔ b.tail = none)
  inverse : ∀ p ∈ l, ∀ q, w.next p = some q ↔ q ∈ l ∧ w.pre q = some p
  index : ∀ p ∈ l, ∃ n, w.heap p = some n ∧ n.index = i

theorem Inv.bucket (h : Inv maxTime s slots out) {i : ℕ} {l : List Ptr} (hi : slots[i]? = some l) :
    Bucket s.wheel i l := by
  have hlist : IsBucket s.wheel l s.wheel.timeRoundVector[i]? := h.repr.bucket i l hi
  refine ⟨hlist, ?_, ?_, h.repr.index i l hi⟩
  · intro b hb
    rw [hb] at hlist
    exact hlist.toSingle.head_eq_none_iff
  · rcases hb : s.wheel.timeRoundVector[i]? with _ | _ | b
    · rw [hb] at hlist
      cases hlist
    · rw [hb] at hlist
      obtain rfl : l = [] := hlist
      exact nofun
    · rw [hb] at hlist
      exact fun p hp q => hlist.next_iff_pre hp q

/-- **The wheel stays well formed**, in every run of additions and passes, with any thresholds and
clock readings, and at every step of a pass. No step dereferences a null pointer or a deleted node;
`cur_index` is a place of the vector; the buckets are null or doubly linked lists of nodes with
their index; the list under expiry is a chain from its head to its tail, and empty between passes;
and every node ever added is in one bucket, in that list, or deleted, exactly once in all. -/
theorem lists_well_formed {maxTime : ℕ} (hmax : 1 ≤ maxTime) (now : ℤ) (acts : List Act)
    (s : Machine) (h : Exec step Always (init maxTime now) acts s) :
    (∀ a, Allowed s a → (step s a).isSome) ∧ 0 ≤ s.wheel.curIndex ∧ s.wheel.curIndex < maxTime ∧
      ∃ (slots : List (List Ptr)) (out : List Ptr), slots.length = maxTime ∧
        (∀ (i : ℕ) (l : List Ptr), slots[i]? = some l → Bucket s.wheel i l) ∧ Expiring s out ∧
        (s.phase = .idle → s.wheel.timeOutEventList = ⟨none, none⟩ ∧ out = []) ∧
        (slots.flatten ++ out ++ s.wheel.deleted).Perm (List.range s.wheel.fresh) := by
  obtain ⟨slots, out, hinv⟩ := exec_inv hmax h
  have hlen := hinv.repr.size
  have hlt := hinv.repr.curIndex_lt
  rw [show (s.wheel.withOut (ends out)).maxTime = maxTime from hinv.maxTime] at hlen hlt
  refine ⟨?_, hinv.repr.curIndex_nonneg, hlt, slots, out, hlen, fun i l => hinv.bucket,
    hinv.expiring, ?_, hinv.nodes⟩
  · intro a ha
    obtain ⟨t, -, -, hs, -⟩ := step_inv hinv ha
    rw [hs]
    rfl
  · intro hphase
    have hout := hinv.idle hphase
    have htime := hinv.timeOut
    rw [hphase, hout] at htime
    exact ⟨htime, hout⟩

/-! ## A pass as a run -/

variable {w w' : Wheel}

theorem exec_tickLoop {d : ℕ} (h : tickLoop d w = some w') :
    Exec step Always ⟨w, .ticking d⟩ (List.replicate d .next) ⟨w', .ticking 0⟩ := by
  induction d generalizing w with
  | zero =>
    obtain rfl : w = w' := Option.some.inj h
    exact .nil
  | succ d ih =>
    rw [tickLoop_succ] at h
    obtain ⟨w₁, hw₁, h⟩ := Option.bind_eq_some_iff.mp h
    refine .head trivial ?_ (ih h)
    simp only [step, passStep, hw₁, Option.map_some]

theorem exec_deleteFrom {n : ℕ} {head : Option Ptr} (h : deleteFrom n head w = some w') :
    ∃ acts, Exec step Always ⟨w, .deleting head⟩ acts ⟨w', .idle⟩ := by
  induction n generalizing head w with
  | zero =>
    cases head with
    | none =>
      obtain rfl : w = w' := Option.some.inj h
      exact ⟨[.next], .head trivial rfl .nil⟩
    | some p => cases h
  | succ n ih =>
    cases head with
    | none =>
      obtain rfl : w = w' := Option.some.inj h
      exact ⟨[.next], .head trivial rfl .nil⟩
    | some p =>
      obtain ⟨node, hnode, h⟩ := Option.bind_eq_some_iff.mp h
      obtain ⟨acts, hacts⟩ := ih h
      refine ⟨.next :: acts, .head trivial ?_ hacts⟩
      simp only [step, passStep, hnode, Option.map_some]

/-- **A pass is a run of its steps.** -/
theorem exec_pass {now : ℤ} (h : w.pass now = some w') :
    ∃ acts, Exec step Always ⟨w, .idle⟩ acts ⟨w', .idle⟩ := by
  simp only [Wheel.pass] at h
  split at h
  · rename_i hnow
    obtain ⟨w₁, hw₁, h⟩ := Option.bind_eq_some_iff.mp h
    obtain ⟨acts, hacts⟩ := exec_deleteFrom h
    have hclock : step ⟨w, .idle⟩ (.clock now) = some ⟨{ w with curTime := now }, .locking
        (if now - w.curTime ≥ w.maxTime then (w.maxTime : ℤ) - 1 else now - w.curTime).toNat⟩ := by
      simp only [step, if_pos hnow, if_true]
    have hhandle : Exec step Always ⟨w₁, .ticking 0⟩ (.next :: .next :: acts) ⟨w', .idle⟩ :=
      .head (t := ⟨w₁, .handling⟩) trivial rfl (.head trivial rfl hacts)
    have hticks := (exec_tickLoop hw₁).trans hhandle
    exact ⟨_, .head trivial hclock (.head (a := .next) trivial rfl hticks)⟩
  · rename_i hnow
    obtain rfl := Option.some.inj h
    refine ⟨[.clock now], .head trivial ?_ .nil⟩
    simp only [step, if_neg hnow, if_true]

/-- Three places. A node with threshold 0 is deleted at once; two nodes of different buckets expire
in one pass, between whose deletions another one is added to a bucket the pass has drained. -/
def refilledRun : List Act :=
  [.add 1, .add 0, .add 2, .clock 101] ++ List.replicate 5 .next ++ [.clock 103] ++
    List.replicate 6 .next ++ [.add 2]

theorem lists_well_formed_refilled :
    ∃ s, Exec step Always (init 3 100) refilledRun s ∧ s.phase = .deleting (some 2) ∧
      s.wheel.deleted = [1, 0] ∧ s.wheel.fresh = 4 ∧
      ∃ (slots : List (List Ptr)) (out : List Ptr), slots.length = 3 ∧
        (∀ (i : ℕ) (l : List Ptr), slots[i]? = some l → Bucket s.wheel i l) ∧ Expiring s out ∧
        (slots.flatten ++ out ++ s.wheel.deleted).Perm (List.range s.wheel.fresh) := by
  have hrun : ∃ s, runIf step Always (init 3 100) refilledRun = some s ∧
      s.phase = .deleting (some 2) ∧ s.wheel.deleted = [1, 0] ∧ s.wheel.fresh = 4 :=
    ⟨_, rfl, by decide, by decide, by decide⟩
  obtain ⟨s, hs, hphase, hdel, hfresh⟩ := hrun
  have hexec := exec_of_runIf hs
  obtain ⟨-, -, -, slots, out, hlen, hbuckets, hout, -, hnodes⟩ :=
    lists_well_formed (by decide) 100 refilledRun s hexec
  exact ⟨s, hexec, hphase, hdel, hfresh, slots, out, hlen, hbuckets, hout, hnodes⟩

end Machine

end WebServer.TimeRound
