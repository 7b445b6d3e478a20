import Mathlib.Data.Int.Notation
import Mathlib.Data.Nat.Notation
import Mathlib.Logic.Function.Basic

/-!
# The timer wheel

The wheel of `TimeRound.h`, pointer by pointer. `TimeRoundVector` holds, for each of its `max_time`
places, a null pointer or a doubly linked list given by its `head` and `tail`; the nodes live in a
heap. Adding a node appends it to the list `time` places ahead of `cur_index`; a pass of
`TimeRound::fun` splices the lists it goes over, one for each second since `cur_time`, into
`time_out_event_list` and then deletes what is in there.

An operation yields `none` where the source has no defined result: a null pointer or a deleted
node is dereferenced, or a place outside the vector is accessed. `deleted` records the nodes in the
order of their deletion; deleting a node releases its `TimeRoundItem`.

The threshold and the index are fields of the item a node holds. Nodes are numbered in the order of
their allocation, and `fresh` is the number of the next one.
-/

namespace WebServer.TimeRound

/-- Addresses of nodes. -/
abbrev Ptr := ℕ

/-- `SP_TimeRoundItemNode`, with the fields of its `Item` that the wheel reads. -/
structure Node where
  pre : Option Ptr
  next : Option Ptr
  timeThreod : ℤ
  index : ℤ
  deriving DecidableEq

/-- `SP_TimeRoundItemList`. -/
structure ItemList where
  head : Option Ptr
  tail : Option Ptr
  deriving DecidableEq

/-- `TimeRound`, with the heap its pointers point into. -/
structure Wheel where
  maxTime : ℕ
  timeOutEventList : ItemList
  timeRoundVector : List (Option ItemList)
  curTime : ℤ
  curIndex : ℤ
  heap : Ptr → Option Node
  fresh : Ptr
  deleted : List Ptr

namespace Wheel

/-- The constructor, with `max_time` places, and `start` at clock reading `now`. -/
def start (maxTime : ℕ) (now : ℤ) : Wheel where
  maxTime := maxTime
  timeOutEventList := ⟨none, none⟩
  timeRoundVector := List.replicate maxTime none
  curTime := now
  curIndex := 0
  heap := fun _ => none
  fresh := 0
  deleted := []

/-- `TimeRoundVector[i]`. -/
def bucket (w : Wheel) (i : ℤ) : Option (Option ItemList) :=
  if 0 ≤ i then w.timeRoundVector[i.toNat]? else none

/-- `TimeRoundVector[i] = b`, at a place inside the vector. -/
def setBucket (w : Wheel) (i : ℤ) (b : ItemList) : Wheel :=
  { w with timeRoundVector := w.timeRoundVector.set i.toNat (some b) }

/-- Write a node. -/
def setNode (w : Wheel) (p : Ptr) (n : Node) : Wheel :=
  { w with heap := Function.update w.heap p (some n) }

/-- `delete` a node. -/
def deleteNode (w : Wheel) (p : Ptr) : Wheel :=
  { w with heap := Function.update w.heap p none, deleted := w.deleted ++ [p] }

/-- `new SP_TimeRoundItemNode` on a new item with the given threshold. -/
def newNode (w : Wheel) (timeThreod : ℤ) : Wheel :=
  { w with
    heap := Function.update w.heap w.fresh (some ⟨none, none, timeThreod, 0⟩)
    fresh := w.fresh + 1 }

/-- `AddToTimeOutList`. -/
def addToTimeOutList (w : Wheel) (index : ℤ) : Option Wheel :=
  match w.bucket index with
  | none => none
  | some none => some w
  | some (some ⟨none, _⟩) => some w
  | some (some ⟨some head, tail⟩) =>
    match w.timeOutEventList.head with
    | none => some { w.setBucket index ⟨none, none⟩ with timeOutEventList := ⟨some head, tail⟩ }
    | some first => do
      -- `time_out_event_list->tail->next = TimeRoundVector[index]->head`
      let last ← w.timeOutEventList.tail
      let node ← w.heap last
      let w := w.setNode last { node with next := some head }
      some { w.setBucket index ⟨none, none⟩ with timeOutEventList := ⟨some first, tail⟩ }

/-- The tick loop of `fun`: `while(diff_time--)`. -/
def tickLoop : ℕ → Wheel → Option Wheel
  | 0, w => some w
  | d + 1, w => do
    let w ← w.addToTimeOutList w.curIndex
    let i := w.curIndex + 1
    tickLoop d { w with curIndex := if i ≥ w.maxTime then 0 else i }

/-- The loop of `HandleTimeOutList`, from `head` on. The number bounds the nodes it can meet. -/
def deleteFrom : ℕ → Option Ptr → Wheel → Option Wheel
  | _, none, w => some w
  | 0, some _, _ => none
  | n + 1, some p, w => do
    let node ← w.heap p
    deleteFrom n node.next (w.deleteNode p)

/-- `HandleTimeOutList`. A list without a cycle has at most `fresh` nodes. -/
def handleTimeOutList (w : Wheel) : Option Wheel :=
  deleteFrom w.fresh w.timeOutEventList.head { w with timeOutEventList := ⟨none, none⟩ }

/-- One turn of the loop of `TimeRound::fun`, with the clock reading `now`. -/
def pass (w : Wheel) (now : ℤ) : Option Wheel :=
  let diffTime := now - w.curTime
  if diffTime ≥ 1 then
    let diffTime := if diffTime ≥ w.maxTime then (w.maxTime : ℤ) - 1 else diffTime
    do
      let w ← tickLoop diffTime.toNat { w with curTime := now }
      w.handleTimeOutList
  else some w

/-- The second half of `AddTimeRoundItemNode`: link the node into the list at `index`. -/
def linkNode (w : Wheel) (p : Ptr) (index : ℤ) : Option Wheel :=
  match w.bucket index with
  | none => none
  | some none => some (w.setBucket index ⟨some p, some p⟩)
  | some (some ⟨none, _⟩) => some (w.setBucket index ⟨some p, some p⟩)
  | some (some ⟨some head, tail⟩) => do
    -- `tail->next = node; node->pre = tail; tail = node`
    let last ← tail
    let lastNode ← w.heap last
    let w := w.setNode last { lastNode with next := some p }
    let node ← w.heap p
    let w := w.setNode p { node with pre := some last }
    some (w.setBucket index ⟨some head, some p⟩)

/-- `AddTimeRoundItemNode`. -/
def addTimeRoundItemNode (w : Wheel) : Option Ptr → Option Wheel
  | none => some w
  | some p => do
    let node ← w.heap p
    if node.timeThreod ≤ 0 then
      some (w.deleteNode p)
    else
      let time := if node.timeThreod ≥ w.maxTime then (w.maxTime : ℤ) - 1 else node.timeThreod
      let index := (w.curIndex + time).tmod w.maxTime
      (w.setNode p { node with index := index }).linkNode p index

/-! ## The pointers of a heap -/

/-- Where the `next` of a node points; a deleted node points nowhere. -/
def next (w : Wheel) (p : Ptr) : Option Ptr := (w.heap p).bind Node.next

/-- Where the `pre` of a node points; a deleted node points nowhere. -/
def pre (w : Wheel) (p : Ptr) : Option Ptr := (w.heap p).bind Node.pre

section Fields

variable (w : Wheel) (i : ℤ) (b : ItemList) (p : Ptr) (n : Node)

@[simp] theorem setBucket_heap : (w.setBucket i b).heap = w.heap := rfl
@[simp] theorem setBucket_next : (w.setBucket i b).next = w.next := rfl
@[simp] theorem setBucket_pre : (w.setBucket i b).pre = w.pre := rfl
@[simp] theorem setBucket_maxTime : (w.setBucket i b).maxTime = w.maxTime := rfl
@[simp] theorem setBucket_curIndex : (w.setBucket i b).curIndex = w.curIndex := rfl
@[simp] theorem setBucket_curTime : (w.setBucket i b).curTime = w.curTime := rfl
@[simp] theorem setBucket_fresh : (w.setBucket i b).fresh = w.fresh := rfl
@[simp] theorem setBucket_deleted : (w.setBucket i b).deleted = w.deleted := rfl
@[simp] theorem setBucket_timeOutEventList :
    (w.setBucket i b).timeOutEventList = w.timeOutEventList := rfl

@[simp] theorem setNode_timeRoundVector : (w.setNode p n).timeRoundVector = w.timeRoundVector := rfl
@[simp] theorem setNode_maxTime : (w.setNode p n).maxTime = w.maxTime := rfl
@[simp] theorem setNode_curIndex : (w.setNode p n).curIndex = w.curIndex := rfl
@[simp] theorem setNode_curTime : (w.setNode p n).curTime = w.curTime := rfl
@[simp] theorem setNode_fresh : (w.setNode p n).fresh = w.fresh := rfl
@[simp] theorem setNode_deleted : (w.setNode p n).deleted = w.deleted := rfl
@[simp] theorem setNode_timeOutEventList :
    (w.setNode p n).timeOutEventList = w.timeOutEventList := rfl

theorem setNode_next : (w.setNode p n).next = Function.update w.next p n.next := by
  funext q
  by_cases hq : q = p
  · subst hq
    simp [next, setNode]
  · simp [next, setNode, hq]

theorem setNode_pre : (w.setNode p n).pre = Function.update w.pre p n.pre := by
  funext q
  by_cases hq : q = p
  · subst hq
    simp [pre, setNode]
  · simp [pre, setNode, hq]

variable {w p n}

/-- Relinking a node forwards leaves the backward pointers alone. -/
theorem setNode_next_pre {x : Option Ptr} (hn : w.heap p = some n) :
    (w.setNode p { n with next := x }).pre = w.pre := by
  rw [setNode_pre, show n.pre = w.pre p by simp [pre, hn], Function.update_eq_self]

/-- Relinking a node backwards leaves the forward pointers alone. -/
theorem setNode_pre_next {x : Option Ptr} (hn : w.heap p = some n) :
    (w.setNode p { n with pre := x }).next = w.next := by
  rw [setNode_next, show n.next = w.next p by simp [next, hn], Function.update_eq_self]

variable (w p)

theorem deleteNode_heap_of_ne {q : Ptr} (h : q ≠ p) : (w.deleteNode p).heap q = w.heap q := by
  simp [deleteNode, h]

end Fields

end Wheel

end WebServer.TimeRound
