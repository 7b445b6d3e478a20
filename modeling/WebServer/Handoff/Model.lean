import Mathlib.Algebra.Group.Nat.Defs
import Mathlib.Data.Int.Notation
import Mathlib.Logic.Function.Basic
import WebServer.Lib.Exec

/-!
# Handing connections to the workers

With more than one thread the main thread only accepts connections. `Maccept` picks the next worker
(`GetNextEventEpollFd`) and writes the new descriptor, as one 8-byte word, to the `eventfd` of that
worker. The worker's `handle_event` on its event channel reads words until the `eventfd` has no more
(`sysreadn`) and calls `Add_New_Connect` for each of them.

An `eventfd` is a 64-bit counter: a write adds to it, a read returns its value as one word and sets
it to zero, a read of zero fails with `EAGAIN`, and so does a write that would pass `2 ^ 64 - 2`.
The main thread and the workers take their steps in any order; a worker may enter `handle_event` at
any time, for nothing if its counter is zero.
-/

namespace WebServer.Handoff

/-- The values of `errno` that `Maccept` tells apart. -/
inductive Errno
  | eintr
  | eagain
  | other
  deriving DecidableEq

/-- Where the main thread is. -/
inductive MainPc
  /-- Outside `Maccept`. -/
  | outside
  /-- At `accept`. -/
  | accepting
  /-- At `GetNextEventEpollFd`, with a new descriptor. -/
  | picking (connfd : ℕ)
  /-- At the `write` to the `eventfd` of the worker picked. -/
  | writing (connfd worker : ℕ)
  deriving DecidableEq

/-- Where a worker is in the `handle_event` of its event channel. -/
inductive WorkerPc
  | outside
  /-- In `sysreadn`, with the words read so far. -/
  | reading (words : List ℕ)
  /-- In the loop over the words; these are left. -/
  | adding (words : List ℕ)
  deriving DecidableEq

/-- A worker: the counter of its `eventfd`, and where it is. -/
structure Worker where
  counter : ℕ
  pc : WorkerPc
  deriving DecidableEq

/-- The state. The last three fields are records: the descriptors `accept` returned, the worker each
was dispatched to, and the arguments of `Add_New_Connect` with the worker that made the call. -/
structure St where
  main : MainPc
  errno : Errno
  curEventEpoll : ℕ
  worker : ℕ → Worker
  accepted : List ℕ
  dispatched : List (ℕ × ℕ)
  passed : List (ℕ × ℤ)

/-- Before the first connection. -/
def init : St := ⟨.outside, .other, 0, fun _ => ⟨0, .outside⟩, [], [], []⟩

/-- The conversion of a word to the `int` that `Add_New_Connect` takes. -/
def toInt (word : ℕ) : ℤ := (BitVec.ofNat 32 word).toInt

theorem toInt_of_lt {word : ℕ} (h : word < 2 ^ 31) : toInt word = Int.ofNat word := by
  rw [toInt, BitVec.toInt_eq_toNat_of_lt] <;> rw [BitVec.toNat_ofNat] <;>
    rw [Nat.mod_eq_of_lt (by omega)]
  · rfl
  · omega

/-- The size of `read_buff` in words. -/
def buffWords : ℕ := 4096 / 8

/-- The steps. -/
inductive Act
  /-- `handle_event` of the listening channel calls `Maccept`. -/
  | enter
  /-- `accept` returns a descriptor. -/
  | accept (connfd : ℕ)
  /-- `accept` returns -1. -/
  | acceptFail (e : Errno)
  | pick
  | write
  /-- Worker `w` enters `handle_event`. -/
  | wake (w : ℕ)
  /-- One turn of the loop of `sysreadn`. -/
  | read (w : ℕ)
  /-- One turn of the loop over the words. -/
  | add (w : ℕ)
  deriving DecidableEq

namespace St

/-- Where `Maccept` goes on after `accept` returned no positive number. -/
def afterAccept : Errno → MainPc
  | .eintr => .accepting
  | .eagain => .outside
  | .other => .accepting

/-- Change worker `w`. -/
def setWorker (s : St) (w : ℕ) (x : Worker) : St :=
  { s with worker := Function.update s.worker w x }

end St

/-- One step, with `threadNum` workers. Descriptors are `int`s. -/
def step (threadNum : ℕ) (s : St) : Act → Option St
  | .enter => if s.main = .outside then some { s with main := .accepting } else none
  | .accept connfd =>
    if s.main = .accepting ∧ connfd < 2 ^ 31 then
      let s' := { s with accepted := s.accepted ++ [connfd] }
      -- `if(connfd > 0)`: descriptor 0 is taken for a failure, with the `errno` of an earlier call
      some { s' with main := if connfd > 0 then .picking connfd else St.afterAccept s.errno }
    else none
  | .acceptFail e =>
    if s.main = .accepting then some { s with main := St.afterAccept e, errno := e } else none
  | .pick =>
    match s.main with
    | .picking connfd =>
      let w := (s.curEventEpoll + 1) % threadNum
      some { s with
        main := .writing connfd w
        curEventEpoll := w
        dispatched := s.dispatched ++ [(w, connfd)] }
    | _ => none
  | .write =>
    match s.main with
    | .writing connfd w =>
      let x := s.worker w
      if x.counter + connfd ≤ 2 ^ 64 - 2 then
        some { s.setWorker w { x with counter := x.counter + connfd } with main := .accepting }
      else some { s with main := .accepting, errno := .eagain }
    | _ => none
  | .wake w =>
    if w < threadNum ∧ (s.worker w).pc = .outside then
      some (s.setWorker w { s.worker w with pc := .reading [] })
    else none
  | .read w =>
    let x := s.worker w
    match x.pc with
    | .reading words =>
      -- the buffer is full, or `read` fails with `EAGAIN`
      if words.length = buffWords ∨ x.counter = 0 then
        some (s.setWorker w { x with pc := .adding words })
      else some (s.setWorker w ⟨0, .reading (words ++ [x.counter])⟩)
    | _ => none
  | .add w =>
    let x := s.worker w
    match x.pc with
    | .adding [] => some (s.setWorker w { x with pc := .outside })
    | .adding (word :: words) =>
      some { s.setWorker w { x with pc := .adding words } with
        passed := s.passed ++ [(w, toInt word)] }
    | _ => none

/-- What a step can do, one constructor for each way through the code. -/
inductive Step (threadNum : ℕ) (s : St) : Act → St → Prop
  | enter : s.main = .outside → Step threadNum s .enter { s with main := .accepting }
  | accept {connfd : ℕ} : s.main = .accepting → 0 < connfd → connfd < 2 ^ 31 →
      Step threadNum s (.accept connfd)
        { s with main := .picking connfd, accepted := s.accepted ++ [connfd] }
  | acceptZero : s.main = .accepting → Step threadNum s (.accept 0)
      { s with main := St.afterAccept s.errno, accepted := s.accepted ++ [0] }
  | acceptFail {e : Errno} : s.main = .accepting → Step threadNum s (.acceptFail e)
      { s with main := St.afterAccept e, errno := e }
  | pick {connfd : ℕ} : s.main = .picking connfd → Step threadNum s .pick
      { s with
        main := .writing connfd ((s.curEventEpoll + 1) % threadNum)
        curEventEpoll := (s.curEventEpoll + 1) % threadNum
        dispatched := s.dispatched ++ [((s.curEventEpoll + 1) % threadNum, connfd)] }
  | write {connfd w : ℕ} : s.main = .writing connfd w →
      (s.worker w).counter + connfd ≤ 2 ^ 64 - 2 → Step threadNum s .write
        { s.setWorker w { s.worker w with counter := (s.worker w).counter + connfd } with
          main := .accepting }
  | writeFail {connfd w : ℕ} : s.main = .writing connfd w →
      ¬ (s.worker w).counter + connfd ≤ 2 ^ 64 - 2 →
        Step threadNum s .write { s with main := .accepting, errno := .eagain }
  | wake {w : ℕ} : w < threadNum → (s.worker w).pc = .outside →
      Step threadNum s (.wake w) (s.setWorker w { s.worker w with pc := .reading [] })
  | readEnd {w : ℕ} {words : List ℕ} : (s.worker w).pc = .reading words →
      words.length = buffWords ∨ (s.worker w).counter = 0 →
        Step threadNum s (.read w) (s.setWorker w { s.worker w with pc := .adding words })
  | read {w : ℕ} {words : List ℕ} : (s.worker w).pc = .reading words →
      words.length ≠ buffWords → (s.worker w).counter ≠ 0 → Step threadNum s (.read w)
        (s.setWorker w ⟨0, .reading (words ++ [(s.worker w).counter])⟩)
  | addEnd {w : ℕ} : (s.worker w).pc = .adding [] →
      Step threadNum s (.add w) (s.setWorker w { s.worker w with pc := .outside })
  | add {w word : ℕ} {words : List ℕ} : (s.worker w).pc = .adding (word :: words) →
      Step threadNum s (.add w)
        { s.setWorker w { s.worker w with pc := .adding words } with
          passed := s.passed ++ [(w, toInt word)] }

/-- **A step does one of these.** -/
theorem step_cases {threadNum : ℕ} {s t : St} {a : Act} (hs : step threadNum s a = some t) :
    Step threadNum s a t := by
  cases a with
  | enter =>
    simp only [step] at hs
    split at hs
    · obtain rfl := Option.some.inj hs
      exact .enter ‹_›
    · cases hs
  | accept connfd =>
    simp only [step] at hs
    split at hs
    · rename_i hm
      obtain rfl := Option.some.inj hs
      rcases Nat.eq_zero_or_pos connfd with rfl | hpos
      · exact .acceptZero hm.1
      · simp only [gt_iff_lt, hpos, if_true]
        exact .accept hm.1 hpos hm.2
    · cases hs
  | acceptFail e =>
    simp only [step] at hs
    split at hs
    · obtain rfl := Option.some.inj hs
      exact .acceptFail ‹_›
    · cases hs
  | pick =>
    simp only [step] at hs
    split at hs
    · obtain rfl := Option.some.inj hs
      exact .pick ‹_›
    · cases hs
  | write =>
    simp only [step] at hs
    split at hs
    · rename_i connfd w hm
      split at hs
      · rename_i hfit
        obtain rfl := Option.some.inj hs
        exact .write hm hfit
      · rename_i hfit
        obtain rfl := Option.some.inj hs
        exact .writeFail hm hfit
    · cases hs
  | wake w =>
    simp only [step] at hs
    split at hs
    · rename_i hw
      obtain rfl := Option.some.inj hs
      exact .wake hw.1 hw.2
    · cases hs
  | read w =>
    simp only [step] at hs
    split at hs
    · rename_i words hpc
      split at hs
      · rename_i hend
        obtain rfl := Option.some.inj hs
        exact .readEnd hpc hend
      · rename_i hmore
        obtain rfl := Option.some.inj hs
        exact .read hpc (not_or.mp hmore).1 (not_or.mp hmore).2
    · cases hs
  | add w =>
    simp only [step] at hs
    split at hs
    · rename_i hpc
      obtain rfl := Option.some.inj hs
      exact .addEnd hpc
    · rename_i word words hpc
      obtain rfl := Option.some.inj hs
      exact .add hpc
    · cases hs

end WebServer.Handoff
