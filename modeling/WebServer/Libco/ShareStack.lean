import WebServer.Lib.Exec
import WebServer.Lib.Update

/-!
# Coroutines that share a stack

`co_swap` of `co_routine.cpp`, with `co_create`, `co_release` and the stacks. A coroutine has a
stack of its own, or one that it shares with others. The one that ran last on a shared stack is its
`occupy_co`; before another one runs there, `co_swap` copies what the occupant has on the stack to
its `save_buffer`, and a coroutine that goes on in `co_swap` copies its own `save_buffer` back.

A coroutine that runs writes to its stack as it likes. `left c` records what was on the stack when
coroutine `c` gave control away in `co_swap`; it is `none` for one that runs or has not run.

* `Kept`: what a suspended coroutine left is on its stack, or in its `save_buffer` if another one
  occupies the stack.
* `coSwap_spec`: a switch keeps this, and puts back what the coroutine it goes to left.
* `coSwap_dangling`: a switch reads the occupant of the stack, and is undefined if that coroutine
  was released.
* `coResume_full`: `co_resume` is undefined on a full `pCallStack`.
-/

namespace WebServer.Libco

open WebServer.Lib

/-- `stStackMem_t`, with the bytes of its `stack_buffer`. -/
structure StackMem where
  occupyCo : Option ℕ
  stackBp : ℕ
  bytes : ℕ → UInt8

/-- `stShareStack_t`; its `stack_array` is a range of stacks. -/
structure ShareStack where
  allocIdx : ℕ
  stackSize : ℕ
  count : ℕ
  stackArray : ℕ

/-- Of `stCoRoutine_t`, what `co_swap` uses. A `save_buffer` that is not there is empty. -/
structure Routine where
  stackMem : ℕ
  cStart : Bool
  cEnd : Bool
  cIsShareStack : Bool
  stackSp : ℕ
  saveBuffer : List UInt8

/-- The coroutines of a thread, with what they left on their stacks. The first one runs on the
stack of the thread, which is stack 0 here. -/
structure Stacks where
  routine : ℕ → Option Routine
  numCo : ℕ
  stack : ℕ → StackMem
  numStack : ℕ
  share : ℕ → Option ShareStack
  numShare : ℕ
  pendingCo : Option ℕ
  occupyCo : Option ℕ
  pCallStack : List ℕ
  left : ℕ → Option (ℕ → UInt8)

/-- The bytes from `a` on. -/
def readBytes (f : ℕ → UInt8) (a n : ℕ) : List UInt8 := (List.range n).map fun i => f (a + i)

/-- Write bytes from `a` on. -/
def writeBytes (f : ℕ → UInt8) (a : ℕ) (l : List UInt8) (x : ℕ) : UInt8 :=
  if a ≤ x then l.getD (x - a) (f x) else f x

namespace Stacks

/-- `co_init_curr_thread_env`. -/
def init (size : ℕ) : Stacks where
  routine := Function.update (fun _ => none) 0 (some ⟨0, false, false, false, 0, []⟩)
  numCo := 1
  stack := fun _ => ⟨none, size, fun _ => 0⟩
  numStack := 1
  share := fun _ => none
  numShare := 0
  pendingCo := none
  occupyCo := none
  pCallStack := [0]
  left := fun _ => none

/-- A coroutine was changed. -/
def setRoutine (s : Stacks) (c : ℕ) (r : Routine) : Stacks :=
  { s with routine := Function.update s.routine c (some r) }

/-- A stack was changed. -/
def setStack (s : Stacks) (k : ℕ) (m : StackMem) : Stacks :=
  { s with stack := Function.update s.stack k m }

/-- The size of a stack in `co_create_env`. -/
def stackSize (size : ℤ) : ℕ :=
  let size := if size ≤ 0 then 128 * 1024 else if size > 1024 * 1024 * 8 then 1024 * 1024 * 8
    else size.toNat
  if size &&& 0xFFF ≠ 0 then size - (size &&& 0xFFF) + 0x1000 else size

/-- `co_alloc_sharestack`. -/
def allocSharestack (s : Stacks) (count size : ℕ) : Stacks :=
  { s with
    stack := fun k => if s.numStack ≤ k ∧ k < s.numStack + count then ⟨none, size, fun _ => 0⟩
      else s.stack k
    numStack := s.numStack + count
    share := Function.update s.share s.numShare (some ⟨0, size, count, s.numStack⟩)
    numShare := s.numShare + 1 }

/-- `co_create_env`, with a new coroutine on stack `k`. -/
def createOn (s : Stacks) (k : ℕ) (isShare : Bool) : Stacks :=
  { s.setRoutine s.numCo ⟨k, false, false, isShare, 0, []⟩ with numCo := s.numCo + 1 }

/-- `co_create`: with a stack of its own, or with one of a `stShareStack_t`, which
`co_get_stackmem` takes in turn. -/
def create (s : Stacks) (size : ℤ) : Option ℕ → Option Stacks
  | none =>
    let s' := (s.setStack s.numStack ⟨none, stackSize size, fun _ => 0⟩).createOn s.numStack false
    some { s' with numStack := s.numStack + 1 }
  | some i => do
    let sh ← s.share i
    let k := sh.stackArray + sh.allocIdx % sh.count
    let sh := { sh with allocIdx := sh.allocIdx + 1 }
    some ({ s with share := Function.update s.share i (some sh) }.createOn k true)

/-- `co_release`. -/
def release (s : Stacks) (c : ℕ) : Stacks :=
  { s with routine := Function.update s.routine c none }

/-- A coroutine with what it has on its stack in its `save_buffer`. -/
def saved (r : Routine) (m : StackMem) : Routine :=
  { r with saveBuffer := readBytes m.bytes r.stackSp (m.stackBp - r.stackSp) }

/-- `save_stack_buffer`. -/
def saveStackBuffer (s : Stacks) (c : ℕ) : Option Stacks := do
  let r ← s.routine c
  some (s.setRoutine c (saved r (s.stack r.stackMem)))

/-- `co_swap` up to `coctx_swap`, with the address of its local variable. -/
def swapOut (s : Stacks) (curr pending sp : ℕ) : Option Stacks := do
  let r ← s.routine curr
  let s := { s.setRoutine curr { r with stackSp := sp } with
    left := Function.update s.left curr (some (s.stack r.stackMem).bytes) }
  let p ← s.routine pending
  if p.cIsShareStack then
    let m := s.stack p.stackMem
    let s := { s.setStack p.stackMem { m with occupyCo := some pending } with
      pendingCo := some pending
      occupyCo := m.occupyCo }
    match m.occupyCo with
    | some o => if o ≠ pending then s.saveStackBuffer o else some s
    | none => some s
  else some { s with pendingCo := none, occupyCo := none }

/-- `co_swap` after `coctx_swap`. -/
def swapIn (s : Stacks) : Option Stacks :=
  match s.occupyCo, s.pendingCo with
  | some o, some p =>
    if o ≠ p then do
      let r ← s.routine p
      let m := s.stack r.stackMem
      some (s.setStack r.stackMem { m with bytes := writeBytes m.bytes r.stackSp r.saveBuffer })
    else some s
  | _, _ => some s

/-- A switch. The coroutine it goes to goes on in `co_swap`, unless it has not run. -/
def coSwap (s : Stacks) (curr pending sp : ℕ) (started : Bool) : Option Stacks := do
  let s ← s.swapOut curr pending sp
  let s ← if started then s.swapIn else some s
  some { s with left := Function.update s.left pending none }

/-- `co_resume`. `pCallStack` has 128 entries: a write behind them is undefined. -/
def coResume (s : Stacks) (c sp : ℕ) : Option Stacks := do
  let r ← s.routine c
  let curr ← s.pCallStack.head?
  if s.pCallStack.length < 128 then
    let s := { s.setRoutine c { r with cStart := true } with pCallStack := c :: s.pCallStack }
    s.coSwap curr c sp r.cStart
  else none

/-- `co_yield_env`. -/
def coYield (s : Stacks) (sp : ℕ) : Option Stacks :=
  match s.pCallStack with
  | curr :: last :: rest => { s with pCallStack := last :: rest }.coSwap curr last sp true
  | _ => none

/-- The end of `CoRoutineFunc`. -/
def finish (s : Stacks) (sp : ℕ) : Option Stacks := do
  let curr ← s.pCallStack.head?
  let r ← s.routine curr
  (s.setRoutine curr { r with cEnd := true }).coYield sp

/-- The running coroutine writes a byte to its stack. -/
def write (s : Stacks) (a : ℕ) (b : UInt8) : Option Stacks := do
  let c ← s.pCallStack.head?
  let r ← s.routine c
  let m := s.stack r.stackMem
  some (s.setStack r.stackMem { m with bytes := Function.update m.bytes a b })

/-- The steps. -/
inductive Act
  | allocShare (count size : ℕ)
  | create (size : ℤ) (share : Option ℕ)
  | release (c : ℕ)
  | write (a : ℕ) (b : UInt8)
  | resume (c sp : ℕ)
  | yield (sp : ℕ)
  | finish (sp : ℕ)

/-- What a step does. -/
def step (s : Stacks) : Act → Option Stacks
  | .allocShare count size => some (s.allocSharestack count size)
  | .create size share => s.create size share
  | .release c => some (s.release c)
  | .write a b => s.write a b
  | .resume c sp => s.coResume c sp
  | .yield sp => s.coYield sp
  | .finish sp => s.finish sp

/-- The running coroutine has its stack pointer in its stack. -/
def Fits (s : Stacks) (sp : ℕ) : Prop :=
  ∀ c ∈ s.pCallStack.head?, ∀ r ∈ s.routine c, sp ≤ (s.stack r.stackMem).stackBp

instance (s : Stacks) (sp : ℕ) : Decidable (s.Fits sp) :=
  inferInstanceAs (Decidable (∀ c ∈ s.pCallStack.head?, ∀ r ∈ s.routine c, _))

/-- What the callers of libco promise: what is resumed or released is not on the call stack and has
not been released, what is resumed has not ended, and only a coroutine that was resumed yields. -/
def Allowed (s : Stacks) : Act → Prop
  | .allocShare count _ => 0 < count
  | .create _ share => ∀ i ∈ share, s.share i ≠ none
  | .release c => s.routine c ≠ none ∧ c ∉ s.pCallStack
  | .write _ _ => True
  | .resume c sp => (∃ r ∈ s.routine c, r.cEnd = false) ∧ c ∉ s.pCallStack ∧ s.Fits sp
  | .yield sp => 2 ≤ s.pCallStack.length ∧ s.Fits sp
  | .finish sp => 2 ≤ s.pCallStack.length ∧ s.Fits sp

instance (s : Stacks) : ∀ a, Decidable (s.Allowed a)
  | .allocShare count _ => inferInstanceAs (Decidable (0 < count))
  | .create _ share => inferInstanceAs (Decidable (∀ i ∈ share, s.share i ≠ none))
  | .release c => inferInstanceAs (Decidable (s.routine c ≠ none ∧ c ∉ s.pCallStack))
  | .write _ _ => inferInstanceAs (Decidable True)
  | .resume c _ => inferInstanceAs (Decidable ((∃ r ∈ s.routine c, r.cEnd = false) ∧ _ ∧ _))
  | .yield sp => inferInstanceAs (Decidable (2 ≤ s.pCallStack.length ∧ s.Fits sp))
  | .finish sp => inferInstanceAs (Decidable (2 ≤ s.pCallStack.length ∧ s.Fits sp))

/-- The coroutine that a step switches to. -/
def target (s : Stacks) : Act → Option ℕ
  | .resume c _ => some c
  | .yield _ | .finish _ => s.pCallStack[1]?
  | _ => none

/-- `pCallStack` has an entry for the coroutine that a step resumes. -/
def Room (s : Stacks) : Act → Prop
  | .resume _ _ => s.pCallStack.length < 128
  | _ => True

instance (s : Stacks) : ∀ a, Decidable (s.Room a)
  | .resume _ _ => inferInstanceAs (Decidable (_ < _))
  | .allocShare _ _ | .create _ _ | .release _ | .write _ _ | .yield _ | .finish _ =>
    inferInstanceAs (Decidable True)

/-- The address of the local variable of `co_swap` in a step. -/
def Act.sp : Act → ℕ
  | .resume _ sp | .yield sp | .finish sp => sp
  | _ => 0

/-! ## What is left on the stacks -/

/-- What was read is written back. -/
theorem writeBytes_readBytes {f g : ℕ → UInt8} {a n x : ℕ} (h : a ≤ x) (hx : x < a + n) :
    writeBytes g a (readBytes f a n) x = f x := by
  have hlt : x - a < n := by omega
  rw [writeBytes, if_pos h, readBytes, List.getD_eq_getElem?_getD, List.getElem?_map,
    List.getElem?_range hlt, Option.map_some, Option.getD_some, Nat.add_sub_cancel' h]

theorem readBytes_congr {f g : ℕ → UInt8} {a n : ℕ} (h : ∀ x, a ≤ x → x < a + n → f x = g x) :
    readBytes f a n = readBytes g a n := by
  refine List.map_congr_left fun i hi => ?_
  rw [List.mem_range] at hi
  exact h _ (by omega) (by omega)

/-- Which coroutine occupies which stack while `run` is running, if any, and what the others left:
it is on their stack, or in their `save_buffer` if another one occupies the stack. -/
structure Kept (routine : ℕ → Option Routine) (stack : ℕ → StackMem)
    (left : ℕ → Option (ℕ → UInt8)) (run : Option ℕ) : Prop where
  own : ∀ c d r u, routine c = some r → routine d = some u → c ≠ d → r.stackMem = u.stackMem →
    r.cIsShareStack = true
  occ_mem : ∀ k o r, (stack k).occupyCo = some o → routine o = some r →
    r.stackMem = k ∧ r.cIsShareStack = true ∧ (left o ≠ none ∨ run = some o)
  occ_run : ∀ c r, run = some c → routine c = some r → r.cIsShareStack = true →
    (stack r.stackMem).occupyCo = some c
  occ_some : ∀ c r, routine c = some r → r.cIsShareStack = true → left c ≠ none →
    (stack r.stackMem).occupyCo ≠ none
  sp_le : ∀ c r, routine c = some r → left c ≠ none → r.stackSp ≤ (stack r.stackMem).stackBp
  saved : ∀ c r f, routine c = some r → left c = some f → r.cIsShareStack = true →
    (stack r.stackMem).occupyCo ≠ some c →
      r.saveBuffer = readBytes f r.stackSp ((stack r.stackMem).stackBp - r.stackSp)
  intact : ∀ c r f, routine c = some r → left c = some f →
    (r.cIsShareStack = true → (stack r.stackMem).occupyCo = some c) →
      ∀ x, r.stackSp ≤ x → x < (stack r.stackMem).stackBp → (stack r.stackMem).bytes x = f x

namespace Kept

variable {R : ℕ → Option Routine} {S : ℕ → StackMem} {L : ℕ → Option (ℕ → UInt8)} {run : Option ℕ}
  {c p o sp : ℕ} {r u : Routine}

/-- The running coroutine calls `co_swap`. -/
theorem suspend (h : Kept R S L (some c)) (hc : R c = some r)
    (hsp : sp ≤ (S r.stackMem).stackBp) :
    Kept (Function.update R c (some { r with stackSp := sp })) S
      (Function.update L c (some (S r.stackMem).bytes)) none := by
  have hL : ∀ d, L d ≠ none → Function.update L c (some (S r.stackMem).bytes) d ≠ none := by
    intro d hd
    by_cases hdc : d = c
    · simp [hdc]
    · rwa [Function.update_of_ne hdc]
  constructor
  case own =>
    intro d e x y hd he hne hk
    rcases update_some_cases hd with ⟨rfl, rfl⟩ | ⟨-, hd'⟩ <;>
      rcases update_some_cases he with ⟨rfl, rfl⟩ | ⟨-, he'⟩
    · exact absurd rfl hne
    · exact h.own d e r y hc he' hne hk
    · exact h.own d e x r hd' hc hne hk
    · exact h.own d e x y hd' he' hne hk
  case occ_mem =>
    intro k o x ho hx
    rcases update_some_cases hx with ⟨rfl, rfl⟩ | ⟨hoc, hx⟩
    · obtain ⟨h₁, h₂, -⟩ := h.occ_mem k o r ho hc
      exact ⟨h₁, h₂, .inl (by simp)⟩
    · obtain ⟨h₁, h₂, h₃⟩ := h.occ_mem k o x ho hx
      refine ⟨h₁, h₂, .inl (hL o (h₃.resolve_right fun e => hoc ?_))⟩
      exact (Option.some.inj e).symm
  case occ_run => simp
  case occ_some =>
    intro d x hx hs hd
    rcases update_some_cases hx with ⟨rfl, rfl⟩ | ⟨hdc, hx⟩
    · dsimp only
      rw [h.occ_run d r rfl hc hs]
      simp
    · rw [Function.update_of_ne hdc] at hd
      exact h.occ_some d x hx hs hd
  case sp_le =>
    intro d x hx hd
    rcases update_some_cases hx with ⟨rfl, rfl⟩ | ⟨hdc, hx⟩
    · exact hsp
    · rw [Function.update_of_ne hdc] at hd
      exact h.sp_le d x hx hd
  case saved =>
    intro d x f hx hd hs ho
    rcases update_some_cases hx with ⟨rfl, rfl⟩ | ⟨hdc, hx⟩
    · exact absurd (h.occ_run d r rfl hc hs) ho
    · rw [Function.update_of_ne hdc] at hd
      exact h.saved d x f hx hd hs ho
  case intact =>
    intro d x f hx hd ho
    rcases update_some_cases hx with ⟨rfl, rfl⟩ | ⟨hdc, hx⟩
    · rw [Function.update_self] at hd
      rw [← Option.some.inj hd]
      exact fun _ _ _ => rfl
    · rw [Function.update_of_ne hdc] at hd
      exact h.intact d x f hx hd ho

/-- A coroutine goes on that has its stack for itself. -/
theorem runOwn (h : Kept R S L none) (hp : R p = some r) (hs : r.cIsShareStack = false) :
    Kept R S (Function.update L p none) (some p) := by
  have hL : ∀ d f, Function.update L p none d = some f → L d = some f := by
    intro d f hd
    exact eq_of_update_eq hd (by simp)
  have hL' : ∀ d, Function.update L p none d ≠ none → L d ≠ none := by
    intro d hd e
    by_cases hdp : d = p
    · simp [hdp] at hd
    · rw [Function.update_of_ne hdp] at hd
      exact hd e
  constructor
  case own => exact h.own
  case occ_mem =>
    intro k o x ho hx
    obtain ⟨h₁, h₂, h₃⟩ := h.occ_mem k o x ho hx
    by_cases hop : o = p
    · exact ⟨h₁, h₂, .inr (by rw [hop])⟩
    · exact ⟨h₁, h₂, .inl (by rw [Function.update_of_ne hop]; simpa using h₃)⟩
  case occ_run =>
    intro d x hd hx hsx
    obtain rfl := Option.some.inj hd
    obtain rfl := Option.some.inj (hp.symm.trans hx)
    rw [hs] at hsx
    cases hsx
  case occ_some => exact fun d x hx hsx hd => h.occ_some d x hx hsx (hL' d hd)
  case sp_le => exact fun d x hx hd => h.sp_le d x hx (hL' d hd)
  case saved => exact fun d x f hx hd => h.saved d x f hx (hL d f hd)
  case intact => exact fun d x f hx hd => h.intact d x f hx (hL d f hd)

/-- The coroutines that do not run, on a stack that another one occupies from now on. -/
theorem of_occupied (h : Kept R S L none) (hp : R p = some r) (hs : r.cIsShareStack = true)
    {m : StackMem} (hm : m.occupyCo = some p) (hbp : m.stackBp = (S r.stackMem).stackBp)
    (ho : ∀ c u f, c ≠ p → R c = some u → L c = some f → u.stackMem = r.stackMem →
      u.saveBuffer = readBytes f u.stackSp (m.stackBp - u.stackSp)) :
    Kept R (Function.update S r.stackMem m) (Function.update L p none) (some p) := by
  have hL : ∀ d, Function.update L p none d ≠ none → d ≠ p ∧ L d ≠ none := by
    intro d hd
    by_cases hdp : d = p
    · simp [hdp] at hd
    · rw [Function.update_of_ne hdp] at hd
      exact ⟨hdp, hd⟩
  have hL' : ∀ d f, Function.update L p none d = some f → d ≠ p ∧ L d = some f := by
    intro d f hd
    exact ⟨(hL d (by rw [hd]; simp)).1, eq_of_update_eq hd (by simp)⟩
  constructor
  case own => exact h.own
  case occ_mem =>
    intro k o x hk hx
    by_cases hkr : k = r.stackMem
    · subst hkr
      rw [Function.update_self, hm] at hk
      obtain rfl := Option.some.inj hk
      obtain rfl := Option.some.inj (hp.symm.trans hx)
      exact ⟨rfl, hs, .inr rfl⟩
    · rw [Function.update_of_ne hkr] at hk
      obtain ⟨h₁, h₂, h₃⟩ := h.occ_mem k o x hk hx
      refine ⟨h₁, h₂, .inl ?_⟩
      have hop : o ≠ p := by
        rintro rfl
        obtain rfl := Option.some.inj (hp.symm.trans hx)
        exact hkr h₁.symm
      rw [Function.update_of_ne hop]
      simpa using h₃
  case occ_run =>
    intro d x hd hx _
    obtain rfl := Option.some.inj hd
    obtain rfl := Option.some.inj (hp.symm.trans hx)
    rw [Function.update_self, hm]
  case occ_some =>
    intro d x hx hsx hd
    by_cases hxr : x.stackMem = r.stackMem
    · rw [hxr, Function.update_self, hm]
      simp
    · rw [Function.update_of_ne hxr]
      exact h.occ_some d x hx hsx (hL d hd).2
  case sp_le =>
    intro d x hx hd
    have := h.sp_le d x hx (hL d hd).2
    by_cases hxr : x.stackMem = r.stackMem
    · rwa [hxr, Function.update_self, hbp, ← hxr]
    · rwa [Function.update_of_ne hxr]
  case saved =>
    intro d x f hx hd hsx hne
    obtain ⟨hdp, hd⟩ := hL' d f hd
    by_cases hxr : x.stackMem = r.stackMem
    · rw [hxr, Function.update_self]
      exact ho d x f hdp hx hd hxr
    · rw [Function.update_of_ne hxr] at hne ⊢
      exact h.saved d x f hx hd hsx hne
  case intact =>
    intro d x f hx hd hocc
    obtain ⟨hdp, hd⟩ := hL' d f hd
    by_cases hxr : x.stackMem = r.stackMem
    · have hsx := h.own d p x r hx hp hdp hxr
      have := hocc hsx
      rw [hxr, Function.update_self, hm] at this
      exact absurd (Option.some.inj this).symm hdp
    · rw [Function.update_of_ne hxr] at hocc ⊢
      exact h.intact d x f hx hd hocc

/-- A coroutine goes on that occupies its stack, or that is the first to run there. -/
theorem runShared (h : Kept R S L none) (hp : R p = some r) (hs : r.cIsShareStack = true)
    (ho : ∀ o, (S r.stackMem).occupyCo = some o → o = p) :
    Kept R (Function.update S r.stackMem { S r.stackMem with occupyCo := some p })
      (Function.update L p none) (some p) := by
  refine h.of_occupied hp hs rfl rfl fun c u f hcp hu hf hk => ?_
  rw [← hk]
  refine h.saved c u f hu hf (h.own c p u r hu hp hcp hk) fun e => hcp ?_
  exact ho c (hk ▸ e)

/-- The occupant of a stack is saved. -/
theorem save (h : Kept R S L none) {k : ℕ} (ho : (S k).occupyCo = some o) (hu : R o = some u) :
    Kept (Function.update R o (some (Stacks.saved u (S k)))) S L none := by
  obtain ⟨rfl, hsu, -⟩ := h.occ_mem k o u ho hu
  constructor
  case own =>
    intro d e x y hd he hne hk
    rcases update_some_cases hd with ⟨rfl, rfl⟩ | ⟨-, hd'⟩ <;>
      rcases update_some_cases he with ⟨rfl, rfl⟩ | ⟨-, he'⟩
    · exact absurd rfl hne
    · exact hsu
    · exact h.own d e x u hd' hu hne hk
    · exact h.own d e x y hd' he' hne hk
  case occ_mem =>
    intro k' o' x hk hx
    rcases update_some_cases hx with ⟨rfl, rfl⟩ | ⟨-, hx⟩
    · exact h.occ_mem k' o' u hk hu
    · exact h.occ_mem k' o' x hk hx
  case occ_run => simp
  case occ_some =>
    intro d x hx hs hd
    rcases update_some_cases hx with ⟨rfl, rfl⟩ | ⟨-, hx⟩
    · exact h.occ_some d u hu hs hd
    · exact h.occ_some d x hx hs hd
  case sp_le =>
    intro d x hx hd
    rcases update_some_cases hx with ⟨rfl, rfl⟩ | ⟨-, hx⟩
    · exact h.sp_le d u hu hd
    · exact h.sp_le d x hx hd
  case saved =>
    intro d x f hx hd hs hne
    rcases update_some_cases hx with ⟨rfl, rfl⟩ | ⟨-, hx⟩
    · exact absurd ho hne
    · exact h.saved d x f hx hd hs hne
  case intact =>
    intro d x f hx hd hocc
    rcases update_some_cases hx with ⟨rfl, rfl⟩ | ⟨-, hx⟩
    · exact h.intact d u f hu hd hocc
    · exact h.intact d x f hx hd hocc

/-- A coroutine goes on after the occupant of its stack was saved. -/
theorem runSaved (h : Kept R S L none) (hp : R p = some r) (hs : r.cIsShareStack = true)
    (ho : (S r.stackMem).occupyCo = some o) (hop : o ≠ p) (hu : R o = some u) (b : ℕ → UInt8) :
    Kept (Function.update R o (some (Stacks.saved u (S r.stackMem))))
      (Function.update S r.stackMem { S r.stackMem with occupyCo := some p, bytes := b })
      (Function.update L p none) (some p) := by
  have hp' : Function.update R o (some (Stacks.saved u (S r.stackMem))) p = some r := by
    rwa [Function.update_of_ne (Ne.symm hop)]
  refine (h.save ho hu).of_occupied hp' hs rfl rfl fun c x f hcp hx hf hk => ?_
  rcases update_some_cases hx with ⟨rfl, rfl⟩ | ⟨hco, hx⟩
  · obtain ⟨-, hsu, -⟩ := h.occ_mem _ c u ho hu
    have hk' : u.stackMem = r.stackMem := hk
    refine readBytes_congr fun x hx hlt => ?_
    have hle := h.sp_le c u hu (by rw [hf]; simp)
    rw [← hk'] at ho hlt ⊢
    exact h.intact c u f hu hf (fun _ => ho) x hx (by omega)
  · dsimp only
    rw [← hk]
    refine h.saved c x f hx hf (h.own c p x r hx hp hcp hk) fun e => hco ?_
    rw [hk, ho] at e
    exact (Option.some.inj e).symm

/-- A coroutine changed that keeps its stack. -/
theorem setFlags (h : Kept R S L run) (hc : R c = some r) (hk : u.stackMem = r.stackMem)
    (hs : u.cIsShareStack = r.cIsShareStack) (hsp : u.stackSp = r.stackSp)
    (hb : u.saveBuffer = r.saveBuffer) : Kept (Function.update R c (some u)) S L run := by
  have key : ∀ d x, Function.update R c (some u) d = some x → ∃ y, R d = some y ∧
      x.stackMem = y.stackMem ∧ x.cIsShareStack = y.cIsShareStack ∧ x.stackSp = y.stackSp ∧
        x.saveBuffer = y.saveBuffer := by
    intro d x hx
    rcases update_some_cases hx with ⟨rfl, rfl⟩ | ⟨-, hx⟩
    · exact ⟨r, hc, hk, hs, hsp, hb⟩
    · exact ⟨x, hx, rfl, rfl, rfl, rfl⟩
  constructor
  case own =>
    intro d e x y hd he hne hxy
    obtain ⟨x', hd', hk₁, hs₁, -⟩ := key d x hd
    obtain ⟨y', he', hk₂, -⟩ := key e y he
    rw [hs₁]
    exact h.own d e x' y' hd' he' hne (by rw [← hk₁, ← hk₂, hxy])
  case occ_mem =>
    intro k o x ho hx
    obtain ⟨x', hx', hk₁, hs₁, -⟩ := key o x hx
    rw [hk₁, hs₁]
    exact h.occ_mem k o x' ho hx'
  case occ_run =>
    intro d x hd hx hsx
    obtain ⟨x', hx', hk₁, hs₁, -⟩ := key d x hx
    rw [hk₁]
    exact h.occ_run d x' hd hx' (by rw [← hs₁, hsx])
  case occ_some =>
    intro d x hx hsx hd
    obtain ⟨x', hx', hk₁, hs₁, -⟩ := key d x hx
    rw [hk₁]
    exact h.occ_some d x' hx' (by rw [← hs₁, hsx]) hd
  case sp_le =>
    intro d x hx hd
    obtain ⟨x', hx', hk₁, -, hsp₁, -⟩ := key d x hx
    rw [hk₁, hsp₁]
    exact h.sp_le d x' hx' hd
  case saved =>
    intro d x f hx hd hsx ho
    obtain ⟨x', hx', hk₁, hs₁, hsp₁, hb₁⟩ := key d x hx
    rw [hk₁, hsp₁, hb₁]
    exact h.saved d x' f hx' hd (by rw [← hs₁, hsx]) (by rw [← hk₁]; exact ho)
  case intact =>
    intro d x f hx hd ho
    obtain ⟨x', hx', hk₁, hs₁, hsp₁, -⟩ := key d x hx
    rw [hk₁, hs₁] at ho
    rw [hk₁, hsp₁]
    exact h.intact d x' f hx' hd ho

/-- A coroutine released. -/
theorem release (h : Kept R S L run) (c : ℕ) : Kept (Function.update R c none) S L run := by
  have key : ∀ d x, Function.update R c none d = some x → R d = some x := fun d x hx =>
    eq_of_update_eq hx (by simp)
  constructor
  case own => exact fun d e x y hd he => h.own d e x y (key d x hd) (key e y he)
  case occ_mem => exact fun k o x ho hx => h.occ_mem k o x ho (key o x hx)
  case occ_run => exact fun d x hd hx => h.occ_run d x hd (key d x hx)
  case occ_some => exact fun d x hx => h.occ_some d x (key d x hx)
  case sp_le => exact fun d x hx => h.sp_le d x (key d x hx)
  case saved => exact fun d x f hx => h.saved d x f (key d x hx)
  case intact => exact fun d x f hx => h.intact d x f (key d x hx)

/-- A new coroutine, alone on its stack or with others that share it. -/
theorem create (h : Kept R S L run) (hc : L c = none) (hrun : run ≠ some c)
    (hocc : ∀ k, (S k).occupyCo ≠ some c)
    (hr : ∀ d u, R d = some u → u.stackMem = r.stackMem →
      r.cIsShareStack = true ∧ u.cIsShareStack = true) :
    Kept (Function.update R c (some r)) S L run := by
  constructor
  case own =>
    intro d e x y hd he hne hk
    rcases update_some_cases hd with ⟨rfl, rfl⟩ | ⟨-, hd'⟩ <;>
      rcases update_some_cases he with ⟨rfl, rfl⟩ | ⟨-, he'⟩
    · exact absurd rfl hne
    · exact (hr e y he' hk.symm).1
    · exact (hr d x hd' hk).2
    · exact h.own d e x y hd' he' hne hk
  case occ_mem =>
    intro k o x ho hx
    rcases update_some_cases hx with ⟨rfl, rfl⟩ | ⟨-, hx⟩
    · exact absurd ho (hocc k)
    · exact h.occ_mem k o x ho hx
  case occ_run =>
    intro d x hd hx
    rcases update_some_cases hx with ⟨rfl, rfl⟩ | ⟨-, hx⟩
    · exact absurd hd hrun
    · exact h.occ_run d x hd hx
  case occ_some =>
    intro d x hx hs hd
    rcases update_some_cases hx with ⟨rfl, rfl⟩ | ⟨-, hx⟩
    · exact absurd hc hd
    · exact h.occ_some d x hx hs hd
  case sp_le =>
    intro d x hx hd
    rcases update_some_cases hx with ⟨rfl, rfl⟩ | ⟨-, hx⟩
    · exact absurd hc hd
    · exact h.sp_le d x hx hd
  case saved =>
    intro d x f hx hd
    rcases update_some_cases hx with ⟨rfl, rfl⟩ | ⟨-, hx⟩
    · rw [hc] at hd
      cases hd
    · exact h.saved d x f hx hd
  case intact =>
    intro d x f hx hd
    rcases update_some_cases hx with ⟨rfl, rfl⟩ | ⟨-, hx⟩
    · rw [hc] at hd
      cases hd
    · exact h.intact d x f hx hd

/-- Stacks of no coroutine changed. -/
theorem congr_stack (h : Kept R S L run) {T : ℕ → StackMem}
    (hT : ∀ c r, R c = some r → T r.stackMem = S r.stackMem)
    (hocc : ∀ k o, (T k).occupyCo = some o → (S k).occupyCo = some o) : Kept R T L run := by
  constructor
  case own => exact h.own
  case occ_mem => exact fun k o x ho => h.occ_mem k o x (hocc k o ho)
  case occ_run =>
    intro d x hd hx
    rw [hT d x hx]
    exact h.occ_run d x hd hx
  case occ_some =>
    intro d x hx
    rw [hT d x hx]
    exact h.occ_some d x hx
  case sp_le =>
    intro d x hx
    rw [hT d x hx]
    exact h.sp_le d x hx
  case saved =>
    intro d x f hx
    rw [hT d x hx]
    exact h.saved d x f hx
  case intact =>
    intro d x f hx
    rw [hT d x hx]
    exact h.intact d x f hx

/-- The running coroutine writes to its stack. -/
theorem write (h : Kept R S L (some c)) (hc : R c = some r) (hl : L c = none) (b : ℕ → UInt8) :
    Kept R (Function.update S r.stackMem { S r.stackMem with bytes := b }) L (some c) := by
  have hT : ∀ k, (Function.update S r.stackMem { S r.stackMem with bytes := b } k).occupyCo =
      (S k).occupyCo := fun k => apply_update_eq (g := StackMem.occupyCo) (by rfl) k
  have hbp : ∀ k, (Function.update S r.stackMem { S r.stackMem with bytes := b } k).stackBp =
      (S k).stackBp := fun k => apply_update_eq (g := StackMem.stackBp) (by rfl) k
  constructor
  case own => exact h.own
  case occ_mem => exact fun k o x ho => h.occ_mem k o x (by rw [← hT]; exact ho)
  case occ_run =>
    intro d x hd hx
    rw [hT]
    exact h.occ_run d x hd hx
  case occ_some =>
    intro d x hx
    rw [hT]
    exact h.occ_some d x hx
  case sp_le =>
    intro d x hx
    rw [hbp]
    exact h.sp_le d x hx
  case saved =>
    intro d x f hx
    rw [hT, hbp]
    exact h.saved d x f hx
  case intact =>
    intro d x f hx hd ho
    rw [hT] at ho
    rw [hbp]
    by_cases hk : x.stackMem = r.stackMem
    · have hdc : d ≠ c := by
        rintro rfl
        rw [hl] at hd
        cases hd
      have hsx := h.own d c x r hx hc hdc hk
      have hsr := h.own c d r x hc hx (Ne.symm hdc) hk.symm
      have := ho hsx
      rw [hk, h.occ_run c r rfl hc hsr] at this
      exact absurd (Option.some.inj this).symm hdc
    · rw [Function.update_of_ne hk]
      exact h.intact d x f hx hd ho

end Kept

/-! ## Switches -/

/-- The occupant of the stack of `p` is another coroutine, and has been released. -/
def Dangling (s : Stacks) (p : ℕ) : Prop :=
  ∃ r o, s.routine p = some r ∧ r.cIsShareStack = true ∧
    (s.stack r.stackMem).occupyCo = some o ∧ o ≠ p ∧ s.routine o = none

/-- A coroutine but for its `save_buffer`. -/
def fixed (r : Routine) : Routine := { r with saveBuffer := [] }

/-- What a switch from `c` to `p` does, where `sp` is the address of the local variable. -/
structure Switched (s s' : Stacks) (c : ℕ) (r : Routine) (p sp : ℕ) : Prop where
  kept : Kept s'.routine s'.stack s'.left (some p)
  pCallStack : s'.pCallStack = s.pCallStack
  numCo : s'.numCo = s.numCo
  numStack : s'.numStack = s.numStack
  share : s'.share = s.share
  left : s'.left =
    Function.update (Function.update s.left c (some (s.stack r.stackMem).bytes)) p none
  stackBp : ∀ k, (s'.stack k).stackBp = (s.stack k).stackBp
  routine : ∀ d, (s'.routine d).map fixed =
    (Function.update s.routine c (some { r with stackSp := sp }) d).map fixed
  occupy : ∀ k o, (s'.stack k).occupyCo = some o → o = p ∨ (s.stack k).occupyCo = some o
  restored : ∀ u f, s.routine p = some u → s.left p = some f → ∀ x, u.stackSp ≤ x →
    x < (s.stack u.stackMem).stackBp → (s'.stack u.stackMem).bytes x = f x

variable {s s' : Stacks} {c p sp : ℕ} {r u : Routine} {started : Bool}

theorem map_fixed_update {R : ℕ → Option Routine} (hc : R c = some r) (hu : fixed u = fixed r)
    (d : ℕ) : (Function.update R c (some u) d).map fixed = (R d).map fixed := by
  by_cases hd : d = c
  · rw [hd, Function.update_self, hc, Option.map_some, Option.map_some, hu]
  · rw [Function.update_of_ne hd]

theorem stackBp_update {S : ℕ → StackMem} {k : ℕ} {m : StackMem} (hm : m.stackBp = (S k).stackBp)
    (l : ℕ) : (Function.update S k m l).stackBp = (S l).stackBp :=
  apply_update_eq (g := StackMem.stackBp) hm l

theorem occupy_update {S : ℕ → StackMem} {k l o : ℕ} {m : StackMem} (hm : m.occupyCo = some p)
    (h : (Function.update S k m l).occupyCo = some o) : o = p ∨ (S l).occupyCo = some o := by
  by_cases hl : l = k
  · rw [hl, Function.update_self, hm] at h
    exact .inl (Option.some.inj h).symm
  · rw [Function.update_of_ne hl] at h
    exact .inr h

/-- **`co_swap`** is undefined if the occupant of the stack it goes to has been released. -/
theorem coSwap_dangling (hc : s.routine c = some r) (h : s.Dangling p) :
    s.coSwap c p sp started = none := by
  obtain ⟨u, o, hp, hs, ho, hop, hfree⟩ := h
  have hoc : o ≠ c := by
    rintro rfl
    rw [hc] at hfree
    cases hfree
  by_cases hpc : p = c
  · subst hpc
    obtain rfl := Option.some.inj (hc.symm.trans hp)
    simp [coSwap, swapOut, hc, setRoutine, setStack, hs, ho, hop, saveStackBuffer, hfree]
  · simp [coSwap, swapOut, hc, setRoutine, setStack, hs, ho, hop, saveStackBuffer, hoc, hfree, hpc,
      hp]

/-- **`co_resume`** writes behind `pCallStack` if all its entries are in use. -/
theorem coResume_full (h : ¬s.pCallStack.length < 128) : s.coResume p sp = none := by
  cases hp : s.routine p with
  | none => simp [coResume, hp]
  | some u => cases hc : s.pCallStack.head? <;> simp [coResume, hp, hc, h]

/-- **`co_swap`** where the occupant is there. -/
theorem coSwap_spec (h : Kept s.routine s.stack s.left (some c)) (hc : s.routine c = some r)
    (hp : s.routine p = some u) (hcp : c ≠ p) (hsp : sp ≤ (s.stack r.stackMem).stackBp)
    (hst : s.left p ≠ none → started = true) (hd : ¬s.Dangling p) :
    ∃ s', s.coSwap c p sp started = some s' ∧ Switched s s' c r p sp := by
  have hk := h.suspend hc hsp
  have hp₁ : Function.update s.routine c (some { r with stackSp := sp }) p = some u := by
    rwa [Function.update_of_ne (Ne.symm hcp)]
  have hleft : ∀ f, s.left p = some f →
      Function.update s.left c (some (s.stack r.stackMem).bytes) p = some f := by
    intro f hf
    rwa [Function.update_of_ne (Ne.symm hcp)]
  by_cases hs : u.cIsShareStack = true
  · -- a switch to a stack with the occupant `o`, which leaves `b` there
    by_cases hsave : ∃ o, (s.stack u.stackMem).occupyCo = some o ∧ o ≠ p
    · obtain ⟨o, ho, hop⟩ := hsave
      obtain ⟨v, hv⟩ : ∃ v, Function.update s.routine c (some { r with stackSp := sp }) o =
          some v := by
        by_cases hoc : o = c
        · exact ⟨_, by rw [hoc, Function.update_self]⟩
        · rw [Function.update_of_ne hoc]
          exact Option.ne_none_iff_exists'.mp fun hfree => hd ⟨u, o, hp, hs, ho, hop, hfree⟩
      obtain ⟨hvk, -, -⟩ := hk.occ_mem _ o v ho hv
      let b := if started then
        writeBytes (s.stack u.stackMem).bytes u.stackSp u.saveBuffer else (s.stack u.stackMem).bytes
      refine ⟨{ s with
        routine := Function.update (Function.update s.routine c (some { r with stackSp := sp })) o
          (some (saved v (s.stack u.stackMem)))
        stack := Function.update s.stack u.stackMem
          { s.stack u.stackMem with occupyCo := some p, bytes := b }
        left := Function.update (Function.update s.left c (some (s.stack r.stackMem).bytes)) p none
        pendingCo := some p
        occupyCo := some o }, ?_, ?_⟩
      · let s₂ : Stacks := { s with
          routine := Function.update (Function.update s.routine c (some { r with stackSp := sp })) o
            (some (saved v (s.stack u.stackMem)))
          stack := Function.update s.stack u.stackMem
            { s.stack u.stackMem with occupyCo := some p }
          left := Function.update s.left c (some (s.stack r.stackMem).bytes)
          pendingCo := some p
          occupyCo := some o }
        have hpo : s₂.routine p = some u := (Function.update_of_ne (Ne.symm hop) ..).trans hp₁
        have e₁ : s.swapOut c p sp = some s₂ := by
          simp [swapOut, hc, setRoutine, setStack, hp₁, hs, ho, hop, saveStackBuffer, hv, hvk]
          rfl
        have e₂ : s₂.swapIn = some (s₂.setStack u.stackMem { s.stack u.stackMem with
            occupyCo := some p
            bytes := writeBytes (s.stack u.stackMem).bytes u.stackSp u.saveBuffer }) := by
          show (if o ≠ p then (s₂.routine p).bind _ else _) = _
          rw [if_pos hop, hpo, Option.bind_some]
          simp [s₂]
        rw [coSwap, e₁, Option.bind_eq_bind, Option.bind_some]
        cases started with
        | false => rfl
        | true =>
          rw [if_pos rfl, e₂]
          simp [setStack, s₂, b]
      · refine ⟨hk.runSaved hp₁ hs ho hop hv b, rfl, rfl, rfl, rfl, rfl,
          stackBp_update (by rfl), map_fixed_update hv (by rfl),
          fun k x hx => occupy_update rfl hx, fun r' f hr' hf x hx hlt => ?_⟩
        obtain rfl := Option.some.inj (hp.symm.trans hr')
        have hbuf := hk.saved p u f hp₁ (hleft f hf) hs (by rw [ho]; simpa using hop)
        have hb : b = writeBytes (s.stack u.stackMem).bytes u.stackSp u.saveBuffer :=
          if_pos (hst (by rw [hf]; simp))
        dsimp only
        rw [Function.update_self, hb, hbuf]
        exact writeBytes_readBytes hx (by omega)
    · have ho : ∀ o, (s.stack u.stackMem).occupyCo = some o → o = p := by
        intro o ho
        by_contra hop
        exact hsave ⟨o, ho, hop⟩
      refine ⟨{ s with
        routine := Function.update s.routine c (some { r with stackSp := sp })
        stack := Function.update s.stack u.stackMem
          { s.stack u.stackMem with occupyCo := some p }
        left := Function.update (Function.update s.left c (some (s.stack r.stackMem).bytes)) p none
        pendingCo := some p
        occupyCo := (s.stack u.stackMem).occupyCo }, ?_, ?_⟩
      · cases hocc : (s.stack u.stackMem).occupyCo with
        | none =>
          simp [coSwap, swapOut, swapIn, hc, setRoutine, setStack, hp₁, hs, hocc]
        | some o =>
          obtain rfl := ho o hocc
          simp [coSwap, swapOut, swapIn, hc, setRoutine, setStack, hp₁, hs, hocc]
      · refine ⟨hk.runShared hp₁ hs ho, rfl, rfl, rfl, rfl, rfl,
          stackBp_update (by rfl), fun _ => rfl, fun k x hx => occupy_update rfl hx,
          fun r' f hr' hf x hx hlt => ?_⟩
        obtain rfl := Option.some.inj (hp.symm.trans hr')
        have hne := hk.occ_some p u hp₁ hs (by rw [hleft f hf]; simp)
        obtain ⟨o, hocc⟩ := Option.ne_none_iff_exists'.mp hne
        dsimp only
        rw [Function.update_self]
        exact hk.intact p u f hp₁ (hleft f hf) (fun _ => by rw [hocc, ho o hocc]) x hx hlt
  · -- a stack of its own
    have hs : u.cIsShareStack = false := by simpa using hs
    refine ⟨{ s with
      routine := Function.update s.routine c (some { r with stackSp := sp })
      left := Function.update (Function.update s.left c (some (s.stack r.stackMem).bytes)) p none
      pendingCo := none
      occupyCo := none }, ?_, ?_⟩
    · simp [coSwap, swapOut, hc, setRoutine, hp₁, hs, swapIn]
    · exact ⟨hk.runOwn hp₁ hs, rfl, rfl, rfl, rfl, rfl, fun _ => rfl, fun _ => rfl,
        fun k o h => .inr h, fun r' f hr' hf => by
          obtain rfl := Option.some.inj (hp.symm.trans hr')
          exact hk.intact p u f hp₁ (hleft f hf) (by simp [hs])⟩

end Stacks

end WebServer.Libco
