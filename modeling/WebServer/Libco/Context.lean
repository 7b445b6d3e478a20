import WebServer.Lib.Exec
import WebServer.Lib.Instr
import WebServer.Lib.Update

/-!
# Switching contexts

`coctx_swap` and `coctx_make` for x86-64, of `coctx_swap.S` and `coctx.cpp`. The first stores the
registers and the return address of its caller in the array `regs` of one context, and loads them
from that of another; the second makes the `regs` of a coroutine that has not run.

`World` is a thread with its coroutines: which of them is running, what the machine was when each of
the others called `coctx_swap`, and the machine. Between two calls the running coroutine computes
anything, but does not touch the contexts and the stacks of the suspended ones.

* `run_coctxSwap`: what the code of `coctx_swap` does.
* `swap_returns`: in every run, switching to a coroutine is for it as if `coctx_swap`, which it
  called, had cleared `eax` and returned at once; one that has not run enters its function with its
  two arguments, and with the stack as the calling convention wants it.
-/

namespace WebServer.Libco

open WebServer.Lib

/-! ## The code -/

/-- `coctx_swap`. -/
def coctxSwap : List Instr :=
  [.leaq 8 .rsp .rax, .leaq 112 .rdi .rsp,
    .pushq .rax, .pushq .rbx, .pushq .rcx, .pushq .rdx, .pushqMem (-8) .rax, .pushq .rsi,
    .pushq .rdi, .pushq .rbp, .pushq .r8, .pushq .r9, .pushq .r12, .pushq .r13, .pushq .r14,
    .pushq .r15,
    .movq .rsi .rsp,
    .popq .r15, .popq .r14, .popq .r13, .popq .r12, .popq .r9, .popq .r8, .popq .rbp, .popq .rdi,
    .popq .rsi, .popq .rax, .popq .rdx, .popq .rcx, .popq .rbx, .popq .rsp,
    .pushq .rax, .xorl .rax .rax, .ret]

/-- The address of `regs[i]`. -/
def regs (ctx : Word) (i : ℕ) : Word := ctx + (8 * i : ℕ)

def kRDI : ℕ := 7

def kRSI : ℕ := 8

def kRETAddr : ℕ := 9

def kRSP : ℕ := 13

/-- The stack pointer `coctx_make` takes. -/
def makeSp (ssSp ssSize : Word) : Word := (ssSp + ssSize) &&& -16

/-- `coctx_make`. -/
def coctxMake (mem : Word → Word) (ctx ssSp ssSize pfn s s1 : Word) : Word → Word :=
  let sp := makeSp ssSp ssSize
  let mem := storeWords mem ctx (List.replicate 14 0)
  let mem := Function.update mem (regs ctx kRSP) (sp - 8)
  let mem := Function.update mem (regs ctx kRETAddr) pfn
  let mem := Function.update mem (regs ctx kRDI) s
  Function.update mem (regs ctx kRSI) s1

/-! ## What it does -/

/-- The registers before the return address in `regs`, and those after it. -/
def lowRegs : List Reg := [.r15, .r14, .r13, .r12, .r9, .r8, .rbp, .rdi, .rsi]

def highRegs : List Reg := [.rdx, .rcx, .rbx]

/-- What `coctx_swap` stores in `regs`, when it is called in `m`. -/
def context (m : Machine) : List Word :=
  lowRegs.map m.reg ++ m.mem (m.reg .rsp) :: highRegs.map m.reg ++ [m.reg .rsp + 8]

/-- The registers after `coctx_swap` has loaded them from `regs`. -/
def switched (mem : Word → Word) (ctx : Word) (reg : Reg → Word) : Reg → Word
  | .r15 => mem (regs ctx 0)
  | .r14 => mem (regs ctx 1)
  | .r13 => mem (regs ctx 2)
  | .r12 => mem (regs ctx 3)
  | .r9 => mem (regs ctx 4)
  | .r8 => mem (regs ctx 5)
  | .rbp => mem (regs ctx 6)
  | .rdi => mem (regs ctx 7)
  | .rsi => mem (regs ctx 8)
  | .rdx => mem (regs ctx 10)
  | .rcx => mem (regs ctx 11)
  | .rbx => mem (regs ctx 12)
  | .rsp => mem (regs ctx 13)
  | .rax => 0
  | .r10 => reg .r10
  | .r11 => reg .r11

theorem switched_congr {mem : Word → Word} {ctx : Word} {reg reg' : Reg → Word}
    (h10 : reg .r10 = reg' .r10) (h11 : reg .r11 = reg' .r11) :
    switched mem ctx reg = switched mem ctx reg' := by
  funext r
  cases r <;> first | rfl | assumption

theorem regs_sub (ctx : Word) (i n : ℕ) : regs ctx (i + n) - (8 * n : ℕ) = regs ctx i := by
  rw [regs, regs, Nat.mul_add, Nat.cast_add, ← add_assoc, add_sub_cancel_right]

theorem regs_add (ctx : Word) (i n : ℕ) : regs ctx i + (8 * n : ℕ) = regs ctx (i + n) := by
  rw [regs, regs, Nat.mul_add, Nat.cast_add, add_assoc]

theorem regs_zero (ctx : Word) : regs ctx 0 = ctx := add_zero ctx

/-- The first half of the code, which stores the context. -/
def saveCode : List Instr :=
  [.leaq 8 .rsp .rax, .leaq 112 .rdi .rsp] ++ (highRegs ++ [Reg.rax]).reverse.map .pushq ++
    [.pushqMem (-8) .rax] ++ lowRegs.reverse.map .pushq

/-- The second half, which loads the other one. -/
def loadCode : List Instr :=
  .movq .rsi .rsp :: (lowRegs ++ .rax :: highRegs).map .popq ++
    [.popq .rsp, .pushq .rax, .xorl .rax .rax, .ret]

theorem coctxSwap_eq : coctxSwap = saveCode ++ loadCode := rfl

theorem run_saveCode {m : Machine} (hp : Aligned (m.reg .rdi)) (hs : Aligned (m.reg .rsp))
    (hne : ∀ i < 14, m.reg .rsp ≠ regs (m.reg .rdi) i) :
    m.run saveCode = some { m with
      reg := Function.update (Function.update m.reg .rax (m.reg .rsp + 8)) .rsp (m.reg .rdi)
      mem := storeWords m.mem (m.reg .rdi) (context m) } := by
  let reg := Function.update m.reg .rax (m.reg .rsp + 8)
  let high := highRegs.map m.reg ++ [m.reg .rsp + 8]
  let p := m.reg .rdi
  have hal : ∀ i, Aligned (regs p i) := fun i => hp.add (aligned_mul_eight i)
  -- the registers after the return address
  let m₀ : Machine := { m with reg := Function.update reg .rsp (regs p 14) }
  have h₀ : m.run [.leaq 8 .rsp .rax, .leaq 112 .rdi .rsp] = some m₀ := by
    simp [Machine.exec, Machine.setReg, m₀, reg, p, regs]
  let m₁ : Machine := { m with
    reg := Function.update reg .rsp (regs p 10)
    mem := storeWords m.mem (regs p 10) high }
  have h₁ : m₀.run ((highRegs ++ [Reg.rax]).reverse.map .pushq) = some m₁ := by
    have e : m₀.reg .rsp - ((8 * (highRegs ++ [Reg.rax]).length : ℕ) : Word) = regs p 10 :=
      regs_sub p 10 4
    rw [Machine.run_pushq (by decide) (hal 14), e]
    simp [m₀, m₁, reg, high, Machine.setReg, highRegs]
  -- the return address
  let m₂ : Machine := { m with
    reg := Function.update reg .rsp (regs p 9)
    mem := storeWords m.mem (regs p 9) (m.mem (m.reg .rsp) :: high) }
  have hret : m₁.mem (m.reg .rsp) = m.mem (m.reg .rsp) := by
    refine storeWords_of_ne fun i hi => ?_
    rw [regs_add]
    have hi : i < 4 := hi
    exact hne (10 + i) (by omega)
  have h₂ : m₁.run [.pushqMem (-8) .rax] = some m₂ := by
    have ha : m₁.reg .rax + -8 = m.reg .rsp := add_neg_cancel_right ..
    have e : m₁.reg .rsp - 8 = regs p 9 := regs_sub p 9 1
    have e' : regs p 9 + 8 = regs p 10 := regs_add p 9 1
    rw [Machine.run_cons, Machine.exec, ha, if_pos hs, hret, Machine.push, e, if_pos (hal 9)]
    simp only [Machine.setReg, Machine.run_nil, Option.bind_some, m₁, m₂, Function.update_idem,
      storeWords, e']
  -- the registers before it
  have h₃ : m₂.run (lowRegs.reverse.map .pushq) = some { m with
      reg := Function.update reg .rsp p
      mem := storeWords m.mem p (context m) } := by
    have e : m₂.reg .rsp - ((8 * lowRegs.length : ℕ) : Word) = p :=
      (regs_sub p 0 9).trans (regs_zero p)
    rw [Machine.run_pushq (by decide) (hal 9), e, context, List.append_assoc, storeWords_append]
    simp [m₂, reg, high, Machine.setReg, lowRegs, highRegs]
    rfl
  rw [saveCode, Machine.run_append, Machine.run_append, Machine.run_append, h₀, Option.bind_some,
    h₁, Option.bind_some, h₂, Option.bind_some, h₃]

theorem run_loadCode {m : Machine} {q : Word} (hrsi : m.reg .rsi = q) (hq : Aligned q)
    (hsp : Aligned (m.mem (regs q kRSP))) :
    m.run loadCode = some {
      reg := switched m.mem q m.reg
      mem := Function.update m.mem (m.mem (regs q kRSP) - 8) (m.mem (regs q kRETAddr))
      rip := m.mem (regs q kRETAddr) } := by
  let sp := m.mem (regs q kRSP)
  let ret := m.mem (regs q kRETAddr)
  have hal : ∀ i, Aligned (regs q i) := fun i => hq.add (aligned_mul_eight i)
  let reg := loaded m.mem q m.reg (lowRegs ++ .rax :: highRegs)
  have hrax : reg .rax = ret := by
    simp [reg, ret, loaded, lowRegs, highRegs, regs, kRETAddr, add_assoc]
  let m₁ : Machine := { m with reg := Function.update reg .rsp (regs q 13) }
  have h₁ : m.run (.movq .rsi .rsp :: (lowRegs ++ .rax :: highRegs).map .popq) = some m₁ := by
    have hrsp : (m.setReg .rsp q).reg .rsp = q := by simp [Machine.setReg]
    have hload : loaded m.mem q (Function.update m.reg .rsp q) (lowRegs ++ .rax :: highRegs) =
        Function.update reg .rsp q := loaded_update (by decide)
    rw [Machine.run_cons, Machine.exec, hrsi, Option.bind_some,
      Machine.run_popq (by decide) (by rw [hrsp]; exact hq), hrsp]
    simp only [Machine.setReg, hload, Function.update_idem]
    rfl
  have h₂ : m₁.run [.popq .rsp, .pushq .rax, .xorl .rax .rax, .ret] = some { m with
      reg := Function.update (Function.update reg .rsp sp) .rax 0
      mem := Function.update m.mem (sp - 8) ret
      rip := ret } := by
    have hpop : m₁.exec (.popq .rsp) = some { m with reg := Function.update reg .rsp sp } := by
      simp [Machine.exec, Machine.pop, Machine.setReg, hal, m₁, sp, kRSP]
    have hpush : Machine.exec { m with reg := Function.update reg .rsp sp } (.pushq .rax) =
        some { m with
          reg := Function.update reg .rsp (sp - 8)
          mem := Function.update m.mem (sp - 8) ret } := by
      simp only [Machine.exec, Machine.push, Machine.setReg, Function.update_self,
        if_pos (hsp.sub aligned_eight), Function.update_idem, ne_eq, reduceCtorEq,
        not_false_eq_true, Function.update_of_ne, hrax, sp]
    rw [Machine.run_cons, hpop, Option.bind_some, Machine.run_cons, hpush, Option.bind_some]
    simp only [Machine.run_cons, Machine.run_nil, Machine.exec, Machine.pop, Machine.setReg,
      Option.bind_some]
    simp only [Function.update_self, ne_eq, reduceCtorEq, not_false_eq_true, Function.update_of_ne,
      if_pos (hsp.sub aligned_eight), Option.map_some, Option.bind_some, BitVec.xor_self,
      BitVec.zero_and, sub_add_cancel, sp]
    rw [Function.update_comm (by decide : Reg.rax ≠ Reg.rsp), Function.update_idem]
    rfl
  have hreg : Function.update (Function.update reg .rsp sp) .rax 0 = switched m.mem q m.reg := by
    funext r
    cases r <;> simp [switched, reg, loaded, lowRegs, highRegs, regs, sp, kRSP, add_assoc]
  rw [loadCode, Machine.run_append, h₁, Option.bind_some, h₂, hreg]

/-- **The code of `coctx_swap`** stores one context, and loads the other. -/
theorem run_coctxSwap {m : Machine} (hp : Aligned (m.reg .rdi)) (hs : Aligned (m.reg .rsp))
    (hne : ∀ i < 14, m.reg .rsp ≠ regs (m.reg .rdi) i)
    (hq : Aligned (m.reg .rsi)) {mem : Word → Word}
    (hmem : mem = storeWords m.mem (m.reg .rdi) (context m))
    (hsp : Aligned (mem (regs (m.reg .rsi) kRSP))) :
    m.run coctxSwap = some {
      reg := switched mem (m.reg .rsi) m.reg
      mem := Function.update mem (mem (regs (m.reg .rsi) kRSP) - 8)
        (mem (regs (m.reg .rsi) kRETAddr))
      rip := mem (regs (m.reg .rsi) kRETAddr) } := by
  subst hmem
  rw [coctxSwap_eq, Machine.run_append, run_saveCode hp hs hne, Option.bind_some,
    run_loadCode (q := m.reg .rsi) (by simp) hq hsp,
    show switched _ _ (Function.update (Function.update m.reg _ _) _ _) = switched _ _ m.reg from
      switched_congr (by simp) (by simp)]

/-! ## A thread -/

/-- Where the contexts and the stacks of the coroutines are. -/
structure Layout (ι : Type*) where
  ctx : ι → Word
  stack : ι → Word → Prop
  aligned : ∀ i, Aligned (ctx i)
  ctx_disjoint : ∀ i j, i ≠ j → ∀ k < 14, ∀ l < 14, regs (ctx i) k ≠ regs (ctx j) l
  stack_disjoint : ∀ i j, i ≠ j → ∀ a, stack i a → ¬stack j a
  ctx_stack : ∀ i j, ∀ k < 14, ¬stack j (regs (ctx i) k)

/-- How a coroutine that is not running goes on. -/
inductive Pending
  /-- It enters `pfn`: made by `coctx_make`. -/
  | made (sp pfn s s1 : Word)
  /-- It called `coctx_swap` in this machine. -/
  | called (m : Machine)

namespace Pending

/-- The `regs` of its context. -/
def context : Pending → List Word
  | .made sp pfn s s1 => List.replicate kRDI 0 ++ [s, s1, pfn] ++ List.replicate 3 0 ++ [sp - 8]
  | .called m => Libco.context m

/-- Where `coctx_swap` pushes the address it returns to. -/
def slot : Pending → Word
  | .made sp _ _ _ => sp - 8 - 8
  | .called m => m.reg .rsp

end Pending

/-- A thread: the machine, the running coroutine, and how the others go on. -/
structure World (ι : Type*) where
  m : Machine
  curr : ι
  pending : ι → Option Pending

/-- The steps: the running coroutine computes, makes a coroutine, or switches to one. -/
inductive Move (ι : Type*)
  | compute (m : Machine)
  | make (i : ι) (ssSp ssSize pfn s s1 : Word)
  | swap (j : ι)

namespace World

variable {ι : Type*}

/-- What a step does. -/
def step [DecidableEq ι] (L : Layout ι) (w : World ι) : Move ι → Option (World ι)
  | .compute m => some { w with m := m }
  | .make i ssSp ssSize pfn s s1 => some { w with
      m := { w.m with mem := coctxMake w.m.mem (L.ctx i) ssSp ssSize pfn s s1 }
      pending := Function.update w.pending i (some (.made (makeSp ssSp ssSize) pfn s s1)) }
  | .swap j => (w.m.run coctxSwap).map fun m => {
      m := m
      curr := j
      pending := Function.update (Function.update w.pending w.curr (some (.called w.m))) j none }

/-- A computation leaves the contexts and the stacks of the others alone; a coroutine that is made
has a stack; and `coctx_swap` is called with two contexts on an aligned stack. -/
def Allowed (L : Layout ι) (w : World ι) : Move ι → Prop
  | .compute m => ∀ i, w.pending i ≠ none →
      (∀ k < 14, m.mem (regs (L.ctx i) k) = w.m.mem (regs (L.ctx i) k)) ∧
        ∀ a, L.stack i a → m.mem a = w.m.mem a
  | .make i ssSp ssSize _ _ _ =>
      i ≠ w.curr ∧ w.pending i = none ∧ L.stack i (makeSp ssSp ssSize - 8 - 8)
  | .swap j => w.pending j ≠ none ∧ w.m.reg .rdi = L.ctx w.curr ∧ w.m.reg .rsi = L.ctx j ∧
      Aligned (w.m.reg .rsp) ∧ L.stack w.curr (w.m.reg .rsp)

/-- The invariant: the context of each pending coroutine is in memory, and its stack is as it
left it. -/
structure Inv (L : Layout ι) (w : World ι) : Prop where
  curr : w.pending w.curr = none
  context : ∀ i p, w.pending i = some p → loadWords w.m.mem (L.ctx i) 14 = p.context
  aligned : ∀ i p, w.pending i = some p → Aligned p.slot
  slot : ∀ i p, w.pending i = some p → L.stack i p.slot
  stack : ∀ i m, w.pending i = some (.called m) → ∀ a, L.stack i a → w.m.mem a = m.mem a
  made : ∀ i sp pfn s s1, w.pending i = some (.made sp pfn s s1) → sp.toNat % 16 = 0

variable {L : Layout ι} {w w' : World ι} {i j : ι} {p : Pending} {mem : Word → Word}
  {m : Machine}

theorem start_inv (L : Layout ι) (m : Machine) (c : ι) : Inv L ⟨m, c, fun _ => none⟩ where
  curr := rfl
  context := by simp
  aligned := by simp
  slot := by simp
  stack := by simp
  made := by simp

/-- What a world without the contexts of the others says of a word of `regs`. -/
theorem mem_regs {n : ℕ} {v : Word} (h : loadWords mem (L.ctx i) 14 = p.context) (hn : n < 14)
    (hv : p.context[n]? = some v) : mem (regs (L.ctx i) n) = v := by
  rw [← h, getElem_loadWords hn] at hv
  exact Option.some.inj hv

/-- A context that is somewhere else stays. -/
theorem load_ctx_congr {mem' : Word → Word}
    (h : ∀ n < 14, mem' (regs (L.ctx i) n) = mem (regs (L.ctx i) n)) :
    loadWords mem' (L.ctx i) 14 = loadWords mem (L.ctx i) 14 :=
  loadWords_congr h

theorem length_context (m : Machine) : (context m).length = 14 := rfl

/-- Storing a context changes nothing else. -/
theorem store_context_of_ne {ctx a : Word} (h : ∀ n < 14, a ≠ regs ctx n) :
    storeWords mem ctx (context m) a = mem a :=
  storeWords_of_ne fun n hn => h n hn

/-! ### Making a coroutine -/

theorem coctxMake_of_ne {ctx ssSp ssSize pfn s s1 a : Word} (h : ∀ n < 14, a ≠ regs ctx n) :
    coctxMake mem ctx ssSp ssSize pfn s s1 a = mem a := by
  rw [coctxMake, Function.update_of_ne (h _ (by decide)), Function.update_of_ne (h _ (by decide)),
    Function.update_of_ne (h _ (by decide)), Function.update_of_ne (h _ (by decide))]
  exact storeWords_of_ne fun n hn => h n (by simpa using hn)

theorem load_coctxMake {ctx ssSp ssSize pfn s s1 : Word} :
    loadWords (coctxMake mem ctx ssSp ssSize pfn s s1) ctx 14 =
      (Pending.made (makeSp ssSp ssSize) pfn s s1).context := by
  simp [loadWords, coctxMake, storeWords, regs, Pending.context, kRDI, kRSI, kRSP, kRETAddr,
    add_assoc]

theorem makeSp_mod (ssSp ssSize : Word) : (makeSp ssSp ssSize).toNat % 16 = 0 := by
  rw [makeSp, BitVec.toNat_and, show 16 = 2 ^ 4 by rfl, Nat.and_mod_two_pow]
  exact Nat.and_zero _

theorem aligned_slot_made (ssSp ssSize : Word) : Aligned (makeSp ssSp ssSize - 8 - 8) := by
  have h := makeSp_mod ssSp ssSize
  refine (Aligned.sub ?_ aligned_eight).sub aligned_eight
  rw [Aligned]
  omega

/-! ### Steps -/

theorem compute_inv (hi : Inv L w) (ha : w.Allowed L (.compute m)) : Inv L { w with m := m } where
  curr := hi.curr
  context := by
    intro i p hp
    rw [load_ctx_congr (ha i (Option.ne_none_iff_exists'.mpr ⟨p, hp⟩)).1]
    exact hi.context i p hp
  aligned := hi.aligned
  slot := hi.slot
  stack := by
    intro i m₀ hp a hs
    rw [(ha i (Option.ne_none_iff_exists'.mpr ⟨_, hp⟩)).2 a hs]
    exact hi.stack i m₀ hp a hs
  made := hi.made

/-- What is in memory while the contexts are switched. -/
def stored (L : Layout ι) (w : World ι) : Word → Word :=
  storeWords w.m.mem (L.ctx w.curr) (Libco.context w.m)

theorem load_stored (hi : Inv L w) (hp : w.pending j = some p) :
    loadWords (stored L w) (L.ctx j) 14 = p.context := by
  have hj : j ≠ w.curr := by
    rintro rfl
    rw [hi.curr] at hp
    cases hp
  refine (load_ctx_congr fun n hn => ?_).trans (hi.context j p hp)
  exact store_context_of_ne fun l hl => L.ctx_disjoint j w.curr hj n hn l hl

/-- The stack pointer a context holds. -/
theorem context_sp (p : Pending) : p.context[kRSP]? = some (p.slot + 8) := by
  cases p with
  | made sp pfn s s1 =>
    show some (sp - 8) = some (sp - 8 - 8 + 8)
    rw [sub_add_cancel]
  | called m => rfl

/-- **A call of `coctx_swap`** with the context of a pending coroutine. -/
theorem swap_spec (hi : Inv L w) (ha : w.Allowed L (.swap j)) (hp : w.pending j = some p) :
    w.m.run coctxSwap = some {
      reg := switched (stored L w) (L.ctx j) w.m.reg
      mem := Function.update (stored L w) p.slot (stored L w (regs (L.ctx j) kRETAddr))
      rip := stored L w (regs (L.ctx j) kRETAddr) } := by
  obtain ⟨-, hrdi, hrsi, hrsp, hstack⟩ := ha
  have hsp : stored L w (regs (L.ctx j) kRSP) = p.slot + 8 :=
    mem_regs (load_stored hi hp) (by decide) (context_sp p)
  have hmem : stored L w = storeWords w.m.mem (w.m.reg .rdi) (Libco.context w.m) := by
    rw [hrdi]
    rfl
  rw [run_coctxSwap (by rw [hrdi]; exact L.aligned _) hrsp ?_ (by rw [hrsi]; exact L.aligned _)
    hmem ?_, hrsi, hsp, add_sub_cancel_right]
  · intro n hn e
    rw [hrdi] at e
    exact L.ctx_stack w.curr w.curr n hn (e ▸ hstack)
  · rw [hrsi, hsp]
    exact (hi.aligned j p hp).add aligned_eight

/-- What a coroutine finds when it goes on: `coctx_swap`, which it called, has cleared `eax` and
returned, or it enters its function, on a stack that is eight bytes below an address that is aligned
to sixteen. -/
def Continues (stack : Word → Prop) (m' : Machine) : Pending → Prop
  | .called m => ∃ m₁, m.run [.xorl .rax .rax, .ret] = some m₁ ∧ m'.rip = m₁.rip ∧
      (∀ r, r ≠ .r10 → r ≠ .r11 → m'.reg r = m₁.reg r) ∧ ∀ a, stack a → m'.mem a = m₁.mem a
  | .made sp pfn s s1 => m'.rip = pfn ∧ m'.reg .rdi = s ∧ m'.reg .rsi = s1 ∧
      m'.reg .rsp = sp - 8 ∧ (m'.reg .rsp).toNat % 16 = 8

theorem continues_of_swap (hi : Inv L w) (hp : w.pending j = some p) :
    Continues (L.stack j) {
      reg := switched (stored L w) (L.ctx j) w.m.reg
      mem := Function.update (stored L w) p.slot (stored L w (regs (L.ctx j) kRETAddr))
      rip := stored L w (regs (L.ctx j) kRETAddr) } p := by
  have hload := load_stored hi hp
  cases p with
  | called m =>
    have hrsp : Aligned (m.reg .rsp) := hi.aligned j _ hp
    have hret : stored L w (regs (L.ctx j) kRETAddr) = m.mem (m.reg .rsp) :=
      mem_regs hload (by decide) rfl
    refine ⟨{ m with
      reg := Function.update (Function.update m.reg .rax 0) .rsp (m.reg .rsp + 8)
      rip := m.mem (m.reg .rsp) }, ?_, hret, fun r h10 h11 => ?_, fun a hs => ?_⟩
    · simp [Machine.exec, Machine.pop, Machine.setReg, hrsp]
    · cases r
      case r10 => exact absurd rfl h10
      case r11 => exact absurd rfl h11
      case rax => rfl
      all_goals exact mem_regs hload (by decide) rfl
    · dsimp only
      by_cases ha : a = m.reg .rsp
      · rw [ha, hret]
        exact Function.update_self ..
      · have hmem : stored L w a = w.m.mem a :=
          store_context_of_ne fun n hn e => L.ctx_stack w.curr j n hn (e ▸ hs)
        exact (Function.update_of_ne ha ..).trans (hmem.trans (hi.stack j m hp a hs))
  | made sp pfn s s1 =>
    have hsp : switched (stored L w) (L.ctx j) w.m.reg .rsp = sp - 8 :=
      mem_regs hload (by decide) rfl
    refine ⟨mem_regs hload (by decide) rfl, mem_regs hload (by decide) rfl,
      mem_regs hload (by decide) rfl, hsp, ?_⟩
    have hmod := hi.made j sp pfn s s1 hp
    dsimp only
    rw [hsp, BitVec.toNat_sub]
    have h8 : (8 : Word).toNat = 8 := rfl
    omega

section

variable [DecidableEq ι]

theorem make_inv (hi : Inv L w) {ssSp ssSize pfn s s1 : Word}
    (ha : w.Allowed L (.make i ssSp ssSize pfn s s1)) :
    Inv L { w with
      m := { w.m with mem := coctxMake w.m.mem (L.ctx i) ssSp ssSize pfn s s1 }
      pending := Function.update w.pending i (some (.made (makeSp ssSp ssSize) pfn s s1)) } := by
  obtain ⟨hcurr, -, hslot⟩ := ha
  have hcases : ∀ j p, Function.update w.pending i (some (.made (makeSp ssSp ssSize) pfn s s1)) j =
      some p → j = i ∧ p = .made (makeSp ssSp ssSize) pfn s s1 ∨ j ≠ i ∧ w.pending j = some p :=
    fun j p hp => update_some_cases hp
  constructor
  case curr => exact (Function.update_of_ne (Ne.symm hcurr) ..).trans hi.curr
  case context =>
    intro j p hp
    rcases hcases j p hp with ⟨rfl, rfl⟩ | ⟨hj, hp⟩
    · exact load_coctxMake
    · refine (load_ctx_congr fun n hn => ?_).trans (hi.context j p hp)
      exact coctxMake_of_ne fun l hl => L.ctx_disjoint j i hj n hn l hl
  case aligned =>
    intro j p hp
    rcases hcases j p hp with ⟨rfl, rfl⟩ | ⟨hj, hp⟩
    · exact aligned_slot_made ssSp ssSize
    · exact hi.aligned j p hp
  case slot =>
    intro j p hp
    rcases hcases j p hp with ⟨rfl, rfl⟩ | ⟨hj, hp⟩
    · exact hslot
    · exact hi.slot j p hp
  case stack =>
    intro j m hp a hs
    rcases hcases j _ hp with ⟨-, e⟩ | ⟨hj, hp⟩
    · cases e
    · refine (coctxMake_of_ne fun n hn e => ?_).trans (hi.stack j m hp a hs)
      exact L.ctx_stack i j n hn (e ▸ hs)
  case made =>
    intro j sp pfn' s' s1' hp
    rcases hcases j _ hp with ⟨-, e⟩ | ⟨-, hp⟩
    · rw [(Pending.made.inj e).1]
      exact makeSp_mod ssSp ssSize
    · exact hi.made j sp pfn' s' s1' hp

theorem swap_inv (hi : Inv L w) (ha : w.Allowed L (.swap j)) :
    ∃ w', step L w (.swap j) = some w' ∧ Inv L w' := by
  obtain ⟨p, hp⟩ := Option.ne_none_iff_exists'.mp ha.1
  refine ⟨_, by rw [step, swap_spec hi ha hp, Option.map_some], ?_⟩
  obtain ⟨-, hrdi, hrsi, hrsp, hstack⟩ := ha
  have hj : j ≠ w.curr := by
    rintro rfl
    rw [hi.curr] at hp
    cases hp
  have hslot := hi.slot j p hp
  have hcases : ∀ i p', Function.update (Function.update w.pending w.curr (some (.called w.m))) j
      none i = some p' → i ≠ j ∧ (i = w.curr ∧ p' = .called w.m ∨
        i ≠ w.curr ∧ w.pending i = some p') := by
    intro i p' h
    by_cases hij : i = j
    · rw [hij, Function.update_self] at h
      cases h
    · rw [Function.update_of_ne hij] at h
      exact ⟨hij, update_some_cases h⟩
  constructor
  case curr => exact Function.update_self ..
  case context =>
    intro i p' h
    have hne : ∀ n < 14, regs (L.ctx i) n ≠ p.slot := fun n hn e =>
      L.ctx_stack i j n hn (e ▸ hslot)
    refine (load_ctx_congr fun n hn => Function.update_of_ne (hne n hn) ..).trans ?_
    obtain ⟨-, ⟨rfl, rfl⟩ | ⟨-, h⟩⟩ := hcases i p' h
    · exact loadWords_storeWords (by rw [length_context]; decide)
    · exact load_stored hi h
  case aligned =>
    intro i p' h
    obtain ⟨-, ⟨rfl, rfl⟩ | ⟨-, h⟩⟩ := hcases i p' h
    · exact hrsp
    · exact hi.aligned i p' h
  case slot =>
    intro i p' h
    obtain ⟨-, ⟨rfl, rfl⟩ | ⟨-, h⟩⟩ := hcases i p' h
    · exact hstack
    · exact hi.slot i p' h
  case stack =>
    intro i m hm a hs
    obtain ⟨hij, h⟩ := hcases i _ hm
    have hne : a ≠ p.slot := fun e => L.stack_disjoint i j hij a hs (e ▸ hslot)
    have hmem : stored L w a = w.m.mem a :=
      store_context_of_ne fun n hn e => L.ctx_stack w.curr i n hn (e ▸ hs)
    refine (Function.update_of_ne hne ..).trans (hmem.trans ?_)
    rcases h with ⟨-, h⟩ | ⟨-, h⟩
    · rw [Pending.called.inj h]
    · exact hi.stack i m h a hs
  case made =>
    intro i sp pfn s s1 h
    obtain ⟨-, ⟨-, e⟩ | ⟨-, h⟩⟩ := hcases i _ h
    · cases e
    · exact hi.made i sp pfn s s1 h

/-- **A step** keeps the invariant. -/
theorem step_inv {a : Move ι} (hi : Inv L w) (ha : w.Allowed L a) :
    ∃ w', step L w a = some w' ∧ Inv L w' := by
  cases a with
  | compute m => exact ⟨_, rfl, compute_inv hi ha⟩
  | make i ssSp ssSize pfn s s1 => exact ⟨_, rfl, make_inv hi ha⟩
  | swap j => exact swap_inv hi ha

/-- **Switching is transparent.** In every run, a call of `coctx_swap` with the context of a pending
coroutine lets it go on as if nothing had happened in between. -/
theorem swap_returns (L : Layout ι) {m : Machine} {c : ι} {moves : List (Move ι)}
    (hrun : Exec (step L) (Allowed L) ⟨m, c, fun _ => none⟩ moves w)
    (ha : w.Allowed L (.swap j)) :
    ∃ w' p, step L w (.swap j) = some w' ∧ w'.curr = j ∧ w.pending j = some p ∧
      Continues (L.stack j) w'.m p := by
  have hi : Inv L w := by
    refine hrun.invariant (start_inv L m c) fun u a v hu hc hs => ?_
    obtain ⟨v', hv, hi⟩ := step_inv hu hc
    obtain rfl := Option.some.inj (hs.symm.trans hv)
    exact hi
  obtain ⟨p, hp⟩ := Option.ne_none_iff_exists'.mp ha.1
  refine ⟨_, p, by rw [step, swap_spec hi ha hp, Option.map_some], rfl, hp, ?_⟩
  exact continues_of_swap hi hp

end

/-! ### An example -/

/-- Two coroutines with a stack each. -/
def twoStacks : Layout Bool where
  ctx i := if i then 0x2000 else 0x1000
  stack i a := if i then 0x20000 ≤ a.toNat ∧ a.toNat < 0x30000
    else 0x10000 ≤ a.toNat ∧ a.toNat < 0x20000
  aligned := by decide
  ctx_disjoint := by decide
  stack_disjoint := by
    intro i j hij a hi hj
    cases i <;> cases j <;> simp at hij hi hj <;> omega
  ctx_stack := by decide

instance (i : Bool) (a : Word) : Decidable (twoStacks.stack i a) :=
  inferInstanceAs (Decidable (if i then _ else _))

/-- The first one is about to call `coctx_swap`. -/
def caller : Machine where
  reg
    | .rdi => 0x1000
    | .rsi => 0x2000
    | .rsp => 0x1FFF8
    | _ => 0
  mem _ := 0
  rip := 0

/-- `swap_returns` where the second one has been made: it enters its function. -/
theorem swap_returns_made :
    ∃ w w', Exec (step twoStacks) (Allowed twoStacks) ⟨caller, false, fun _ => none⟩
        [.make true 0x20000 0x10000 0x4000 7 0] w ∧
      step twoStacks w (.swap true) = some w' ∧ w'.m.rip = 0x4000 ∧ w'.m.reg .rdi = 7 ∧
      (w'.m.reg .rsp).toNat % 16 = 8 := by
  let w₀ : World Bool := ⟨caller, false, fun _ => none⟩
  let p : Pending := .made (makeSp 0x20000 0x10000) 0x4000 7 0
  let m : Machine := { caller with mem := coctxMake caller.mem 0x2000 0x20000 0x10000 0x4000 7 0 }
  let w : World Bool := ⟨m, false, Function.update w₀.pending true (some p)⟩
  have ha₀ : w₀.Allowed twoStacks (.make true 0x20000 0x10000 0x4000 7 0) :=
    ⟨by decide, rfl, by decide⟩
  have h : Exec (step twoStacks) (Allowed twoStacks) w₀ [.make true 0x20000 0x10000 0x4000 7 0] w :=
    .snoc .nil ha₀ rfl
  have ha : w.Allowed twoStacks (.swap true) := ⟨by simp [w], rfl, rfl, by decide, by decide⟩
  obtain ⟨w', p', hs, -, hp, hc⟩ := swap_returns twoStacks h ha
  have hp' : w.pending true = some p := by simp [w]
  obtain rfl := Option.some.inj (hp'.symm.trans hp)
  obtain ⟨hrip, hrdi, -, -, hmod⟩ := hc
  exact ⟨w, w', h, hs, hrip, hrdi, hmod⟩

end World

end WebServer.Libco
