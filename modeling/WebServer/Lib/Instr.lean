import Mathlib.Data.BitVec
import Mathlib.Data.List.Induction
import Mathlib.Logic.Function.Basic

/-!
# Some instructions of x86-64

Straight-line machine code that moves registers to and from the stack. A machine has its registers,
a memory of 64-bit words, and the instruction pointer, which only `ret` sets. Every access is one of
eight bytes; one that is not aligned is not defined here, so that two words never overlap.

* `run_pushq`: registers pushed one after another lie in memory in the opposite order
  (`storeWords`).
* `run_popq`: registers popped one after another get the words of the memory in that order
  (`loaded`).
-/

namespace WebServer.Lib

/-- A 64-bit word, which is also an address. -/
abbrev Word := BitVec 64

inductive Reg
  | rax | rbx | rcx | rdx | rsi | rdi | rbp | rsp
  | r8 | r9 | r10 | r11 | r12 | r13 | r14 | r15
  deriving DecidableEq

structure Machine where
  reg : Reg → Word
  mem : Word → Word
  rip : Word

/-- The instructions, with the operands in the order of the assembler: source, then destination. -/
inductive Instr
  | leaq (disp : Word) (base dst : Reg)
  | movq (src dst : Reg)
  | xorl (src dst : Reg)
  | pushq (src : Reg)
  | pushqMem (disp : Word) (base : Reg)
  | popq (dst : Reg)
  | ret
  deriving DecidableEq

/-- The address of a word. -/
def Aligned (a : Word) : Prop := a.toNat % 8 = 0

instance (a : Word) : Decidable (Aligned a) := inferInstanceAs (Decidable (_ = _))

attribute [irreducible] Aligned

namespace Machine

/-- Write a register. -/
def setReg (m : Machine) (r : Reg) (v : Word) : Machine :=
  { m with reg := Function.update m.reg r v }

/-- Put a word on the stack. -/
def push (m : Machine) (v : Word) : Option Machine :=
  let sp := m.reg .rsp - 8
  if Aligned sp then some { m.setReg .rsp sp with mem := Function.update m.mem sp v } else none

/-- Take a word from the stack. -/
def pop (m : Machine) : Option (Word × Machine) :=
  let sp := m.reg .rsp
  if Aligned sp then some (m.mem sp, m.setReg .rsp (sp + 8)) else none

/-- What an instruction does. A write of the lower half of a register clears the upper half. -/
def exec (m : Machine) : Instr → Option Machine
  | .leaq disp base dst => some (m.setReg dst (m.reg base + disp))
  | .movq src dst => some (m.setReg dst (m.reg src))
  | .xorl src dst => some (m.setReg dst ((m.reg src ^^^ m.reg dst) &&& 0xFFFFFFFF))
  | .pushq src => m.push (m.reg src)
  | .pushqMem disp base =>
    let a := m.reg base + disp
    if Aligned a then m.push (m.mem a) else none
  | .popq dst => m.pop.map fun r => r.2.setReg dst r.1
  | .ret => m.pop.map fun r => { r.2 with rip := r.1 }

/-- Instructions one after another. -/
def run (m : Machine) (code : List Instr) : Option Machine := code.foldlM exec m

variable {m m' : Machine} {code code' : List Instr}

@[simp] theorem run_nil : m.run [] = some m := rfl

@[simp] theorem run_cons {i : Instr} :
    m.run (i :: code) = (m.exec i).bind fun m => m.run code := rfl

theorem run_append : m.run (code ++ code') = (m.run code).bind fun m => m.run code' := by
  rw [run, List.foldlM_append]
  rfl

end Machine

/-! ## Addresses -/

theorem cast_mul_succ (n : ℕ) : ((8 * (n + 1) : ℕ) : Word) = (8 * n : ℕ) + 8 := by
  rw [Nat.mul_succ, Nat.cast_add]
  rfl

theorem add_eight_add (a : Word) (n : ℕ) : a + 8 + (8 * n : ℕ) = a + (8 * (n + 1) : ℕ) := by
  rw [cast_mul_succ, add_assoc, add_comm (8 : Word)]

theorem Aligned.add {a b : Word} (ha : Aligned a) (hb : Aligned b) : Aligned (a + b) := by
  unfold Aligned at *
  rw [BitVec.toNat_add]
  omega

theorem Aligned.sub {a b : Word} (ha : Aligned a) (hb : Aligned b) : Aligned (a - b) := by
  unfold Aligned at *
  rw [BitVec.toNat_sub]
  omega

theorem aligned_eight : Aligned 8 := by decide

theorem aligned_mul_eight (n : ℕ) : Aligned (8 * n : ℕ) := by
  unfold Aligned
  simp

/-! ## Words in memory -/

/-- The memory after words have been written from `a` upwards. -/
def storeWords (mem : Word → Word) (a : Word) : List Word → Word → Word
  | [] => mem
  | v :: vs => Function.update (storeWords mem (a + 8) vs) a v

/-- The words from `a` upwards. -/
def loadWords (mem : Word → Word) (a : Word) : ℕ → List Word
  | 0 => []
  | n + 1 => mem a :: loadWords mem (a + 8) n

/-- The registers after some have got the words from `a` upwards. -/
def loaded (mem : Word → Word) (a : Word) (reg : Reg → Word) : List Reg → Reg → Word
  | [] => reg
  | r :: rs => loaded mem (a + 8) (Function.update reg r (mem a)) rs

section

variable {mem : Word → Word} {a b : Word} {v : Word} {vs ws : List Word} {n : ℕ}

theorem storeWords_append : storeWords mem a (vs ++ ws) =
    storeWords (storeWords mem (a + (8 * vs.length : ℕ)) ws) a vs := by
  induction vs generalizing a with
  | nil => simp [storeWords]
  | cons v vs ih =>
    simp only [List.cons_append, storeWords, List.length_cons]
    rw [ih, add_eight_add]

/-- Words that are elsewhere stay. -/
theorem storeWords_of_ne (h : ∀ i < vs.length, b ≠ a + (8 * i : ℕ)) :
    storeWords mem a vs b = mem b := by
  induction vs generalizing a with
  | nil => rfl
  | cons v vs ih =>
    rw [storeWords, Function.update_of_ne, ih]
    · intro i hi
      rw [add_eight_add]
      exact h (i + 1) (by simpa using hi)
    · simpa using h 0 (by simp)

theorem loadWords_congr {mem' : Word → Word}
    (h : ∀ i < n, mem' (a + (8 * i : ℕ)) = mem (a + (8 * i : ℕ))) :
    loadWords mem' a n = loadWords mem a n := by
  induction n generalizing a with
  | zero => rfl
  | succ n ih =>
    rw [loadWords, loadWords, ih]
    · simpa using h 0 (by simp)
    · intro i hi
      rw [add_eight_add]
      exact h (i + 1) (by omega)

/-- Words that do not go around the memory do not meet. -/
theorem add_mul_eight_ne {i j : ℕ} (hij : i ≠ j) (hi : i < 2 ^ 61) (hj : j < 2 ^ 61) :
    a + (8 * i : ℕ) ≠ a + (8 * j : ℕ) := by
  intro e
  have e := congrArg BitVec.toNat (add_left_cancel e)
  simp at e
  omega

/-- What was written is read back. -/
theorem loadWords_storeWords (hn : vs.length ≤ 2 ^ 61) :
    loadWords (storeWords mem a vs) a vs.length = vs := by
  induction vs generalizing a with
  | nil => rfl
  | cons v vs ih =>
    rw [List.length_cons] at hn
    rw [storeWords, List.length_cons, loadWords, Function.update_self]
    congr 1
    refine (loadWords_congr fun i hi => Function.update_of_ne ?_ ..).trans (ih (by omega))
    have h := add_mul_eight_ne (a := a) (i := i + 1) (j := 0) (by omega) (by omega) (by omega)
    rw [add_eight_add]
    simpa using h

theorem getElem_loadWords {i : ℕ} (hi : i < n) :
    (loadWords mem a n)[i]? = some (mem (a + (8 * i : ℕ))) := by
  induction n generalizing a i with
  | zero => omega
  | succ n ih =>
    cases i with
    | zero => simp [loadWords]
    | succ i =>
      rw [loadWords, List.getElem?_cons_succ, ih (by omega), add_eight_add]

/-- A register that gets no word. -/
theorem loaded_update {reg : Reg → Word} {rs : List Reg} {r : Reg} (hr : r ∉ rs) :
    loaded mem a (Function.update reg r v) rs = Function.update (loaded mem a reg rs) r v := by
  induction rs generalizing a reg with
  | nil => rfl
  | cons q rs ih =>
    rw [List.mem_cons, not_or] at hr
    rw [loaded, loaded, Function.update_comm hr.1, ih hr.2]

end

/-! ## Pushing and popping registers -/

namespace Machine

variable {m : Machine} {rs : List Reg}

/-- **Registers pushed** one after another lie in memory in the opposite order. -/
theorem run_pushq (hsp : Reg.rsp ∉ rs) (ha : Aligned (m.reg .rsp)) :
    m.run (rs.reverse.map .pushq) =
      some { m.setReg .rsp (m.reg .rsp - (8 * rs.length : ℕ)) with
        mem := storeWords m.mem (m.reg .rsp - (8 * rs.length : ℕ)) (rs.map m.reg) } := by
  induction rs with
  | nil => simp [storeWords, setReg]
  | cons r rs ih =>
    rw [List.mem_cons, not_or] at hsp
    have e : m.reg .rsp - ((8 * rs.length : ℕ) : Word) - 8 =
        m.reg .rsp - ((8 * (rs.length + 1) : ℕ) : Word) := by
      rw [cast_mul_succ, sub_sub]
    have hal : Aligned (m.reg .rsp - ((8 * (rs.length + 1) : ℕ) : Word)) :=
      ha.sub (aligned_mul_eight _)
    have e' : m.reg .rsp - ((8 * (rs.length + 1) : ℕ) : Word) + 8 =
        m.reg .rsp - ((8 * rs.length : ℕ) : Word) := by
      rw [← e, sub_add_cancel]
    rw [List.reverse_cons, List.map_append, run_append, ih hsp.2, Option.bind_some]
    simp only [List.map_cons, List.map_nil, run_cons, run_nil, exec, push, setReg,
      Function.update_self, Function.update_of_ne (Ne.symm hsp.1), List.length_cons, storeWords, e,
      e', if_pos hal, Option.bind_some, Function.update_idem]

/-- **Registers popped** one after another get the words of the memory. -/
theorem run_popq (hsp : Reg.rsp ∉ rs) (ha : Aligned (m.reg .rsp)) :
    m.run (rs.map .popq) =
      some { m with
        reg := Function.update (loaded m.mem (m.reg .rsp) m.reg rs) .rsp
          (m.reg .rsp + (8 * rs.length : ℕ)) } := by
  induction rs generalizing m with
  | nil => simp [loaded]
  | cons r rs ih =>
    rw [List.mem_cons, not_or] at hsp
    let m₁ := (m.setReg .rsp (m.reg .rsp + 8)).setReg r (m.mem (m.reg .rsp))
    have hpop : m.exec (.popq r) = some m₁ := by
      simp only [exec, pop, if_pos ha, Option.map_some, m₁]
    have hreg : m₁.reg .rsp = m.reg .rsp + 8 := by
      simp only [m₁, setReg, Function.update_of_ne hsp.1, Function.update_self]
    rw [List.map_cons, run_cons, hpop, Option.bind_some,
      ih hsp.2 (by rw [hreg]; exact ha.add aligned_eight), hreg]
    simp only [m₁, setReg, loaded, List.length_cons, add_eight_add]
    rw [Function.update_comm hsp.1, loaded_update hsp.2, Function.update_idem]

end Machine

end WebServer.Lib
