/-
  File:      Persimmon/Lib/X86.lean
  Subject:   STRAIGHT-LINE x86-64 CODE WITH JUMPS OUT OF IT.

  A piece of code is a list of instructions on 64-bit registers `R`; it ends behind its last
  instruction, with a jump to one of the labels `L`, or with a fault at an address that is not
  mapped. Of the flags, the carry and the zero flag.

  * `Instr`, `State`, `Exit`, `exec`, `run` -- the instructions and what they do;
  * `run_cmp_ja`, `run_cmp_jb` -- a comparison and the unsigned jump behind it; `run_load`;
  * `signExtend_setWidth_low` -- a displacement below 2^31 is added as it is;
    `signExtend_setWidth_high` -- one from 2^31 to 2^32 is added less 2^32;
  * `and_shiftLeft`, `xor_lt_iff` -- what shifts, masks and xor say about numbers.
-/
import Mathlib.Data.Nat.Bitwise
import Mathlib.Logic.Function.Basic
import Mathlib.Tactic.Common

namespace X86

abbrev Word := BitVec 64

/-- Instructions, the destination first. An immediate and a displacement are sign-extended. -/
inductive Instr (R L : Type*) where
  | lea (dst base : R) (disp : BitVec 32)
  | mov (dst src : R)
  | load (dst base : R) (disp : BitVec 32)
  | xor (dst src : R)
  | shr (dst : R) (imm : BitVec 8)
  | and (dst : R) (imm : BitVec 32)
  | cmp (reg : R) (imm : BitVec 8)
  | ja (target : L)
  | jb (target : L)
  deriving DecidableEq, Repr

structure State (R : Type*) where
  reg : R → Word
  cf : Bool
  zf : Bool

/-- How an instruction is left: for the next one, with a jump, or not at all. -/
inductive Exit (L : Type*) where
  | next
  | jump (target : L)
  | fault
  deriving DecidableEq, Repr

variable {R L : Type*}

namespace State

/-- The flags after an operation that clears the carry. -/
def logicFlags (s : State R) (x : Word) : State R := { s with cf := false, zf := x == 0 }

/-- The flags after a subtraction. -/
def subFlags (s : State R) (x y : Word) : State R := { s with cf := x.ult y, zf := x == y }

/-- The flags after a shift by `n`: none change for 0. -/
def shiftFlags (s : State R) (x : Word) (n : ℕ) : State R :=
  if n = 0 then s else { s with cf := x.getLsbD (n - 1), zf := (x >>> n) == 0 }

@[simp] theorem logicFlags_reg (s : State R) (x : Word) : (s.logicFlags x).reg = s.reg := rfl

@[simp] theorem subFlags_reg (s : State R) (x y : Word) : (s.subFlags x y).reg = s.reg := rfl

@[simp] theorem shiftFlags_reg (s : State R) (x : Word) (n : ℕ) :
    (s.shiftFlags x n).reg = s.reg := by
  unfold shiftFlags
  split <;> rfl

variable [DecidableEq R]

def set (s : State R) (r : R) (x : Word) : State R := { s with reg := Function.update s.reg r x }

@[simp] theorem set_reg (s : State R) (r r' : R) (x : Word) :
    (s.set r x).reg r' = Function.update s.reg r x r' := rfl

end State

variable [DecidableEq R]

/-- **One instruction**: the state after it, and how it is left. `mem` is the memory, eight bytes at
    an address, where it can be read. -/
def exec (mem : Word → Option Word) (s : State R) : Instr R L → State R × Exit L
  | .lea dst base disp => (s.set dst (s.reg base + disp.signExtend 64), .next)
  | .mov dst src => (s.set dst (s.reg src), .next)
  | .load dst base disp =>
      match mem (s.reg base + disp.signExtend 64) with
      | some x => (s.set dst x, .next)
      | none => (s, .fault)
  | .xor dst src =>
      let x := s.reg dst ^^^ s.reg src
      ((s.set dst x).logicFlags x, .next)
  | .shr dst imm =>
      let n := imm.toNat % 64
      ((s.set dst (s.reg dst >>> n)).shiftFlags (s.reg dst) n, .next)
  | .and dst imm =>
      let x := s.reg dst &&& imm.signExtend 64
      ((s.set dst x).logicFlags x, .next)
  | .cmp reg imm => (s.subFlags (s.reg reg) (imm.signExtend 64), .next)
  | .ja target => (s, if s.cf = false ∧ s.zf = false then .jump target else .next)
  | .jb target => (s, if s.cf = true then .jump target else .next)

/-- **A piece of code**: the state it is left in, and how; `next` is behind its last instruction. -/
def run (mem : Word → Option Word) : List (Instr R L) → State R → State R × Exit L
  | [], s => (s, .next)
  | i :: code, s =>
      match exec mem s i with
      | (s', .next) => run mem code s'
      | (s', .jump target) => (s', .jump target)
      | (s', .fault) => (s', .fault)

theorem run_cons {mem : Word → Option Word} {s s' : State R} {i : Instr R L}
    {code : List (Instr R L)} (h : exec mem s i = (s', .next)) :
    run mem (i :: code) s = run mem code s' := by
  rw [run, h]

theorem run_jump {mem : Word → Option Word} {s s' : State R} {i : Instr R L}
    {code : List (Instr R L)} {target : L} (h : exec mem s i = (s', .jump target)) :
    run mem (i :: code) s = (s', .jump target) := by
  rw [run, h]

/-- **A load** goes on where there is memory, and nowhere else. -/
theorem run_load {mem : Word → Option Word} {s : State R} {dst base : R} {disp : BitVec 32}
    {code : List (Instr R L)} :
    run mem (.load dst base disp :: code) s =
      (mem (s.reg base + disp.signExtend 64)).elim (s, .fault) fun x => run mem code (s.set dst x) := by
  rw [run, exec]
  cases mem (s.reg base + disp.signExtend 64) <;> rfl

/-! ## 1. Comparisons -/

section

variable {mem : Word → Option Word} {s : State R} {r : R} {imm : BitVec 8} {target : L}
  {code : List (Instr R L)}

/-- **`cmp` and `ja`**: a jump when the register is above the immediate. -/
theorem run_cmp_ja :
    run mem (.cmp r imm :: .ja target :: code) s =
      if imm.signExtend 64 < s.reg r then
        (s.subFlags (s.reg r) (imm.signExtend 64), .jump target)
      else run mem code (s.subFlags (s.reg r) (imm.signExtend 64)) := by
  have hflags : ((s.reg r).ult (imm.signExtend 64) = false ∧
      (s.reg r == imm.signExtend 64) = false) ↔ imm.signExtend 64 < s.reg r := by
    rw [beq_eq_false_iff_ne, BitVec.ult, decide_eq_false_iff_not, BitVec.lt_def, ne_eq,
      ← BitVec.toNat_inj]
    omega
  rw [run_cons rfl]
  split
  · rename_i h
    exact run_jump (congrArg _ (if_pos (hflags.mpr h)))
  · rename_i h
    exact run_cons (congrArg _ (if_neg fun hc => h (hflags.mp hc)))

/-- **`cmp` and `jb`**: a jump when the register is below the immediate. -/
theorem run_cmp_jb :
    run mem (.cmp r imm :: .jb target :: code) s =
      if s.reg r < imm.signExtend 64 then
        (s.subFlags (s.reg r) (imm.signExtend 64), .jump target)
      else run mem code (s.subFlags (s.reg r) (imm.signExtend 64)) := by
  rw [run_cons rfl]
  split
  · rename_i h
    exact run_jump (congrArg _ (if_pos (BitVec.ult_iff_lt.mpr h)))
  · rename_i h
    exact run_cons (congrArg _ (if_neg fun hc => h (BitVec.ult_iff_lt.mp hc)))

end

/-! ## 2. Displacements, shifts, masks and xor as arithmetic -/

/-- An address below 2^31 survives its way through a displacement. -/
theorem signExtend_setWidth_low {w : Word} (h : w.toNat < 2 ^ 31) :
    (w.setWidth 32).signExtend 64 = w := by
  have hmsb : (w.setWidth 32).msb = false := by
    rw [BitVec.msb_eq_false_iff_two_mul_lt, BitVec.toNat_setWidth]
    omega
  rw [BitVec.signExtend_eq_setWidth_of_msb_false hmsb, ← BitVec.toNat_inj, BitVec.toNat_setWidth,
    BitVec.toNat_setWidth]
  omega

/-- **An address from 2^31 to 2^32** comes out of it 2^32 lower. -/
theorem signExtend_setWidth_high {w : Word} (hlow : 2 ^ 31 ≤ w.toNat) (hhigh : w.toNat < 2 ^ 32) :
    (w.setWidth 32).signExtend 64 = w - BitVec.ofNat 64 (2 ^ 32) := by
  have hmsb : (w.setWidth 32).msb = true := by
    rw [BitVec.msb_eq_true_iff_two_mul_ge, BitVec.toNat_setWidth]
    omega
  rw [← BitVec.toNat_inj, BitVec.toNat_signExtend, if_pos hmsb, BitVec.toNat_setWidth,
    BitVec.toNat_setWidth, BitVec.toNat_sub, BitVec.toNat_ofNat]
  omega

/-- Masking with `m << k` takes the bits of `m`, `k` places further up. -/
theorem and_shiftLeft (n m k : ℕ) : n &&& (m <<< k) = ((n >>> k) &&& m) <<< k := by
  refine Nat.eq_of_testBit_eq fun i => ?_
  simp only [Nat.testBit_and, Nat.testBit_shiftLeft, Nat.testBit_shiftRight]
  by_cases h : k ≤ i
  · rw [Nat.add_sub_cancel' h]
    simp [h]
  · simp [h]

/-- **Two numbers differ below bit `k` only**: they are in one block of `2 ^ k`. -/
theorem xor_lt_iff (a b k : ℕ) : a ^^^ b < 2 ^ k ↔ a / 2 ^ k = b / 2 ^ k := by
  rw [← Nat.div_eq_zero_iff_lt (Nat.two_pow_pos k), ← Nat.shiftRight_eq_div_pow,
    Nat.shiftRight_xor_distrib, Nat.xor_eq_zero_iff, Nat.shiftRight_eq_div_pow,
    Nat.shiftRight_eq_div_pow]

end X86
