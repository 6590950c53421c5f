/-
  File:      Persimmon/Word.lean
  Subject:   64-bit machine arithmetic and the layout constants the code is built on.

  An address, a size or an index is a natural number; `add64` and `sub64` wrap as the unsigned
  operations of the code do. A byte is a natural number too: nothing here depends on its bound.
-/
import Mathlib.Algebra.Group.Int.Defs
import Mathlib.Algebra.Group.Nat.Defs
import Mathlib.Data.Int.Notation
import Mathlib.Data.Nat.Notation
import Mathlib.Tactic.Common

namespace Persimmon

/-! ## 1. Unsigned 64-bit operations -/

def add64 (a b : ℕ) : ℕ := (a + b) % 2 ^ 64

def sub64 (a b : ℕ) : ℕ := (a + 2 ^ 64 - b) % 2 ^ 64

/-- The value a 64-bit argument has once it is passed as `uint`. -/
def toUint (n : ℕ) : ℕ := n % 2 ^ 32

/-- The value a 64-bit integer has once it is an `int`. -/
def toInt (x : ℤ) : ℤ := Int.bmod x (2 ^ 32)

/-- The value an `int` has once it is a `size_t`. -/
def toSizeT (x : ℤ) : ℕ := (x % 2 ^ 64).toNat

theorem add64_of_lt {a b : ℕ} (h : a + b < 2 ^ 64) : add64 a b = a + b := Nat.mod_eq_of_lt h

theorem sub64_of_le {a b : ℕ} (hb : b ≤ a) (ha : a < 2 ^ 64) : sub64 a b = a - b := by
  unfold sub64
  omega

theorem toUint_le (n : ℕ) : toUint n ≤ n := Nat.mod_le _ _

theorem toUint_of_lt {n : ℕ} (h : n < 2 ^ 32) : toUint n = n := Nat.mod_eq_of_lt h

theorem toInt_of_lt {n : ℕ} (h : n < 2 ^ 31) : toInt n = n := by
  unfold toInt
  rw [Int.bmod_def]
  omega

theorem toSizeT_of_lt {n : ℕ} (h : n < 2 ^ 64) : toSizeT n = n := by
  unfold toSizeT
  omega

/-! ## 2. Layout constants

`UNDO_BLK_SIZE_B` is 32 and `CACHE_LINE_SIZE_B` is 64; they stand as literals where arithmetic
is done on them. -/

/-- `UNDO_NUM_ENTRIES` -/
def undoNumEntries : ℕ := 1024 * 512

/-- `PSM_LOG_SIZE_B` -/
def psmLogSizeB : ℕ := 2 ^ 20

/-- The start of the undo block an address lies in: `addr & ~(UNDO_BLK_SIZE_B - 1)`. -/
def blkStart (a : ℕ) : ℕ := a - a % 32

/-- The cache line an address lies in. -/
def cacheLine (a : ℕ) : ℕ := a / 64

theorem blkStart_le (a : ℕ) : blkStart a ≤ a := Nat.sub_le _ _

theorem lt_blkStart_add (a : ℕ) : a < blkStart a + 32 := by
  unfold blkStart
  omega

theorem blkStart_mod (a : ℕ) : blkStart a % 32 = 0 := by
  unfold blkStart
  omega

theorem eq_blkStart_iff {a p : ℕ} (hp : p % 32 = 0) : p = blkStart a ↔ p ≤ a ∧ a < p + 32 := by
  unfold blkStart
  omega

/-- A 32-byte block does not straddle a cache line. -/
theorem cacheLine_blkStart (a : ℕ) : cacheLine (blkStart a) = cacheLine a := by
  unfold cacheLine blkStart
  omega

end Persimmon
