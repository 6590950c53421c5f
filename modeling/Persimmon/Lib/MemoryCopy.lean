/-
  File:      Persimmon/Lib/MemoryCopy.lean
  Subject:   COPYING CELLS FROM ONE PLACE OF A MEMORY TO ANOTHER, in pieces.

  A copy of `n` cells from `s` to `d` is a function of the memory before it, whether or not the two
  intervals overlap. Code makes it piece by piece, and each piece reads what the pieces before it
  have left: from the front that is right when the destination lies below the source or apart from
  it, from the back when it lies above.

  * `moved` -- the memory after a copy;
  * `moved_front`, `moved_back` -- a piece at the end of what is copied, and at its beginning.
-/
import Mathlib.Data.Nat.Notation
import Mathlib.Tactic.Common

namespace MemoryCopy

variable {V : Type*}

/-- **The memory after a copy** of `n` cells from `s` to `d`. -/
def moved (d s n : ℕ) (m : ℕ → V) : ℕ → V := fun x => if d ≤ x ∧ x < d + n then m (s + (x - d)) else m x

variable {d s n k w : ℕ} {m : ℕ → V}

theorem moved_of_mem {x : ℕ} (h : d ≤ x ∧ x < d + n) : moved d s n m x = m (s + (x - d)) := if_pos h

theorem moved_of_notMem {x : ℕ} (h : ¬ (d ≤ x ∧ x < d + n)) : moved d s n m x = m x := if_neg h

@[simp] theorem moved_zero (d s : ℕ) (m : ℕ → V) : moved d s 0 m = m :=
  funext fun _ => moved_of_notMem (by omega)

/-- **A piece behind the ones already copied**: it reads what was there, since the copy so far has
    not come to it. -/
theorem moved_front (h : d ≤ s ∨ s + n ≤ d) (hk : k + w ≤ n) :
    moved (d + k) (s + k) w (moved d s k m) = moved d s (k + w) m := by
  funext x
  by_cases hpiece : d + k ≤ x ∧ x < d + k + w
  · rw [moved_of_mem hpiece, moved_of_notMem (by omega), moved_of_mem (by omega)]
    congr 1
    omega
  · rw [moved_of_notMem hpiece]
    by_cases hx : d ≤ x ∧ x < d + k
    · rw [moved_of_mem hx, moved_of_mem (by omega)]
    · rw [moved_of_notMem hx, moved_of_notMem (by omega)]

/-- **A piece before the ones already copied.** -/
theorem moved_back (h : s ≤ d) :
    moved d s k (moved (d + k) (s + k) w m) = moved d s (k + w) m := by
  funext x
  by_cases hpiece : d ≤ x ∧ x < d + k
  · rw [moved_of_mem hpiece, moved_of_notMem (by omega), moved_of_mem (by omega)]
  · rw [moved_of_notMem hpiece]
    by_cases hx : d + k ≤ x ∧ x < d + k + w
    · rw [moved_of_mem hx, moved_of_mem (by omega)]
      congr 1
      omega
    · rw [moved_of_notMem hx, moved_of_notMem (by omega)]

end MemoryCopy
