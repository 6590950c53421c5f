/-
  File:      Persimmon/Lib/FullPeriod.lean
  Subject:   LINEAR CONGRUENTIAL SEQUENCES OF FULL PERIOD modulo a power of two.

  The sequence `x, a x + c, a (a x + c) + c, …` with `a = 4 b + 1`, `b` and `c` odd, meets every
  residue modulo `2 ^ m` within its first `2 ^ m` terms. For `u = 4 b x + c` one step is a
  multiplication by `a`, and the order of `a` modulo `2 ^ (m + 2)` is `2 ^ m`.

  * `scaled_iterate` -- the sequence, seen as powers of the multiplier;
  * `iterate_inj` -- two of the first `2 ^ m` terms that agree modulo `2 ^ m` are one term;
  * `exists_iterate_modEq` -- every residue is met.
-/
import Mathlib.RingTheory.ZMod.UnitsCyclic

namespace FullPeriod

/-- One step of the sequence. -/
def next (b c x : ℕ) : ℕ := (4 * b + 1) * x + c

/-- The value whose step is a multiplication. -/
def scaled (b c x : ℕ) : ℕ := 4 * b * x + c

theorem scaled_next (b c x : ℕ) : scaled b c (next b c x) = (4 * b + 1) * scaled b c x := by
  unfold scaled next
  ring

theorem scaled_iterate (b c x k : ℕ) :
    scaled b c ((next b c)^[k] x) = (4 * b + 1) ^ k * scaled b c x := by
  induction k with
  | zero => rw [Function.iterate_zero_apply, pow_zero, one_mul]
  | succ k ih => rw [Function.iterate_succ_apply', scaled_next, ih, pow_succ', mul_assoc]

variable {b c m : ℕ}

theorem next_modEq {n x y : ℕ} (h : x ≡ y [MOD n]) : next b c x ≡ next b c y [MOD n] :=
  (h.mul_left _).add_right c

theorem scaled_modEq {x y : ℕ} (h : x ≡ y [MOD 2 ^ m]) :
    scaled b c x ≡ scaled b c y [MOD 2 ^ (m + 2)] := by
  have h4 : 4 * x ≡ 4 * y [MOD 2 ^ (m + 2)] := by
    rw [pow_add, mul_comm (2 ^ m)]
    exact h.mul_left' 4
  have hb := (h4.mul_left b).add_right c
  unfold scaled
  rwa [mul_comm 4 b, mul_assoc, mul_assoc]

/-- The order of the multiplier. -/
theorem orderOf_multiplier (hb : Odd b) :
    orderOf ((4 * b + 1 : ℕ) : ZMod (2 ^ (m + 2))) = 2 ^ m := by
  have h := ZMod.orderOf_one_add_four_mul (b : ℤ) ((Int.odd_coe_nat b).mpr hb) m
  rw [← h, Nat.cast_add, Nat.cast_mul, Nat.cast_one, Nat.cast_ofNat, Int.cast_natCast,
    add_comm 1]

/-- The scaled value is odd, and so it can be cancelled. -/
theorem isUnit_scaled (hc : Odd c) (x : ℕ) :
    IsUnit ((scaled b c x : ℕ) : ZMod (2 ^ (m + 2))) := by
  rw [ZMod.isUnit_iff_coprime]
  refine Nat.Coprime.pow_right _ ?_
  rw [Nat.coprime_two_right]
  have heven : Even (4 * b * x) := ⟨2 * b * x, by ring⟩
  exact heven.add_odd hc

/-- **The first `2 ^ m` terms are distinct modulo `2 ^ m`.** -/
theorem iterate_inj (hb : Odd b) (hc : Odd c) {x j k : ℕ} (hj : j < 2 ^ m) (hk : k < 2 ^ m)
    (h : (next b c)^[j] x ≡ (next b c)^[k] x [MOD 2 ^ m]) : j = k := by
  have hs := (ZMod.natCast_eq_natCast_iff _ _ _).mpr (scaled_modEq (b := b) (c := c) h)
  rw [scaled_iterate, scaled_iterate, Nat.cast_mul, Nat.cast_mul, Nat.cast_pow, Nat.cast_pow] at hs
  have hpow := (isUnit_scaled (b := b) (m := m) hc x).mul_left_injective hs
  have hord := orderOf_multiplier (m := m) hb
  exact pow_injOn_Iio_orderOf (by rwa [hord]) (by rwa [hord]) hpow

/-- **Every residue is met.** -/
theorem exists_iterate_modEq (hb : Odd b) (hc : Odd c) (x y : ℕ) :
    ∃ k < 2 ^ m, (next b c)^[k] x ≡ y [MOD 2 ^ m] := by
  have hpos : 0 < 2 ^ m := Nat.two_pow_pos m
  let f : Fin (2 ^ m) → Fin (2 ^ m) := fun k => ⟨(next b c)^[k] x % 2 ^ m, Nat.mod_lt _ hpos⟩
  have hinj : Function.Injective f := by
    intro j k h
    exact Fin.ext (iterate_inj hb hc j.isLt k.isLt (congrArg Fin.val h))
  obtain ⟨k, hk⟩ := Finite.surjective_of_injective hinj ⟨y % 2 ^ m, Nat.mod_lt _ hpos⟩
  exact ⟨k, k.isLt, congrArg Fin.val hk⟩

end FullPeriod
