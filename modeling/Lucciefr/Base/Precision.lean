import Mathlib.Data.Int.Log
import Mathlib.Tactic.FieldSimp
import Mathlib.Tactic.Positivity
import Lucciefr.Base.Rounding

/-!
# Binary numbers of limited precision

The number with a given count of significant bits which is nearest to a rational number.
There is no bound on the exponent.
-/

namespace Lucciefr

/-- The unit in the last place of the numbers of this precision around `x`. -/
def lastPlace (precision : ℕ) (x : ℚ) : ℚ :=
  2 ^ (Int.log 2 |x| - (precision - 1))

/-- The nearest number of this precision, or of two the one with an even significand. -/
def roundToPrecision (precision : ℕ) (x : ℚ) : ℚ :=
  roundHalfEven (x / lastPlace precision x) * lastPlace precision x

/-- The significant bits of a number of this precision, as a natural number. -/
def significand (precision : ℕ) (x : ℚ) : ℕ :=
  ⌊|x| / lastPlace precision x⌋.toNat

variable {exponent : ℕ} {x : ℚ} {low high : ℤ}

theorem log_of_bounds (lower : 2 ^ exponent ≤ x) (upper : x < 2 ^ (exponent + 1)) :
    Int.log 2 |x| = exponent := by
  have positive : 0 < x := lt_of_lt_of_le (by positivity) lower
  rw [abs_of_pos positive]
  apply le_antisymm
  · have power : ((2 : ℕ) : ℚ) ^ Int.log 2 x ≤ x := Int.zpow_log_le_self (by decide) positive
    have wider : x < (2 : ℚ) ^ ((exponent : ℤ) + 1) := by exact_mod_cast upper
    have below : (2 : ℚ) ^ Int.log 2 x < 2 ^ ((exponent : ℤ) + 1) := lt_of_le_of_lt power wider
    have exponents := (zpow_lt_zpow_iff_right₀ (by norm_num)).mp below
    omega
  · have power : ((2 : ℕ) : ℚ) ^ (exponent : ℤ) ≤ x := by exact_mod_cast lower
    exact (Int.zpow_le_iff_le_log (by decide) positive).mp power

theorem lastPlace_of_bounds (places : ℕ) (lower : 2 ^ exponent ≤ x)
    (upper : x < 2 ^ (exponent + 1)) :
    lastPlace (exponent + places + 1) x = (2 ^ places)⁻¹ := by
  rw [lastPlace, log_of_bounds lower upper, ← zpow_natCast, ← zpow_neg]
  congr 1
  push_cast
  ring

/-- Rounding does not leave an interval between integers with this exponent. -/
theorem roundToPrecision_between (places : ℕ) (lower : 2 ^ exponent ≤ low)
    (upper : high < 2 ^ (exponent + 1)) (above : low ≤ x) (below : x ≤ high) :
    low ≤ roundToPrecision (exponent + places + 1) x ∧
      roundToPrecision (exponent + places + 1) x ≤ high := by
  have inside : (2 : ℚ) ^ exponent ≤ x := le_trans (by exact_mod_cast lower) above
  have outside : x < 2 ^ (exponent + 1) := lt_of_le_of_lt below (by exact_mod_cast upper)
  have power : (0 : ℚ) < 2 ^ places := by positivity
  rw [roundToPrecision, lastPlace_of_bounds places inside outside, div_inv_eq_mul, ← div_eq_mul_inv]
  constructor
  · have scaled : ((low * 2 ^ places : ℤ) : ℚ) ≤ x * 2 ^ places := by
      push_cast
      gcongr
    have rounded := roundHalfEven_mono scaled
    rw [roundHalfEven_intCast] at rounded
    rw [le_div_iff₀ power]
    exact_mod_cast rounded
  · have scaled : x * 2 ^ places ≤ ((high * 2 ^ places : ℤ) : ℚ) := by
      push_cast
      gcongr
    have rounded := roundHalfEven_mono scaled
    rw [roundHalfEven_intCast] at rounded
    rw [div_le_iff₀ power]
    exact_mod_cast rounded

/-- Where the last place is the one of the units, the significand is the integral part. -/
theorem significand_between (lower : 2 ^ exponent ≤ low) (upper : high < 2 ^ (exponent + 1))
    (above : low ≤ x) (below : x ≤ high) :
    low ≤ significand (exponent + 1) x ∧ significand (exponent + 1) x ≤ high := by
  have inside : (2 : ℚ) ^ exponent ≤ x := le_trans (by exact_mod_cast lower) above
  have outside : x < 2 ^ (exponent + 1) := lt_of_le_of_lt below (by exact_mod_cast upper)
  have positive : 0 < x := lt_of_lt_of_le (by positivity) inside
  have unit : lastPlace (exponent + 1) x = 1 := by
    calc lastPlace (exponent + 0 + 1) x
        = (2 ^ 0)⁻¹ := lastPlace_of_bounds 0 inside outside
      _ = 1 := by norm_num
  rw [significand, unit, div_one, abs_of_pos positive,
    Int.toNat_of_nonneg (Int.floor_nonneg.mpr positive.le)]
  exact ⟨Int.le_floor.mpr above, Int.cast_le.mp ((Int.floor_le x).trans below)⟩

end Lucciefr
