import Mathlib.Data.Rat.Floor
import Mathlib.Tactic.Linarith

/-!
# Rounding to integers

The integer nearest to a rational number, where a number in the middle between two of them
is rounded to the even one.
-/

namespace Lucciefr

/-- Round to the nearest integer, or to the even one of two. -/
def roundHalfEven (x : ℚ) : ℤ :=
  if 1 < 2 * Int.fract x ∨ 2 * Int.fract x = 1 ∧ ⌊x⌋ % 2 = 1 then ⌊x⌋ + 1 else ⌊x⌋

variable {x y : ℚ} {n : ℤ}

theorem roundHalfEven_intCast (n : ℤ) : roundHalfEven n = n := by
  rw [roundHalfEven, Int.floor_intCast, Int.fract_intCast, if_neg (by norm_num)]

theorem floor_le_roundHalfEven (x : ℚ) : ⌊x⌋ ≤ roundHalfEven x := by
  rw [roundHalfEven]
  split <;> omega

theorem roundHalfEven_le_floor_add_one (x : ℚ) : roundHalfEven x ≤ ⌊x⌋ + 1 := by
  rw [roundHalfEven]
  split <;> omega

/-- The error is at most one half. -/
theorem abs_roundHalfEven_sub_le (x : ℚ) : |(roundHalfEven x : ℚ) - x| ≤ 1 / 2 := by
  have parts := Int.floor_add_fract x
  rw [roundHalfEven, abs_le]
  split
  · rename_i above
    have half : 1 ≤ 2 * Int.fract x := by
      rcases above with more | ⟨same, -⟩
      · exact more.le
      · exact same.ge
    have below := Int.fract_lt_one x
    push_cast
    constructor <;> linarith
  · rename_i below
    rw [not_or, not_lt] at below
    have nonneg := Int.fract_nonneg x
    constructor <;> linarith [below.1]

/-- An odd integer is not exceeded up to the middle, where the next one is the even one. -/
theorem roundHalfEven_le_iff (odd : n % 2 = 1) : roundHalfEven x ≤ n ↔ 2 * x < 2 * n + 1 := by
  have parts := Int.floor_add_fract x
  have nonneg := Int.fract_nonneg x
  have below := Int.fract_lt_one x
  rcases lt_trichotomy ⌊x⌋ n with smaller | same | larger
  · have step : ((⌊x⌋ + 1 : ℤ) : ℚ) ≤ n := by exact_mod_cast smaller
    push_cast at step
    have upper := roundHalfEven_le_floor_add_one x
    exact iff_of_true (by omega) (by linarith)
  · rw [roundHalfEven, same, odd]
    have floor_eq : ((⌊x⌋ : ℤ) : ℚ) = n := by exact_mod_cast same
    split
    · rename_i above
      have half : 1 ≤ 2 * Int.fract x := by
        rcases above with more | ⟨middle, -⟩
        · exact more.le
        · exact middle.ge
      exact iff_of_false (by omega) (by linarith)
    · rename_i notAbove
      have half : 2 * Int.fract x < 1 := by
        rcases lt_trichotomy (2 * Int.fract x) 1 with less | middle | more
        · exact less
        · exact absurd (Or.inr ⟨middle, rfl⟩) notAbove
        · exact absurd (Or.inl more) notAbove
      exact iff_of_true le_rfl (by linarith)
  · have step : ((n + 1 : ℤ) : ℚ) ≤ ⌊x⌋ := by exact_mod_cast larger
    push_cast at step
    have lower := floor_le_roundHalfEven x
    exact iff_of_false (by omega) (by linarith)

theorem roundHalfEven_mono (ordered : x ≤ y) : roundHalfEven x ≤ roundHalfEven y := by
  have floors := Int.floor_le_floor ordered
  rcases floors.lt_or_eq with smaller | same
  · have upper := roundHalfEven_le_floor_add_one x
    have lower := floor_le_roundHalfEven y
    omega
  · have fracts : Int.fract x ≤ Int.fract y := by
      have left := Int.floor_add_fract x
      have right := Int.floor_add_fract y
      rw [same] at left
      linarith
    rw [roundHalfEven, roundHalfEven, same]
    split
    · rename_i above
      rw [if_pos]
      rcases above with more | ⟨middle, odd⟩
      · exact Or.inl (by linarith)
      · rcases fracts.lt_or_eq with less | equal
        · exact Or.inl (by linarith)
        · exact Or.inr ⟨by rw [← equal, middle], odd⟩
    · split <;> omega

end Lucciefr
