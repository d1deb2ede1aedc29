import Mathlib.Data.List.Basic
import Mathlib.Algebra.BigOperators.Group.List.Basic
import Mathlib.Tactic.Ring

/-!
# The calendar

The date of a day which is counted from the first of January 1970, and the number of the
day with a given date. The leap years repeat after 400 years, and within these the year is
found by its length, as is the month within the year.
-/

namespace Lucciefr

/-- Find the position of a number in a sequence of intervals with these lengths: the index of
an interval, and the offset in it. -/
def locate : (lengths : List ℕ) → (n : ℕ) → ℕ × ℕ
  | [], n => (0, n)
  | length :: lengths, n =>
      if n < length then
        (0, n)
      else
        let (index, offset) := locate lengths (n - length)
        (index + 1, offset)

/-- A year with 366 days. -/
def IsLeap (year : ℤ) : Prop :=
  year % 4 = 0 ∧ year % 100 ≠ 0 ∨ year % 400 = 0

instance : DecidablePred IsLeap := fun year =>
  inferInstanceAs (Decidable (year % 4 = 0 ∧ year % 100 ≠ 0 ∨ year % 400 = 0))

/-- The number of days of a year. -/
def yearLength (year : ℤ) : ℕ :=
  if IsLeap year then 366 else 365

/-- The number of days of each month. -/
def monthLengths (year : ℤ) : List ℕ :=
  [31, if IsLeap year then 29 else 28, 31, 30, 31, 30, 31, 31, 30, 31, 30, 31]

/-- The lengths of the 400 years from 1970 on. -/
def cycle : List ℕ :=
  (List.range 400).map fun year : ℕ => yearLength (1970 + year)

/-- A date, where the month counts from zero and the day from one. -/
structure Date where
  year : ℤ
  month : ℕ
  day : ℕ
deriving DecidableEq

/-- The date of the day with this number. -/
def civil (number : ℤ) : Date :=
  let inCycle := locate cycle (number % 146097).toNat
  let year := 1970 + inCycle.1 + 400 * (number / 146097)
  let inYear := locate (monthLengths year) inCycle.2
  ⟨year, inYear.1, inYear.2 + 1⟩

/-- The number of days from 1970 to the beginning of a year. -/
def daysBeforeYear (year : ℤ) : ℤ :=
  365 * (year - 1970) + (year - 1) / 4 - (year - 1) / 100 + (year - 1) / 400 - 477

/-- The number of the day with this date. -/
def Date.number (date : Date) : ℤ :=
  daysBeforeYear date.year + ((monthLengths date.year).take date.month).sum + (date.day - 1)

section Locate

variable {lengths : List ℕ} {n : ℕ}

/-- What is in front of the interval and in it adds up to the number. -/
theorem sum_locate (lengths : List ℕ) (n : ℕ) :
    (lengths.take (locate lengths n).1).sum + (locate lengths n).2 = n := by
  induction lengths generalizing n with
  | nil => simp [locate]
  | cons length lengths ih =>
      rw [locate]
      split
      · simp
      · have rest := ih (n - length)
        simp only [List.take_succ_cons, List.sum_cons]
        omega

/-- A number below the sum of the lengths is in one of the intervals. -/
theorem locate_lt (inside : n < lengths.sum) :
    ∃ length, lengths[(locate lengths n).1]? = some length ∧ (locate lengths n).2 < length := by
  induction lengths generalizing n with
  | nil => cases inside
  | cons length lengths ih =>
      rw [locate]
      split
      · exact ⟨length, rfl, ‹_›⟩
      · rw [List.sum_cons] at inside
        exact ih (by omega)

end Locate

variable {year number : ℤ}

theorem daysBeforeYear_succ (year : ℤ) :
    daysBeforeYear (year + 1) = daysBeforeYear year + yearLength year := by
  by_cases leap : IsLeap year
  · rw [yearLength, if_pos leap, daysBeforeYear, daysBeforeYear]
    rw [IsLeap] at leap
    omega
  · rw [yearLength, if_neg leap, daysBeforeYear, daysBeforeYear]
    rw [IsLeap] at leap
    omega

theorem daysBeforeYear_cycle (count : ℤ) :
    daysBeforeYear (year + 400 * count) = daysBeforeYear year + 146097 * count := by
  simp only [daysBeforeYear]
  omega

theorem sum_take_cycle {years : ℕ} (few : years ≤ 400) :
    ((cycle.take years).sum : ℤ) = daysBeforeYear (1970 + years) := by
  induction years with
  | zero => rfl
  | succ years ih =>
      have here : cycle[years]? = some (yearLength (1970 + (years : ℤ))) := by
        rw [cycle, List.getElem?_map, List.getElem?_range (by omega), Option.map_some]
      rw [List.take_add_one, here, Option.toList_some, List.sum_append, List.sum_singleton,
        Nat.cast_add, ih (by omega), Nat.cast_succ, ← add_assoc, daysBeforeYear_succ]

theorem sum_cycle : cycle.sum = 146097 := by
  have whole := sum_take_cycle le_rfl
  have length_eq : cycle.length = 400 := by rw [cycle, List.length_map, List.length_range]
  have days : daysBeforeYear (1970 + (400 : ℕ)) = 146097 := by decide
  rw [days, List.take_of_length_le length_eq.le] at whole
  exact_mod_cast whole

/-- What is counted from the beginning of the year to the day is the number of the day. -/
theorem number_civil (number : ℤ) : (civil number).number = number := by
  have inCycle := sum_locate cycle (number % 146097).toNat
  have inside : (number % 146097).toNat < cycle.sum := by
    rw [sum_cycle]
    omega
  rcases locate_lt inside with ⟨length, found, -⟩
  have few : (locate cycle (number % 146097).toNat).1 ≤ 400 := by
    have below := (List.getElem?_eq_some_iff.mp found).1
    rw [cycle, List.length_map, List.length_range] at below
    exact below.le
  have years := sum_take_cycle few
  simp only [civil, Date.number, daysBeforeYear_cycle]
  rw [← years]
  have inYear := sum_locate (monthLengths (1970 + (locate cycle (number % 146097).toNat).1 +
    400 * (number / 146097))) (locate cycle (number % 146097).toNat).2
  omega

theorem civil_year_ge (nonneg : 0 ≤ number) : 1970 ≤ (civil number).year := by
  have cycles : 0 ≤ number / 146097 := Int.ediv_nonneg nonneg (by decide)
  simp only [civil]
  omega

end Lucciefr
