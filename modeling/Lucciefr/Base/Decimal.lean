import Mathlib.Data.List.Basic
import Mathlib.Tactic.IntervalCases

/-!
# Numbers in decimal

Natural numbers as digits, also with zeros in front of them up to a given width, and the
reading of such a text. What is written is read as the same number.
-/

namespace Lucciefr

/-- The digits of a number. -/
def decimal (n : ℕ) : List UInt8 :=
  (Nat.toDigits 10 n).map fun char => UInt8.ofNat char.toNat

/-- `%0*d`, the digits of a number with zeros in front of them. -/
def padded (width n : ℕ) : List UInt8 :=
  List.replicate (width - (decimal n).length) 48 ++ decimal n

/-- A digit. -/
def IsDigit (char : UInt8) : Prop :=
  48 ≤ char.toNat ∧ char.toNat ≤ 57

instance : DecidablePred IsDigit := fun char =>
  inferInstanceAs (Decidable (48 ≤ char.toNat ∧ char.toNat ≤ 57))

/-- The number with these digits. -/
def readDecimal (text : List UInt8) : ℕ :=
  text.foldl (fun value char => 10 * value + (char.toNat - 48)) 0

variable {n k width : ℕ} {char : UInt8}

theorem digitChar_eq (small : n < 10) :
    UInt8.ofNat (Nat.digitChar n).toNat = UInt8.ofNat (48 + n) := by
  interval_cases n <;> rfl

theorem toNat_digit (small : n < 10) : (UInt8.ofNat (48 + n)).toNat = 48 + n := by
  rw [UInt8.toNat_ofNat', Nat.mod_eq_of_lt (by omega)]

/-- The last digit is at the end. -/
theorem decimal_eq (n : ℕ) :
    decimal n = (if n < 10 then [] else decimal (n / 10)) ++ [UInt8.ofNat (48 + n % 10)] := by
  rw [decimal, Nat.toDigits_eq_if (by decide)]
  split
  · rename_i small
    rw [List.map_singleton, digitChar_eq small, Nat.mod_eq_of_lt small, List.nil_append]
  · rw [List.map_append, List.map_singleton, digitChar_eq (Nat.mod_lt n (by decide)), decimal]

theorem decimal_of_lt (small : n < 10) : decimal n = [UInt8.ofNat (48 + n)] := by
  rw [decimal_eq, if_pos small, Nat.mod_eq_of_lt small, List.nil_append]

theorem decimal_ne_nil : decimal n ≠ [] := by
  rw [decimal_eq]
  simp

theorem isDigit_of_mem_decimal (charMem : char ∈ decimal n) : IsDigit char := by
  induction n using Nat.strong_induction_on with
  | _ n ih =>
      rw [decimal_eq, List.mem_append, List.mem_singleton] at charMem
      rcases charMem with higher | rfl
      · split at higher
        · cases higher
        · exact ih (n / 10) (by omega) higher
      · rw [IsDigit, toNat_digit (Nat.mod_lt n (by decide))]
        omega

theorem readDecimal_append_singleton (text : List UInt8) (char : UInt8) :
    readDecimal (text ++ [char]) = 10 * readDecimal text + (char.toNat - 48) := by
  rw [readDecimal, List.foldl_append]
  rfl

@[simp]
theorem readDecimal_decimal (n : ℕ) : readDecimal (decimal n) = n := by
  induction n using Nat.strong_induction_on with
  | _ n ih =>
      rw [decimal_eq, readDecimal_append_singleton, toNat_digit (Nat.mod_lt n (by decide))]
      split
      · rw [readDecimal, List.foldl_nil]
        omega
      · rw [ih (n / 10) (by omega)]
        omega

theorem length_decimal_le (positive : 0 < k) (small : n < 10 ^ k) : (decimal n).length ≤ k := by
  induction k generalizing n with
  | zero => exact absurd positive (lt_irrefl 0)
  | succ k ih =>
      rw [decimal_eq, List.length_append, List.length_singleton]
      split
      · rw [List.length_nil]
        omega
      · rename_i large
        have shorter : n / 10 < 10 ^ k := by
          rw [Nat.pow_succ] at small
          omega
        have nonzero : 0 < k := by
          rcases Nat.eq_zero_or_pos k with rfl | nonzero
          · omega
          · exact nonzero
        have bound := ih nonzero shorter
        omega

theorem isDigit_of_mem_padded (charMem : char ∈ padded width n) : IsDigit char := by
  rcases List.mem_append.mp charMem with zero | digit
  · rw [List.eq_of_mem_replicate zero]
    decide
  · exact isDigit_of_mem_decimal digit

theorem padded_ne_nil : padded width n ≠ [] := by
  intro absurdity
  exact decimal_ne_nil (List.append_eq_nil_iff.mp absurdity).2

theorem length_padded (positive : 0 < width) (small : n < 10 ^ width) :
    (padded width n).length = width := by
  have bound := length_decimal_le positive small
  rw [padded, List.length_append, List.length_replicate]
  omega

theorem readDecimal_zeros (count : ℕ) (text : List UInt8) :
    readDecimal (List.replicate count 48 ++ text) = readDecimal text := by
  induction count with
  | zero => rfl
  | succ count ih =>
      rw [List.replicate_succ, List.cons_append, ← ih]
      rfl

@[simp]
theorem readDecimal_padded (width n : ℕ) : readDecimal (padded width n) = n := by
  rw [padded, readDecimal_zeros, readDecimal_decimal]

end Lucciefr
