import Mathlib.Data.Int.Basic
import Mathlib.Data.List.Basic
import Mathlib.Tactic.Ring

/-!
# C strings

What `strlen` computes, and what remains of a length which is converted to an `int`.
-/

namespace Lucciefr

/-- The characters of a string before its terminating NUL. The NUL after the last
byte of the block is implicit. -/
def cString (block : List UInt8) : List UInt8 :=
  block.takeWhile (· ≠ 0)

/-- `strlen` -/
def strlen (block : List UInt8) : ℕ :=
  (cString block).length

/-- The conversion to a 32-bit `int`. -/
def toInt (value : ℕ) : ℤ :=
  (value : ℤ).bmod (2 ^ 32)

theorem cString_append_zero {name : List UInt8} (noNul : 0 ∉ name) (rest : List UInt8) :
    cString (name ++ 0 :: rest) = name := by
  rw [cString, List.takeWhile_append_of_pos]
  · simp
  · intro char charMem
    simpa using ne_of_mem_of_not_mem charMem noNul

theorem bmod_le (value modulus : ℕ) : (value : ℤ).bmod modulus ≤ value := by
  have remainder : (value : ℤ) % modulus ≤ value := by exact_mod_cast Nat.mod_le value modulus
  rw [Int.bmod_def]
  split <;> omega

theorem toInt_le (value : ℕ) : toInt value ≤ value :=
  bmod_le value (2 ^ 32)

theorem strlen_le (block : List UInt8) : strlen block ≤ block.length :=
  (List.takeWhile_prefix _).length_le

theorem toInt_eq (value : ℕ) : toInt value =
    if value % 2 ^ 32 < 2 ^ 31 then (value % 2 ^ 32 : ℤ) else (value % 2 ^ 32 : ℤ) - 2 ^ 32 := by
  unfold toInt
  rw [Int.bmod_def]
  split <;> split <;> omega

theorem toInt_lt (value : ℕ) : toInt value < 2 ^ 31 := by
  rw [toInt_eq]
  split <;> omega

theorem toInt_of_lt {value : ℕ} (small : value < 2 ^ 31) : toInt value = value := by
  rw [toInt_eq]
  split <;> omega

end Lucciefr
