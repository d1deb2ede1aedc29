import Mathlib.Data.List.Basic

/-!
# Bytes in hexadecimal

A byte as two lower-case digits with a separator behind them, and the reading of such
cells. What is written for a list of bytes is read as these bytes.
-/

namespace Lucciefr

/-- The digit with this value. -/
def hexDigit (value : ℕ) : UInt8 :=
  UInt8.ofNat (if value < 10 then 48 + value else 87 + value)

/-- `%02x` -/
def hexByte (byte : UInt8) : List UInt8 :=
  [hexDigit (byte.toNat / 16), hexDigit (byte.toNat % 16)]

/-- The value of a digit. -/
def digitValue (digit : UInt8) : Option ℕ :=
  if 48 ≤ digit.toNat ∧ digit.toNat ≤ 57 then
    some (digit.toNat - 48)
  else if 97 ≤ digit.toNat ∧ digit.toNat ≤ 102 then
    some (digit.toNat - 87)
  else
    none

/-- Read cells of two digits, each with the separator behind it. -/
def readHex (separator : UInt8) : List UInt8 → Option (List UInt8)
  | [] => some []
  | high :: low :: behind :: rest =>
      if behind = separator then do
        let high ← digitValue high
        let low ← digitValue low
        let bytes ← readHex separator rest
        pure (UInt8.ofNat (16 * high + low) :: bytes)
      else
        none
  | _ => none

variable {separator byte char : UInt8} {bytes : List UInt8} {value : ℕ}

theorem hexDigit_toNat (small : value < 16) :
    (hexDigit value).toNat = if value < 10 then 48 + value else 87 + value := by
  rw [hexDigit, UInt8.toNat_ofNat']
  split <;> omega

theorem digitValue_hexDigit (small : value < 16) : digitValue (hexDigit value) = some value := by
  rw [digitValue, hexDigit_toNat small]
  by_cases decimal : value < 10
  · rw [if_pos decimal, if_pos (by omega)]
    congr 1
    omega
  · rw [if_neg decimal, if_neg (by omega), if_pos (by omega)]
    congr 1
    omega

theorem hexDigit_ne_zero (small : value < 16) : hexDigit value ≠ 0 := by
  intro absurdity
  have toNat_eq := hexDigit_toNat small
  rw [absurdity, UInt8.toNat_zero] at toNat_eq
  split at toNat_eq <;> omega

theorem high_lt (byte : UInt8) : byte.toNat / 16 < 16 := by
  have := byte.toNat_lt
  omega

theorem low_lt (byte : UInt8) : byte.toNat % 16 < 16 :=
  Nat.mod_lt _ (by decide)

theorem hexByte_ne_zero (charMem : char ∈ hexByte byte) : char ≠ 0 := by
  rw [hexByte, List.mem_cons, List.mem_singleton] at charMem
  rcases charMem with rfl | rfl
  · exact hexDigit_ne_zero (high_lt byte)
  · exact hexDigit_ne_zero (low_lt byte)

/-- The cells of a list of bytes are read as these bytes. -/
theorem readHex_flatMap :
    readHex separator (bytes.flatMap fun byte => hexByte byte ++ [separator]) = some bytes := by
  induction bytes with
  | nil => rfl
  | cons byte bytes ih =>
      have whole : UInt8.ofNat (16 * (byte.toNat / 16) + byte.toNat % 16) = byte := by
        rw [Nat.div_add_mod]
        exact UInt8.ofNat_toNat
      rw [List.flatMap_cons, hexByte]
      simp only [List.cons_append, List.nil_append]
      rw [readHex, if_pos rfl, digitValue_hexDigit (high_lt byte),
        digitValue_hexDigit (low_lt byte), ih]
      simp only [Option.bind_eq_bind, Option.bind_some, whole]
      rfl

end Lucciefr
