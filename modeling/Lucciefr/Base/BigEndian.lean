import Mathlib.Tactic.Ring
import Mathlib.Data.Nat.Basic
import Mathlib.Data.List.Basic

/-!
# Big-endian integers

The bytes of a natural number, most significant byte first, in a field of fixed
width. Writing truncates to the width; reading returns what was written.
-/

namespace Lucciefr

/-- The lowest `width` bytes of a number, most significant byte first. -/
def bigEndian : (width : ℕ) → ℕ → List UInt8
  | 0, _ => []
  | width + 1, value => UInt8.ofNat (value / 256 ^ width) :: bigEndian width value

/-- The number whose bytes these are. -/
def ofBigEndian (bytes : List UInt8) : ℕ :=
  bytes.foldl (fun value byte => value * 256 + byte.toNat) 0

@[simp]
theorem length_bigEndian (width value : ℕ) : (bigEndian width value).length = width := by
  induction width with
  | zero => rfl
  | succ width ih => simp [bigEndian, ih]

theorem getElem?_bigEndian {width position : ℕ} (value : ℕ) (inside : position < width) :
    (bigEndian width value)[position]? =
      some (UInt8.ofNat (value / 256 ^ (width - 1 - position))) := by
  induction width generalizing position with
  | zero => contradiction
  | succ width ih =>
      cases position with
      | zero => rfl
      | succ position =>
          have place : width + 1 - 1 - (position + 1) = width - 1 - position := by omega
          rw [bigEndian, List.getElem?_cons_succ, ih (Nat.lt_of_succ_lt_succ inside), place]

theorem foldl_bigEndian (width value start : ℕ) :
    (bigEndian width value).foldl (fun value byte => value * 256 + byte.toNat) start =
      start * 256 ^ width + value % 256 ^ width := by
  induction width generalizing start with
  | zero => simp [bigEndian, Nat.mod_one]
  | succ width ih =>
      have digit : (UInt8.ofNat (value / 256 ^ width)).toNat = value / 256 ^ width % 256 := by
        simp
      rw [bigEndian, List.foldl_cons, ih, digit, pow_succ, Nat.mod_mul]
      ring

theorem ofBigEndian_bigEndian (width value : ℕ) :
    ofBigEndian (bigEndian width value) = value % 256 ^ width := by
  simp [ofBigEndian, foldl_bigEndian]

theorem ofBigEndian_bigEndian_of_lt {width value : ℕ} (fits : value < 256 ^ width) :
    ofBigEndian (bigEndian width value) = value := by
  rw [ofBigEndian_bigEndian, Nat.mod_eq_of_lt fits]

theorem ofBigEndian_lt (bytes : List UInt8) : ofBigEndian bytes < 256 ^ bytes.length := by
  have general : ∀ start, bytes.foldl (fun value byte => value * 256 + byte.toNat) start <
      (start + 1) * 256 ^ bytes.length := by
    induction bytes with
    | nil => simp
    | cons byte bytes ih =>
        intro start
        have digit := byte.toNat_lt
        have next := ih (start * 256 + byte.toNat)
        have step : (start * 256 + byte.toNat + 1) * 256 ^ bytes.length ≤
            ((start + 1) * 256) * 256 ^ bytes.length :=
          Nat.mul_le_mul_right _ (by omega)
        rw [List.foldl_cons, List.length_cons, pow_succ]
        calc
          _ < (start * 256 + byte.toNat + 1) * 256 ^ bytes.length := next
          _ ≤ ((start + 1) * 256) * 256 ^ bytes.length := step
          _ = (start + 1) * (256 ^ bytes.length * 256) := by ring
  simpa [ofBigEndian] using general 0

end Lucciefr
