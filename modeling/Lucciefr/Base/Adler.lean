import Mathlib.Tactic.Linarith

/-!
# Checksums of two sums

The first sum is the one of the bytes, and the second one is the sum of the first sums.
Both are reduced by a modulus after every byte. If they are reduced only now and then, the
result is the same as long as the words in between do not overflow.
-/

namespace Lucciefr.Adler

/-- Add a byte. The modulus 0 stands for sums which are not reduced. -/
def step (modulus : ℕ) (sums : ℕ × ℕ) (byte : UInt8) : ℕ × ℕ :=
  let first := (sums.1 + byte.toNat) % modulus
  (first, (sums.2 + first) % modulus)

def reduce (modulus : ℕ) (sums : ℕ × ℕ) : ℕ × ℕ :=
  (sums.1 % modulus, sums.2 % modulus)

/-- Adler-32 of bytes after others, as two sums. -/
def sums (before : ℕ × ℕ) (bytes : List UInt8) : ℕ × ℕ :=
  bytes.foldl (step 65521) before

/-- Both sums in a word. -/
def pack (sums : ℕ × ℕ) : ℕ :=
  sums.2 * 2 ^ 16 + sums.1

/-- Adler-32 -/
def adler32 (bytes : List UInt8) : ℕ :=
  pack (sums (1, 0) bytes)

variable {modulus word : ℕ} {start : ℕ × ℕ} {bytes : List UInt8} {byte : UInt8}

@[simp]
theorem step_reduce : step modulus (reduce modulus start) byte = step modulus start byte := by
  simp [step, reduce]

@[simp]
theorem reduce_step_zero : reduce modulus (step 0 start byte) = step modulus start byte := by
  simp [step, reduce]

/-- The reductions may be left to the end. -/
theorem reduce_foldl :
    reduce modulus (bytes.foldl (step 0) start) =
      bytes.foldl (step modulus) (reduce modulus start) := by
  induction bytes generalizing start with
  | nil => rfl
  | cons byte bytes ih =>
      rw [List.foldl_cons, List.foldl_cons, ih, reduce_step_zero, step_reduce]

theorem sums_reduce (nonempty : bytes ≠ []) :
    sums (reduce 65521 start) bytes = sums start bytes := by
  cases bytes with
  | nil => exact absurd rfl nonempty
  | cons byte bytes => rw [sums, sums, List.foldl_cons, List.foldl_cons, step_reduce]

/-- The sums are halves of a word. -/
theorem sums_lt (bytes : List UInt8) (first : start.1 < 2 ^ 16) (second : start.2 < 2 ^ 16) :
    (sums start bytes).1 < 2 ^ 16 ∧ (sums start bytes).2 < 2 ^ 16 := by
  induction bytes generalizing start with
  | nil => exact ⟨first, second⟩
  | cons byte bytes ih =>
      rw [sums, List.foldl_cons]
      apply ih
      · exact Nat.lt_trans (Nat.mod_lt _ (by decide)) (by decide)
      · exact Nat.lt_trans (Nat.mod_lt _ (by decide)) (by decide)

theorem sums_append {more : List UInt8} :
    sums start (bytes ++ more) = sums (sums start bytes) more :=
  List.foldl_append

/-- The sums of so many bytes do not exceed a word. -/
def Fits (word count : ℕ) (start : ℕ × ℕ) : Prop :=
  2 * start.2 + 2 * count * start.1 + 255 * count * (count + 1) < 2 * word

theorem step_of_fits {count : ℕ} (byte : UInt8) (fits : Fits word (count + 1) start) :
    step word start byte = step 0 start byte ∧ Fits word count (step 0 start byte) := by
  rw [Fits] at fits
  have small := byte.toNat_lt
  have scaled : 2 * (count + 1) * byte.toNat ≤ 2 * (count + 1) * 255 :=
    Nat.mul_le_mul_left _ (by omega)
  have first_lt : start.1 + byte.toNat < word := by nlinarith
  have second_lt : start.2 + (start.1 + byte.toNat) < word := by nlinarith
  refine ⟨?_, ?_⟩
  · simp [step, Nat.mod_eq_of_lt first_lt, Nat.mod_eq_of_lt second_lt]
  · simp only [Fits, step, Nat.mod_zero]
    nlinarith

theorem foldl_of_fits (fits : Fits word bytes.length start) :
    bytes.foldl (step word) start = bytes.foldl (step 0) start := by
  induction bytes generalizing start with
  | nil => rfl
  | cons byte bytes ih =>
      rcases step_of_fits byte fits with ⟨same, later⟩
      rw [List.foldl_cons, List.foldl_cons, same, ih later]

end Lucciefr.Adler
