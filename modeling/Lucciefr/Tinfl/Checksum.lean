import Lucciefr.Base.Adler
import Lucciefr.Tinfl.Basic

/-!
# The checksum of the output

The decompressor keeps the Adler-32 of what it wrote over its calls. It adds eight bytes in
a turn, and reduces the sums after blocks which are short enough for 32 bits.
-/

namespace Lucciefr.Tinfl

open Adler

variable {start : ℕ × ℕ} {output : List UInt8} {blockLen turns : ℕ}

/-- Bytes are added in groups of eight, and then one by one. -/
theorem addBlock_eq {block : List UInt8} :
    addBlock turns block start = block.foldl (step (2 ^ 32)) start := by
  induction turns generalizing block start with
  | zero => rfl
  | succ turns ih =>
      rw [addBlock]
      split
      · rw [ih]
        change (block.drop 8).foldl (step (2 ^ 32)) ((block.take 8).foldl (step (2 ^ 32)) start) = _
        rw [← List.foldl_append, List.take_append_drop]
      · rfl

/-- A block of 5552 bytes does not overflow. -/
theorem fits_of_le {count : ℕ} (short : count ≤ 5552) (first : start.1 < 2 ^ 16)
    (second : start.2 < 2 ^ 16) : Fits (2 ^ 32) count start := by
  have products : count * start.1 ≤ 5552 * 65535 :=
    Nat.mul_le_mul short (Nat.le_of_lt_succ first)
  have squares : count * (count + 1) ≤ 5552 * 5553 :=
    Nat.mul_le_mul short (Nat.succ_le_succ short)
  rw [Fits, Nat.mul_assoc, Nat.mul_assoc]
  omega

theorem reduce_addBlock (short : blockLen ≤ 5552) (first : start.1 < 2 ^ 16)
    (second : start.2 < 2 ^ 16) :
    reduce 65521 (addBlock blockLen (output.take blockLen) start) =
      (output.take blockLen).foldl (step 65521) (reduce 65521 start) := by
  have fits : Fits (2 ^ 32) (output.take blockLen).length start := by
    apply fits_of_le _ first second
    rw [List.length_take]
    omega
  rw [addBlock_eq, foldl_of_fits fits, reduce_foldl]

/-- The reductions after the blocks lead to the same sums as one after every byte. -/
theorem addBlocks_eq (short : blockLen ≤ 5552) (first : start.1 < 2 ^ 16)
    (second : start.2 < 2 ^ 16) (enough : output.length + (if blockLen = 0 then 1 else 0) < turns) :
    addBlocks turns blockLen output start = .ok (sums start output) := by
  induction turns generalizing blockLen output start with
  | zero => cases enough
  | succ turns ih =>
      rw [addBlocks]
      by_cases empty : output = []
      · rw [if_pos empty, empty]
        rfl
      · rw [if_neg empty]
        have reduced : (addBlock blockLen (output.take blockLen) start).1 % 65521 < 2 ^ 16 ∧
            (addBlock blockLen (output.take blockLen) start).2 % 65521 < 2 ^ 16 :=
          ⟨Nat.lt_trans (Nat.mod_lt _ (by decide)) (by decide),
            Nat.lt_trans (Nat.mod_lt _ (by decide)) (by decide)⟩
        have positive := List.length_pos_iff.mpr empty
        have fewer : (output.drop blockLen).length + 0 < turns := by
          rw [List.length_drop]
          split at enough <;> omega
        rw [ih (Nat.le_refl 5552) reduced.1 reduced.2 fewer]
        congr 1
        change sums (reduce 65521 (addBlock blockLen (output.take blockLen) start)) _ = _
        rw [reduce_addBlock short first second, ← sums, ← sums_append, List.take_append_drop,
          sums_reduce empty]

/-- The halves of a word. -/
theorem halves_pack (first : start.1 < 2 ^ 16) :
    (pack start &&& 0xffff, pack start >>> 16) = start := by
  have mask : pack start &&& 0xffff = pack start % 2 ^ 16 := Nat.and_two_pow_sub_one_eq_mod _ 16
  rw [mask, Nat.shiftRight_eq_div_pow, pack]
  ext
  · simp only
    omega
  · simp only
    omega

theorem updateAdler32_eq (first : start.1 < 2 ^ 16) (second : start.2 < 2 ^ 16) :
    updateAdler32 (pack start) output = .ok (pack (sums start output)) := by
  have short : output.length % 5552 ≤ 5552 := Nat.le_of_lt (Nat.mod_lt _ (by decide))
  have enough : output.length + (if output.length % 5552 = 0 then 1 else 0) <
      output.length + 2 := by
    split <;> omega
  have bounded := sums_lt output first second
  rw [updateAdler32, halves_pack first, addBlocks_eq short first second enough, ok_bind]
  generalize sums start output = result at bounded ⊢
  rcases result with ⟨s1, s2⟩
  have small : (s2 <<< 16 + s1) % 2 ^ 32 = s2 * 2 ^ 16 + s1 := by
    rw [Nat.shiftLeft_eq]
    simp only at bounded
    omega
  exact congrArg Except.ok small

/-- Over any sequence of calls, the checksum is the Adler-32 of everything they wrote. -/
theorem updateAdler32_calls (outputs : List (List UInt8)) :
    outputs.foldlM updateAdler32 1 = .ok (adler32 outputs.flatten) := by
  have calls : ∀ (outputs : List (List UInt8)) (start : ℕ × ℕ), start.1 < 2 ^ 16 →
      start.2 < 2 ^ 16 →
        outputs.foldlM updateAdler32 (pack start) = .ok (pack (sums start outputs.flatten)) := by
    intro outputs
    induction outputs with
    | nil =>
        intro start _ _
        rfl
    | cons output outputs ih =>
        intro start first second
        have bounded := sums_lt output first second
        rw [List.foldlM_cons, updateAdler32_eq first second, ok_bind, ih _ bounded.1 bounded.2,
          List.flatten_cons, sums_append]
  exact calls outputs (1, 0) (by decide) (by decide)

end Lucciefr.Tinfl
