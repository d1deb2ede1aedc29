import Lucciefr.Base.CanonicalCode
import Lucciefr.Tinfl.Basic

/-!
# The first codes of the sizes

What the first loops over the code sizes compute: how many symbols have each size, the
first code of each size, and whether the sizes make up a code. A code is entered with its
bits reversed, as the bit buffer has them.
-/

namespace Lucciefr.Tinfl

variable {codeSize sizes : List ℕ} {tableSize size : ℕ}

theorem writeAt_of_lt {α : Type} {array : List α} {index : ℕ} {value : α}
    (inside : index < array.length) : writeAt array index value = .ok (array.set index value) :=
  if_pos inside

theorem readAt_map_range {α : Type} {f : ℕ → α} {length index : ℕ} (inside : index < length) :
    readAt ((List.range length).map f) index = .ok (f index) :=
  readAt_of_some (by simp [inside])

/-- An element of a tabulated function is replaced. -/
theorem writeAt_map_range {α : Type} (f g : ℕ → α) {length index : ℕ} (inside : index < length)
    (others : ∀ other < length, other ≠ index → g other = f other) :
    writeAt ((List.range length).map f) index (g index) = .ok ((List.range length).map g) := by
  rw [writeAt_of_lt (by simpa using inside)]
  congr 1
  apply List.ext_getElem?
  intro other
  rw [List.getElem?_set]
  by_cases within : other < length
  · by_cases same : index = other
    · simp [same, within]
    · simp [same, within, others other within (Ne.symm same)]
  · have outside : index ≠ other := by omega
    simp [outside, within]

theorem countSizes_eq (enough : tableSize ≤ codeSize.length)
    (size_le : ∀ size ∈ codeSize.take tableSize, size ≤ 15) :
    countSizes codeSize tableSize =
      .ok ((List.range 16).map (codeSize.take tableSize).count) := by
  rw [countSizes]
  induction tableSize with
  | zero => rfl
  | succ count ih =>
      have inside : count < codeSize.length := enough
      have taken := List.take_append_getElem inside
      rw [← taken] at size_le ⊢
      simp only [List.mem_append, List.mem_singleton] at size_le
      have before := ih (Nat.le_of_succ_le enough) fun size sizeMem => size_le size (.inl sizeMem)
      have small : codeSize[count] < 16 := Nat.lt_succ_of_le (size_le _ (.inr rfl))
      have element : readAt codeSize count = .ok codeSize[count] :=
        readAt_of_some (List.getElem?_eq_getElem inside)
      rw [List.range_succ, List.foldlM_append, before, ok_bind]
      simp only [List.foldlM_cons, List.foldlM_nil, element, ok_bind, readAt_map_range small]
      have others : ∀ other < 16, other ≠ codeSize[count] →
          (codeSize.take count ++ [codeSize[count]]).count other =
            (codeSize.take count).count other := by
        intro other _ different
        rw [List.count_append, List.count_singleton, if_neg (by simpa using different.symm),
          Nat.add_zero]
      have written := writeAt_map_range (codeSize.take count).count
        (codeSize.take count ++ [codeSize[count]]).count small others
      rw [List.count_append, List.count_singleton_self] at written
      rw [written]
      rfl

private theorem countP_succ (bound : ℕ) (sizes : List ℕ) :
    sizes.countP (fun size => decide (1 ≤ size ∧ size ≤ bound + 1)) =
      sizes.countP (fun size => decide (1 ≤ size ∧ size ≤ bound)) + sizes.count (bound + 1) := by
  induction sizes with
  | nil => rfl
  | cons first sizes ih =>
      simp only [List.countP_cons, List.count_cons, ih, decide_eq_true_eq, beq_iff_eq]
      split <;> split <;> split <;> omega

/-- The first codes are computed one after another. -/
theorem nextCodes_eq (sizes : List ℕ) :
    nextCodes ((List.range 16).map sizes.count) =
      .ok (sizes.countP (fun size => decide (1 ≤ size ∧ size ≤ 15)), firstCode sizes 16,
        (List.range 17).map (firstCode sizes)) := by
  have general : ∀ turns ≤ 15,
      (List.range turns).foldlM (m := Except Fault) (fun (state : ℕ × ℕ × List ℕ) i => do
        let syms ← readAt ((List.range 16).map sizes.count) (i + 1)
        let nextCode ← writeAt state.2.2 (i + 1 + 1) ((state.2.1 + syms) <<< 1)
        pure (state.1 + syms, (state.2.1 + syms) <<< 1, nextCode)) (0, 0, List.replicate 17 0) =
      .ok (sizes.countP (fun size => decide (1 ≤ size ∧ size ≤ turns)), firstCode sizes (turns + 1),
        (List.range 17).map fun size => if size ≤ turns + 1 then firstCode sizes size else 0) := by
    intro turns
    induction turns with
    | zero =>
        intro _
        have none_used : sizes.countP (fun size => decide (1 ≤ size ∧ size ≤ 0)) = 0 := by
          apply List.countP_eq_zero.mpr
          intro size _
          simp only [decide_eq_true_eq]
          omega
        rw [none_used]
        rfl
    | succ turns ih =>
        intro bound
        have doubled : (firstCode sizes (turns + 1) + sizes.count (turns + 1)) <<< 1 =
            firstCode sizes (turns + 1 + 1) := Nat.shiftLeft_eq _ 1
        rw [List.range_succ (n := turns), List.foldlM_append, ih (Nat.le_of_succ_le bound), ok_bind]
        simp only [List.foldlM_cons, List.foldlM_nil]
        rw [readAt_map_range (by omega), ok_bind, doubled]
        have others : ∀ other < 17, other ≠ turns + 1 + 1 →
            (if other ≤ turns + 1 + 1 then firstCode sizes other else 0) =
              if other ≤ turns + 1 then firstCode sizes other else 0 := by
          intro other _ different
          split <;> split <;> first | rfl | omega
        have inside : turns + 1 + 1 < 17 := by omega
        have written := writeAt_map_range
          (fun size => if size ≤ turns + 1 then firstCode sizes size else 0)
          (fun size => if size ≤ turns + 1 + 1 then firstCode sizes size else 0) inside others
        rw [if_pos (Nat.le_refl _)] at written
        rw [written, countP_succ]
        rfl
  have whole : (List.range 17).map (fun size => if size ≤ 15 + 1 then firstCode sizes size else 0) =
      (List.range 17).map (firstCode sizes) := by
    apply List.map_congr_left
    intro size sizeMem
    exact if_pos (Nat.le_of_lt_succ (List.mem_range.mp sizeMem))
  have last := general 15 (Nat.le_refl _)
  rw [whole] at last
  exact last

/-- The sizes make up a code. -/
theorem accepts_iff (size_le : ∀ size ∈ sizes, size ≤ 15) :
    ¬(65536 ≠ firstCode sizes 16 ∧
        1 < sizes.countP (fun size => decide (1 ≤ size ∧ size ≤ 15))) ↔
      weight 15 sizes = 2 ^ 15 ∨ sizes.countP (· ≠ 0) ≤ 1 := by
  have used : sizes.countP (fun size => decide (1 ≤ size ∧ size ≤ 15)) =
      sizes.countP (· ≠ 0) := by
    apply List.countP_congr
    intro size sizeMem
    have small := size_le size sizeMem
    simp only [decide_eq_true_eq, ne_eq]
    omega
  have total : firstCode sizes 16 = weight 15 sizes * 2 := firstCode_longest size_le
  rw [used, total]
  omega

theorem reverseCode_spec (l curCode revCode count : ℕ) (below : revCode < 2 ^ count) :
    lowBits (l + count) (reverseCode l curCode revCode) =
        (lowBits l curCode).reverse ++ lowBits count revCode ∧
      reverseCode l curCode revCode < 2 ^ (l + count) := by
  induction l generalizing curCode revCode count with
  | zero => exact ⟨by simp [reverseCode], by simpa [reverseCode] using below⟩
  | succ l ih =>
      have bit_lt : curCode &&& 1 < 2 ^ 1 := Nat.and_lt_two_pow _ (by decide)
      have next : revCode <<< 1 ||| curCode &&& 1 = curCode &&& 1 ||| revCode <<< 1 :=
        Nat.lor_comm _ _
      have next_lt := or_shiftLeft_lt bit_lt below
      have added : lowBits (1 + count) (curCode &&& 1 ||| revCode <<< 1) =
          lowBits 1 (curCode &&& 1) ++ lowBits count revCode := lowBits_or_shiftLeft bit_lt
      rw [Nat.add_comm 1 count] at next_lt added
      rcases ih (curCode >>> 1) _ _ next_lt with ⟨bits, bound⟩
      rw [reverseCode, next, Nat.add_assoc, Nat.add_comm 1 count]
      refine ⟨?_, bound⟩
      have lowest : lowBits 1 (curCode &&& 1) = [curCode.testBit 0] := by
        rw [Nat.and_one_is_mod]
        exact lowBits_mod
      rw [bits, added, lowest, lowBits_succ, Nat.shiftRight_one]
      simp

variable {code : CanonicalCode 15} {symbol : ℕ}

/-- The code as the bit buffer has it. -/
def reversed (code : CanonicalCode 15) (symbol : ℕ) : ℕ :=
  reverseCode (code.size symbol) (code.number symbol) 0

theorem lowBits_reversed :
    lowBits (code.size symbol) (reversed code symbol) = code.codeword symbol := by
  have spec := (reverseCode_spec (code.size symbol) (code.number symbol) 0 0 (by decide)).1
  rwa [Nat.add_zero, lowBits_zero, List.append_nil] at spec

theorem reversed_lt : reversed code symbol < 2 ^ code.size symbol :=
  (reverseCode_spec (code.size symbol) (code.number symbol) 0 0 (by decide)).2

end Lucciefr.Tinfl
