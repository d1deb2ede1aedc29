import Lucciefr.Base.Buffer
import Lucciefr.Platform
import Lucciefr.Strutils.Format

/-!
# Repeated strings

`repeat_char` and `repeat_string` of `core/strutils.c`. The size of the new block is
computed with the type `int`, and what `calloc` returns is not checked before the copies
are written. Both functions are right exactly if there is nothing to write, or if the
size is an `int` and the block can be allocated.
-/

namespace Lucciefr.Strutils

/-- `x * y`, of two variables of type `int`. -/
def mulInt (x y : ℤ) : Except Fault ℤ :=
  if -2 ^ 31 ≤ x * y ∧ x * y ≤ intMax then .ok (x * y) else .error .signedOverflow

/-- `calloc(size, 1)` -/
def calloc (memory : Memory) (size : ℕ) : Option (List UInt8) :=
  (memory size).map fun _ => List.replicate size 0

/-- `memset(result, c, n)` -/
def memset (result : Option (List UInt8)) (c : UInt8) (n : ℕ) :
    Except Fault (Option (List UInt8)) :=
  match result with
  | none => .error .nullPointer
  | some block => do
      let block ← writeBytes block (List.replicate n c)
      pure (some block)

/-- `repeat_char` -/
def repeatChar (build : Build) (memory : Memory) (c : UInt8) (n : ℤ) :
    Except Fault (Option (List UInt8)) := do
  let n := if n < 0 then 0 else n
  let size ← addInt n 1
  let result := calloc memory (build.ofInt size)
  if n > 0 then
    memset result c n.toNat
  else
    pure result

/-- The loop of `repeat_string`, with `work` as an offset into the block. -/
def repeatLoop (text : List UInt8) (len : ℕ) :
    (n : ℕ) → (work : ℕ) → (result : Option (List UInt8)) → Except Fault (Option (List UInt8))
  | 0, _, result => .ok result
  | n + 1, work, some block => do
      let block ← through (fun target => strncpy target text len) block work
      repeatLoop text len n (work + len) (some block)
  | _ + 1, _, none => .error .nullPointer

/-- `repeat_string` -/
def repeatString (build : Build) (memory : Memory) (str : List UInt8) (n : ℤ) :
    Except Fault (Option (List UInt8)) := do
  let n := if n < 0 then 0 else n
  let text ← readString str
  let len := toInt text.length
  let product ← mulInt len n
  let size ← addInt product 1
  let result := calloc memory (build.ofInt size)
  if len > 0 then
    repeatLoop text len.toNat n.toNat 0 result
  else
    pure result

/-- `NULL`, or a block with as many copies as required and a NUL. -/
def ExactRepetition (run : Except Fault (Option (List UInt8))) (copy : List UInt8) (n : ℤ) :
    Prop :=
  run = .ok none ∨ run = .ok (some ((List.replicate n.toNat copy).flatten ++ [0]))

section Lemmas

variable {build : Build} {memory : Memory} {c : UInt8} {n : ℤ} {copies : ℕ}
  {text front : List UInt8}

theorem calloc_of_isSome {size : ℕ} (available : (memory size).isSome) :
    calloc memory size = some (List.replicate size 0) := by
  rcases Option.isSome_iff_exists.mp available with ⟨fresh, allocated⟩
  rw [calloc, allocated]
  rfl

theorem calloc_of_none {size : ℕ} (unavailable : memory size = none) :
    calloc memory size = none := by
  rw [calloc, unavailable]
  rfl

theorem not_exactRepetition_error {fault : Fault} :
    ¬ExactRepetition (.error fault) text n := by
  rintro (absurdity | absurdity) <;> cases absurdity

/-- Nothing is copied to a block of one byte. -/
theorem exactRepetition_calloc_one (none_left : n.toNat = 0 ∨ text = []) :
    ExactRepetition (.ok (calloc memory 1)) text n := by
  cases available : memory 1 with
  | none => exact Or.inl (by rw [calloc_of_none available])
  | some fresh =>
      refine Or.inr ?_
      rw [calloc_of_isSome (by rw [available]; rfl)]
      rcases none_left with zero | rfl
      · rw [zero]
        rfl
      · simp

theorem ofInt_one : build.ofInt 1 = 1 :=
  Build.ofInt_of_lt (by decide) (by decide)

theorem ofInt_succ (nonneg : 0 ≤ n) (small : n < intMax) :
    build.ofInt (n + 1) = n.toNat + 1 := by
  rw [intMax] at small
  rw [Build.ofInt_of_lt (by omega) (by omega)]
  omega

theorem repeatChar_of_nonpos (nonpos : n ≤ 0) :
    repeatChar build memory c n = .ok (calloc memory 1) := by
  have zero : (if n < 0 then 0 else n) = 0 := by split <;> omega
  simp only [repeatChar, zero]
  rw [addInt, if_pos (by decide), ok_bind, if_neg (by decide), zero_add, ofInt_one]
  rfl

theorem repeatChar_of_lt (pos : 0 < n) (small : n < intMax) :
    repeatChar build memory c n = memset (calloc memory (n.toNat + 1)) c n.toNat := by
  have same : (if n < 0 then 0 else n) = n := if_neg (by omega)
  simp only [repeatChar, same]
  rw [addInt, if_pos (by omega), ok_bind, if_pos pos, ofInt_succ pos.le small]

theorem repeatChar_of_ge (large : intMax ≤ n) :
    repeatChar build memory c n = .error .signedOverflow := by
  have same : (if n < 0 then 0 else n) = n := by
    rw [intMax] at large
    exact if_neg (by omega)
  simp only [repeatChar, same]
  rw [addInt, if_neg (by omega), error_bind]

theorem memset_zeros : memset (some (List.replicate (copies + 1) 0)) c copies =
    .ok (some ((List.replicate copies [c]).flatten ++ [0])) := by
  rw [memset, List.replicate_succ', writeBytes_append (by simp), ok_bind,
    List.flatten_replicate_singleton]
  rfl

theorem repeatChar_exact_iff :
    ExactRepetition (repeatChar build memory c n) [c] n ↔
      n ≤ 0 ∨ n < intMax ∧ (memory (n.toNat + 1)).isSome := by
  by_cases nonpos : n ≤ 0
  · rw [repeatChar_of_nonpos nonpos]
    exact iff_of_true (exactRepetition_calloc_one (Or.inl (by omega))) (Or.inl nonpos)
  · by_cases small : n < intMax
    · rw [repeatChar_of_lt (by omega) small]
      cases available : memory (n.toNat + 1) with
      | none =>
          rw [calloc_of_none available]
          refine iff_of_false not_exactRepetition_error ?_
          simp [nonpos]
      | some fresh =>
          rw [calloc_of_isSome (by rw [available]; rfl), memset_zeros]
          exact iff_of_true (Or.inr rfl) (Or.inr ⟨small, rfl⟩)
    · rw [repeatChar_of_ge (by omega)]
      refine iff_of_false not_exactRepetition_error ?_
      simp [nonpos, small]

/-- One turn of the loop puts a copy in front of the NULs which remain. -/
theorem repeatLoop_succ :
    repeatLoop text text.length (copies + 1) front.length
        (some (front ++ List.replicate ((copies + 1) * text.length + 1) 0)) =
      repeatLoop text text.length copies (front ++ text).length
        (some (front ++ text ++ List.replicate (copies * text.length + 1) 0)) := by
  have split_zeros : List.replicate ((copies + 1) * text.length + 1) (0 : UInt8) =
      List.replicate text.length 0 ++ List.replicate (copies * text.length + 1) 0 := by
    rw [List.replicate_append_replicate]
    congr 1
    ring
  have wrote : strncpy (List.replicate ((copies + 1) * text.length + 1) 0) text text.length =
      .ok (text ++ List.replicate (copies * text.length + 1) 0) := by
    rw [split_zeros]
    exact strncpy_append List.length_replicate
  have moved : through (fun target => strncpy target text text.length)
      (front ++ List.replicate ((copies + 1) * text.length + 1) 0) front.length =
      .ok (front ++ (text ++ List.replicate (copies * text.length + 1) 0)) :=
    through_append wrote
  rw [repeatLoop, moved, ok_bind, List.length_append, List.append_assoc]

/-- The loop writes the copies one behind the other, and the last NUL remains. -/
theorem repeatLoop_zeros (front : List UInt8) :
    repeatLoop text text.length copies front.length
        (some (front ++ List.replicate (copies * text.length + 1) 0)) =
      .ok (some (front ++ (List.replicate copies text).flatten ++ [0])) := by
  induction copies generalizing front with
  | zero => simp [repeatLoop]
  | succ copies ih =>
      rw [repeatLoop_succ, ih, List.replicate_succ, List.flatten_cons, List.append_assoc front]

theorem repeatString_eq (noNul : 0 ∉ text) (fits : (text.length : ℤ) ≤ intMax)
    (rest : List UInt8) (count : (if n < 0 then 0 else n) = copies) :
    repeatString build memory (text ++ 0 :: rest) n = (do
      let product ← mulInt text.length copies
      let size ← addInt product 1
      if (text.length : ℤ) > 0 then
        repeatLoop text text.length copies 0 (calloc memory (build.ofInt size))
      else
        pure (calloc memory (build.ofInt size))) := by
  have small : text.length < 2 ^ 31 := by
    rw [intMax] at fits
    omega
  simp only [repeatString, count]
  rw [readString_of_append noNul, ok_bind, toInt_of_lt small, Int.toNat_natCast,
    Int.toNat_natCast]

theorem repeatString_of_nothing (noNul : 0 ∉ text) (fits : (text.length : ℤ) ≤ intMax)
    (rest : List UInt8) (nothing : text = [] ∨ n ≤ 0) :
    repeatString build memory (text ++ 0 :: rest) n = .ok (calloc memory 1) := by
  have count : (if n < 0 then 0 else n) = (n.toNat : ℤ) := by split <;> omega
  have zero : (text.length : ℤ) * (n.toNat : ℤ) = 0 := by
    rcases nothing with rfl | nonpos
    · exact zero_mul _
    · rw [Int.toNat_of_nonpos nonpos]
      exact mul_zero _
  rw [repeatString_eq noNul fits rest count, mulInt, zero, if_pos (by decide), ok_bind, addInt,
    if_pos (by decide), ok_bind, zero_add, ofInt_one]
  split
  · rename_i visible
    have none_left : n.toNat = 0 := by
      rcases nothing with rfl | nonpos
      · exact absurd visible (lt_irrefl 0)
      · exact Int.toNat_of_nonpos nonpos
    rw [none_left]
    rfl
  · rfl

theorem repeatString_of_lt (noNul : 0 ∉ text) (fits : (text.length : ℤ) ≤ intMax)
    (rest : List UInt8) (nonempty : text ≠ []) (pos : 0 < n) (small : text.length * n < intMax) :
    repeatString build memory (text ++ 0 :: rest) n =
      repeatLoop text text.length n.toNat 0 (calloc memory (n.toNat * text.length + 1)) := by
  have count : (if n < 0 then 0 else n) = (n.toNat : ℤ) := by split <;> omega
  have same : (n.toNat : ℤ) = n := by omega
  have visible : (text.length : ℤ) > 0 := by exact_mod_cast List.length_pos_iff.mpr nonempty
  have nonneg : 0 ≤ text.length * n := Int.mul_nonneg visible.le pos.le
  have product_eq : (text.length * n).toNat = n.toNat * text.length := by
    rw [← same, ← Int.natCast_mul, Int.toNat_natCast, Int.toNat_natCast, Nat.mul_comm]
  rw [repeatString_eq noNul fits rest count, same, mulInt, if_pos (by omega), ok_bind, addInt,
    if_pos (by omega), ok_bind, if_pos visible, ofInt_succ nonneg small, product_eq]

theorem repeatString_of_ge (noNul : 0 ∉ text) (fits : (text.length : ℤ) ≤ intMax)
    (rest : List UInt8) (pos : 0 < n) (large : intMax ≤ text.length * n) :
    repeatString build memory (text ++ 0 :: rest) n = .error .signedOverflow := by
  have count : (if n < 0 then 0 else n) = (n.toNat : ℤ) := by split <;> omega
  have same : (n.toNat : ℤ) = n := by omega
  rw [repeatString_eq noNul fits rest count, same, mulInt]
  split
  · rw [ok_bind, addInt, if_neg (by omega), error_bind]
  · rfl

theorem repeatString_exact_iff (noNul : 0 ∉ text) (fits : (text.length : ℤ) ≤ intMax)
    (rest : List UInt8) :
    ExactRepetition (repeatString build memory (text ++ 0 :: rest) n) text n ↔
      (text = [] ∨ n ≤ 0) ∨
        text.length * n < intMax ∧ (memory (n.toNat * text.length + 1)).isSome := by
  by_cases nothing : text = [] ∨ n ≤ 0
  · rw [repeatString_of_nothing noNul fits rest nothing]
    refine iff_of_true (exactRepetition_calloc_one ?_) (Or.inl nothing)
    rcases nothing with empty | nonpos
    · exact Or.inr empty
    · exact Or.inl (by omega)
  · have nonempty : text ≠ [] := fun empty => nothing (Or.inl empty)
    have pos : 0 < n := by
      by_contra nonpos
      exact nothing (Or.inr (not_lt.mp nonpos))
    by_cases small : text.length * n < intMax
    · rw [repeatString_of_lt noNul fits rest nonempty pos small]
      cases available : memory (n.toNat * text.length + 1) with
      | none =>
          have refused : repeatLoop text text.length n.toNat 0 none = .error .nullPointer := by
            rw [← Nat.succ_pred_eq_of_pos (show 0 < n.toNat by omega), repeatLoop]
          rw [calloc_of_none available, refused]
          refine iff_of_false not_exactRepetition_error ?_
          simp [nothing]
      | some fresh =>
          rw [calloc_of_isSome (by rw [available]; rfl)]
          refine iff_of_true (Or.inr ?_) (Or.inr ⟨small, rfl⟩)
          exact repeatLoop_zeros []
    · rw [repeatString_of_ge noNul fits rest pos (by omega)]
      refine iff_of_false not_exactRepetition_error ?_
      simp [nothing, small]

/--
Both functions return `NULL` or exactly the copies, if and only if there is nothing to copy,
or the size of the block is an `int` and the block is there.
-/
theorem repeat_exact_iff (build : Build) (memory : Memory) (c : UInt8) (text rest : List UInt8)
    (n : ℤ) (noNul : 0 ∉ text) (fits : (text.length : ℤ) ≤ intMax) :
    (ExactRepetition (repeatChar build memory c n) [c] n ↔
      n ≤ 0 ∨ n < intMax ∧ (memory (n.toNat + 1)).isSome) ∧
    (ExactRepetition (repeatString build memory (text ++ 0 :: rest) n) text n ↔
      (text = [] ∨ n ≤ 0) ∨
        text.length * n < intMax ∧ (memory (n.toNat * text.length + 1)).isSome) :=
  ⟨repeatChar_exact_iff, repeatString_exact_iff noNul fits rest⟩

theorem repeat_exact_iff_three :
    (ExactRepetition (repeatChar .x64 (fun _ => some fun _ => 7) 45 3) [45] 3 ↔
      (3 : ℤ) ≤ 0 ∨ (3 : ℤ) < intMax ∧
        ((fun _ => some fun _ => 7 : Memory) ((3 : ℤ).toNat + 1)).isSome) ∧
    (ExactRepetition (repeatString .x64 (fun _ => some fun _ => 7) ([97, 98] ++ 0 :: []) 3)
        [97, 98] 3 ↔
      (([97, 98] : List UInt8) = [] ∨ (3 : ℤ) ≤ 0) ∨
        (([97, 98] : List UInt8).length : ℤ) * 3 < intMax ∧
          ((fun _ => some fun _ => 7 : Memory)
            ((3 : ℤ).toNat * ([97, 98] : List UInt8).length + 1)).isSome) :=
  repeat_exact_iff .x64 (fun _ => some fun _ => 7) 45 [97, 98] [] 3 (by decide) (by decide)

/-- The size is no `int` for `INT_MAX` characters, or for 2^30 copies of two characters. -/
theorem not_exactRepetition_large :
    ¬((∀ (c : UInt8) (n : ℤ), -2 ^ 31 ≤ n → n ≤ intMax →
        ExactRepetition (repeatChar .x64 (fun _ => some fun _ => 0) c n) [c] n) ∧
      ∀ (text rest : List UInt8) (n : ℤ), 0 ∉ text → (text.length : ℤ) ≤ intMax →
        -2 ^ 31 ≤ n → n ≤ intMax → ExactRepetition
          (repeatString .x64 (fun _ => some fun _ => 0) (text ++ 0 :: rest) n) text n) ∧
    repeatChar .x64 (fun _ => some fun _ => 0) 45 intMax = .error .signedOverflow ∧
    repeatString .x64 (fun _ => some fun _ => 0) [97, 98, 0] (2 ^ 30) = .error .signedOverflow ∧
    repeatChar .x64 (fun _ => none) 45 1 = .error .nullPointer := by
  have overflow : repeatChar .x64 (fun _ => some fun _ => 0) 45 intMax =
      .error .signedOverflow := by decide
  refine ⟨?_, overflow, by decide, by decide⟩
  rintro ⟨exact_char, -⟩
  have absurdity := exact_char 45 intMax (by decide) (le_refl _)
  rw [overflow] at absurdity
  exact not_exactRepetition_error absurdity

end Lemmas

end Lucciefr.Strutils
