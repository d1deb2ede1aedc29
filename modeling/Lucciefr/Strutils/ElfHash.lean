import Lucciefr.Strutils.Hash

/-!
# The ELF hash

`hash_str_elf` and `hash_wstr_elf` clear the top 4 bits of the hash before these are
mixed to its low end, where the published algorithm clears them afterwards. Both leave
a hash with 28 bits after every turn.
-/

namespace Lucciefr.Strutils

/-- The published algorithm: a turn of its loop. -/
def publishedElfTurn (h : UInt32) (k : Int32) : UInt32 :=
  let h := (h <<< 4) + k.toUInt32
  let g := h &&& 0xf0000000
  let h := if g ≠ 0 then h ^^^ (g >>> 24) else h
  h &&& ~~~g

section Bits

variable {hash : BitVec 32} {i : ℕ}

theorem getLsbD_mask (inside : i < 32) : (0xf0000000#32).getLsbD i = decide (28 ≤ i) := by
  have each : ∀ i : Fin 32, (0xf0000000#32).getLsbD i = decide (28 ≤ i.val) := by decide
  exact each ⟨i, inside⟩

/-- What is mixed to the low end does not get to the top. -/
theorem getLsbD_mixed (top : 28 ≤ i) :
    ((hash &&& 0xf0000000#32) >>> 24).getLsbD i = false := by
  rw [BitVec.getLsbD_ushiftRight]
  exact BitVec.getLsbD_of_ge _ _ (by omega)

theorem getLsbD_top (inside : i < 32) :
    (hash &&& 0xf0000000#32).getLsbD i = (hash.getLsbD i && decide (28 ≤ i)) := by
  rw [BitVec.getLsbD_and, getLsbD_mask inside]

theorem top_cleared : ((hash ^^^ (hash &&& 0xf0000000#32)) ^^^
    ((hash &&& 0xf0000000#32) >>> 24)) &&& 0xf0000000#32 = 0#32 := by
  apply BitVec.eq_of_getLsbD_eq
  intro i inside
  rw [getLsbD_top inside, BitVec.getLsbD_xor, BitVec.getLsbD_xor, getLsbD_top inside]
  by_cases top : 28 ≤ i
  · rw [getLsbD_mixed top]
    simp [top]
  · simp [top]

theorem cleared_first_eq_last : (hash ^^^ (hash &&& 0xf0000000#32)) ^^^
      ((hash &&& 0xf0000000#32) >>> 24) =
    (hash ^^^ ((hash &&& 0xf0000000#32) >>> 24)) &&& ~~~(hash &&& 0xf0000000#32) := by
  apply BitVec.eq_of_getLsbD_eq
  intro i inside
  rw [BitVec.getLsbD_xor, BitVec.getLsbD_xor, getLsbD_top inside, BitVec.getLsbD_and,
    BitVec.getLsbD_xor, BitVec.getLsbD_not, getLsbD_top inside]
  by_cases top : 28 ≤ i
  · rw [getLsbD_mixed top]
    simp [top, inside]
  · simp [top, inside]

theorem toNat_lt_of_top (cleared : hash &&& 0xf0000000#32 = 0#32) : hash.toNat < 2 ^ 28 := by
  apply Nat.lt_pow_two_of_testBit
  intro i top
  by_cases inside : i < 32
  · have bit := congrArg (fun bits => BitVec.getLsbD bits i) cleared
    simp only [getLsbD_top inside, BitVec.getLsbD_zero] at bit
    have absent : hash.getLsbD i = false := by simpa [top] using bit
    exact absent
  · exact BitVec.getLsbD_of_ge hash i (Nat.le_of_not_lt inside)

end Bits

/-- The top 4 bits are zero. -/
def TopCleared (hash : UInt32) : Prop :=
  hash &&& 0xf0000000 = 0

/-- The invariant of the loop, and what it returns. -/
structure ElfCorrect {α : Type} [Character α] (key : List α) (length step : ℕ)
    (result : Except Fault Int32) : Prop where
  cleared : ∀ index hash,
    StrideReaches length step (hashBody elfTurn key) 0 index hash → TopCleared hash
  published : ∃ hash, result = .ok hash ∧ 0 ≤ hash.toInt ∧ hash.toInt < 2 ^ 28 ∧
    hash = (foldHash publishedElfTurn 0 (every step (key.take length))).toInt32

section Lemmas

variable {α : Type} [Character α] {key : List α} {length step index : ℕ} {hash : UInt32}

theorem topCleared_iff : TopCleared hash ↔ hash.toBitVec &&& 0xf0000000#32 = 0#32 := by
  rw [TopCleared, ← UInt32.toBitVec_inj, UInt32.toBitVec_and]
  rfl

theorem elfTurn_topCleared (char : Int32) : TopCleared (elfTurn hash char) := by
  rw [elfTurn]
  generalize (hash <<< 4) + char.toUInt32 = shifted
  by_cases cleared : shifted &&& 0xf0000000 = 0
  · simp only [cleared, ne_eq, not_true_eq_false, if_false]
    exact cleared
  · simp only [ne_eq, cleared, not_false_eq_true, if_true]
    rw [topCleared_iff]
    exact top_cleared

theorem elfTurn_eq_published (char : Int32) : elfTurn hash char = publishedElfTurn hash char := by
  rw [elfTurn, publishedElfTurn]
  generalize (hash <<< 4) + char.toUInt32 = shifted
  by_cases cleared : shifted &&& 0xf0000000 = 0
  · simp only [cleared, ne_eq, not_true_eq_false, if_false]
    apply UInt32.toBitVec_inj.mp
    simp
  · simp only [ne_eq, cleared, not_false_eq_true, if_true]
    apply UInt32.toBitVec_inj.mp
    exact cleared_first_eq_last

/-- One turn leaves the top cleared, whatever was there before. -/
theorem reaches_topCleared
    (reached : StrideReaches length step (hashBody elfTurn key) 0 index hash) :
    TopCleared hash := by
  cases reached with
  | start => exact (by decide : (0 : UInt32) &&& 0xf0000000 = 0)
  | turn earlier inside turned =>
      rename_i index held
      cases read : readAt key index with
      | error fault =>
          rw [hashBody, read] at turned
          cases turned
      | ok char =>
          rw [hashBody, read] at turned
          cases turned
          exact elfTurn_topCleared _

theorem toInt_of_topCleared (cleared : TopCleared hash) :
    0 ≤ hash.toInt32.toInt ∧ hash.toInt32.toInt < 2 ^ 28 := by
  have small := toNat_lt_of_top (topCleared_iff.mp cleared)
  have same : hash.toInt32.toInt = hash.toBitVec.toNat :=
    BitVec.toInt_eq_toNat_of_lt (x := hash.toBitVec) (by omega)
  rw [same]
  exact ⟨Int.natCast_nonneg _, by exact_mod_cast small⟩

theorem elfCorrect_of_loop (positive : 0 < step) (inside : length ≤ key.length) :
    ElfCorrect key length step (UInt32.toInt32 <$> hashLoop elfTurn 0 key length step) := by
  have ended : hashLoop elfTurn 0 key length step =
      .ok (foldHash elfTurn 0 (every step (key.take length))) := hashLoop_eq positive inside
  rcases forStride_reaches ended with ⟨last, reached, -⟩
  rcases toInt_of_topCleared (reaches_topCleared reached) with ⟨nonneg, small⟩
  have turn_eq : elfTurn = publishedElfTurn :=
    funext fun hash => funext fun char => elfTurn_eq_published char
  refine ⟨fun index hash => reaches_topCleared, _, ?_, nonneg, small, ?_⟩
  · rw [ended]
    rfl
  · rw [turn_eq]

/--
The top 4 bits are zero after each turn, and the hash is the one of the published
algorithm.
-/
theorem hashElf_correct (Wide : Type) [WideCharacter Wide] (length step : ℕ)
    (positive : 0 < step) :
    (∀ key : List UInt8, length ≤ key.length →
      ElfCorrect key length step (hashStrElf key length step)) ∧
    ∀ key : List Wide, length ≤ key.length →
      ElfCorrect key length step (hashWstrElf key length step) :=
  ⟨fun _ => elfCorrect_of_loop positive, fun _ => elfCorrect_of_loop positive⟩

end Lemmas

theorem hashElf_correct_signed :
    ElfCorrect ([0xff, 0x80, 0x41] : List UInt8) 3 2 (hashStrElf [0xff, 0x80, 0x41] 3 2) ∧
      ElfCorrect ([-1, 0x41] : List Int32) 2 1 (hashWstrElf ([-1, 0x41] : List Int32) 2 1) := by
  constructor
  · exact (hashElf_correct Int32 3 2 (by decide)).1 [0xff, 0x80, 0x41] (by decide)
  · exact (hashElf_correct Int32 2 1 (by decide)).2 [-1, 0x41] (by decide)

end Lucciefr.Strutils
