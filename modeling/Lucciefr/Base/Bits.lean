import Mathlib.Data.List.Basic
import Mathlib.Data.Nat.Bitwise

/-!
# Bits of numbers and bytes

The lowest bits of a number as a list, and the bits of a sequence of bytes, the lowest
bit of a byte first.
-/

namespace Lucciefr

/-- The lowest bits of a number, the lowest one first. -/
def lowBits (count value : ℕ) : List Bool :=
  (List.range count).map value.testBit

/-- The bits of bytes. -/
def streamBits (bytes : List UInt8) : List Bool :=
  bytes.flatMap fun byte => lowBits 8 byte.toNat

variable {count more value other : ℕ}

@[simp]
theorem length_lowBits : (lowBits count value).length = count := by
  simp [lowBits]

@[simp]
theorem lowBits_zero : lowBits 0 value = [] := rfl

theorem getElem?_lowBits {index : ℕ} (inside : index < count) :
    (lowBits count value)[index]? = some (value.testBit index) := by
  simp [lowBits, inside]

/-- Two numbers have the same lowest bits if they agree bit by bit. -/
theorem lowBits_congr (agree : ∀ index < count, value.testBit index = other.testBit index) :
    lowBits count value = lowBits count other := by
  apply List.map_congr_left
  intro index indexMem
  exact agree index (List.mem_range.mp indexMem)

theorem testBit_eq_of_lowBits (same : lowBits count value = lowBits count other) {index : ℕ}
    (inside : index < count) : value.testBit index = other.testBit index := by
  have bit : (lowBits count value)[index]? = some (value.testBit index) := getElem?_lowBits inside
  rw [same, getElem?_lowBits inside, Option.some.injEq] at bit
  exact bit.symm

theorem mod_eq_of_lowBits (same : lowBits count value = lowBits count other) :
    value % 2 ^ count = other % 2 ^ count := by
  apply Nat.eq_of_testBit_eq
  intro index
  simp only [Nat.testBit_mod_two_pow]
  by_cases inside : index < count
  · rw [testBit_eq_of_lowBits same inside]
  · simp [inside]

theorem lowBits_mod_of_le (enough : count ≤ more) :
    lowBits count (value % 2 ^ more) = lowBits count value := by
  apply lowBits_congr
  intro index inside
  simp [Nat.testBit_mod_two_pow, Nat.lt_of_lt_of_le inside enough]

@[simp]
theorem lowBits_mod : lowBits count (value % 2 ^ count) = lowBits count value :=
  lowBits_mod_of_le (Nat.le_refl count)

theorem lowBits_eq_iff : lowBits count value = lowBits count other ↔
    value % 2 ^ count = other % 2 ^ count := by
  constructor
  · exact mod_eq_of_lowBits
  · intro same
    rw [← lowBits_mod, same, lowBits_mod]

theorem lowBits_add (more : ℕ) : lowBits (count + more) value =
    lowBits count value ++ lowBits more (value >>> count) := by
  rw [lowBits, List.range_add, List.map_append, List.map_map]
  congr 1
  apply List.map_congr_left
  intro index _
  simp [Nat.testBit_shiftRight]

theorem lowBits_succ : lowBits (count + 1) value =
    value.testBit 0 :: lowBits count (value / 2) := by
  rw [Nat.add_comm, lowBits_add, Nat.shiftRight_one]
  rfl

/-- Bits are added above the ones which a number has. -/
theorem lowBits_or_shiftLeft (below : value < 2 ^ count) :
    lowBits (count + more) (value ||| other <<< count) =
      lowBits count value ++ lowBits more other := by
  rw [lowBits_add]
  congr 1
  · apply lowBits_congr
    intro index inside
    simp [Nat.testBit_shiftLeft, Nat.not_le.mpr inside]
  · apply lowBits_congr
    intro index _
    simp only [Nat.testBit_shiftRight, Nat.testBit_or, Nat.testBit_shiftLeft,
      Nat.le_add_right, decide_true, Bool.true_and, Nat.add_sub_cancel_left]
    rw [Nat.testBit_lt_two_pow, Bool.false_or]
    exact Nat.lt_of_lt_of_le below (Nat.pow_le_pow_right (by decide) (Nat.le_add_right _ _))

theorem or_shiftLeft_lt (below : value < 2 ^ count) (small : other < 2 ^ more) :
    value ||| other <<< count < 2 ^ (count + more) := by
  apply Nat.or_lt_two_pow
  · exact Nat.lt_of_lt_of_le below (Nat.pow_le_pow_right (by decide) (Nat.le_add_right _ _))
  · rw [Nat.shiftLeft_eq, Nat.add_comm, Nat.pow_add]
    exact Nat.mul_lt_mul_of_pos_right small (Nat.two_pow_pos count)

theorem shiftRight_lt (more : ℕ) (below : value < 2 ^ count) :
    value >>> more < 2 ^ (count - more) := by
  rw [Nat.shiftRight_eq_div_pow, Nat.div_lt_iff_lt_mul (Nat.two_pow_pos more), ← Nat.pow_add]
  exact Nat.lt_of_lt_of_le below (Nat.pow_le_pow_right (by decide) (by omega))

theorem and_mask (count value : ℕ) : value &&& (1 <<< count - 1) = value % 2 ^ count := by
  rw [Nat.one_shiftLeft, Nat.and_two_pow_sub_one_eq_mod]

theorem lowBits_isPrefix (shorter : count ≤ more) :
    lowBits count value <+: lowBits more value := by
  rcases Nat.exists_eq_add_of_le shorter with ⟨rest, rfl⟩
  rw [lowBits_add]
  exact List.prefix_append _ _

/-- The bits which a longer part begins with. -/
theorem lowBits_eq_of_isPrefix {bits : List Bool} (begins : bits <+: lowBits more value) :
    bits = lowBits bits.length value := by
  have shorter : bits.length ≤ more := by simpa using begins.length_le
  have both : lowBits bits.length value <+: lowBits more value := lowBits_isPrefix shorter
  exact (List.prefix_of_prefix_length_le begins both (by simp)).eq_of_length (by simp)

/-- Each list of bits is a number. -/
theorem exists_lowBits (bits : List Bool) :
    ∃ value < 2 ^ bits.length, lowBits bits.length value = bits := by
  induction bits with
  | nil => exact ⟨0, by simp, rfl⟩
  | cons bit bits ih =>
      rcases ih with ⟨value, below, read⟩
      refine ⟨bit.toNat ||| value <<< 1, ?_, ?_⟩
      · rw [List.length_cons, Nat.add_comm]
        exact or_shiftLeft_lt (Bool.toNat_lt bit) below
      · rw [List.length_cons, Nat.add_comm, lowBits_or_shiftLeft (Bool.toNat_lt bit), read]
        cases bit <;> rfl

theorem bit_eq_of_toNat {bit other : Bool} (same : bit.toNat = other.toNat) : bit = other := by
  revert same
  cases bit <;> cases other <;> decide

section Bytes

variable {bytes first second : List UInt8} {byte : UInt8}

@[simp]
theorem streamBits_nil : streamBits [] = [] := rfl

@[simp]
theorem streamBits_cons : streamBits (byte :: bytes) = lowBits 8 byte.toNat ++ streamBits bytes :=
  rfl

@[simp]
theorem streamBits_append :
    streamBits (first ++ second) = streamBits first ++ streamBits second := by
  simp [streamBits]

@[simp]
theorem length_streamBits : (streamBits bytes).length = 8 * bytes.length := by
  induction bytes with
  | nil => rfl
  | cons byte bytes ih =>
      rw [streamBits_cons, List.length_append, length_lowBits, ih, List.length_cons]
      omega

theorem byte_eq_of_lowBits {other : UInt8} (same : lowBits 8 byte.toNat = lowBits 8 other.toNat) :
    byte = other := by
  have residues := mod_eq_of_lowBits same
  have small := byte.toNat_lt
  have otherSmall := other.toNat_lt
  apply UInt8.toNat_inj.mp
  omega

/-- Bytes are read back from their bits. -/
theorem isPrefix_of_streamBits (begins : streamBits first <+: streamBits second) :
    first <+: second := by
  induction first generalizing second with
  | nil => exact List.nil_prefix
  | cons byte first ih =>
      cases second with
      | nil =>
          have longer := begins.length_le
          simp at longer
      | cons other second =>
          rw [streamBits_cons, streamBits_cons] at begins
          rcases begins with ⟨rest, whole⟩
          rw [List.append_assoc] at whole
          rcases List.append_inj whole (by simp) with ⟨here, there⟩
          rw [byte_eq_of_lowBits here, List.cons_prefix_cons]
          exact ⟨rfl, ih ⟨rest, there⟩⟩

end Bytes

end Lucciefr
