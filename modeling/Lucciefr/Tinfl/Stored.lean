import Lucciefr.Tinfl.Copies
import Lucciefr.Tinfl.Stream

/-!
# Stored blocks

The bytes of a stored block come from the bit buffer as long as it holds some, and then
from the input, as many at once as there is room for.
-/

namespace Lucciefr.Tinfl

open Deflate

variable {setting : Setting} {packed content : List UInt8} {left final count value : ℕ}
  {input : Input} {bits : List Bool} {r : Machine}

section Header

theorem lowBits_16 (small : value < 2 ^ 16) :
    ∃ low high : UInt8, lowBits 16 value = lowBits 8 low.toNat ++ lowBits 8 high.toNat ∧
      low.toNat ||| high.toNat <<< 8 = value := by
  have split : lowBits 16 value = lowBits 8 (UInt8.ofNat value).toNat ++
      lowBits 8 (UInt8.ofNat (value >>> 8)).toNat := by
    rw [UInt8.toNat_ofNat', UInt8.toNat_ofNat', lowBits_mod, lowBits_mod]
    exact lowBits_add 8
  refine ⟨_, _, split, ?_⟩
  have low := (UInt8.ofNat value).toNat_lt
  have high := (UInt8.ofNat (value >>> 8)).toNat_lt
  have same : lowBits (8 + 8)
      ((UInt8.ofNat value).toNat ||| (UInt8.ofNat (value >>> 8)).toNat <<< 8) =
        lowBits (8 + 8) value := by
    rw [lowBits_or_shiftLeft low]
    exact split.symm
  have residues := mod_eq_of_lowBits same
  rwa [Nat.mod_eq_of_lt (or_shiftLeft_lt low high), Nat.mod_eq_of_lt small] at residues

theorem complement_eq (small : value < 2 ^ 16) : 0xFFFF ^^^ (65535 - value) = value := by
  apply Nat.eq_of_testBit_eq
  intro index
  have ones : (0xFFFF).testBit index = decide (index < 16) := Nat.testBit_two_pow_sub_one 16 index
  have others : (65535 - value).testBit index = (decide (index < 16) && !value.testBit index) := by
    rw [← Nat.testBit_two_pow_sub_succ small]
    congr 1
    omega
  rw [Nat.testBit_xor, ones, others]
  by_cases inside : index < 16
  · simp [inside]
  · have zero : value.testBit index = false := by
      apply Nat.testBit_lt_two_pow
      exact Nat.lt_of_lt_of_le small (Nat.pow_le_pow_right (by decide) (Nat.le_of_not_lt inside))
    simp [inside, zero]

theorem numBits_and_7 {offset : ℕ} (reads : input.Reads packed offset bits) :
    input.numBits &&& 7 = Block.padding offset := by
  have aligned := reads.aligned
  have mask : input.numBits &&& 7 = input.numBits % 2 ^ 3 := and_mask 3 _
  rw [mask, Block.padding]
  omega

/-- Two bytes of the header. -/
theorem getRawBytes {offset : ℕ} {rest : List Bool} (small : value < 2 ^ 16) (build : Build)
    (reads : input.Reads packed offset (lowBits 16 value ++ rest)) :
    ∃ (low high : ℕ) (second third : Input), input.getRawByte build = .ok (low, second) ∧
      second.getRawByte build = .ok (high, third) ∧ low ||| high <<< 8 = value ∧
      third.Reads packed (offset + 8 + 8) rest := by
  rcases lowBits_16 small with ⟨low, high, split, value_eq⟩
  rw [split, List.append_assoc] at reads
  rcases reads.getRawByte build with ⟨second, first_read, reads⟩
  rcases reads.getRawByte build with ⟨third, second_read, reads⟩
  exact ⟨_, _, second, third, first_read, second_read, value_eq, reads⟩

/-- The header of a stored block is read up to its bytes. -/
theorem storedHeader_eq (r : Machine) (setting : Setting) {offset skipped : ℕ} {bytes : List UInt8}
    {later : List Bool}
    (bytes_lt : bytes.length < 2 ^ 16)
    (reads : r.input.Reads packed offset (lowBits (Block.padding offset) skipped ++
      (lowBits 16 bytes.length ++ (lowBits 16 (65535 - bytes.length) ++
        (streamBits bytes ++ later))))) :
    ∃ next, storedHeader setting r =
        .ok () { r with input := next, counter := bytes.length } ∧
      next.Reads packed (offset + Block.padding offset + 16 + 16) (streamBits bytes ++ later) := by
  have few : (lowBits (Block.padding offset) skipped).length ≤ 16 := by
    rw [length_lowBits, Block.padding]
    omega
  have skip := numBits_and_7 reads
  rcases reads.skipBits setting.build few with ⟨aligned, skipped_eq, reads⟩
  rw [length_lowBits] at skipped_eq reads
  rcases getRawBytes bytes_lt setting.build reads with
    ⟨first, second, input₁, input₂, first_read, second_read, length_eq, reads⟩
  rcases getRawBytes (by omega) setting.build reads with
    ⟨third, fourth, input₃, input₄, third_read, fourth_read, complement, reads⟩
  refine ⟨input₄, ?_, reads⟩
  rw [storedHeader]
  have aligned_eq : onInput (fun input => do
      pure ((), ← input.skipBits setting.build (input.numBits &&& 7))) r =
        .ok () { r with input := aligned } := by
    apply onInput_eq
    rw [skip, skipped_eq]
    rfl
  rw [bind_of_ok aligned_eq, bind_of_ok (onInput_eq first_read),
    bind_of_ok (onInput_eq second_read),
    bind_of_ok (onInput_eq third_read), bind_of_ok (onInput_eq fourth_read)]
  have matching : ¬(first ||| second <<< 8 ≠ 0xFFFF ^^^ (third ||| fourth <<< 8)) := by
    rw [complement, length_eq, complement_eq bytes_lt]
    exact not_not.mpr rfl
  rw [bind_of_ok modify_eq_ok, if_neg matching, length_eq]
  rfl

end Header

section Bytes

/-- The byte which was read from the bit buffer is written, if there is room. -/
theorem putStoredByte_ends (r : Machine) {byte : UInt8} (inside : r.outBuf.length ≤ setting.outEnd)
    (dist : r.dist = byte.toNat) (counter : r.counter = count + 1)
    (stored : InStored packed content left r.final count r.input (r.outBuf ++ [byte])) :
    Ends (putStoredByte setting) r
      (fun _ reached => reached.counter = count ∧ reached.outBuf.length ≤ setting.outEnd ∧
        InStored packed content left reached.final count reached.input reached.outBuf)
      (Stopped setting packed content) := by
  apply needRoom_bind inside (.storedByte byte count rfl dist counter stored)
  intro room
  apply Ends.get_bind
  rw [dist, UInt8.ofNat_toNat]
  apply Ends.bind_of_ok (putByte_eq room)
  refine Ends.of_ok rfl ⟨?_, ?_, stored⟩
  · simp only [counter, Nat.add_sub_cancel]
  · simp only [List.length_append, List.length_singleton]
    omega

/-- The bytes in the bit buffer are written first. -/
theorem storedBits_ends (r : Machine) (inside : r.outBuf.length ≤ setting.outEnd)
    (stored : InStored packed content left r.final r.counter r.input r.outBuf) :
    Ends (storedBits setting) r
      (fun _ reached => (reached.counter ≠ 0 → reached.input.numBits = 0) ∧
        reached.outBuf.length ≤ setting.outEnd ∧
        InStored packed content left reached.final reached.counter reached.input reached.outBuf)
      (Stopped setting packed content) := by
  rw [storedBits]
  apply Ends.get_bind
  apply Ends.loop (fun count (reached : Machine) => reached.counter = count ∧
    reached.outBuf.length ≤ setting.outEnd ∧
    InStored packed content left reached.final count reached.input reached.outBuf) _
    (Nat.lt_succ_self r.counter) ⟨rfl, inside, stored⟩
  rintro count state ⟨rfl, inside, stored⟩
  apply Ends.get_bind
  by_cases again : state.counter ≠ 0 ∧ state.input.numBits ≠ 0
  · rw [if_pos again]
    rcases stored with ⟨bytes, length_eq, ahead⟩
    cases bytes with
    | nil => exact absurd length_eq.symm again.1
    | cons byte bytes =>
        rw [streamBits_cons] at ahead
        rcases ahead.getBits setting.build (by decide) byte.toNat_lt with ⟨next, read, ahead⟩
        have counter : state.counter = bytes.length + 1 := length_eq.symm
        apply Ends.bind_of_ok (onInput_eq read)
        apply Ends.modify_bind
        apply (putStoredByte_ends
          { state with input := next, dist := byte.toNat } inside rfl counter
          ⟨bytes, rfl, by simpa using ahead⟩).bind
        rintro _ reached kept
        apply Ends.of_ok rfl
        exact ⟨bytes.length, by omega, kept⟩
  · rw [if_neg again]
    apply Ends.of_ok rfl
    refine ⟨?_, inside, stored⟩
    intro more
    by_contra some_bits
    exact again ⟨more, some_bits⟩

/-- The bytes of the input follow, as many at once as there is room for. -/
theorem storedBytes_ends (inside : r.outBuf.length ≤ setting.outEnd)
    (empty : r.counter ≠ 0 → r.input.numBits = 0)
    (stored : InStored packed content left r.final r.counter r.input r.outBuf) :
    Ends (storedBytes setting) r
      (fun _ reached => Ahead packed content left reached.final reached.input [] reached.outBuf ∧
        reached.outBuf.length ≤ setting.outEnd)
      (Stopped setting packed content) := by
  rw [storedBytes]
  apply Ends.get_bind
  apply Ends.loop (fun count (reached : Machine) => reached.counter = count ∧
    reached.outBuf.length ≤ setting.outEnd ∧ (count ≠ 0 → reached.input.numBits = 0) ∧
    InStored packed content left reached.final count reached.input reached.outBuf) _
    (Nat.lt_succ_self r.counter) ⟨rfl, inside, empty, stored⟩
  rintro count state ⟨rfl, inside, empty, stored⟩
  apply Ends.get_bind
  by_cases last : state.counter = 0
  · rw [if_pos last]
    apply Ends.of_ok rfl
    rcases stored with ⟨bytes, length_eq, ahead⟩
    rw [List.eq_nil_of_length_eq_zero (length_eq.trans last), List.append_nil] at ahead
    exact ⟨ahead, inside⟩
  · rw [if_neg last]
    apply needRoom_bind inside (.storedBytes rfl last (empty last) stored)
    intro room
    apply Ends.get_bind
    rcases stored with ⟨bytes, length_eq, offset, later, reads, follows⟩
    have available : state.counter ≤ state.input.inBuf.length := by
      rw [← length_eq]
      exact (reads.bytes (empty last)).1.length_le
    rw [if_neg (by
      intro none_left
      rw [none_left, List.length_nil] at available
      omega)]
    apply Ends.modify_bind
    generalize n_eq :
      min (min (setting.outEnd - state.outBuf.length) state.input.inBuf.length) state.counter = n
    have whole : streamBits bytes = streamBits (bytes.take n) ++ streamBits (bytes.drop n) := by
      rw [← streamBits_append, List.take_append_drop]
    have taken : (bytes.take n).length = n := by
      rw [List.length_take]
      omega
    rw [whole, List.append_assoc] at reads
    rcases reads.bytes (empty last) with ⟨begins, reads⟩
    rw [taken] at reads
    have same : state.input.inBuf.take n = bytes.take n := by
      have prefix_eq := List.prefix_iff_eq_take.mp begins
      rw [taken] at prefix_eq
      exact prefix_eq.symm
    have length_drop : (bytes.drop n).length = state.counter - n := by
      rw [List.length_drop, length_eq]
    apply Ends.of_ok rfl
    refine ⟨state.counter - n, by omega, rfl, ?_, fun _ => empty last, ?_⟩
    · simp only [same, List.length_append, taken]
      omega
    · refine ⟨bytes.drop n, length_drop, _, later, reads, ?_⟩
      simp only [same]
      rw [List.append_assoc, List.take_append_drop]
      rw [length_streamBits, length_eq] at follows
      rw [length_streamBits, length_drop]
      have offset_eq : offset + 8 * n + 8 * (state.counter - n) = offset + 8 * state.counter := by
        omega
      rw [offset_eq]
      exact follows

end Bytes

end Lucciefr.Tinfl
