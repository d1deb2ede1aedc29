import Lucciefr.Base.Bits
import Lucciefr.Tinfl.Basic

/-!
# The bit input

The bits which the decompressor reads are the ones of its bit buffer, and then the ones of
the input. Bytes move from the input to the bit buffer without a change to what is read;
behind the end of the input the sequence is continued.
-/

namespace Lucciefr.Tinfl

variable {build : Build} {input : Input} {packed : List UInt8} {offset n value count : ℕ}
  {bits rest first : List Bool}

theorem littleEndian_lt (bytes : List UInt8) : littleEndian bytes < 2 ^ (8 * bytes.length) := by
  induction bytes with
  | nil => exact Nat.one_pos
  | cons byte bytes ih =>
      rw [List.length_cons, Nat.mul_succ, Nat.add_comm]
      exact or_shiftLeft_lt byte.toNat_lt ih

theorem lowBits_littleEndian (bytes : List UInt8) :
    lowBits (8 * bytes.length) (littleEndian bytes) = streamBits bytes := by
  induction bytes with
  | nil => rfl
  | cons byte bytes ih =>
      rw [List.length_cons, Nat.mul_succ, Nat.add_comm, littleEndian,
        lowBits_or_shiftLeft byte.toNat_lt, ih, streamBits_cons]

namespace Input

/-- These bits come next, from this offset of the stream on. What is left of the input is
the end of the packed bytes. -/
structure Reads (input : Input) (packed : List UInt8) (offset : ℕ) (bits : List Bool) : Prop where
  begins : bits <+: lowBits input.numBits input.bitBuf ++ streamBits input.inBuf
  below : input.bitBuf < 2 ^ input.numBits
  aligned : (offset + input.numBits) % 8 = 0
  left : input.inBuf <:+ packed

theorem numBits_pushByte : (input.pushByte build).numBits = input.numBits + 8 := by
  cases bytes : input.inBuf <;> simp [pushByte, pushBits, getByte, bytes]

theorem numBits_dropBits : (input.dropBits n).numBits = input.numBits - n := rfl

theorem pushBits_eq (input : Input) (small : value < 2 ^ count)
    (fits : input.numBits + count ≤ build.bits) :
    input.pushBits build value count =
      { input with
        bitBuf := input.bitBuf ||| value <<< input.numBits
        numBits := input.numBits + count } := by
  have shifted : value <<< input.numBits < 2 ^ build.bits := by
    rw [Nat.shiftLeft_eq]
    calc value * 2 ^ input.numBits < 2 ^ count * 2 ^ input.numBits :=
          Nat.mul_lt_mul_of_pos_right small (Nat.two_pow_pos _)
      _ = 2 ^ (input.numBits + count) := by rw [← Nat.pow_add, Nat.add_comm]
      _ ≤ 2 ^ build.bits := Nat.pow_le_pow_right (by decide) fits
  rw [pushBits, Nat.mod_eq_of_lt shifted]

namespace Reads

theorem weaken (reads : input.Reads packed offset (bits ++ rest)) :
    input.Reads packed offset bits :=
  ⟨(List.prefix_append bits rest).trans reads.begins, reads.below, reads.aligned, reads.left⟩

/-- The bits of the first bytes of the input move to the bit buffer. -/
theorem moved {front back : List UInt8} (reads : input.Reads packed offset bits)
    (bytes : input.inBuf = front ++ back)
    (fits : input.numBits + 8 * front.length ≤ build.bits) :
    ({ input with inBuf := back }.pushBits build (littleEndian front) (8 * front.length)).Reads
      packed offset bits := by
  have pushed := pushBits_eq { input with inBuf := back } (littleEndian_lt front) fits
  rw [pushed]
  refine ⟨?_, or_shiftLeft_lt reads.below (littleEndian_lt front), ?_, ?_⟩
  · have begins := reads.begins
    rw [bytes, streamBits_append, ← List.append_assoc] at begins
    rw [lowBits_or_shiftLeft reads.below, lowBits_littleEndian]
    exact begins
  · have aligned := reads.aligned
    change (offset + (input.numBits + 8 * front.length)) % 8 = 0
    omega
  · have left := reads.left
    rw [bytes] at left
    exact (List.suffix_append _ _).trans left

theorem pushByte (reads : input.Reads packed offset bits) (fits : input.numBits + 8 ≤ build.bits) :
    (input.pushByte build).Reads packed offset bits := by
  cases bytes : input.inBuf with
  | cons byte back =>
      have moved : ({ input with inBuf := back }.pushBits build (littleEndian [byte]) 8).Reads
          packed offset bits := moved reads bytes fits
      simpa [Input.pushByte, getByte, bytes, littleEndian] using moved
  | nil =>
      have pushed : input.pushByte build = { input with numBits := input.numBits + 8 } := by
        simp [Input.pushByte, pushBits, getByte, bytes]
      have begins := reads.begins
      have aligned := reads.aligned
      rw [pushed]
      refine ⟨?_, ?_, ?_, reads.left⟩
      · rw [bytes, streamBits_nil, List.append_nil] at begins ⊢
        exact begins.trans (lowBits_isPrefix (Nat.le_add_right _ _))
      · exact Nat.lt_of_lt_of_le reads.below
          (Nat.pow_le_pow_right (by decide) (Nat.le_add_right _ _))
      · change (offset + (input.numBits + 8)) % 8 = 0
        omega

/-- Several bytes are read at once. -/
theorem exists_pushBytes (build : Build) (input : Input) (count : ℕ)
    (enough : count ≤ input.inBuf.length) (fits : input.numBits + 8 * count ≤ build.bits) :
    ∃ next, input.pushBytes build count = .ok next ∧
      (∀ packed offset bits, input.Reads packed offset bits → next.Reads packed offset bits) ∧
      next.numBits = input.numBits + 8 * count ∧ next.inBuf = input.inBuf.drop count := by
  have length_eq : (input.inBuf.take count).length = count := List.length_take_of_le enough
  refine ⟨_, if_pos enough, fun packed offset bits reads => ?_, rfl, rfl⟩
  have moved := moved reads (List.take_append_drop count _).symm (by rwa [length_eq])
  rwa [length_eq] at moved

theorem needBits (reads : input.Reads packed offset bits) (few : input.numBits < n)
    (small : n ≤ 16) :
    ∃ next, input.needBits build n = .ok next ∧ next.Reads packed offset bits ∧
      n ≤ next.numBits := by
  have wide : 32 ≤ build.bits := by cases build <;> decide
  apply doWhile_returns (fun input : Input => input.Reads packed offset bits ∧ input.numBits < n)
    (fun input => n - input.numBits)
  · rintro held ⟨heldReads, heldFew⟩
    have pushed : (held.pushByte build).Reads packed offset bits := heldReads.pushByte (by omega)
    refine ⟨_, rfl, ?_, ?_⟩
    · intro again
      simp only [decide_eq_true_eq, numBits_pushByte] at again
      refine ⟨⟨pushed, ?_⟩, ?_⟩
      · rw [numBits_pushByte]
        exact again
      · simp only [numBits_pushByte]
        omega
    · intro ended
      simp only [decide_eq_false_iff_not, Nat.not_lt] at ended
      exact ⟨pushed, ended⟩
  · exact Nat.lt_succ_of_le (Nat.sub_le n input.numBits)
  · exact ⟨reads, few⟩

theorem fillBits (build : Build) (reads : input.Reads packed offset bits) (small : n ≤ 16) :
    ∃ next, input.fillBits build n = .ok next ∧ next.Reads packed offset bits ∧
      n ≤ next.numBits := by
  rw [Input.fillBits]
  by_cases few : input.numBits < n
  · rw [if_pos few]
    exact reads.needBits few small
  · rw [if_neg few]
    exact ⟨input, rfl, reads, Nat.le_of_not_lt few⟩

theorem dropBits (reads : input.Reads packed offset (first ++ rest))
    (enough : first.length ≤ input.numBits) :
    (input.dropBits first.length).Reads packed (offset + first.length) rest := by
  have begins := reads.begins
  have aligned := reads.aligned
  rcases Nat.exists_eq_add_of_le enough with ⟨left, numBits_eq⟩
  rw [numBits_eq, lowBits_add, List.append_assoc] at begins
  rw [numBits_eq] at aligned
  refine ⟨?_, ?_, ?_, reads.left⟩
  · rcases begins with ⟨more, whole⟩
    rw [List.append_assoc] at whole
    have later := (List.append_inj whole (by simp)).2
    rw [numBits_dropBits, numBits_eq, Nat.add_sub_cancel_left]
    exact ⟨more, later⟩
  · exact shiftRight_lt _ reads.below
  · rw [numBits_dropBits, numBits_eq]
    omega

/-- The next bits are the lowest ones of the bit buffer. -/
theorem lowBits_eq (reads : input.Reads packed offset (first ++ rest))
    (enough : first.length ≤ input.numBits) : lowBits first.length input.bitBuf = first := by
  have begins := reads.weaken.begins
  have whole := (List.prefix_append (lowBits input.numBits input.bitBuf) (streamBits input.inBuf))
  have inside := List.prefix_of_prefix_length_le begins whole (by simpa using enough)
  exact (lowBits_eq_of_isPrefix inside).symm

theorem getBits (build : Build) (reads : input.Reads packed offset (lowBits n value ++ rest))
    (small : n ≤ 16)
    (below : value < 2 ^ n) :
    ∃ next, input.getBits build n = .ok (value, next) ∧ next.Reads packed (offset + n) rest := by
  rcases reads.fillBits build small with ⟨next, filled, nextReads, enough⟩
  have same := nextReads.lowBits_eq (by simpa using enough)
  rw [length_lowBits] at same
  have residues := mod_eq_of_lowBits same
  rw [Nat.mod_eq_of_lt below] at residues
  refine ⟨next.dropBits n, ?_, ?_⟩
  · rw [Input.getBits, filled, ok_bind, and_mask, residues]
    rfl
  · have dropped := nextReads.dropBits (by simpa using enough)
    rwa [length_lowBits] at dropped

theorem skipBits (build : Build) (reads : input.Reads packed offset (first ++ rest))
    (small : first.length ≤ 16) :
    ∃ next, input.skipBits build first.length = .ok next ∧
      next.Reads packed (offset + first.length) rest := by
  rcases reads.fillBits build small with ⟨next, filled, nextReads, enough⟩
  refine ⟨next.dropBits first.length, ?_, nextReads.dropBits enough⟩
  rw [Input.skipBits, filled, ok_bind]
  rfl

/-- An empty bit buffer leaves only the bytes of the input. -/
theorem bytes {front : List UInt8} (reads : input.Reads packed offset (streamBits front ++ rest))
    (empty : input.numBits = 0) :
    front <+: input.inBuf ∧
      { input with inBuf := input.inBuf.drop front.length }.Reads packed (offset + 8 * front.length)
        rest := by
  have begins := reads.begins
  rw [empty, lowBits_zero, List.nil_append] at begins
  have inside : front <+: input.inBuf :=
    isPrefix_of_streamBits ((List.prefix_append _ _).trans begins)
  refine ⟨inside, ?_, reads.below, ?_, (List.drop_suffix _ _).trans reads.left⟩
  · rcases inside with ⟨back, whole⟩
    rw [← whole, streamBits_append, List.prefix_append_right_inj] at begins
    rw [← whole, List.drop_left]
    simp only [empty, lowBits_zero, List.nil_append]
    exact begins
  · have aligned := reads.aligned
    change (offset + 8 * front.length + input.numBits) % 8 = 0
    omega

theorem getRawByte {byte : UInt8} (build : Build)
    (reads : input.Reads packed offset (lowBits 8 byte.toNat ++ rest)) :
    ∃ next, input.getRawByte build = .ok (byte.toNat, next) ∧
      next.Reads packed (offset + 8) rest := by
  by_cases empty : input.numBits = 0
  · have reading : input.Reads packed offset (streamBits [byte] ++ rest) := by
      simpa using reads
    rcases reading.bytes empty with ⟨⟨back, whole⟩, later⟩
    refine ⟨_, ?_, later⟩
    rw [Input.getRawByte, if_neg (not_not.mpr empty), getByte, ← whole]
    rfl
  · rw [Input.getRawByte, if_pos empty]
    exact reads.getBits build (by decide) byte.toNat_lt

end Reads

end Input

end Lucciefr.Tinfl
