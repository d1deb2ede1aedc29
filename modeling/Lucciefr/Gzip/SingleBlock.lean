import Lucciefr.Gzip.Basic

/-!
# Streams of one block

A decompressor for the raw deflate streams which need no Huffman tables: one final
stored block, or one final block with fixed codes which contains nothing but the end of
the block. The latter is what an empty file is compressed to.
-/

namespace Lucciefr.Gzip

/-- The header of a final block, and the length of what follows. -/
inductive IsHeader : List UInt8 → ℕ → Prop where
  | stored {head : UInt8} (low high : UInt8) (final : head &&& 7 = 1) :
      IsHeader [head, low, high, ~~~low, ~~~high] (low.toNat + 256 * high.toNat)
  | fixed {second : UInt8} (endOfBlock : second &&& 3 = 0) : IsHeader [3, second] 0

/-- A stream of a single block. -/
def OfSingleBlock (stream content : List UInt8) : Prop :=
  ∃ header, IsHeader header content.length ∧ stream = header ++ content

/-- How many bytes the header has, and how many follow. -/
def readHeader : List UInt8 → Option (ℕ × ℕ)
  | head :: low :: high :: notLow :: notHigh :: _ =>
      if head &&& 7 = 1 ∧ notLow = ~~~low ∧ notHigh = ~~~high then
        some (5, low.toNat + 256 * high.toNat)
      else if head = 3 ∧ low &&& 3 = 0 then
        some (2, 0)
      else none
  | head :: second :: _ => if head = 3 ∧ second &&& 3 = 0 then some (2, 0) else none
  | _ => none

inductive SingleBlock where
  | header
  | body (left : ℕ)

namespace SingleBlock

/-- How many bytes are skipped, and how many are to be copied. -/
def start : SingleBlock → List UInt8 → Option (ℕ × ℕ)
  | header, input => readHeader input
  | body left, _ => some (0, left)

/-- The decompressor. -/
def tinfl : Tinfl SingleBlock where
  init := header
  decompress := fun state inBuf _ outBufSize _ =>
    match state.start inBuf with
    | none => ⟨state, 0, [], .failed⟩
    | some (used, left) =>
        if (inBuf.drop used).length < min outBufSize left then
          ⟨state, 0, [], .needsMoreInput⟩
        else
          ⟨body (left - outBufSize), used + min outBufSize left,
            (inBuf.drop used).take (min outBufSize left),
            if left ≤ outBufSize then .done else .hasMoreOutput⟩

theorem readHeader_append {header : List UInt8} {length : ℕ} (isHeader : IsHeader header length)
    (rest : List UInt8) : readHeader (header ++ rest) = some (header.length, length) := by
  cases isHeader with
  | stored low high final => simp [readHeader, final]
  | fixed endOfBlock =>
      have notStored : (3 : UInt8) &&& 7 ≠ 1 := by decide
      rcases rest with _ | ⟨first, _ | ⟨second, _ | ⟨third, rest⟩⟩⟩ <;>
        simp [readHeader, notStored, endOfBlock]

theorem isHeader_of_readHeader {input : List UInt8} {used length : ℕ}
    (read : readHeader input = some (used, length)) :
    ∃ header, IsHeader header length ∧ header.length = used ∧
      input = header ++ input.drop used := by
  unfold readHeader at read
  split at read
  · next head low high notLow notHigh rest =>
      split at read
      · next stored =>
          rcases stored with ⟨final, rfl, rfl⟩
          simp only [Option.some.injEq, Prod.mk.injEq] at read
          rcases read with ⟨rfl, rfl⟩
          exact ⟨_, .stored low high final, rfl, rfl⟩
      · split at read
        · next fixed =>
            rcases fixed with ⟨rfl, endOfBlock⟩
            simp only [Option.some.injEq, Prod.mk.injEq] at read
            rcases read with ⟨rfl, rfl⟩
            exact ⟨_, .fixed endOfBlock, rfl, rfl⟩
        · contradiction
  · split at read
    · next fixed =>
        rcases fixed with ⟨rfl, endOfBlock⟩
        simp only [Option.some.injEq, Prod.mk.injEq] at read
        rcases read with ⟨rfl, rfl⟩
        exact ⟨_, .fixed endOfBlock, rfl, rfl⟩
    · contradiction
  · contradiction

variable {state : SingleBlock} {input written content rest : List UInt8} {used left calls : ℕ}
  {flags : BitVec 32}

theorem delivers (started : state.start input = some (used, content.length))
    (whole : input.drop used = content ++ rest) :
    (tinfl.decoder flags).Delivers calls state input written content := by
  induction calls generalizing state input written content used with
  | zero => trivial
  | succ calls ih =>
      intro room
      have available : ¬(input.drop used).length < min room content.length := by
        rw [whole, List.length_append]
        omega
      have call_eq : (tinfl.decoder flags).call state input written room =
          ⟨body (content.length - room), used + min room content.length,
            (input.drop used).take (min room content.length),
            if content.length ≤ room then .done else .hasMoreOutput⟩ := by
        simp only [Tinfl.decoder, tinfl, started, available, if_false]
      have output : (input.drop used).take (min room content.length) = content.take room := by
        rw [whole, List.take_append_of_le_length (Nat.min_le_right _ _), List.take_eq_take_min]
        simp
      rw [call_eq]
      refine ⟨output, ?_⟩
      split
      · rfl
      · next exceeds =>
          refine ⟨rfl, ?_⟩
          have shorter : content.length - room = (content.drop room).length := by simp
          rw [shorter]
          refine ih rfl ?_
          rw [List.drop_zero, ← List.drop_drop, whole,
            List.drop_append_of_le_length (Nat.min_le_right _ _), Nat.min_eq_left (by omega)]

theorem rejects (started : state.start input = some (used, left))
    (short : (input.drop used).length < left) :
    (tinfl.decoder flags).Rejects calls state input written := by
  induction calls generalizing state input written used left with
  | zero => trivial
  | succ calls ih =>
      intro room
      by_cases missing : (input.drop used).length < min room left
      · have call_eq : (tinfl.decoder flags).call state input written room =
            ⟨state, 0, [], .needsMoreInput⟩ := by
          simp only [Tinfl.decoder, tinfl, started, missing, if_true]
        rw [call_eq]
        exact ⟨TinflStatus.noConfusion, TinflStatus.noConfusion⟩
      · have exceeds : ¬left ≤ room := by omega
        have call_eq : (tinfl.decoder flags).call state input written room =
            ⟨body (left - room), used + min room left,
              (input.drop used).take (min room left), .hasMoreOutput⟩ := by
          simp only [Tinfl.decoder, tinfl, started, missing, exceeds, if_false]
        rw [call_eq]
        refine ⟨TinflStatus.noConfusion, fun _ => ⟨?_, ?_⟩⟩
        · rw [List.length_take]
          omega
        · refine ih rfl ?_
          rw [List.drop_zero, ← List.drop_drop, List.length_drop]
          omega

theorem rejects_of_failed (failed : state.start input = none) :
    (tinfl.decoder flags).Rejects calls state input written := by
  cases calls with
  | zero => trivial
  | succ calls =>
      intro room
      have call_eq : (tinfl.decoder flags).call state input written room =
          ⟨state, 0, [], .failed⟩ := by
        simp only [Tinfl.decoder, tinfl, failed]
      rw [call_eq]
      exact ⟨TinflStatus.noConfusion, TinflStatus.noConfusion⟩

/-- The decompressor decodes the streams of a single block. -/
theorem correct : (tinfl.decoder flags).Correct OfSingleBlock where
  delivers := by
    rintro _ content ⟨_, rest, ⟨start, isHeader, rfl⟩, rfl⟩ calls
    have started : SingleBlock.header.start (start ++ content ++ rest) =
        some (start.length, content.length) := by
      rw [List.append_assoc]
      exact readHeader_append isHeader _
    have whole : (start ++ content ++ rest).drop start.length = content ++ rest := by
      rw [List.append_assoc, List.drop_left]
    exact delivers started whole
  rejects := by
    intro input noStream calls
    cases read : readHeader input with
    | none =>
        have failed : SingleBlock.header.start input = none := read
        exact rejects_of_failed failed
    | some found =>
        rcases found with ⟨used, left⟩
        have started : SingleBlock.header.start input = some (used, left) := read
        apply rejects started
        by_contra enough
        rcases isHeader_of_readHeader read with ⟨start, isHeader, rfl, split⟩
        apply noStream ((input.drop start.length).take left)
        refine ⟨_, (input.drop start.length).drop left, ⟨start, ?_, rfl⟩, ?_⟩
        · rw [List.length_take, Nat.min_eq_left (Nat.not_lt.mp enough)]
          exact isHeader
        · rw [List.append_assoc, List.take_append_drop]
          exact split

end SingleBlock

end Lucciefr.Gzip
