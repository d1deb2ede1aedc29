import Lucciefr.Tinfl.Delivery

/-!
# Decompression of streams

What the callers of the decompressor return for a stream: the growing buffer of
`tinfl_decompress_mem_to_heap`, the fixed one of `tinfl_decompress_mem_to_mem`, and the
resources which are unpacked from the program itself.
-/

namespace Lucciefr.Tinfl

open Deflate
open Gzip (decompFlags Allocator Member Unpacks)

/-- `tinfl_decompress_mem_to_mem`, and what was written to the buffer. -/
def tinflDecompressMemToMem {D : Type} (build : Build) (tinfl : Gzip.Tinfl D) (outBufLen : ℕ)
    (pSrcBuf : List UInt8) (flags : BitVec 32) : ℕ × List UInt8 :=
  let call := tinfl.decompress tinfl.init pSrcBuf [] outBufLen
    (flags &&& ~~~Gzip.flagHasMoreInput ||| Gzip.flagNonWrapping)
  (if call.status ≠ .done then 2 ^ build.bits - 1 else call.output.length, call.output)

/-- A decompressor before it was initialized. -/
def fresh : Decompressor where
  state := 34
  dist := 0
  counter := 0
  distFromOutBufStart := 0
  final := 0
  tables := fun _ => ⟨List.replicate 288 0, List.replicate 1024 0, List.replicate 576 0⟩
  lenCodes := []
  zAdler32 := 0
  checkAdler32 := 0
  numBits := 0
  bitBuf := 0

/-- A block of three literals and a copy. -/
theorem encodes_sample :
    Encodes [203, 200, 204, 0, 67, 0] [104, 105, 104, 105, 104, 105, 104, 105] :=
  ⟨⟨[], .fixed [.literal 104, .literal 105, .literal 104,
      .copy ⟨2, 0, 1, 0, by decide, by decide⟩]⟩, by decide +kernel, by decide +kernel⟩

variable {content input : List UInt8} (build : Build) (unaligned : Bool) (decomp : Decompressor)
  (undefined : DecoderCall Decompressor UInt8 Gzip.TinflStatus)

/-- The decompressor hands out the content of every stream: of stored blocks and of blocks
with fixed and with dynamic codes, however much room each of its calls is given. -/
theorem tinflDecompress_delivers (encodes : Encodes input content) (calls : ℕ) :
    ((tinfl build unaligned decomp undefined).decoder (decompFlags 0)).Delivers calls
      (tinfl build unaligned decomp undefined).init input [] content :=
  delivers_of_resumable (.fresh rfl rfl encodes)

theorem tinflDecompress_delivers_sample :
    ((tinfl .x64 true fresh ⟨fresh, 0, [], .failed⟩).decoder (decompFlags 0)).Delivers 9
      (tinfl .x64 true fresh ⟨fresh, 0, [], .failed⟩).init [203, 200, 204, 0, 67, 0] []
      [104, 105, 104, 105, 104, 105, 104, 105] :=
  tinflDecompress_delivers .x64 true fresh ⟨fresh, 0, [], .failed⟩ encodes_sample 9

/-- What `tinfl_decompress_mem_to_heap` returns for a stream. -/
theorem memToHeap_of_encodes {heap : Build} (allocator : Allocator heap)
    (encodes : Encodes input content) :
    (content ≠ [] ∧ allocator.GrowsTo content.length 0 →
      Gzip.tinflDecompressMemToHeap (tinfl build unaligned decomp undefined) allocator input 0 =
        .ok (some ⟨content, content.length⟩)) ∧
    (¬(content ≠ [] ∧ allocator.GrowsTo content.length 0) →
      Gzip.tinflDecompressMemToHeap (tinfl build unaligned decomp undefined) allocator input 0 =
        .ok none) := by
  have delivered : ∀ calls,
      ((tinfl build unaligned decomp undefined).decoder (decompFlags 0)).Delivers calls
        (tinfl build unaligned decomp undefined).init input [] content :=
    fun _ => delivers_of_resumable (.fresh rfl rfl encodes)
  by_cases empty : content = []
  · subst empty
    rw [Gzip.memToHeap_of_empty delivered]
    exact ⟨fun ⟨nonempty, _⟩ => absurd rfl nonempty, fun _ => rfl⟩
  · rcases Gzip.memToHeap_of_delivers delivered empty with ⟨granted, refused⟩
    exact ⟨fun ⟨_, grows⟩ => granted grows, fun failing => refused fun grows =>
      failing ⟨empty, grows⟩⟩

theorem memToHeap_of_encodes_sample :
    let allocator : Allocator .x64 := ⟨fun size => size < 2 ^ 20, fun size granted =>
      Nat.lt_trans (of_decide_eq_true granted) (by decide)⟩
    Gzip.tinflDecompressMemToHeap (tinfl .x64 true fresh ⟨fresh, 0, [], .failed⟩) allocator
        [203, 200, 204, 0, 67, 0] 0 =
      .ok (some ⟨[104, 105, 104, 105, 104, 105, 104, 105], 8⟩) := by
  intro allocator
  apply (memToHeap_of_encodes .x64 true fresh ⟨fresh, 0, [], .failed⟩ allocator encodes_sample).1
  refine ⟨by decide, (Gzip.Allocator.GrowsTo.iff_of_lt (by decide)).mpr ?_⟩
  exact ⟨rfl, .of_le (by decide)⟩

/-- What `tinfl_decompress_mem_to_mem` returns for a stream. -/
theorem memToMem_of_encodes (encodes : Encodes input content) (outBufLen : ℕ) :
    tinflDecompressMemToMem build (tinfl build unaligned decomp undefined) outBufLen input 0 =
      if content.length ≤ outBufLen then (content.length, content)
      else (2 ^ build.bits - 1, content.take outBufLen) := by
  have delivered : ((tinfl build unaligned decomp undefined).decoder (decompFlags 0)).Delivers 1
      (tinfl build unaligned decomp undefined).init input [] content :=
    delivers_of_resumable (.fresh rfl rfl encodes)
  have output := Decoder.Delivers.output_eq outBufLen delivered
  have call_eq : (tinfl build unaligned decomp undefined).decompress
      (tinfl build unaligned decomp undefined).init input [] outBufLen
      (0 &&& ~~~Gzip.flagHasMoreInput ||| Gzip.flagNonWrapping) =
        ((tinfl build unaligned decomp undefined).decoder (decompFlags 0)).call
          (tinfl build unaligned decomp undefined).init input [] outBufLen := rfl
  rw [tinflDecompressMemToMem, call_eq, output]
  by_cases fits : content.length ≤ outBufLen
  · have status := Decoder.Delivers.status_of_fits delivered fits
    rw [status, if_pos fits, List.take_of_length_le fits]
    rfl
  · have status := Decoder.Delivers.status_of_exceeds delivered (Nat.not_le.mp fits)
    rw [status, if_neg fits]
    rfl

theorem memToMem_of_encodes_sample :
    tinflDecompressMemToMem .x86 (tinfl .x86 false fresh ⟨fresh, 0, [], .failed⟩) 8
      [203, 200, 204, 0, 67, 0] 0 = (8, [104, 105, 104, 105, 104, 105, 104, 105]) :=
  memToMem_of_encodes .x86 false fresh ⟨fresh, 0, [], .failed⟩ encodes_sample 8

/-- The name of the file does not reach the compressed data. -/
theorem source_eq_body {member : Member}
    (short : ∀ name, member.name = some name → name.bytes.length < 2 ^ 31 - 1) :
    member.source = some member.body := by
  unfold Member.source
  cases named : member.name with
  | none => rfl
  | some name =>
      have bounded := short name named
      have length_eq : toInt name.bytes.length = name.bytes.length :=
        toInt_of_lt (Nat.lt_of_lt_of_le bounded (by decide))
      have positive := List.length_pos_iff.mpr name.nonempty
      have field : ((name.bytes.length : ℤ) + 1).toNat = member.nameField.length := by
        simp only [Member.nameField, named, List.length_append, List.length_singleton]
        omega
      simp only [length_eq]
      rw [if_pos (by omega), field, List.drop_left]

/-- A resource comes back exactly if it is not empty, and the memory for it is granted. -/
theorem unpacks_iff_of_encodes {heap : Build} (allocator : Allocator heap) (member : Member)
    (encodes : Encodes member.deflated content)
    (short : ∀ name, member.name = some name → name.bytes.length < 2 ^ 31 - 1) :
    Unpacks (tinfl build unaligned decomp undefined) allocator member content ↔
      content ≠ [] ∧ allocator.GrowsTo content.length 0 := by
  have whole : Encodes member.body content := by
    rcases encodes with ⟨stream, expanded, begins⟩
    refine ⟨stream, expanded, ?_⟩
    rw [Member.body, List.append_assoc, streamBits_append]
    exact begins.trans (List.prefix_append _ _)
  have delivered : ∀ calls,
      ((tinfl build unaligned decomp undefined).decoder (decompFlags 0)).Delivers calls
        (tinfl build unaligned decomp undefined).init member.body [] content :=
    fun _ => delivers_of_resumable (.fresh rfl rfl whole)
  rw [Gzip.unpacks_iff, Gzip.gzipDecompress_of_source (source_eq_body short), Gzip.result_eq_ok]
  by_cases empty : content = []
  · subst empty
    rw [Gzip.memToHeap_of_empty delivered]
    simp
  · rcases Gzip.memToHeap_of_delivers delivered empty with ⟨granted, refused⟩
    by_cases grows : allocator.GrowsTo content.length 0
    · rw [granted grows]
      exact ⟨fun _ => ⟨empty, grows⟩, fun _ => rfl⟩
    · rw [refused grows]
      simp [grows]

theorem unpacks_iff_of_encodes_sample :
    let allocator : Allocator .x64 := ⟨fun size => size < 2 ^ 20, fun size granted =>
      Nat.lt_trans (of_decide_eq_true granted) (by decide)⟩
    let member : Member :=
      { text := true, modified := 1400000000, extraFlags := 2, system := 3
        name := some ⟨[97, 46, 108, 117, 97], by decide, by decide⟩
        deflated := [203, 200, 204, 0, 67, 0], crc := 0, size := 8 }
    Unpacks (tinfl .x64 true fresh ⟨fresh, 0, [], .failed⟩) allocator member
      [104, 105, 104, 105, 104, 105, 104, 105] := by
  intro allocator member
  apply (unpacks_iff_of_encodes .x64 true fresh ⟨fresh, 0, [], .failed⟩ allocator member
    encodes_sample ?_).mpr
  · refine ⟨by decide, (Gzip.Allocator.GrowsTo.iff_of_lt (by decide)).mpr ?_⟩
    exact ⟨rfl, .of_le (by decide)⟩
  · intro name named
    cases named
    decide

end Lucciefr.Tinfl
