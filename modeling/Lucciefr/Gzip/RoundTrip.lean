import Lucciefr.Gzip.Inflate
import Lucciefr.Gzip.SingleBlock

/-!
# Embedded resources after unpacking

A resource is embedded as a gzip member. It comes back, and reaches Lua, unless it is
empty, memory runs out, or the length of its file name does not fit.
-/

namespace Lucciefr.Gzip

variable {Decompressor : Type} {build : Build} {tinfl : Tinfl Decompressor}
  {allocator : Allocator build} {streams : List UInt8 → List UInt8 → Prop} {member : Member}
  {content : List UInt8}

/-- The resource is unpacked from the member, and passed on to Lua. -/
structure Unpacks (tinfl : Tinfl Decompressor) (allocator : Allocator build) (member : Member)
    (content : List UInt8) : Prop where
  decompressed : gzipDecompress tinfl allocator (some member.bytes) =
    .ok (.ok ⟨content, content.length⟩)
  symbol : dllGetBinarySymbolC tinfl allocator (some member.bytes) = .ok (.string content)
  buffer : ∀ pathMax pwd name,
    loadDecompressedBuffer tinfl allocator pathMax pwd member.bytes name =
      .ok (.chunk content ((61 :: stripPwd pwd name).take (pathMax - 1)))

namespace Member

theorem length_littleEndian (value : UInt32) : (littleEndian value).length = 4 := by
  rw [littleEndian, List.length_reverse, length_bigEndian]

theorem isGzipped_bytes (member : Member) : isGzipped member.bytes = .ok true := rfl

theorem charAt_bytes_two (member : Member) : charAt member.bytes 2 = .ok 8 := rfl

theorem charAt_bytes_three (member : Member) :
    charAt member.bytes 3 = .ok member.flags.toInt8 := rfl

theorem flags_supported (member : Member) : member.flags.toInt8 &&& ~~~0x09 = 0 := by
  rw [flags]
  cases member.text <;> cases member.name.isSome <;> decide

theorem flags_name (member : Member) : member.flags.toInt8 &&& 0x08 ≠ 0 ↔ member.name.isSome := by
  rw [flags]
  cases member.text <;> cases member.name.isSome <;> decide

theorem drop_bytes (member : Member) : member.bytes.drop 10 = member.nameField ++ member.body := by
  have header : ([0x1f, 0x8b, 8, member.flags] ++ littleEndian member.modified ++
      [member.extraFlags, member.system]).length = 10 := by
    simp [length_littleEndian]
  rw [bytes, List.append_assoc, List.drop_left' header]

end Member

open Decoder (BeginsWith)

theorem Member.dataOffset_of_name {name : FileName} (named : member.name = some name) :
    dataOffset member.bytes member.flags.toInt8 =
      if toInt name.bytes.length ≤ 0 then
        .ok (.error (.filenameLength (toInt name.bytes.length)))
      else if toInt name.bytes.length = 2 ^ 31 - 1 then
        .error .signedOverflow
      else
        .ok (.ok (10 + (toInt name.bytes.length + 1).toNat)) := by
  have flag : member.flags.toInt8 &&& 0x08 ≠ 0 := by
    rw [flags_name, named]
    rfl
  have rest : member.bytes.drop 10 = name.bytes ++ 0 :: member.body := by
    rw [drop_bytes, nameField, named, List.append_assoc]
    rfl
  have ends : strlenAt member.bytes 10 = .ok name.bytes.length := by
    rw [strlenAt, rest, strlen, cString_append_zero name.noNul, if_pos (by simp)]
  rw [dataOffset, if_pos flag, ends, ok_bind]

theorem Member.dataOffset_of_unnamed (unnamed : member.name = none) :
    dataOffset member.bytes member.flags.toInt8 = .ok (.ok 10) := by
  have flag : ¬member.flags.toInt8 &&& 0x08 ≠ 0 := by
    rw [flags_name, unnamed]
    exact Bool.false_ne_true
  rw [dataOffset, if_neg flag]

/-- The bytes which `gzip_decompress` decompresses. -/
def Member.source (member : Member) : Option (List UInt8) :=
  match member.name with
  | none => some member.body
  | some name =>
      if 0 < toInt name.bytes.length ∧ toInt name.bytes.length < 2 ^ 31 - 1 then
        some ((member.nameField ++ member.body).drop (toInt name.bytes.length + 1).toNat)
      else none

/-- The last part of `gzip_decompress`. -/
def result (decompressed : Option HeapBlock) : Except GzipError HeapBlock :=
  match decompressed with
  | some block => .ok block
  | none => .error .failed

theorem result_eq_ok {decompressed : Except Fault (Option HeapBlock)} {block : HeapBlock} :
    result <$> decompressed = .ok (.ok block) ↔ decompressed = .ok (some block) := by
  cases decompressed with
  | error fault => simp
  | ok decompressed => cases decompressed <;> simp [result]

theorem gzipDecompress_bytes (member : Member) :
    gzipDecompress tinfl allocator (some member.bytes) =
      (dataOffset member.bytes member.flags.toInt8 >>= fun found =>
        match found with
        | .error error => .ok (.error error)
        | .ok offset =>
            if member.bytes.length < offset then
              .error .outOfBounds
            else
              result <$> tinflDecompressMemToHeap tinfl allocator
                (member.bytes.drop offset) 0) := by
  rw [gzipDecompress, member.isGzipped_bytes, ok_bind]
  simp only [Option.getD_some, member.charAt_bytes_two, member.charAt_bytes_three, ok_bind,
    member.flags_supported]
  cases dataOffset member.bytes member.flags.toInt8 with
  | error fault => rfl
  | ok found =>
      cases found with
      | error error => rfl
      | ok offset =>
          by_cases outside : member.bytes.length < offset
          · simp [outside]
          · simp only [ok_bind, outside, if_false]
            cases tinflDecompressMemToHeap tinfl allocator (member.bytes.drop offset) 0 with
            | error fault => rfl
            | ok block => cases block <;> rfl

theorem gzipDecompress_of_source {input : List UInt8} (source : member.source = some input) :
    gzipDecompress tinfl allocator (some member.bytes) =
      result <$> tinflDecompressMemToHeap tinfl allocator input 0 := by
  have length : member.bytes.length = 10 + (member.nameField ++ member.body).length := by
    rw [← member.drop_bytes, List.length_drop]
    have header : 10 ≤ member.bytes.length := by
      simp only [Member.bytes, List.length_append, Member.length_littleEndian, List.length_cons,
        List.length_nil]
      omega
    omega
  rw [gzipDecompress_bytes]
  unfold Member.source at source
  split at source
  · next unnamed =>
      rw [member.dataOffset_of_unnamed unnamed, ok_bind]
      have inside : ¬member.bytes.length < 10 := by omega
      simp only [inside, if_false, member.drop_bytes, Member.nameField, unnamed, List.nil_append]
      rw [Option.some.inj source]
  · next name named =>
      split at source
      · next readable =>
          have shorter := toInt_le name.bytes.length
          have field : name.bytes.length + 1 = member.nameField.length := by
            simp [Member.nameField, named]
          have inside : ¬member.bytes.length < 10 + (toInt name.bytes.length + 1).toNat := by
            rw [length, List.length_append, ← field]
            omega
          rw [member.dataOffset_of_name named, if_neg (by omega), if_neg (by omega), ok_bind]
          simp only [inside, if_false, ← List.drop_drop, member.drop_bytes]
          rw [Option.some.inj source]
      · contradiction

theorem gzipDecompress_of_no_source (source : member.source = none) (block : HeapBlock) :
    gzipDecompress tinfl allocator (some member.bytes) ≠ .ok (.ok block) := by
  rw [gzipDecompress_bytes]
  unfold Member.source at source
  split at source
  · contradiction
  · next name named =>
      split at source
      · contradiction
      · next unreadable =>
          rw [member.dataOffset_of_name named]
          split
          · simp
          · have bound := toInt_lt name.bytes.length
            rw [if_pos (by omega)]
            simp

/-- Lua gets what is decompressed. -/
theorem unpacks_iff : Unpacks tinfl allocator member content ↔
    gzipDecompress tinfl allocator (some member.bytes) = .ok (.ok ⟨content, content.length⟩) := by
  constructor
  · exact Unpacks.decompressed
  · intro decompressed
    have whole : (HeapBlock.mk content content.length).read = .ok content := by
      simp [HeapBlock.read]
    refine ⟨decompressed, ?_, ?_⟩
    · simp only [dllGetBinarySymbolC, member.isGzipped_bytes, decompressed, whole, ok_bind]
      rfl
    · intro pathMax pwd name
      simp only [loadDecompressedBuffer, member.isGzipped_bytes, decompressed, whole, ok_bind]
      rfl

theorem unpacks_iff_of_source {input : List UInt8}
    (correct : (tinfl.decoder (decompFlags 0)).Correct streams)
    (source : member.source = some input) : Unpacks tinfl allocator member content ↔
      BeginsWith streams input content ∧ content ≠ [] ∧ allocator.GrowsTo content.length 0 := by
  rw [unpacks_iff, gzipDecompress_of_source source, result_eq_ok]
  by_cases stream : ∃ other, BeginsWith streams input other
  · rcases stream with ⟨other, begins⟩
    have delivers := correct.delivers _ _ begins
    have same : BeginsWith streams input content → content = other :=
      fun otherwise => correct.content_unique otherwise begins
    by_cases empty : other = []
    · subst empty
      rw [memToHeap_of_empty delivers]
      refine ⟨fun impossible => by simp at impossible, ?_⟩
      rintro ⟨otherwise, nonempty, -⟩
      exact absurd (same otherwise) nonempty
    · by_cases grows : allocator.GrowsTo other.length 0
      · rw [(memToHeap_of_delivers delivers empty).1 grows]
        constructor
        · intro returned
          simp only [Except.ok.injEq, Option.some.injEq, HeapBlock.mk.injEq] at returned
          rw [← returned.1]
          exact ⟨begins, empty, grows⟩
        · rintro ⟨otherwise, -, -⟩
          rw [same otherwise]
      · rw [(memToHeap_of_delivers delivers empty).2 grows]
        refine ⟨fun impossible => by simp at impossible, ?_⟩
        rintro ⟨otherwise, -, granted⟩
        rw [same otherwise] at granted
        exact absurd granted grows
  · constructor
    · intro returned
      have rejects := correct.rejects input (not_exists.mp stream)
      exact absurd returned (memToHeap_of_rejects rejects _)
    · exact fun ⟨begins, _⟩ => absurd ⟨content, begins⟩ stream

/-- The file name is left out, or its length is an `int` to which 1 can be added. Otherwise
the length wraps, and a stream of the content has to begin at the wrong place. -/
def Member.NameFits (member : Member) (streams : List UInt8 → List UInt8 → Prop)
    (content : List UInt8) : Prop :=
  match member.name with
  | none => True
  | some name =>
      name.bytes.length < 2 ^ 31 - 1 ∨
      0 < toInt name.bytes.length ∧ toInt name.bytes.length < 2 ^ 31 - 1 ∧
        BeginsWith streams
          ((member.nameField ++ member.body).drop (toInt name.bytes.length + 1).toNat) content

theorem nameFits_iff (encoded : streams member.deflated content) :
    member.NameFits streams content ↔
      ∃ input, member.source = some input ∧ BeginsWith streams input content := by
  have regular : BeginsWith streams member.body content :=
    ⟨member.deflated, _, encoded, List.append_assoc _ _ _⟩
  unfold Member.NameFits Member.source
  split
  · next unnamed => simp [regular]
  · next name named =>
      have field : name.bytes.length + 1 = member.nameField.length := by
        simp [Member.nameField, named]
      constructor
      · rintro (short | ⟨positive, bounded, begins⟩)
        · have exact_length := toInt_of_lt (Nat.lt_of_lt_of_le short (by decide))
          have positive := List.length_pos_iff.mpr name.nonempty
          rw [exact_length, if_pos (by omega)]
          refine ⟨_, rfl, ?_⟩
          have skip : ((name.bytes.length : ℤ) + 1).toNat = member.nameField.length := by omega
          rw [skip, List.drop_left]
          exact regular
        · rw [if_pos ⟨positive, bounded⟩]
          exact ⟨_, rfl, begins⟩
      · rintro ⟨input, source, begins⟩
        split at source
        · next readable =>
            rw [← Option.some.inj source] at begins
            exact Or.inr ⟨readable.1, readable.2, begins⟩
        · contradiction

/--
A resource comes back exactly if it is not empty, the memory for it is granted, and
its file name fits.
-/
theorem unpacks_iff_nonempty (correct : (tinfl.decoder (decompFlags 0)).Correct streams)
    (encoded : streams member.deflated content) :
    Unpacks tinfl allocator member content ↔
      content ≠ [] ∧ allocator.GrowsTo content.length 0 ∧ member.NameFits streams content := by
  rw [nameFits_iff encoded]
  cases source : member.source with
  | none =>
      simp only [reduceCtorEq, false_and, exists_false, and_false, iff_false]
      intro unpacks
      exact gzipDecompress_of_no_source source _ unpacks.decompressed
  | some input =>
      rw [unpacks_iff_of_source correct source]
      constructor
      · rintro ⟨begins, nonempty, grows⟩
        exact ⟨nonempty, grows, input, rfl, begins⟩
      · rintro ⟨nonempty, grows, _, same, begins⟩
        rw [Option.some.inj same]
        exact ⟨begins, nonempty, grows⟩

/-- A text file whose name is kept. -/
theorem unpacks_iff_nonempty_named :
    let allocator : Allocator .x64 := ⟨fun size => size < 2 ^ 20, fun size granted =>
      Nat.lt_trans (of_decide_eq_true granted) (by decide)⟩
    let member : Member :=
      { text := true, modified := 1400000000, extraFlags := 2, system := 3
        name := some ⟨[97, 46, 108, 117, 97], by decide, by decide⟩
        deflated := [1, 2, 0, 0xfd, 0xff, 104, 105], crc := 0xd8932aac, size := 2 }
    Unpacks SingleBlock.tinfl allocator member [104, 105] := by
  intro allocator member
  have encoded : OfSingleBlock member.deflated [104, 105] := ⟨_, .stored 2 0 (by decide), rfl⟩
  apply (unpacks_iff_nonempty SingleBlock.correct encoded).mpr
  refine ⟨by decide, ?_, Or.inl (by decide)⟩
  apply (Allocator.GrowsTo.iff_of_lt (by decide)).mpr
  exact ⟨rfl, .of_le (by decide)⟩

/-- The file which `gzip -n9` produces for an empty one does not come back. -/
theorem not_unpacks_empty :
    let allocator : Allocator .x64 := ⟨fun size => size < 2 ^ 20, fun size granted =>
      Nat.lt_trans (of_decide_eq_true granted) (by decide)⟩
    let member : Member :=
      { text := false, modified := 0, extraFlags := 2, system := 3, name := none
        deflated := [3, 0], crc := 0, size := 0 }
    (SingleBlock.tinfl.decoder (decompFlags 0)).Correct OfSingleBlock ∧
      OfSingleBlock member.deflated [] ∧
      gzipDecompress SingleBlock.tinfl allocator (some member.bytes) = .ok (.error .failed) ∧
      dllGetBinarySymbolC SingleBlock.tinfl allocator (some member.bytes) = .ok .symbolError ∧
      ¬Unpacks SingleBlock.tinfl allocator member [] := by
  intro allocator member
  have encoded : OfSingleBlock member.deflated [] := ⟨_, .fixed (by decide), rfl⟩
  have failed : gzipDecompress SingleBlock.tinfl allocator (some member.bytes) =
      .ok (.error .failed) := by
    have begins : BeginsWith OfSingleBlock member.body [] :=
      ⟨member.deflated, _, encoded, List.append_assoc _ _ _⟩
    rw [gzipDecompress_of_source (show member.source = some member.body from rfl),
      memToHeap_of_empty (SingleBlock.correct.delivers _ _ begins)]
    rfl
  refine ⟨SingleBlock.correct, encoded, failed, ?_, ?_⟩
  · simp only [dllGetBinarySymbolC, member.isGzipped_bytes, failed, ok_bind]
    rfl
  · intro unpacks
    have impossible := failed.symm.trans unpacks.decompressed
    simp at impossible

end Lucciefr.Gzip
