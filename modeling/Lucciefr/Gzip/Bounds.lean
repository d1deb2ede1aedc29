import Lucciefr.Gzip.RoundTrip

/-!
# Reads of a gzip header

`is_gzipped` and `gzip_decompress` check the fields of the header one after the
other, and no check looks at the length of the data. A buffer which ends inside
a header that looks supported so far is read beyond its end, or its remaining
length wraps. The buffers which are safe to pass are those which have each field
that the checks before it lead to.
-/

namespace Lucciefr.Gzip

variable {Decompressor : Type} {build : Build} {tinfl : Tinfl Decompressor}
  {allocator : Allocator build} {data rest : List UInt8} {flags : UInt8}

/-- The part of `gzip_decompress` before the decompression: the offset to the compressed
data and the length which are passed on. -/
def headerArguments (build : Build) (data : Option (List UInt8)) :
    Except Fault (Except GzipError (ℕ × ℕ)) := do
  if !(← isGzipped data) then
    .ok (.error .noSignature)
  else
    let data := data.getD []
    let method ← charAt data 2
    if method ≠ 8 then
      .ok (.error (.compressionMethod method))
    else
      let flags ← charAt data 3
      if flags &&& ~~~0x09 ≠ 0 then
        .ok (.error (.headerFlags flags))
      else
        match ← dataOffset data flags with
        | .error error => .ok (.error error)
        | .ok offset => .ok (.ok (offset, build.sub data.length offset))

/-- A header with supported fields which is there as a whole. -/
structure CompleteHeader (data : List UInt8) : Prop where
  signature : data[0]? = some 0x1f ∧ data[1]? = some 0x8b
  method : data[2]? = some 8
  flags : ∃ flags, data[3]? = some flags ∧ flags.toInt8 &&& ~~~0x09 = 0 ∧
    (flags.toInt8 &&& 0x08 ≠ 0 → 0 ∈ data.drop 10)
  length : 10 ≤ data.length

/-- The number of bytes of a complete header. -/
def headerLength (data : List UInt8) : ℕ :=
  if (data.getD 3 0).toInt8 &&& 0x08 ≠ 0 then 10 + strlen (data.drop 10) + 1 else 10

/-- What parsing a buffer in bounds means. -/
structure ParsesInBounds (tinfl : Tinfl Decompressor) (allocator : Allocator build)
    (data : List UInt8) : Prop where
  /-- `is_gzipped` reads no byte beyond the end. -/
  signature : ∃ gzipped, isGzipped (some data) = .ok gzipped
  /-- `gzip_decompress` reads no byte beyond the end. -/
  header : ∃ parsed, headerArguments build (some data) = .ok parsed
  /-- The length passed on is the number of bytes after the header. -/
  passed : ∀ offset len, headerArguments build (some data) = .ok (.ok (offset, len)) →
    offset = headerLength data ∧ offset ≤ data.length ∧ len = data.length - offset
  /-- An incomplete or unsupported header yields `NULL` and a size of 0. -/
  rejected : ¬CompleteHeader data →
    ∃ error, gzipDecompress tinfl allocator (some data) = .ok (.error error)

/-- Each field of the header is there if the ones before it are supported, and the length
of a file name is read as it is or not as a positive number. -/
def ReadableHeader : List UInt8 → Prop
  | [] => False
  | [first] => first ≠ 0x1f
  | [first, second] => ¬(first = 0x1f ∧ second = 0x8b)
  | [first, second, method] => ¬(first = 0x1f ∧ second = 0x8b ∧ method = 8)
  | first :: second :: method :: flags :: rest =>
      first = 0x1f → second = 0x8b → method = 8 → flags.toInt8 &&& ~~~0x09 = 0 →
        if flags.toInt8 &&& 0x08 ≠ 0 then
          0 ∈ rest.drop 6 ∧
            (toInt (strlen (rest.drop 6)) ≤ 0 ∨ strlen (rest.drop 6) < 2 ^ 31 - 1)
        else
          6 ≤ rest.length

theorem toInt8_eq_iff (char other : UInt8) : char.toInt8 = other.toInt8 ↔ char = other := by
  constructor
  · intro same
    exact congrArg Int8.toUInt8 same
  · rintro rfl
    rfl

theorem isGzipped_singleton (first : UInt8) :
    isGzipped (some [first]) =
      if first = 0x1f then .error .outOfBounds else .ok false := by
  have first_iff : first.toInt8 = 31 ↔ first = 0x1f := toInt8_eq_iff first 0x1f
  by_cases matched : first = 0x1f
  · rw [if_pos matched, matched]
    rfl
  · have unmatched : ¬first.toInt8 = 31 := fun same => matched (first_iff.mp same)
    simp only [isGzipped, charAt, List.getElem?_cons_zero, ok_bind, if_neg unmatched,
      if_neg matched]

theorem isGzipped_cons_cons (first second : UInt8) (rest : List UInt8) :
    isGzipped (some (first :: second :: rest)) =
      .ok (decide (first = 0x1f ∧ second = 0x8b)) := by
  have first_iff : first.toInt8 = 31 ↔ first = 0x1f := toInt8_eq_iff first 0x1f
  have second_iff : second.toInt8 = -117 ↔ second = 0x8b := toInt8_eq_iff second 0x8b
  simp only [isGzipped, charAt, List.getElem?_cons_zero, List.getElem?_cons_succ, ok_bind,
    first_iff, second_iff]
  by_cases matched : first = 0x1f <;> simp [matched]

/-- The rest of `gzip_decompress`. -/
def inflate (tinfl : Tinfl Decompressor) (allocator : Allocator build) (data : List UInt8) :
    Except GzipError (ℕ × ℕ) → Except Fault (Except GzipError HeapBlock)
  | .error error => .ok (.error error)
  | .ok (offset, _) =>
      if data.length < offset then
        .error .outOfBounds
      else
        result <$> tinflDecompressMemToHeap tinfl allocator (data.drop offset) 0

theorem gzipDecompress_eq (data : Option (List UInt8)) :
    gzipDecompress tinfl allocator data =
      headerArguments build data >>= inflate tinfl allocator (data.getD []) := by
  rw [gzipDecompress, headerArguments]
  cases isGzipped data with
  | error fault => rfl
  | ok gzipped =>
      cases gzipped with
      | false => rfl
      | true =>
          simp only [ok_bind, Bool.not_true, Bool.false_eq_true, if_false]
          cases charAt (data.getD []) 2 with
          | error fault => rfl
          | ok method =>
              by_cases supported : method = 8
              · simp only [ok_bind, supported, ne_eq, not_true_eq_false, if_false]
                cases charAt (data.getD []) 3 with
                | error fault => rfl
                | ok flags =>
                    by_cases clear : flags &&& ~~~0x09 = 0
                    · simp only [ok_bind, clear, not_true_eq_false, if_false]
                      cases dataOffset (data.getD []) flags with
                      | error fault => rfl
                      | ok found =>
                          cases found with
                          | error error => rfl
                          | ok offset =>
                              simp only [ok_bind, inflate]
                              by_cases outside : (data.getD []).length < offset
                              · simp only [outside, if_true]
                              · simp only [outside, if_false]
                                cases tinflDecompressMemToHeap tinfl allocator
                                  ((data.getD []).drop offset) 0 with
                                | error fault => rfl
                                | ok block => cases block <;> rfl
                    · simp only [ok_bind, clear, not_false_eq_true, if_true]
                      rfl
              · simp only [ok_bind, supported, ne_eq, not_false_eq_true, if_true]
                rfl

theorem gzipDecompress_of_error {data : Option (List UInt8)} {error : GzipError}
    (parsed : headerArguments build data = .ok (.error error)) :
    gzipDecompress tinfl allocator data = .ok (.error error) := by
  rw [gzipDecompress_eq, parsed]
  rfl

/-- A buffer which is rejected by its header is parsed in bounds. -/
theorem ParsesInBounds.of_error {error : GzipError} {gzipped : Bool}
    (signature : isGzipped (some data) = .ok gzipped)
    (parsed : headerArguments build (some data) = .ok (.error error)) :
    ParsesInBounds tinfl allocator data where
  signature := ⟨gzipped, signature⟩
  header := ⟨_, parsed⟩
  passed := by
    intro offset len passed
    rw [parsed] at passed
    simp at passed
  rejected _ := ⟨error, gzipDecompress_of_error parsed⟩

theorem headerArguments_of_unsigned (build : Build) (unsigned : isGzipped (some data) = .ok false) :
    headerArguments build (some data) = .ok (.error .noSignature) := by
  rw [headerArguments, unsigned]
  rfl

theorem headerArguments_of_method (build : Build) (rest : List UInt8) (flags : UInt8) :
    headerArguments build (some (0x1f :: 0x8b :: 8 :: flags :: rest)) =
      if flags.toInt8 &&& ~~~0x09 = 0 then
        dataOffset (0x1f :: 0x8b :: 8 :: flags :: rest) flags.toInt8 >>= fun found =>
          .ok (found.map fun offset => (offset, build.sub (rest.length + 4) offset))
      else
        .ok (.error (.headerFlags flags.toInt8)) := by
  have signature : isGzipped (some (0x1f :: 0x8b :: 8 :: flags :: rest)) = .ok true :=
    isGzipped_cons_cons 0x1f 0x8b (8 :: flags :: rest)
  have method : charAt (0x1f :: 0x8b :: 8 :: flags :: rest) 2 = .ok 8 := rfl
  have flags_eq : charAt (0x1f :: 0x8b :: 8 :: flags :: rest) 3 = .ok flags.toInt8 := rfl
  rw [headerArguments, signature]
  simp only [Option.getD_some, method, flags_eq, ok_bind, Bool.not_true, Bool.false_eq_true,
    ne_eq, not_true_eq_false, if_false]
  by_cases clear : flags.toInt8 &&& ~~~0x09 = 0
  · rw [if_neg (not_not.mpr clear), if_pos clear]
    cases dataOffset (0x1f :: 0x8b :: 8 :: flags :: rest) flags.toInt8 with
    | error fault => rfl
    | ok found => cases found <;> rfl
  · rw [if_pos clear, if_neg clear]

theorem headerArguments_of_other_method (build : Build) {method : UInt8} (other : method ≠ 8)
    (rest : List UInt8) :
    headerArguments build (some (0x1f :: 0x8b :: method :: rest)) =
      .ok (.error (.compressionMethod method.toInt8)) := by
  have signature : isGzipped (some (0x1f :: 0x8b :: method :: rest)) = .ok true :=
    isGzipped_cons_cons 0x1f 0x8b (method :: rest)
  have method_eq : charAt (0x1f :: 0x8b :: method :: rest) 2 = .ok method.toInt8 := rfl
  have other' : method.toInt8 ≠ 8 := fun same => other ((toInt8_eq_iff method 8).mp same)
  rw [headerArguments, signature]
  simp only [Option.getD_some, method_eq, ok_bind, Bool.not_true, Bool.false_eq_true, if_false,
    if_pos other']

theorem dataOffset_of_named (named : flags.toInt8 &&& 0x08 ≠ 0) :
    dataOffset (0x1f :: 0x8b :: 8 :: flags :: rest) flags.toInt8 =
      if 0 ∈ rest.drop 6 then
        if toInt (strlen (rest.drop 6)) ≤ 0 then
          .ok (.error (.filenameLength (toInt (strlen (rest.drop 6)))))
        else if toInt (strlen (rest.drop 6)) = 2 ^ 31 - 1 then
          .error .signedOverflow
        else
          .ok (.ok (10 + (toInt (strlen (rest.drop 6)) + 1).toNat))
      else
        .error .outOfBounds := by
  have name_eq : (0x1f :: 0x8b :: 8 :: flags :: rest).drop 10 = rest.drop 6 := rfl
  rw [dataOffset, if_pos named, strlenAt, name_eq]
  by_cases terminated : 0 ∈ rest.drop 6
  · rw [if_pos terminated, if_pos terminated, ok_bind]
  · rw [if_neg terminated, if_neg terminated, error_bind]

theorem dataOffset_of_unnamed (unnamed : ¬flags.toInt8 &&& 0x08 ≠ 0) :
    dataOffset data flags.toInt8 = .ok (.ok 10) := by
  rw [dataOffset, if_neg unnamed]

theorem completeHeader_iff :
    CompleteHeader (0x1f :: 0x8b :: 8 :: flags :: rest) ↔
      flags.toInt8 &&& ~~~0x09 = 0 ∧ (flags.toInt8 &&& 0x08 ≠ 0 → 0 ∈ rest.drop 6) ∧
        6 ≤ rest.length := by
  constructor
  · rintro ⟨-, -, ⟨other, other_eq, clear, named⟩, length⟩
    have flags_eq : flags = other := Option.some.inj other_eq
    subst flags_eq
    exact ⟨clear, named, by simpa using length⟩
  · rintro ⟨clear, named, length⟩
    exact ⟨⟨rfl, rfl⟩, rfl, ⟨flags, rfl, clear, named⟩, by simpa using length⟩

theorem strlen_lt {block : List UInt8} (terminated : 0 ∈ block) : strlen block < block.length := by
  induction block with
  | nil => simp at terminated
  | cons char rest ih =>
      by_cases ends : char = 0
      · simp [strlen, cString, ends]
      · have later : 0 ∈ rest := by
          rcases List.mem_cons.mp terminated with same | later
          · exact absurd same.symm ends
          · exact later
        have shorter := ih later
        simp only [strlen, cString] at shorter ⊢
        rw [List.takeWhile_cons_of_pos (by simpa using ends)]
        simpa using shorter

/-- A buffer is not parsed in bounds if the header reads beyond its end. -/
theorem ParsesInBounds.not_of_fault {fault : Fault}
    (parsed : headerArguments build (some data) = .error fault) :
    ¬ParsesInBounds tinfl allocator data := by
  rintro ⟨-, ⟨result, returned⟩, -, -⟩
  rw [parsed] at returned
  contradiction

/-- A complete header is parsed in bounds if and only if its length is found. -/
theorem ParsesInBounds.iff_of_ok {offset : ℕ} (fits : data.length < 2 ^ build.bits)
    (signature : isGzipped (some data) = .ok true)
    (parsed : headerArguments build (some data) =
      .ok (.ok (offset, build.sub data.length offset)))
    (complete : offset = headerLength data → offset ≤ data.length → CompleteHeader data) :
    ParsesInBounds tinfl allocator data ↔ offset = headerLength data ∧ offset ≤ data.length := by
  constructor
  · rintro ⟨-, -, passed, -⟩
    have arguments := passed offset _ parsed
    exact ⟨arguments.1, arguments.2.1⟩
  · rintro ⟨offset_eq, inside⟩
    refine ⟨⟨true, signature⟩, ⟨_, parsed⟩, ?_, fun incomplete => ?_⟩
    · intro offset' len passed
      rw [parsed] at passed
      simp only [Except.ok.injEq, Prod.mk.injEq] at passed
      rcases passed with ⟨rfl, rfl⟩
      exact ⟨offset_eq, inside, Build.sub_of_le inside fits⟩
    · exact absurd (complete offset_eq inside) incomplete

/-- A supported header with a file name is parsed in bounds if and only if the name ends
inside the buffer and its length is read as it is or not as a positive number. -/
theorem parsesInBounds_iff_of_named
    (fits : (0x1f :: 0x8b :: 8 :: flags :: rest).length < 2 ^ build.bits)
    (clear : flags.toInt8 &&& ~~~0x09 = 0) (named : flags.toInt8 &&& 0x08 ≠ 0) :
    ParsesInBounds tinfl allocator (0x1f :: 0x8b :: 8 :: flags :: rest) ↔
      0 ∈ rest.drop 6 ∧
        (toInt (strlen (rest.drop 6)) ≤ 0 ∨ strlen (rest.drop 6) < 2 ^ 31 - 1) := by
  have signature : isGzipped (some (0x1f :: 0x8b :: 8 :: flags :: rest)) = .ok true :=
    isGzipped_cons_cons 0x1f 0x8b (8 :: flags :: rest)
  have arguments := headerArguments_of_method build rest flags
  rw [if_pos clear, dataOffset_of_named named] at arguments
  by_cases terminated : 0 ∈ rest.drop 6
  · rw [if_pos terminated] at arguments
    have bound := toInt_lt (strlen (rest.drop 6))
    by_cases empty : toInt (strlen (rest.drop 6)) ≤ 0
    · rw [if_pos empty] at arguments
      exact iff_of_true (ParsesInBounds.of_error signature arguments) ⟨terminated, Or.inl empty⟩
    · rw [if_neg empty] at arguments
      by_cases largest : toInt (strlen (rest.drop 6)) = 2 ^ 31 - 1
      · rw [if_pos largest] at arguments
        refine iff_of_false (ParsesInBounds.not_of_fault arguments) ?_
        rintro ⟨-, nonpositive | short⟩
        · exact empty nonpositive
        · rw [toInt_of_lt (by omega)] at largest
          omega
      · rw [if_neg largest] at arguments
        have name_lt := strlen_lt terminated
        rw [List.length_drop] at name_lt
        have header_eq : headerLength (0x1f :: 0x8b :: 8 :: flags :: rest) =
            10 + strlen (rest.drop 6) + 1 := if_pos named
        have complete : CompleteHeader (0x1f :: 0x8b :: 8 :: flags :: rest) :=
          completeHeader_iff.mpr ⟨clear, fun _ => terminated, by omega⟩
        have parsed : ParsesInBounds tinfl allocator (0x1f :: 0x8b :: 8 :: flags :: rest) ↔ _ :=
          ParsesInBounds.iff_of_ok fits signature arguments fun _ _ => complete
        rw [parsed, header_eq]
        constructor
        · rintro ⟨offset_eq, -⟩
          exact ⟨terminated, Or.inr (by omega)⟩
        · rintro ⟨-, nonpositive | short⟩
          · exact absurd nonpositive empty
          · rw [toInt_of_lt (by omega)]
            simp only [List.length_cons]
            omega
  · rw [if_neg terminated] at arguments
    exact iff_of_false (ParsesInBounds.not_of_fault arguments) fun readable =>
      terminated readable.1

theorem parsesInBounds_iff_of_unnamed
    (fits : (0x1f :: 0x8b :: 8 :: flags :: rest).length < 2 ^ build.bits)
    (clear : flags.toInt8 &&& ~~~0x09 = 0) (unnamed : ¬flags.toInt8 &&& 0x08 ≠ 0) :
    ParsesInBounds tinfl allocator (0x1f :: 0x8b :: 8 :: flags :: rest) ↔ 6 ≤ rest.length := by
  have signature : isGzipped (some (0x1f :: 0x8b :: 8 :: flags :: rest)) = .ok true :=
    isGzipped_cons_cons 0x1f 0x8b (8 :: flags :: rest)
  have arguments := headerArguments_of_method build rest flags
  rw [if_pos clear, dataOffset_of_unnamed unnamed] at arguments
  have header_eq : headerLength (0x1f :: 0x8b :: 8 :: flags :: rest) = 10 := if_neg unnamed
  have complete : 10 ≤ (0x1f :: 0x8b :: 8 :: flags :: rest).length →
      CompleteHeader (0x1f :: 0x8b :: 8 :: flags :: rest) := fun inside =>
    completeHeader_iff.mpr ⟨clear, fun named => absurd named unnamed, by simpa using inside⟩
  have parsed : ParsesInBounds tinfl allocator (0x1f :: 0x8b :: 8 :: flags :: rest) ↔ _ :=
    ParsesInBounds.iff_of_ok fits signature arguments fun _ inside => complete inside
  rw [parsed, header_eq]
  simp

theorem readableHeader_of_unsigned {first second : UInt8}
    (unsigned : ¬(first = 0x1f ∧ second = 0x8b)) (rest : List UInt8) :
    ReadableHeader (first :: second :: rest) := by
  match rest with
  | [] => exact unsigned
  | [method] => exact fun header => unsigned ⟨header.1, header.2.1⟩
  | method :: flags :: rest =>
      intro first_eq second_eq
      exact absurd ⟨first_eq, second_eq⟩ unsigned

theorem readableHeader_of_other_method {method : UInt8} (other : method ≠ 8)
    (rest : List UInt8) : ReadableHeader (0x1f :: 0x8b :: method :: rest) := by
  match rest with
  | [] => exact fun header => other header.2.2
  | flags :: rest =>
      intro _ _ method_eq
      exact absurd method_eq other

theorem parsesInBounds_iff_of_method (tinfl : Tinfl Decompressor) (allocator : Allocator build)
    (fits : (0x1f :: 0x8b :: 8 :: flags :: rest).length < 2 ^ build.bits) :
    ParsesInBounds tinfl allocator (0x1f :: 0x8b :: 8 :: flags :: rest) ↔
      ReadableHeader (0x1f :: 0x8b :: 8 :: flags :: rest) := by
  by_cases clear : flags.toInt8 &&& ~~~0x09 = 0
  · have readable_iff : ReadableHeader (0x1f :: 0x8b :: 8 :: flags :: rest) ↔
        if flags.toInt8 &&& 0x08 ≠ 0 then
          0 ∈ rest.drop 6 ∧
            (toInt (strlen (rest.drop 6)) ≤ 0 ∨ strlen (rest.drop 6) < 2 ^ 31 - 1)
        else
          6 ≤ rest.length :=
      ⟨fun readable => readable rfl rfl rfl clear, fun header _ _ _ _ => header⟩
    rw [readable_iff]
    by_cases named : flags.toInt8 &&& 0x08 ≠ 0
    · rw [if_pos named]
      exact parsesInBounds_iff_of_named fits clear named
    · rw [if_neg named]
      exact parsesInBounds_iff_of_unnamed fits clear named
  · have signature : isGzipped (some (0x1f :: 0x8b :: 8 :: flags :: rest)) = .ok true :=
      isGzipped_cons_cons 0x1f 0x8b (8 :: flags :: rest)
    have arguments := headerArguments_of_method build rest flags
    rw [if_neg clear] at arguments
    exact iff_of_true (ParsesInBounds.of_error signature arguments)
      fun _ _ _ supported => absurd supported clear

/--
A buffer is parsed in bounds if and only if each field of the header is there whenever
the ones before it look supported.
-/
theorem parsesInBounds_iff_readableHeader (build : Build) (tinfl : Tinfl Decompressor)
    (allocator : Allocator build) (data : List UInt8) (fits : data.length < 2 ^ build.bits) :
    ParsesInBounds tinfl allocator data ↔ ReadableHeader data := by
  rcases data with _ | ⟨first, _ | ⟨second, rest⟩⟩
  · exact iff_of_false (ParsesInBounds.not_of_fault rfl) id
  · have signature := isGzipped_singleton first
    by_cases matched : first = 0x1f
    · subst matched
      exact iff_of_false (ParsesInBounds.not_of_fault rfl) fun other => other rfl
    · rw [if_neg matched] at signature
      have arguments := headerArguments_of_unsigned build signature
      exact iff_of_true (ParsesInBounds.of_error signature arguments) matched
  · have signature := isGzipped_cons_cons first second rest
    by_cases signed : first = 0x1f ∧ second = 0x8b
    · rw [decide_eq_true signed] at signature
      rcases signed with ⟨rfl, rfl⟩
      rcases rest with _ | ⟨method, rest⟩
      · exact iff_of_false (ParsesInBounds.not_of_fault rfl) fun unsigned => unsigned ⟨rfl, rfl⟩
      · by_cases supported : method = 8
        · subst supported
          rcases rest with _ | ⟨flags, rest⟩
          · exact iff_of_false (ParsesInBounds.not_of_fault rfl) fun other => other ⟨rfl, rfl, rfl⟩
          · exact parsesInBounds_iff_of_method tinfl allocator fits
        · have arguments := headerArguments_of_other_method build supported rest
          exact iff_of_true (ParsesInBounds.of_error signature arguments)
            (readableHeader_of_other_method supported rest)
    · rw [decide_eq_false signed] at signature
      have arguments := headerArguments_of_unsigned build signature
      exact iff_of_true (ParsesInBounds.of_error signature arguments)
        (readableHeader_of_unsigned signed rest)

/-- A header with a file name of one byte. -/
theorem parsesInBounds_iff_readableHeader_named :
    let allocator : Allocator .x64 := ⟨fun size => size < 2 ^ 20, fun size granted =>
      Nat.lt_trans (of_decide_eq_true granted) (by decide)⟩
    ParsesInBounds SingleBlock.tinfl allocator
      [0x1f, 0x8b, 8, 8, 0, 0, 0, 0, 2, 3, 97, 0, 3, 0] := by
  intro allocator
  apply (parsesInBounds_iff_readableHeader .x64 SingleBlock.tinfl allocator
    [0x1f, 0x8b, 8, 8, 0, 0, 0, 0, 2, 3, 97, 0, 3, 0] (by decide)).mpr
  intro _ _ _ _
  rw [if_pos (by decide)]
  exact ⟨by decide, Or.inr (by decide)⟩

/-- An empty buffer is read beyond its end; of a buffer which ends after the flags, a length
of 2^64 - 6 is passed on. -/
theorem not_parsesInBounds_truncated :
    let allocator : Allocator .x64 := ⟨fun size => size < 2 ^ 20, fun size granted =>
      Nat.lt_trans (of_decide_eq_true granted) (by decide)⟩
    ¬ParsesInBounds SingleBlock.tinfl allocator [] ∧
      headerArguments .x64 (some [0x1f, 0x8b, 8, 0]) = .ok (.ok (10, 2 ^ 64 - 6)) ∧
      ¬ParsesInBounds SingleBlock.tinfl allocator [0x1f, 0x8b, 8, 0] := by
  intro allocator
  have passed : headerArguments .x64 (some [0x1f, 0x8b, 8, 0]) = .ok (.ok (10, 2 ^ 64 - 6)) :=
    rfl
  refine ⟨?_, passed, ?_⟩
  · rintro ⟨⟨gzipped, read⟩, -, -, -⟩
    cases read
  · rintro ⟨-, -, arguments, -⟩
    exact absurd (arguments _ _ passed).2.1 (by decide)

end Lucciefr.Gzip
