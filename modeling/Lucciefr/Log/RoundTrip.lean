import Lucciefr.Log.Message
import Lucciefr.Msgpack.RoundTrip

/-!
# Log messages after unpacking

What a backend obtains from the buffer that a log call wrote. The members come back
as the array which the format describes, unless one of the sizes which the two sides
handle is exceeded: the length of a string in its header, the length of the message
text in an `int`, the stack of the unpacker, or the trail of an extension.
-/

namespace Lucciefr.Log

open Msgpack

/-- The object which `log_text_sbuffer` passes on. Without one, as `msgpack_unpack` fails
and its result is not checked, the object is uninitialized. -/
def logTextSbuffer (msg : List UInt8) : Option Object :=
  msgpackUnpack msg

/-- The bytes of an origin, none for `NULL`. -/
def originBytes : Option (List UInt8) → List UInt8
  | some block => cString block
  | none => []

/-- The bytes of a message: as many as given, or up to its terminating NUL. -/
def messageBytes (msg : Option (List UInt8)) (len : ℤ) : List UInt8 :=
  match msg with
  | some block => if len < 0 then cString block else block.take len.toNat
  | none => []

namespace LogState

variable {Table : Type}

/-- The attachment of a message: the one given, or the pass count of a check point. -/
def attached (table : CheckpointTable Table) (state : LogState Table) (attachment : Option Object)
    (level : LogLevel) (msg : Option (List UInt8)) : Object :=
  match level, msg with
  | .checkpoint, some block =>
      match table.passCount state.checkpoints (cString block) with
      | .ok (count, _) => .positiveInteger count.toUInt64
      | .error _ => .nil
  | _, _ => attachment.getD .nil

/-- The eight members of a message, as objects. -/
def members (state : LogState Table) (level : LogLevel) (timestamp : UInt64) (pid : UInt32)
    (origin msg : Option (List UInt8)) (len : ℤ) (attached : Object) : List Object :=
  [.positiveInteger (UInt64.ofNat level.number),
    .positiveInteger (state.shownIndent level).toUInt64,
    .float timestamp,
    if pid ≠ 0 then .positiveInteger pid.toUInt64 else .nil,
    .str (originBytes origin),
    .str (messageBytes msg len),
    attached,
    .positiveInteger (state.serial + 1).toUInt64]

end LogState

/-- The message text is too long for its length to be an `int`. -/
def TextOverflows (msg : Option (List UInt8)) (len : ℤ) : Prop :=
  ∃ block, msg = some block ∧ len < 0 ∧ 2 ^ 31 ≤ strlen block

/-- The sizes which survive the round trip. -/
structure Fits (origin msg : Option (List UInt8)) (len : ℤ) (attached : Object) : Prop where
  origin : ∀ block, origin = some block → strlen block < 2 ^ 32
  text : ¬TextOverflows msg len
  wellFormed : attached.WellFormed
  depth : attached.depth < embedStackSize
  extSizes : attached.ExtSizes (· < 2 ^ 32 - 1)

theorem packString_eq (origin : Option (List UInt8)) :
    packString origin = packStr (originBytes origin).length ++ originBytes origin := by
  cases origin <;> rfl

/-- The text is packed with its header, or its length is negative and only a header is packed. -/
theorem packText_cases {msg : Option (List UInt8)} {len : ℤ} (int : len < 2 ^ 31)
    (readable : ∀ block, msg = some block → len ≤ block.length) :
    (∃ shown : List UInt8, packText msg len = packStr shown.length ++ shown ∧
      shown.length < 2 ^ 31 ∧ (¬TextOverflows msg len → shown = messageBytes msg len)) ∨
    TextOverflows msg len ∧ ∃ size, 2 ^ 31 ≤ size ∧ size < 2 ^ 32 ∧
      packText msg len = 0xdb :: bigEndian 4 size := by
  cases msg with
  | none => exact Or.inl ⟨[], rfl, by simp, fun _ => rfl⟩
  | some block =>
      have readBlock := readable block rfl
      have shorter := strlen_le block
      have converted := toInt_eq (strlen block)
      have own := textLength_le readable rfl
      by_cases negative : textLength (some block) len < 0
      · right
        have implicit : len < 0 := by
          by_contra explicit
          rw [textLength, if_neg explicit] at negative
          exact explicit negative
        rw [textLength, if_pos implicit, converted] at negative
        refine ⟨⟨block, rfl, implicit, ?_⟩, strlen block % 2 ^ 32, ?_, ?_, ?_⟩
        · split at negative <;> omega
        · split at negative <;> omega
        · exact Nat.mod_lt _ (by decide)
        · have wrapped : (toInt (strlen block) % 2 ^ 32).toNat = strlen block % 2 ^ 32 := by
            rw [converted]
            split <;> omega
          rw [← converted] at negative
          rw [packText, textLength, if_pos implicit, if_pos negative, wrapped]
      · left
        have length_eq : (block.take (textLength (some block) len).toNat).length =
            (textLength (some block) len).toNat := List.length_take_of_le (by omega)
        refine ⟨block.take (textLength (some block) len).toNat, ?_, ?_, ?_⟩
        · rw [packText, if_neg negative, length_eq]
        · rw [length_eq]
          rw [textLength] at negative ⊢
          split
          · simp only [converted]
            split <;> omega
          · omega
        · intro small
          rw [textLength, messageBytes]
          split
          · have short : strlen block < 2 ^ 31 := by
              by_contra long
              exact small ⟨block, rfl, ‹_›, by omega⟩
            have same : toInt (strlen block) = strlen block := by
              rw [converted, if_pos (by omega)]
              omega
            simp only [same, Int.toNat_natCast]
            exact (List.prefix_iff_eq_take.mp (List.takeWhile_prefix _)).symm
          · rfl

theorem packAttachment_eq (attachment : Option Object) :
    packAttachment attachment = packObject (attachment.getD .nil) := by
  cases attachment <;> rfl

theorem packLevel_eq (level : LogLevel) :
    packInt (Int32.ofNat level.number) =
      packObject (.positiveInteger (UInt64.ofNat level.number)) := by
  cases level <;> rfl

theorem packPid_eq (pid : UInt32) :
    packPid pid = packObject (if pid ≠ 0 then .positiveInteger pid.toUInt64 else .nil) := by
  unfold packPid
  split
  · rw [packObject, packUint64_toUInt64]
  · rfl

namespace LogState

variable {Table : Type} {table : CheckpointTable Table} {state next : LogState Table}
  {attachment : Option Object} {level : LogLevel} {timestamp : UInt64} {pid : UInt32}
  {origin msg : Option (List UInt8)} {len : ℤ} {bytes rest : List UInt8}

theorem attached_of_checkpoint {block : List UInt8} {count : UInt32} {checkpoints : Table}
    (counted : table.passCount state.checkpoints (cString block) = .ok (count, checkpoints)) :
    attached table state attachment .checkpoint (some block) =
      .positiveInteger count.toUInt64 := by
  simp only [attached, counted]

theorem attached_of_plain (plain : level ≠ .checkpoint ∨ msg = none) :
    attached table state attachment level msg = attachment.getD .nil := by
  rcases plain with other | rfl
  · cases level with
    | checkpoint => contradiction
    | _ => rfl
  · cases level <;> rfl

theorem chooseAttachment_of_plain {checkpoints : Table} (plain : level ≠ .checkpoint ∨ msg = none) :
    chooseAttachment table checkpoints attachment level msg = .ok (attachment, checkpoints) := by
  rcases plain with other | rfl
  · cases level with
    | checkpoint => contradiction
    | _ => rfl
  · cases level <;> rfl

theorem chooseAttachment_attached {chosen : Option Object} {checkpoints : Table}
    (chosen_eq : chooseAttachment table state.checkpoints attachment level msg =
      .ok (chosen, checkpoints)) :
    chosen.getD .nil = attached table state attachment level msg := by
  by_cases plain : level ≠ .checkpoint ∨ msg = none
  · rw [chooseAttachment_of_plain plain, Except.ok.injEq, Prod.mk.injEq] at chosen_eq
    rw [attached_of_plain plain, chosen_eq.1]
  · rw [not_or, not_not] at plain
    rcases plain with ⟨rfl, some_msg⟩
    rcases Option.ne_none_iff_exists'.mp some_msg with ⟨block, rfl⟩
    cases counted : table.passCount state.checkpoints (cString block) with
    | error fault =>
        simp only [chooseAttachment, counted, error_bind] at chosen_eq
        contradiction
    | ok result =>
        simp only [chooseAttachment, counted, ok_bind, Except.ok.injEq, Prod.mk.injEq] at chosen_eq
        rw [attached_of_checkpoint counted, ← chosen_eq.1, Option.getD_some]

/-- The bytes of a message: the packed members, with the text as it was packed. -/
theorem sbufferLogLevel_bytes (readable : ∀ block, msg = some block → len ≤ block.length)
    (written : state.sbufferLogLevel table attachment level timestamp pid origin msg len =
      .ok (bytes, next)) :
    bytes = packArray 8 ++ (packObject (.positiveInteger (UInt64.ofNat level.number)) ++
      (packObject (.positiveInteger (state.shownIndent level).toUInt64) ++
      (packObject (.float timestamp) ++
      (packObject (if pid ≠ 0 then .positiveInteger pid.toUInt64 else .nil) ++
      (packObject (.str (originBytes origin)) ++ (packText msg len ++
      (packObject (attached table state attachment level msg) ++
      packObject (.positiveInteger (state.serial + 1).toUInt64)))))))) := by
  have written := sbufferLogLevel_of_ok readable written
  cases chosen_eq : chooseAttachment table state.checkpoints attachment level msg with
  | error fault =>
      rw [chosen_eq, error_bind] at written
      contradiction
  | ok result =>
      rcases result with ⟨chosen, checkpoints⟩
      rw [chosen_eq, ok_bind] at written
      simp only [Except.ok.injEq, Prod.mk.injEq] at written
      rw [← written.1, ← chooseAttachment_attached chosen_eq, ← packAttachment_eq, ← packLevel_eq,
        ← packPid_eq]
      simp only [LogMessage.pack, messageOf, packString_eq, packObject, packUint64_toUInt64,
        List.append_assoc]

/-- With sizes which fit, the bytes are those of the array of the members. -/
theorem packObject_members (int : len < 2 ^ 31)
    (readable : ∀ block, msg = some block → len ≤ block.length)
    (written : state.sbufferLogLevel table attachment level timestamp pid origin msg len =
      .ok (bytes, next))
    (text : ¬TextOverflows msg len) :
    bytes = packObject (.array (state.members level timestamp pid origin msg len
      (attached table state attachment level msg))) := by
  have packed : packText msg len = packObject (.str (messageBytes msg len)) := by
    rcases packText_cases int readable with ⟨shown, packed, -, same⟩ | ⟨overflows, -⟩
    · rw [packed, same text, packObject]
    · exact absurd overflows text
  rw [sbufferLogLevel_bytes readable written, packed]
  simp only [packObject, members, packItems, List.length_cons, List.length_nil, List.append_nil]

theorem members_wellFormed (fits : Fits origin msg len (attached table state attachment level msg))
    (int : len < 2 ^ 31) :
    (Object.array (state.members level timestamp pid origin msg len
      (attached table state attachment level msg))).WellFormed := by
  have originFits : (originBytes origin).length < 2 ^ 32 := by
    cases origin with
    | none => simp [originBytes]
    | some block => exact fits.origin block rfl
  have messageFits : (messageBytes msg len).length < 2 ^ 32 := by
    cases msg with
    | none => simp [messageBytes]
    | some block =>
        rw [messageBytes]
        split
        · have short : ¬2 ^ 31 ≤ strlen block := fun long => fits.text ⟨block, rfl, ‹_›, long⟩
          rw [strlen] at short
          omega
        · rw [List.length_take]
          omega
  have pidFits : (if pid ≠ 0 then Object.positiveInteger pid.toUInt64 else .nil).WellFormed := by
    split <;> trivial
  exact ⟨(by decide : 8 < 2 ^ 32), trivial, trivial, trivial, pidFits, originFits, messageFits,
    fits.wellFormed, trivial, trivial⟩

/-- What is left to be read after the first five members. -/
theorem readMany_of_unpacked (readable : ∀ block, msg = some block → len ≤ block.length)
    (written : state.sbufferLogLevel table attachment level timestamp pid origin msg len =
      .ok (bytes, next))
    (originFits : (originBytes origin).length < 2 ^ 32)
    (read : readObject embedStackSize bytes = some (.array (state.members level timestamp pid origin
      msg len (attached table state attachment level msg)), rest)) :
    readMany (readObject 31) 3 (packText msg len ++
        (packObject (attached table state attachment level msg) ++
          packObject (.positiveInteger (state.serial + 1).toUInt64))) =
      some ([.str (messageBytes msg len), attached table state attachment level msg,
        .positiveInteger (state.serial + 1).toUInt64], rest) := by
  rw [sbufferLogLevel_bytes readable written] at read
  change readObject (31 + 1) _ = _ at read
  rw [readObject_of_array (readToken_packArray (by decide))] at read
  simp only [Option.map_eq_some_iff, Prod.exists, Prod.mk.injEq, Object.array.injEq] at read
  rcases read with ⟨others, last, contents, rfl, rfl⟩
  have simple : ∀ (object : Object) (tail : List UInt8), object.depth = 0 → object.WellFormed →
      object.ExtSizes (· < 2 ^ 32 - 1) →
        readObject 31 (packObject object ++ tail) = some (object, tail) :=
    fun object tail leaf wellFormed regular =>
      readObject_packObject wellFormed regular (leaf ▸ Nat.zero_le 31)
  have afterLevel :=
    (readMany_of_first (simple (.positiveInteger _) _ rfl trivial trivial) contents).2
  have afterIndent :=
    (readMany_of_first (simple (.positiveInteger _) _ rfl trivial trivial) afterLevel).2
  have afterTimestamp :=
    (readMany_of_first (simple (.float _) _ rfl trivial trivial) afterIndent).2
  have pidSimple : (if pid ≠ 0 then Object.positiveInteger pid.toUInt64 else .nil).depth = 0 ∧
      (if pid ≠ 0 then Object.positiveInteger pid.toUInt64 else .nil).WellFormed ∧
      (if pid ≠ 0 then Object.positiveInteger pid.toUInt64 else .nil).ExtSizes
        (· < 2 ^ 32 - 1) := by
    split <;> exact ⟨rfl, trivial, trivial⟩
  have afterPid := (readMany_of_first (simple _ _ pidSimple.1 pidSimple.2.1 pidSimple.2.2)
    afterTimestamp).2
  exact (readMany_of_first (simple (.str _) _ rfl originFits trivial) afterPid).2

/-- With its body in place, the text leaves the other members where they were packed. -/
theorem extSizes_of_unpacked {object : Object} {serial : UInt64} {message : Object}
    (wellFormed : object.WellFormed) {shown : List UInt8} (short : shown.length < 2 ^ 31)
    (read : readMany (readObject 31) 3 (packStr shown.length ++ shown ++
        (packObject object ++ packObject (.positiveInteger serial))) =
      some ([message, object, .positiveInteger serial], rest)) :
    message = .str shown ∧ object.ExtSizes (· < 2 ^ 32 - 1) := by
  have packed : packStr shown.length ++ shown = packObject (.str shown) := by rw [packObject]
  rw [packed] at read
  have textFits : (Object.str shown).WellFormed := Nat.lt_trans short (by decide)
  have textRead : readObject 31 (packObject (.str shown) ++
      (packObject object ++ packObject (.positiveInteger serial))) =
        some (.str shown, packObject object ++ packObject (.positiveInteger serial)) :=
    readObject_packObject textFits trivial (Nat.zero_le 31)
  rcases readMany_of_first textRead read with ⟨rfl, others⟩
  refine ⟨rfl, ?_⟩
  by_contra irregular
  rcases readMany_succ_eq_some.mp others with ⟨middle, objectRead, last⟩
  rcases readMany_succ_eq_some.mp last with ⟨afterSerial, serialRead, -⟩
  rcases (⟨2 ^ 32 - 1, by decide⟩ : ∃ count, count + 1 = 2 ^ 32) with ⟨count, largest⟩
  have stray := readObject_irregular wellFormed irregular largest objectRead
  rw [stray, ← List.append_nil (packObject (.positiveInteger serial))] at serialRead
  have impossible := (readObject_stray serialRead).1
  contradiction

/-- With its body missing, the text takes the bytes of the other members. -/
theorem not_unpacked_of_missing {object message : Object} {serial : UInt64} {size : ℕ}
    (regular : object.ExtSizes (· < 2 ^ 32 - 1)) (long : 2 ^ 31 ≤ size) (fits : size < 2 ^ 32) :
    readMany (readObject 31) 3 (0xdb :: bigEndian 4 size ++
        (packObject object ++ packObject (.positiveInteger serial))) ≠
      some ([message, object, .positiveInteger serial], rest) := by
  intro read
  rcases readMany_succ_eq_some.mp read with ⟨middle, textRead, others⟩
  rcases readMany_succ_eq_some.mp others with ⟨after, objectRead, last⟩
  rcases readMany_succ_eq_some.mp last with ⟨afterSerial, serialRead, -⟩
  have header : ∀ input, readToken (0xdb :: input) = readSized 4 .str input := fun _ => rfl
  rcases readObject_cases textRead with value | ⟨_, _, _, -, -, impossible, -⟩ |
    ⟨_, _, _, -, -, impossible, -⟩
  · rw [List.cons_append, header] at value
    rcases readSized_eq_some value with ⟨n, body, width, body_size, split, -⟩
    rcases List.append_inj split (by rw [length_bigEndian, width]) with ⟨rfl, shifted⟩
    rw [ofBigEndian_bigEndian_of_lt fits] at body_size
    have ahead : Ahead middle (packObject object ++ packObject (.positiveInteger serial)) := by
      refine ⟨⟨body, shifted.symm⟩, ?_⟩
      rw [shifted, List.length_append]
      omega
    have afterObject := ahead.readObject regular objectRead
    rw [← List.append_nil (packObject (.positiveInteger serial))] at afterObject
    have simple : (Object.positiveInteger serial).ExtSizes (· < 2 ^ 32 - 1) := trivial
    have afterAll := afterObject.readObject simple serialRead
    have distance := afterAll.2
    simp at distance
  · rw [List.cons_append, header] at impossible
    rcases readSized_eq_some impossible with ⟨n, body, -, -, -, token_eq⟩
    contradiction
  · rw [List.cons_append, header] at impossible
    rcases readSized_eq_some impossible with ⟨n, body, -, -, -, token_eq⟩
    contradiction

/--
The unpacked buffer is the array of the eight members when the sizes fit. Conversely
the sizes fit when it is, except that it is not known whether a missing message text
and an extension of the largest size can make up for each other.
-/
theorem unpacks_members_iff_fits (int : len < 2 ^ 31)
    (readable : ∀ block, msg = some block → len ≤ block.length)
    (written : state.sbufferLogLevel table attachment level timestamp pid origin msg len =
      .ok (bytes, next)) :
    (Fits origin msg len (attached table state attachment level msg) →
      logTextSbuffer bytes = some (.array (state.members level timestamp pid origin msg len
        (attached table state attachment level msg)))) ∧
    (logTextSbuffer bytes = some (.array (state.members level timestamp pid origin msg len
        (attached table state attachment level msg))) →
      Fits origin msg len (attached table state attachment level msg) ∨
        TextOverflows msg len ∧
          ¬(attached table state attachment level msg).ExtSizes (· < 2 ^ 32 - 1)) := by
  constructor
  · intro fits
    have pidLeaf : (if pid ≠ 0 then Object.positiveInteger pid.toUInt64 else .nil).depth = 0 ∧
        (if pid ≠ 0 then Object.positiveInteger pid.toUInt64 else .nil).ExtSizes
          (· < 2 ^ 32 - 1) := by
      split <;> exact ⟨rfl, trivial⟩
    have depth := fits.depth
    have regular : (Object.array (state.members level timestamp pid origin msg len
        (attached table state attachment level msg))).ExtSizes (· < 2 ^ 32 - 1) :=
      ⟨trivial, trivial, trivial, pidLeaf.2, trivial, trivial, fits.extSizes, trivial, trivial⟩
    have shallow : (Object.array (state.members level timestamp pid origin msg len
        (attached table state attachment level msg))).depth ≤ embedStackSize := by
      simp only [members, Object.depth, Object.itemsDepth, pidLeaf.1]
      omega
    rw [logTextSbuffer, packObject_members int readable written fits.text, msgpackUnpack_eq,
      ← List.append_nil (packObject _),
      readObject_packObject (members_wellFormed fits int) regular shallow]
    rfl
  · intro unpacked
    rw [logTextSbuffer, msgpackUnpack_eq] at unpacked
    simp only [Option.map_eq_some_iff, Prod.exists, exists_and_right, exists_eq_right] at unpacked
    rcases unpacked with ⟨rest, read⟩
    rcases readObject_bounded read with
      ⟨⟨-, -, -, -, -, originFits, messageFits, wellFormed, -, -⟩, deep⟩
    simp only [Object.depth, embedStackSize, Nat.reduceLeDiff,
      Object.itemsDepth_le_iff] at deep
    have depth := deep (attached table state attachment level msg) (by simp [members])
    have others := readMany_of_unpacked readable written originFits read
    have originShort : ∀ block, origin = some block → strlen block < 2 ^ 32 := by
      rintro block rfl
      exact originFits
    rcases packText_cases int readable with ⟨shown, packed, short, -⟩ |
      ⟨overflows, size, long, small, packed⟩
    · rw [packed] at others
      rcases extSizes_of_unpacked wellFormed short others with ⟨same, regular⟩
      left
      refine ⟨originShort, ?_, wellFormed, Nat.lt_succ_of_le depth, regular⟩
      rintro ⟨block, rfl, implicit, long⟩
      rw [Object.str.injEq, messageBytes, if_pos implicit] at same
      rw [← same] at short
      exact absurd short (Nat.not_lt.mpr long)
    · by_cases regular : (attached table state attachment level msg).ExtSizes (· < 2 ^ 32 - 1)
      · rw [packed] at others
        exact absurd others (not_unpacked_of_missing regular long small)
      · exact Or.inr ⟨overflows, regular⟩

/-- A text whose length is not given needs no block of any size. -/
theorem readable_of_implicit {msg : Option (List UInt8)} :
    ∀ block, msg = some block → (-1 : ℤ) ≤ block.length := by
  intro block _
  omega

/-- A message with a map inside an array as its attachment. -/
theorem unpacks_members_iff_fits_nested :
    let table : CheckpointTable Unit := ⟨fun _ _ => .ok (1, ()), fun _ => .ok ()⟩
    let attachment : Object :=
      .array [.nil, .map [(.str [107], .negativeInteger (-3)), (.boolean true, .ext 1 [7, 8])]]
    ∃ bytes next,
      (initial () .info).sbufferLogLevel table (some attachment) .error 0 42 (some [111])
        (some [104, 105]) (-1) = .ok (bytes, next) ∧
      logTextSbuffer bytes = some (.array [.positiveInteger 5, .positiveInteger 0, .float 0,
        .positiveInteger 42, .str [111], .str [104, 105], attachment, .positiveInteger 1]) := by
  intro table attachment
  have packed : ∃ bytes next, (initial () .info).sbufferLogLevel table (some attachment) .error 0
      42 (some [111]) (some [104, 105]) (-1) = .ok (bytes, next) :=
    ⟨_, _, sbufferLogLevel_eq readable_of_implicit (unwrapped_of_short (by simp))⟩
  rcases packed with ⟨bytes, next, written⟩
  refine ⟨bytes, next, written, ?_⟩
  apply (unpacks_members_iff_fits (by decide) readable_of_implicit written).1
  refine ⟨?_, ?_, ?_, ?_, ?_⟩
  · intro block block_eq
    rw [← Option.some.inj block_eq]
    decide
  · rintro ⟨block, block_eq, -, long⟩
    rw [← Option.some.inj block_eq] at long
    exact absurd long (by decide)
  · simp [attached, attachment, Object.WellFormed, Object.ItemsWellFormed, Object.PairsWellFormed]
  · decide
  · simp [attached, attachment, Object.ExtSizes, Object.ItemsExtSizes, Object.PairsExtSizes]

/-- Unpacking fails at an attachment of 32 nested arrays. -/
theorem not_unpacked_deep_attachment :
    let table : CheckpointTable Unit := ⟨fun _ _ => .ok (1, ()), fun _ => .ok ()⟩
    let attachment := (fun object => Object.array [object])^[32] .nil
    ∃ bytes next,
      (initial () .info).sbufferLogLevel table (some attachment) .error 0 42 none
        (some [104, 105]) (-1) = .ok (bytes, next) ∧
      logTextSbuffer bytes = none ∧
      logTextSbuffer bytes ≠ some (.array [.positiveInteger 5, .positiveInteger 0, .float 0,
        .positiveInteger 42, .str [], .str [104, 105], attachment, .positiveInteger 1]) := by
  have fails : (logTextSbuffer (packObject (.array [.positiveInteger 5, .positiveInteger 0,
      .float 0, .positiveInteger 42, .str [], .str [104, 105],
      (fun object => Object.array [object])^[32] .nil, .positiveInteger 1]))).isNone = true := by
    decide +kernel
  intro table attachment
  have packed : ∃ bytes next, (initial () .info).sbufferLogLevel table (some attachment) .error 0
      42 none (some [104, 105]) (-1) = .ok (bytes, next) :=
    ⟨_, _, sbufferLogLevel_eq readable_of_implicit (unwrapped_of_short (by simp))⟩
  rcases packed with ⟨bytes, next, written⟩
  have short : ¬TextOverflows (some [104, 105]) (-1) := by
    rintro ⟨block, block_eq, -, long⟩
    rw [← Option.some.inj block_eq] at long
    exact absurd long (by decide)
  refine ⟨bytes, next, written, ?_⟩
  rw [packObject_members (by decide) readable_of_implicit written short]
  have none_eq := Option.isNone_iff_eq_none.mp fails
  refine ⟨none_eq, ?_⟩
  intro unpacked
  have impossible := none_eq.symm.trans unpacked
  contradiction

end LogState

end Lucciefr.Log
