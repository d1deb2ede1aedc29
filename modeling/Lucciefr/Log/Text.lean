import Lucciefr.Log.RoundTrip
import Lucciefr.Msgpack.Unpacked

/-!
# Log messages in text form

The model of `core/logstdio.c`, from the buffer of a message to the output. An object
is a tagged union in C, and `log_text` reads the union members of the objects in a
message mostly without a look at their tags. In the model such a read is checked: the
output exists if and only if each member is read from an object with the matching tag.
-/

namespace Lucciefr.Log

open Msgpack

/-- A read from a `msgpack_object` which is not the object that the reader expects. -/
inductive UnionFault where
  /-- The tag of the object is that of another union member. -/
  | wrongTag
  /-- The array has no such element. -/
  | outOfBounds
  /-- The object was not set, as unpacking failed. -/
  | uninitialized
deriving DecidableEq, Repr

/-- A part of the output of `log_text`. -/
inductive Output where
  | literal (text : String)
  /-- Characters from a string object. -/
  | characters (bytes : List UInt8)
  /-- A number in the format `%X`. -/
  | hexadecimal (number : UInt32)
  /-- A time stamp, by its bit pattern, in the format `%H:%M:%S.qqq `. -/
  | time (timestamp : UInt64)
  /-- What `msgpack_object_print` shows of an object; it looks at every tag. -/
  | printed (object : Object)
deriving Repr

/-- `via.array` -/
def viaArray : Object → Except UnionFault (List Object)
  | .array items => .ok items
  | _ => .error .wrongTag

/-- `via.u64` -/
def viaU64 : Object → Except UnionFault UInt64
  | .positiveInteger u64 => .ok u64
  | _ => .error .wrongTag

/-- `via.f64`, as a bit pattern. -/
def viaF64 : Object → Except UnionFault UInt64
  | .float f64 => .ok f64
  | _ => .error .wrongTag

/-- `via.str` -/
def viaStr : Object → Except UnionFault (List UInt8)
  | .str bytes => .ok bytes
  | _ => .error .wrongTag

/-- `type != MSGPACK_OBJECT_NIL` -/
def isPresent : Object → Bool
  | .nil => false
  | _ => true

/-- `MEMBER(n)` -/
def member (msg : Object) (n : ℕ) : Except UnionFault Object := do
  let items ← viaArray msg
  match items[n]? with
  | some object => .ok object
  | none => .error .outOfBounds

/-- `log_level_string` -/
def logLevelString (level : UInt32) : String :=
  ["XBG", "DBG", "VER", "INF", "WRN", "ERR", "FTL", "IN ", "OUT", "PAU", "RES", "SEP", "CLR", "CHK",
    "PAD"].getD level.toNat "???"

/-- `timestamp > 0`, of a bit pattern: the positive numbers are those up to infinity. -/
def isPositive (f64 : UInt64) : Bool :=
  0 < f64 && f64 ≤ 0x7ff0000000000000

/-- `msgpack_object_str_fwrite` -/
def strFwrite (bytes : List UInt8) : List Output :=
  if bytes.length > 0 then [.characters bytes] else []

/-- The process ID. -/
def textPid (msg : Object) : Except UnionFault (List Output) := do
  if isPresent (← member msg 3) then
    let u64 ← viaU64 (← member msg 3)
    .ok [.literal "PID 0x", .hexadecimal u64.toUInt32, .literal " "]
  else
    .ok []

/-- The log level, converted to `LOG_LEVEL`. -/
def textLevel (msg : Object) : Except UnionFault UInt32 := do
  let u64 ← viaU64 (← member msg 0)
  .ok u64.toUInt32

/-- The time stamp. -/
def textTimestamp (msg : Object) : Except UnionFault (List Output) := do
  let timestamp ← viaF64 (← member msg 2)
  .ok (if isPositive timestamp then [.time timestamp] else [])

/-- The message origin. -/
def textOrigin (msg : Object) : Except UnionFault (List Output) := do
  let str ← viaStr (← member msg 4)
  .ok (strFwrite str ++ if str.length > 0 then [.literal ": "] else [])

/-- The string in a member. -/
def textStr (msg : Object) (n : ℕ) : Except UnionFault (List Output) := do
  let str ← viaStr (← member msg n)
  .ok (strFwrite str)

/-- `switch (level)` -/
def textBody (msg : Object) (level : UInt32) : Except UnionFault (List Output) :=
  if level.toNat = LogLevel.separator.number then
    .ok [.literal "----------------------------------------"]
  else if level.toNat = LogLevel.checkpoint.number then do
    let name ← textStr msg 5
    let count ← member msg 6
    .ok (.literal "Check point '" :: name ++ [.literal "' #", .printed count])
  else if level.toNat = LogLevel.scratchpad.number then do
    let key ← textStr msg 5
    let value ← textStr msg 6
    .ok (key ++ .literal " <- " :: value)
  else do
    let text ← textStr msg 5
    let attachment ← member msg 6
    .ok (text ++ if isPresent attachment then [.literal "\n\t", .printed attachment] else [])

/-- `log_text` -/
def logText (msg : Object) : Except UnionFault (List Output) := do
  let pid ← textPid msg
  let level ← textLevel msg
  let timestamp ← textTimestamp msg
  let origin ← textOrigin msg
  let body ← textBody msg level
  .ok (pid ++ [.literal "[", .literal (logLevelString level), .literal "] "] ++ timestamp ++
    origin ++ body ++ [.literal "\n"])

/-- `log_text_sbuffer`, with the output of `log_text`. -/
def logTextOutput (msg : List UInt8) : Except UnionFault (List Output) :=
  match logTextSbuffer msg with
  | some deserialized => logText deserialized
  | none => .error .uninitialized

/-- `msgpack_object_from_string`; the size of a string object is a `uint32_t`. -/
def objectFromString : Option (List UInt8) → Object
  | some block => .str ((cString block).take (strlen block % 2 ^ 32))
  | none => .nil

/-- The call of `attach_log_level` which `log_scratch` makes. -/
def logScratch (origin key value : Option (List UInt8)) (timestamp : UInt64) (getpid : UInt32)
    (unwrapped : textLength key (-1) < 0 → 31 + originLength origin + textLength key (-1) < 0) :
    LogCall where
  attachment := some (objectFromString value)
  level := .scratchpad
  origin := origin
  msg := key
  len := -1
  timestamp := timestamp
  getpid := getpid
  readable := fun block _ => by omega
  unwrapped := unwrapped

/-- Every union member is read from an object with the matching tag. -/
def MatchesTags (msg : List UInt8) : Prop :=
  ∃ output, logTextOutput msg = .ok output

/-- A string is read as the value of a scratchpad message. -/
def ValueIsString (level : LogLevel) (attachment : Object) : Prop :=
  level = .scratchpad → ∃ bytes, attachment = .str bytes

/-- The sizes with which the members can be told apart in the buffer. -/
structure Delimited (origin msg : Option (List UInt8)) (len : ℤ) (attached : Object) : Prop where
  origin : ∀ block, origin = some block → strlen block < 2 ^ 32
  text : 0 ≤ textLength msg len
  sizes : attached.unpacked.WellFormed
  extSizes : attached.ExtSizes (· < 2 ^ 32 - 1)

theorem bind_ok_iff {α β : Type} {read : Except UnionFault α} {shown : α → β} :
    (∃ output, (read >>= fun part => .ok (shown part)) = Except.ok output) ↔
      ∃ part, read = .ok part := by
  constructor
  · rintro ⟨output, succeeded⟩
    cases read with
    | error fault => simp at succeeded
    | ok part => exact ⟨part, rfl⟩
  · rintro ⟨part, rfl⟩
    exact ⟨_, rfl⟩

theorem member_of_getElem? {items : List Object} {n : ℕ} {object : Object}
    (at_n : items[n]? = some object) : member (.array items) n = .ok object := by
  simp only [member, viaArray, ok_bind, at_n]

theorem textStr_of_getElem? (items : List Object) (n : ℕ) {bytes : List UInt8}
    (at_n : items[n]? = some (.str bytes)) : textStr (.array items) n = .ok (strFwrite bytes) := by
  rw [textStr, member_of_getElem? at_n]
  rfl

theorem textStr_ok_iff (items : List Object) (n : ℕ) {object : Object}
    (at_n : items[n]? = some object) :
    (∃ output, textStr (.array items) n = .ok output) ↔ ∃ bytes, object = .str bytes := by
  constructor
  · rintro ⟨output, read⟩
    rw [textStr, member_of_getElem? at_n, ok_bind] at read
    cases object with
    | str bytes => exact ⟨bytes, rfl⟩
    | _ => simp [viaStr] at read
  · rintro ⟨bytes, rfl⟩
    exact ⟨_, textStr_of_getElem? items n at_n⟩

theorem unpacked_eq_str {object : Object} {bytes : List UInt8} :
    object.unpacked = .str bytes ↔ object = .str bytes := by
  cases object with
  | negativeInteger i64 =>
      rw [Object.unpacked]
      split <;> simp
  | _ => simp [Object.unpacked]

theorem valueIsString_unpacked {level : LogLevel} {object : Object} :
    ValueIsString level object.unpacked ↔ ValueIsString level object := by
  simp only [ValueIsString, unpacked_eq_str]

theorem packText_of_nonneg {msg : Option (List UInt8)} {len : ℤ} (int : len < 2 ^ 31)
    (readable : ∀ block, msg = some block → len ≤ block.length) (nonneg : 0 ≤ textLength msg len) :
    ∃ shown : List UInt8, shown.length < 2 ^ 31 ∧
      packText msg len = packStr shown.length ++ shown := by
  cases msg with
  | none => exact ⟨[], by simp, rfl⟩
  | some block =>
      have own := textLength_le readable rfl
      have small : textLength (some block) len < 2 ^ 31 := by
        rw [textLength]
        split
        · exact toInt_lt _
        · exact int
      have length_eq : (block.take (textLength (some block) len).toNat).length =
          (textLength (some block) len).toNat := List.length_take_of_le (by omega)
      refine ⟨block.take (textLength (some block) len).toNat, by omega, ?_⟩
      rw [packText, if_neg (by omega), length_eq]

namespace LogState

variable {Table : Type} {table : CheckpointTable Table} {state next : LogState Table}
  {attachment : Option Object} {level : LogLevel} {timestamp : UInt64} {pid : UInt32}
  {origin msg : Option (List UInt8)} {len : ℤ} {bytes : List UInt8} {object : Object}

theorem textPid_members :
    ∃ output, textPid (.array (state.members level timestamp pid origin msg len object)) =
      .ok output := by
  by_cases unused : pid = 0
  · refine ⟨[], ?_⟩
    have absent : (state.members level timestamp pid origin msg len object)[3]? = some .nil := by
      simp [members, unused]
    rw [textPid, member_of_getElem? absent]
    rfl
  · refine ⟨[.literal "PID 0x", .hexadecimal pid.toUInt64.toUInt32, .literal " "], ?_⟩
    have used : (state.members level timestamp pid origin msg len object)[3]? =
        some (.positiveInteger pid.toUInt64) := by simp [members, unused]
    rw [textPid, member_of_getElem? used]
    rfl

theorem textLevel_members :
    textLevel (.array (state.members level timestamp pid origin msg len object)) =
      .ok (UInt32.ofNat level.number) := by
  rw [textLevel, member_of_getElem? rfl]
  cases level <;> rfl

theorem textTimestamp_members :
    ∃ output, textTimestamp (.array (state.members level timestamp pid origin msg len object)) =
      .ok output := by
  rw [textTimestamp, member_of_getElem? rfl]
  exact ⟨_, rfl⟩

theorem textOrigin_members :
    ∃ output, textOrigin (.array (state.members level timestamp pid origin msg len object)) =
      .ok output := by
  rw [textOrigin, member_of_getElem? rfl]
  exact ⟨_, rfl⟩

/-- Only the value of a scratchpad message may have the wrong tag. -/
theorem textBody_members :
    (∃ output, textBody (.array (state.members level timestamp pid origin msg len object))
      (UInt32.ofNat level.number) = .ok output) ↔ ValueIsString level object := by
  have text := textStr_of_getElem? (state.members level timestamp pid origin msg len object) 5 rfl
  have value : member (.array (state.members level timestamp pid origin msg len object)) 6 =
      .ok object := member_of_getElem? rfl
  have valueRead := textStr_ok_iff (state.members level timestamp pid origin msg len object) 6 rfl
  have number : (UInt32.ofNat level.number).toNat = level.number := by cases level <;> rfl
  rw [textBody, number, text, value, ValueIsString]
  cases level with
  | scratchpad =>
      rw [if_neg (by decide), if_neg (by decide), if_pos rfl, ok_bind, bind_ok_iff, valueRead]
      exact ⟨fun isString _ => isString, fun isString => isString rfl⟩
  | _ => simp [LogLevel.number]

/-- A message of which the members arrived is shown, if a value is where one is read. -/
theorem logText_members :
    (∃ output, logText (.array (state.members level timestamp pid origin msg len object)) =
      .ok output) ↔ ValueIsString level object := by
  rcases textPid_members with ⟨pidText, pid_eq⟩
  rcases textTimestamp_members with
    ⟨timeText, time_eq⟩
  rcases textOrigin_members with
    ⟨originText, origin_eq⟩
  rw [← textBody_members, logText, pid_eq, textLevel_members, time_eq, origin_eq]
  simp only [ok_bind]
  exact bind_ok_iff

/-- The bytes of a message of which the members can be told apart. -/
theorem packObject_delimited (int : len < 2 ^ 31)
    (readable : ∀ block, msg = some block → len ≤ block.length)
    (written : state.sbufferLogLevel table attachment level timestamp pid origin msg len =
      .ok (bytes, next))
    (text : 0 ≤ textLength msg len) :
    ∃ shown : List UInt8, shown.length < 2 ^ 31 ∧
      bytes = packObject (.array (state.members level timestamp pid origin (some shown) shown.length
        (attached table state attachment level msg))) := by
  rcases packText_of_nonneg int readable text with ⟨shown, short, packed⟩
  refine ⟨shown, short, ?_⟩
  have whole : messageBytes (some shown) shown.length = shown := by simp [messageBytes]
  rw [sbufferLogLevel_bytes readable written, packed]
  simp only [packObject, members, packItems, List.length_cons, List.length_nil, List.append_nil,
    whole]

theorem logTextSbuffer_delimited (int : len < 2 ^ 31)
    (readable : ∀ block, msg = some block → len ≤ block.length)
    (written : state.sbufferLogLevel table attachment level timestamp pid origin msg len =
      .ok (bytes, next))
    (delimited : Delimited origin msg len (attached table state attachment level msg)) :
    ∃ shown : List UInt8, logTextSbuffer bytes =
      if (attached table state attachment level msg).depth < embedStackSize then
        some (.array (state.members level timestamp pid origin (some shown) shown.length
          (attached table state attachment level msg).unpacked))
      else
        none := by
  rcases packObject_delimited int readable written delimited.text with ⟨shown, short, packed⟩
  refine ⟨shown, ?_⟩
  have originFits : (originBytes origin).length < 2 ^ 32 := by
    cases origin with
    | none => simp [originBytes]
    | some block => exact delimited.origin block rfl
  have shownFits : (messageBytes (some shown) shown.length).length < 2 ^ 32 := by
    rw [messageBytes, if_neg (by omega), List.length_take]
    omega
  have pidLeaf : (if pid ≠ 0 then Object.positiveInteger pid.toUInt64 else .nil).unpacked =
        (if pid ≠ 0 then Object.positiveInteger pid.toUInt64 else .nil) ∧
      (if pid ≠ 0 then Object.positiveInteger pid.toUInt64 else .nil).depth = 0 ∧
      (if pid ≠ 0 then Object.positiveInteger pid.toUInt64 else .nil).WellFormed ∧
      (if pid ≠ 0 then Object.positiveInteger pid.toUInt64 else .nil).ExtSizes
        (· < 2 ^ 32 - 1) := by
    split <;> exact ⟨rfl, rfl, trivial, trivial⟩
  have unpacked_eq : (Object.array (state.members level timestamp pid origin (some shown)
      shown.length (attached table state attachment level msg))).unpacked =
        .array (state.members level timestamp pid origin (some shown) shown.length
          (attached table state attachment level msg).unpacked) := by
    simp only [members, Object.unpacked, Object.unpackedItems, pidLeaf.1]
  have depth_eq : (Object.array (state.members level timestamp pid origin (some shown)
      shown.length (attached table state attachment level msg))).depth =
        (attached table state attachment level msg).depth + 1 := by
    simp only [members, Object.depth, Object.itemsDepth, pidLeaf.2.1, Nat.max_zero, Nat.zero_max]
  have sizes : (Object.array (state.members level timestamp pid origin (some shown)
      shown.length (attached table state attachment level msg))).unpacked.WellFormed :=
    unpacked_eq ▸ ⟨(by decide : 8 < 2 ^ 32), trivial, trivial, trivial, pidLeaf.2.2.1, originFits,
      shownFits, delimited.sizes, trivial, trivial⟩
  have regular : (Object.array (state.members level timestamp pid origin (some shown)
      shown.length (attached table state attachment level msg))).ExtSizes (· < 2 ^ 32 - 1) :=
    ⟨trivial, trivial, trivial, pidLeaf.2.2.2, trivial, trivial, delimited.extSizes, trivial,
      trivial⟩
  rw [logTextSbuffer, packed, msgpackUnpack_eq, ← List.append_nil (packObject _),
    readObject_packed sizes regular, depth_eq, unpacked_eq]
  simp only [Nat.add_one_le_iff]
  split <;> rfl

/-- When the members can be told apart, what is left is the tag of a value and the nesting. -/
theorem matchesTags_iff (int : len < 2 ^ 31)
    (readable : ∀ block, msg = some block → len ≤ block.length)
    (written : state.sbufferLogLevel table attachment level timestamp pid origin msg len =
      .ok (bytes, next))
    (delimited : Delimited origin msg len (attached table state attachment level msg)) :
    MatchesTags bytes ↔ (attached table state attachment level msg).depth < embedStackSize ∧
      ValueIsString level (attached table state attachment level msg) := by
  rcases logTextSbuffer_delimited int readable written delimited with ⟨shown, passedOn⟩
  rw [MatchesTags, logTextOutput, passedOn]
  by_cases shallow : (attached table state attachment level msg).depth < embedStackSize
  · rw [if_pos shallow, ← valueIsString_unpacked, and_iff_right shallow]
    exact logText_members
  · rw [if_neg shallow]
    constructor
    · rintro ⟨output, impossible⟩
      contradiction
    · exact fun both => absurd both.1 shallow

/-- Of the messages which `log_scratch` emits, those without a value are misread. -/
theorem matchesTags_logScratch_iff {key value : Option (List UInt8)} {unwrapped}
    (written : state.sbufferLogLevel table
      (logScratch origin key value timestamp pid unwrapped).attachment
      (logScratch origin key value timestamp pid unwrapped).level timestamp pid origin key
      (logScratch origin key value timestamp pid unwrapped).len = .ok (bytes, next))
    (originFits : ∀ block, origin = some block → strlen block < 2 ^ 32)
    (keyFits : 0 ≤ textLength key (-1)) :
    MatchesTags bytes ↔ value ≠ none := by
  have readable : ∀ block, key = some block → (-1 : ℤ) ≤ block.length :=
    (logScratch origin key value timestamp pid unwrapped).readable
  change state.sbufferLogLevel table (some (objectFromString value)) .scratchpad timestamp pid
    origin key (-1) = .ok (bytes, next) at written
  have attached_eq : attached table state (some (objectFromString value)) .scratchpad key =
      objectFromString value := attached_of_plain (Or.inl (by decide))
  have delimited : Delimited origin key (-1)
      (attached table state (some (objectFromString value)) .scratchpad key) := by
    rw [attached_eq]
    cases value with
    | none => exact ⟨originFits, keyFits, trivial, trivial⟩
    | some block =>
        refine ⟨originFits, keyFits, ?_, trivial⟩
        change ((cString block).take (strlen block % 2 ^ 32)).length < 2 ^ 32
        rw [List.length_take]
        omega
  have iff := matchesTags_iff (by decide) readable written delimited
  rw [attached_eq] at iff
  rw [iff]
  cases value with
  | none => simp [ValueIsString, objectFromString]
  | some block => simp [ValueIsString, objectFromString, Object.depth, embedStackSize]

/--
Every union member is read by its tag if the value of a scratchpad message is a string
and the attachment is not nested too deep. Conversely one of these fails to hold when
it is not, as long as the members can be told apart in the buffer.
-/
theorem matchesTags_iff_value_isString (int : len < 2 ^ 31)
    (readable : ∀ block, msg = some block → len ≤ block.length)
    (written : state.sbufferLogLevel table attachment level timestamp pid origin msg len =
      .ok (bytes, next)) :
    (Delimited origin msg len (attached table state attachment level msg) ∧
        (attached table state attachment level msg).depth < embedStackSize ∧
        ValueIsString level (attached table state attachment level msg) → MatchesTags bytes) ∧
    (MatchesTags bytes →
      ¬Delimited origin msg len (attached table state attachment level msg) ∨
        (attached table state attachment level msg).depth < embedStackSize ∧
        ValueIsString level (attached table state attachment level msg)) := by
  constructor
  · rintro ⟨delimited, holds⟩
    exact (matchesTags_iff int readable written delimited).mpr holds
  · intro tagged
    by_cases delimited : Delimited origin msg len (attached table state attachment level msg)
    · exact Or.inr ((matchesTags_iff int readable written delimited).mp tagged)
    · exact Or.inl delimited

/-- A pass count, which a check point attaches. -/
theorem matchesTags_iff_value_isString_checkpoint :
    let table : CheckpointTable Unit := ⟨fun _ _ => .ok (1, ()), fun _ => .ok ()⟩
    ∃ bytes next,
      (initial () .info).sbufferLogLevel table none .checkpoint 0 42 (some [111])
        (some [104, 105]) (-1) = .ok (bytes, next) ∧ MatchesTags bytes := by
  intro table
  have readable : ∀ block : List UInt8, some [104, 105] = some block → -1 ≤ (block.length : ℤ) := by
    intro block _
    omega
  have packed : ∃ bytes next, (initial () .info).sbufferLogLevel table none .checkpoint 0 42
      (some [111]) (some [104, 105]) (-1) = .ok (bytes, next) :=
    ⟨_, _, sbufferLogLevel_eq readable (unwrapped_of_short (by simp))⟩
  rcases packed with ⟨bytes, next, written⟩
  refine ⟨bytes, next, written, ?_⟩
  apply (matchesTags_iff_value_isString (by decide) readable written).1
  refine ⟨⟨?_, by decide, trivial, trivial⟩, by decide, fun impossible => by contradiction⟩
  intro block block_eq
  rw [← Option.some.inj block_eq]
  decide

/-- A scratchpad message with `NULL` as its value. -/
theorem not_matchesTags_scratch_null :
    let table : CheckpointTable Unit := ⟨fun _ _ => .ok (1, ()), fun _ => .ok ()⟩
    let call := logScratch none (some [107]) none 0 42 (unwrapped_of_short (by simp))
    ∃ bytes next,
      (initial () .extradebug).sbufferLogLevel table call.attachment call.level call.timestamp
        call.getpid call.origin call.msg call.len = .ok (bytes, next) ∧ ¬MatchesTags bytes := by
  intro table call
  have packed : ∃ bytes next, (initial () .extradebug).sbufferLogLevel table call.attachment
      call.level call.timestamp call.getpid call.origin call.msg call.len = .ok (bytes, next) :=
    ⟨_, _, sbufferLogLevel_eq call.readable call.unwrapped⟩
  rcases packed with ⟨bytes, next, written⟩
  refine ⟨bytes, next, written, ?_⟩
  rw [matchesTags_logScratch_iff written (by simp) (by decide)]
  exact not_not_intro rfl

end LogState

end Lucciefr.Log
