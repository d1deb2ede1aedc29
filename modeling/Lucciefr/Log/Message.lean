import Lucciefr.Log.Basic

/-!
# Log messages

The array of eight members which a log call writes, as a value: what
`sbuffer_log_level` packs is the packed form of one `LogMessage`, whose members
are determined by the arguments and the state before the call.
-/

namespace Lucciefr.Log

open Msgpack

/-- The members of a log message. -/
structure LogMessage where
  level : LogLevel
  indentLevel : UInt32
  timestamp : UInt64
  pid : UInt32
  origin : Option (List UInt8)
  /-- The message text, as it was packed. -/
  text : List UInt8
  attachment : Option Object
  serial : UInt32

/-- The packed array. -/
def LogMessage.pack (message : LogMessage) : List UInt8 :=
  packArray 8 ++ packInt (Int32.ofNat message.level.number) ++ packUint32 message.indentLevel ++
    packDouble message.timestamp ++ packPid message.pid ++ packString message.origin ++
    message.text ++ packAttachment message.attachment ++ packUint32 message.serial

theorem textLength_le {msg : Option (List UInt8)} {len : ℤ}
    (readable : ∀ block, msg = some block → len ≤ block.length) {block : List UInt8}
    (msg_eq : msg = some block) : textLength msg len ≤ block.length := by
  subst msg_eq
  unfold textLength
  split
  · have converted := toInt_le (strlen block)
    have bound := strlen_le block
    simp only
    omega
  · exact readable block rfl

/-- The length of a text of less than 2^31 bytes is not negative. -/
theorem unwrapped_of_short {origin msg : Option (List UInt8)} {len : ℤ}
    (short : ∀ block, msg = some block → block.length < 2 ^ 31) :
    textLength msg len < 0 → 31 + originLength origin + textLength msg len < 0 := by
  intro negative
  exfalso
  by_cases explicit : len < 0
  · cases msg with
    | none => simp [textLength, explicit] at negative
    | some block =>
        have shorter := strlen_le block
        have small := short block rfl
        rw [textLength, if_pos explicit, toInt_eq] at negative
        split at negative <;> omega
  · simp only [textLength, if_neg explicit] at negative
    exact explicit negative

/-- The packed text of a readable message. -/
def packText (msg : Option (List UInt8)) (len : ℤ) : List UInt8 :=
  match msg with
  | none => packStr 0
  | some block =>
      if textLength msg len < 0 then
        0xdb :: bigEndian 4 (textLength msg len % 2 ^ 32).toNat
      else
        packStr (textLength msg len).toNat ++ block.take (textLength msg len).toNat

theorem packLstring_eq {size : ℕ} {msg : Option (List UInt8)} {len : ℤ}
    (readable : ∀ block, msg = some block → len ≤ block.length)
    (unwrapped : textLength msg len < 0 → size + 5 + textLength msg len < 0) :
    packLstring size msg (textLength msg len) = .ok (packText msg len) := by
  cases msg with
  | none => rfl
  | some block =>
      have bound := textLength_le readable rfl
      simp only [packLstring, packText]
      split
      · rename_i negative
        have below := unwrapped negative
        rw [if_neg (by omega)]
      · rw [if_pos (by omega)]

theorem eq_packText_of_ok {size : ℕ} {msg : Option (List UInt8)} {len : ℤ} {text : List UInt8}
    (readable : ∀ block, msg = some block → len ≤ block.length)
    (packed : packLstring size msg (textLength msg len) = .ok text) : text = packText msg len := by
  by_cases unwrapped : textLength msg len < 0 → size + 5 + textLength msg len < 0
  · rw [packLstring_eq readable unwrapped, Except.ok.injEq] at packed
    exact packed.symm
  · rw [Classical.not_imp] at unwrapped
    cases msg with
    | none => exact (Except.ok.inj packed).symm
    | some block =>
        rw [packLstring, if_pos unwrapped.1, if_pos (by omega)] at packed
        cases packed

theorem length_packUint32_le (d : UInt32) : (packUint32 d).length ≤ 5 := by
  rw [packUint32]
  split <;> split <;> simp [length_bigEndian]

theorem length_packStr_le (l : ℕ) : (packStr l).length ≤ 5 := by
  rw [packStr]
  split
  · simp
  · split
    · simp
    · split <;> simp [length_bigEndian]

/-- The ID which a message counts a pass of. -/
def LogCall.checkpointId (call : LogCall) : Option (List UInt8) :=
  match call.level, call.msg with
  | .checkpoint, some block => some (cString block)
  | _, _ => none

/-- The members which come from the arguments of a log call. The check points attach their
pass count instead of the attachment. -/
structure LogMessage.Renders (message : LogMessage) (call : LogCall) : Prop where
  level : message.level = call.level
  timestamp : message.timestamp = call.timestamp
  origin : message.origin = call.origin
  text : message.text = packText call.msg call.len
  attachment : call.level ≠ .checkpoint → message.attachment = call.attachment

namespace LogState

variable {Table : Type} {table : CheckpointTable Table} {state : LogState Table}
  {attachment : Option Object} {level : LogLevel} {timestamp : UInt64} {pid : UInt32}
  {origin msg : Option (List UInt8)} {len : ℤ}

theorem chooseAttachment_eq {checkpoints : Table} {call : LogCall} :
    chooseAttachment table checkpoints call.attachment call.level call.msg =
      match call.checkpointId with
      | some id => table.passCount checkpoints id >>= fun (count, checkpoints) =>
          .ok (some (.positiveInteger count.toUInt64), checkpoints)
      | none => .ok (call.attachment, checkpoints) := by
  rcases call with ⟨attachment, level, origin, msg, len, timestamp, getpid, readable, unwrapped⟩
  cases level <;> cases msg <;> rfl

/-- The indentation which a message of this level carries. -/
def shownIndent (state : LogState Table) (level : LogLevel) : UInt32 :=
  if level = .leave ∧ state.indentLevel > 0 then state.indentLevel - 1 else state.indentLevel

/-- The indentation after a message of this level. -/
def nextIndent (state : LogState Table) (level : LogLevel) : UInt32 :=
  if level = .enter then state.shownIndent level + 1 else state.shownIndent level

theorem leaveScope_eq :
    state.leaveScope level = { state with indentLevel := state.shownIndent level } := by
  simp only [leaveScope, shownIndent]
  split <;> rfl

theorem enterScope_eq :
    { state with indentLevel := state.shownIndent level }.enterScope level =
      { state with indentLevel := state.nextIndent level } := by
  simp only [enterScope, nextIndent]
  split <;> rfl

/-- The message which a log call writes, with this attachment. -/
def messageOf (state : LogState Table) (level : LogLevel) (timestamp : UInt64) (pid : UInt32)
    (origin msg : Option (List UInt8)) (len : ℤ) (attachment : Option Object) : LogMessage where
  level := level
  indentLevel := state.shownIndent level
  timestamp := timestamp
  pid := pid
  origin := origin
  text := packText msg len
  attachment := attachment
  serial := state.serial + 1

/-- The bytes before the text. -/
def packHead (state : LogState Table) (level : LogLevel) (timestamp : UInt64) (pid : UInt32)
    (origin : Option (List UInt8)) : List UInt8 :=
  packArray 8 ++ packInt (Int32.ofNat level.number) ++ packUint32 (state.shownIndent level) ++
    packDouble timestamp ++ packPid pid ++ packString origin

theorem length_packHead_le (state : LogState Table) (level : LogLevel) (timestamp : UInt64)
    (pid : UInt32) (origin : Option (List UInt8)) :
    (state.packHead level timestamp pid origin).length ≤ 26 + originLength origin := by
  have number : (packInt (Int32.ofNat level.number)).length = 1 := by cases level <;> rfl
  have indent := length_packUint32_le (state.shownIndent level)
  have process : (packPid pid).length ≤ 5 := by
    rw [packPid]
    split
    · exact length_packUint32_le pid
    · decide
  have source : (packString origin).length ≤ 5 + originLength origin := by
    cases origin with
    | none => simp [packString, packStr, originLength]
    | some block =>
        have header := length_packStr_le (strlen block)
        simp only [packString, originLength, List.length_append]
        rw [strlen] at header ⊢
        omega
  have array : (packArray 8).length = 1 := rfl
  have double : (packDouble timestamp).length = 9 := by simp [packDouble, length_bigEndian]
  simp only [packHead, List.length_append]
  omega

/-- The text is packed behind the other members, and then the attachment is chosen. -/
theorem sbufferLogLevel_bind :
    state.sbufferLogLevel table attachment level timestamp pid origin msg len =
      (packLstring (state.packHead level timestamp pid origin).length msg (textLength msg len) >>=
        fun text => chooseAttachment table state.checkpoints attachment level msg >>=
          fun (chosen, checkpoints) =>
            .ok ({ state.messageOf level timestamp pid origin msg len chosen with
                text := text }.pack,
              { state with
                indentLevel := state.nextIndent level
                checkpoints := checkpoints
                serial := state.serial + 1 })) := by
  simp only [sbufferLogLevel, leaveScope_eq, enterScope_eq, packHead, LogMessage.pack, messageOf]

/-- What is packed, and which static variables change. -/
theorem sbufferLogLevel_eq (readable : ∀ block, msg = some block → len ≤ block.length)
    (unwrapped : textLength msg len < 0 → 31 + originLength origin + textLength msg len < 0) :
    state.sbufferLogLevel table attachment level timestamp pid origin msg len =
      (chooseAttachment table state.checkpoints attachment level msg >>=
        fun (chosen, checkpoints) =>
          .ok ((state.messageOf level timestamp pid origin msg len chosen).pack,
            { state with
              indentLevel := state.nextIndent level
              checkpoints := checkpoints
              serial := state.serial + 1 })) := by
  have head := length_packHead_le state level timestamp pid origin
  rw [sbufferLogLevel_bind, packLstring_eq readable (fun negative => by
    have below := unwrapped negative
    omega)]
  rfl

/-- The same if there is no fault. -/
theorem sbufferLogLevel_of_ok (readable : ∀ block, msg = some block → len ≤ block.length)
    {result : List UInt8 × LogState Table}
    (written : state.sbufferLogLevel table attachment level timestamp pid origin msg len =
      .ok result) :
    (chooseAttachment table state.checkpoints attachment level msg >>=
      fun (chosen, checkpoints) =>
        .ok ((state.messageOf level timestamp pid origin msg len chosen).pack,
          { state with
            indentLevel := state.nextIndent level
            checkpoints := checkpoints
            serial := state.serial + 1 })) = .ok result := by
  rw [sbufferLogLevel_bind] at written
  cases packed : packLstring (state.packHead level timestamp pid origin).length msg
      (textLength msg len) with
  | error fault =>
      rw [packed] at written
      cases written
  | ok text =>
      rw [packed, ok_bind, eq_packText_of_ok readable packed] at written
      exact written

end LogState

end Lucciefr.Log
