import Lucciefr.Base.CString
import Lucciefr.Base.Run
import Lucciefr.LinkedList.Basic
import Lucciefr.Msgpack.Pack

/-!
# The log system

The model of `core/log.c`. The static variables of the C file are the fields of
`LogState`. Backends live in a heap, as nodes of the list `log_backends`; their
functions are only known by their addresses, and what the log system does to
them is recorded in order as events: the calls of their callback and notify
functions, and the release of an entry. The events are the only field without a
counterpart in C.

The hash map of checkpoints is a parameter here, a type with the two operations
which `log.c` performs on it. What the platform provides for a message (its
timestamp and the process ID) is part of the call. Allocations are assumed to
succeed.
-/

namespace Lucciefr.Log

open Msgpack

/-- `LOG_LEVEL` -/
inductive LogLevel where
  | extradebug
  | debug
  | verbose
  | info
  | warning
  | error
  | fatal
  | enter
  | leave
  | pause
  | resume
  | separator
  | clear
  | checkpoint
  | scratchpad
deriving DecidableEq, Repr

/-- The number of an enumerator of `LOG_LEVEL`. -/
def LogLevel.number : LogLevel → ℕ
  | extradebug => 0
  | debug => 1
  | verbose => 2
  | info => 3
  | warning => 4
  | error => 5
  | fatal => 6
  | enter => 7
  | leave => 8
  | pause => 9
  | resume => 10
  | separator => 11
  | clear => 12
  | checkpoint => 13
  | scratchpad => 14

/-- `LOG_NOTIFY` -/
inductive LogNotify where
  | setlevel
  | shutdown
deriving DecidableEq, Repr

/-- `backend_list_t`, without the list management. -/
structure Backend where
  callback : ℕ
  notify : Option ℕ
  userptr : Pointer
deriving DecidableEq, Repr

/-- What happens to the entry of a backend. -/
inductive Event where
  /-- The callback function of the entry is called. -/
  | message (entry : ℕ) (backend : Backend) (logmsg : List UInt8) (level : LogLevel)
  /-- The notify function of the entry is called. -/
  | notify (entry : ℕ) (backend : Backend) (reason : LogNotify)
  | freed (entry : ℕ)
deriving DecidableEq, Repr

/-- The operations on the hash map `checkpoints`. -/
structure CheckpointTable (Table : Type) where
  /-- `checkpoint_pass_count` -/
  passCount : Table → (checkpointId : List UInt8) → Except Fault (UInt32 × Table)
  /-- `clear_checkpoints` -/
  clear : Table → Except Fault Table

/-- The static variables of `log.c`. -/
structure LogState (Table : Type) where
  indentLevel : UInt32
  checkpoints : Table
  serial : UInt32
  globalThreshold : LogLevel
  /-- The cached process ID of `attach_log_level`. -/
  pid : UInt32
  entries : Heap (Node Backend)
  logBackends : Pointer
  events : List Event

namespace LogState

variable {Table : Type}

/-- `log_backend_notify` -/
def logBackendNotify (state : LogState Table) (entry : Pointer) (reason : LogNotify) :
    Except Fault (LogState Table) :=
  match entry with
  | none => .error .nullPointer
  | some address => do
      let node ← state.entries.load (some address)
      match node.value.notify with
      | none => .ok state
      | some _ =>
          .ok { state with events := state.events ++ [.notify address node.value reason] }

/-- `log_register_backend` -/
def logRegisterBackend (state : LogState Table) (backend : Backend) :
    Except Fault (LogState Table) := do
  let (entry, entries) := state.entries.alloc { prev := none, next := none, value := backend }
  let (entries, logBackends) ← listAppend entries state.logBackends (some entry)
  .ok { state with entries := entries, logBackends := logBackends }

/-- The two searches of `log_unregister_backend`. -/
def findBackend (state : LogState Table) (callback : ℕ) (userptr : Pointer) :
    Except Fault Pointer := do
  let entry ← listMatch state.entries state.logBackends fun backend =>
    backend.userptr = userptr && backend.callback = callback
  match entry with
  | some address => .ok (some address)
  | none =>
      listMatch state.entries state.logBackends fun backend => backend.callback = callback

/-- `log_unregister_backend` -/
def logUnregisterBackend (state : LogState Table) (callback : ℕ) (userptr : Pointer) :
    Except Fault (LogState Table) := do
  match ← state.findBackend callback userptr with
  | none => .ok state
  | some entry => do
      let state ← state.logBackendNotify (some entry) .shutdown
      let (entries, logBackends) ← listDelete state.entries state.logBackends (some entry)
      let entries ← entries.release (some entry)
      .ok { state with
        entries := entries
        logBackends := logBackends
        events := state.events ++ [.freed entry] }

/-- The loop of `log_shutdown`, from `entry` on. Each turn removes an entry, so
that the granted addresses bound the number of turns. -/
def logShutdownFrom : (turns : ℕ) → (entry : Pointer) → LogState Table →
    Except Fault (LogState Table)
  | _, none, state => .ok state
  | 0, some _, _ => .error .divergence
  | turns + 1, some address, state => do
      let node ← state.entries.load (some address)
      let state ← state.logUnregisterBackend node.value.callback node.value.userptr
      logShutdownFrom turns node.next state

/-- `log_shutdown` -/
def logShutdown (table : CheckpointTable Table) (state : LogState Table) :
    Except Fault (LogState Table) := do
  let checkpoints ← table.clear state.checkpoints
  let state := { state with checkpoints := checkpoints }
  logShutdownFrom state.entries.bound state.logBackends state

/-- `log_reset` -/
def logReset (table : CheckpointTable Table) (state : LogState Table) (withCheckpoints : Bool) :
    Except Fault (LogState Table) := do
  let state := { state with indentLevel := 0 }
  if withCheckpoints then
    let checkpoints ← table.clear state.checkpoints
    .ok { state with checkpoints := checkpoints }
  else
    .ok state

/-- `log_set_threshold` -/
def logSetThreshold (state : LogState Table) (threshold : LogLevel) : LogState Table :=
  { state with globalThreshold := threshold }

/-- A call of the log system from inside a backend callback. -/
inductive BackendCall where
  | register (backend : Backend)
  | unregister (callback : ℕ) (userptr : Pointer)

def executeCall (state : LogState Table) : BackendCall → Except Fault (LogState Table)
  | .register backend => state.logRegisterBackend backend
  | .unregister callback userptr => state.logUnregisterBackend callback userptr

/-- One turn of the loop of `sbuffer_log_send`, in which the callback of the
current entry makes the given calls. -/
def dispatchTurn (logmsg : List UInt8) (level : LogLevel) :
    Pointer × LogState Table → List BackendCall → Except Fault (Pointer × LogState Table)
  | (none, state), _ => .ok (none, state)
  | (some entry, state), calls => do
      let node ← state.entries.load (some entry)
      let state ← run executeCall
        { state with events := state.events ++ [.message entry node.value logmsg level] } calls
      let node ← state.entries.load (some entry)
      .ok (node.next, state)

/-- `sbuffer_log_send`; `turns` are the calls made by the callbacks, in the order
in which these are invoked. -/
def sbufferLogSend (logmsg : List UInt8) (level : LogLevel) (turns : List (List BackendCall))
    (state : LogState Table) : Except Fault (LogState Table) := do
  let (entry, state) ← run (dispatchTurn logmsg level) (state.logBackends, state) turns
  match entry with
  | none => .ok state
  | some _ => .error .divergence

end LogState

/--
`msgpack_pack_lstring` into a buffer which holds `size` bytes, with the length as the `int`
which the caller converts to `size_t`. A negative one becomes a size beyond `PTRDIFF_MAX`.
Its low 32 bits go into the header, and `msgpack_sbuffer_write` fails to grow the buffer for
the body. But if the sum of the sizes wraps, the buffer seems to be large enough, and all of
this is copied.
-/
def packLstring (size : ℕ) (str : Option (List UInt8)) (len : ℤ) : Except Fault (List UInt8) :=
  match str with
  | none => .ok (packStr 0)
  | some block =>
      if len < 0 then
        if 0 ≤ size + 5 + len then
          .error .outOfBounds
        else
          .ok (0xdb :: bigEndian 4 (len % 2 ^ 32).toNat)
      else if len.toNat ≤ block.length then
        .ok (packStr len.toNat ++ block.take len.toNat)
      else
        .error .outOfBounds

/-- `msgpack_pack_string` -/
def packString (str : Option (List UInt8)) : List UInt8 :=
  match str with
  | none => packStr 0
  | some block => packStr (strlen block) ++ cString block

/-- `if (pid) msgpack_pack_uint32(&pk, pid) else msgpack_pack_nil(&pk)` -/
def packPid (pid : UInt32) : List UInt8 :=
  if pid ≠ 0 then packUint32 pid else packNil

/-- `if (attachment) msgpack_pack_object(&pk, *attachment) else msgpack_pack_nil(&pk)` -/
def packAttachment : Option Object → List UInt8
  | some object => packObject object
  | none => packNil

/-- The length of a message text: `if (len < 0) len = msg ? strlen(msg) : 0`. -/
def textLength (msg : Option (List UInt8)) (len : ℤ) : ℤ :=
  if len < 0 then
    match msg with
    | some block => toInt (strlen block)
    | none => 0
  else
    len

/-- The length of an origin, which is omitted if it is `NULL`. -/
def originLength : Option (List UInt8) → ℕ
  | some block => strlen block
  | none => 0

/-- The arguments of a log call, and what the platform provides for it. -/
structure LogCall where
  attachment : Option Object
  level : LogLevel
  origin : Option (List UInt8)
  msg : Option (List UInt8)
  len : ℤ
  /-- The bit pattern of `get_timestamp()`. -/
  timestamp : UInt64
  /-- `getpid()` -/
  getpid : UInt32
  /-- An explicit length does not exceed the message. -/
  readable : ∀ block, msg = some block → len ≤ block.length
  /-- The size of the buffer does not wrap if the length of the text is negative. At most 31
  bytes are written before the text, and the origin. -/
  unwrapped : textLength msg len < 0 → 31 + originLength origin + textLength msg len < 0

namespace LogState

variable {Table : Type}

/-- Leaving a scope decreases the indentation level. -/
def leaveScope (state : LogState Table) (level : LogLevel) : LogState Table :=
  if level = .leave ∧ state.indentLevel > 0 then
    { state with indentLevel := state.indentLevel - 1 }
  else
    state

/-- Entering a scope increases the indentation level. -/
def enterScope (state : LogState Table) (level : LogLevel) : LogState Table :=
  if level = .enter then
    { state with indentLevel := state.indentLevel + 1 }
  else
    state

/-- The attachment of a message. Check points attach their pass count instead. -/
def chooseAttachment (table : CheckpointTable Table) (checkpoints : Table)
    (attachment : Option Object) (level : LogLevel) (msg : Option (List UInt8)) :
    Except Fault (Option Object × Table) :=
  match level, msg with
  | .checkpoint, some block => do
      let (count, checkpoints) ← table.passCount checkpoints (cString block)
      .ok (some (.positiveInteger count.toUInt64), checkpoints)
  | _, _ => .ok (attachment, checkpoints)

/-- `sbuffer_log_level`, returning the bytes written to the buffer. -/
def sbufferLogLevel (table : CheckpointTable Table) (state : LogState Table)
    (attachment : Option Object) (level : LogLevel) (timestamp : UInt64) (pid : UInt32)
    (origin msg : Option (List UInt8)) (len : ℤ) :
    Except Fault (List UInt8 × LogState Table) := do
  let pk := packArray 8 ++ packInt (Int32.ofNat level.number)
  let state := state.leaveScope level
  let pk := pk ++ packUint32 state.indentLevel
  let state := state.enterScope level
  let pk := pk ++ packDouble timestamp
  let pk := pk ++ packPid pid
  let pk := pk ++ packString origin
  let text ← packLstring pk.length msg (textLength msg len)
  let pk := pk ++ text
  let (attachment, checkpoints) ← chooseAttachment table state.checkpoints attachment level msg
  let state := { state with checkpoints := checkpoints }
  let pk := pk ++ packAttachment attachment
  let state := { state with serial := state.serial + 1 }
  .ok (pk ++ packUint32 state.serial, state)

/-- `attach_log_level`, with backends whose callbacks do not call the log system. -/
def attachLogLevel (table : CheckpointTable Table) (state : LogState Table) (call : LogCall) :
    Except Fault (LogState Table) :=
  if call.level.number < state.globalThreshold.number then
    .ok state
  else do
    let state := if state.pid = 0 then { state with pid := call.getpid } else state
    let (sbuf, state) ← state.sbufferLogLevel table call.attachment call.level call.timestamp
      state.pid call.origin call.msg call.len
    state.sbufferLogSend sbuf call.level (List.replicate state.entries.bound [])

/-- The operations which a run executes on the log system. -/
inductive Op where
  | registerBackend (backend : Backend)
  | unregisterBackend (callback : ℕ) (userptr : Pointer)
  | setThreshold (threshold : LogLevel)
  | reset (withCheckpoints : Bool)
  | attach (call : LogCall)
  | shutdown

/-- Execute one operation. -/
def execute (table : CheckpointTable Table) (state : LogState Table) : Op →
    Except Fault (LogState Table)
  | .registerBackend backend => state.logRegisterBackend backend
  | .unregisterBackend callback userptr => state.logUnregisterBackend callback userptr
  | .setThreshold threshold => .ok (state.logSetThreshold threshold)
  | .reset withCheckpoints => state.logReset table withCheckpoints
  | .attach call => state.attachLogLevel table call
  | .shutdown => state.logShutdown table

/-- The static variables before the first call. -/
def initial (table : Table) (threshold : LogLevel) : LogState Table where
  indentLevel := 0
  checkpoints := table
  serial := 0
  globalThreshold := threshold
  pid := 0
  entries := Heap.empty _
  logBackends := none
  events := []

end LogState

end Lucciefr.Log
