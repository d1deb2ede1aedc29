import Mathlib.Data.List.Chain
import Lucciefr.Log.Message
import Lucciefr.Log.Removal

/-!
# Delivering messages

A message at or above the threshold reaches every registered entry once, in the
order of registration, and is numbered; any other message changes nothing. Over
a run, the messages which one entry receives therefore carry consecutive serials,
whatever happens to the other entries and to the rest of the log system.
-/

namespace Lucciefr.Log

open Msgpack

/-- The operations on the checkpoints always succeed. -/
structure CheckpointTable.NeverFaults {Table : Type} (table : CheckpointTable Table) : Prop where
  passCount : ∀ checkpoints id, ∃ result, table.passCount checkpoints id = .ok result
  clear : ∀ checkpoints, ∃ cleared, table.clear checkpoints = .ok cleared

theorem chooseAttachment_ok {Table : Type} {table : CheckpointTable Table}
    (aside : table.NeverFaults) (checkpoints : Table) (call : LogCall) :
    ∃ chosen next, LogState.chooseAttachment table checkpoints call.attachment call.level call.msg =
      .ok (chosen, next) := by
  unfold LogState.chooseAttachment
  split
  · rcases aside.passCount checkpoints (cString _) with ⟨result, counted⟩
    rw [counted, ok_bind]
    exact ⟨_, _, rfl⟩
  · exact ⟨_, _, rfl⟩

/-- Only check points replace the attachment. -/
theorem eq_of_chooseAttachment {Table : Type} {table : CheckpointTable Table}
    {checkpoints next : Table} {attachment chosen : Option Object} {level : LogLevel}
    {msg : Option (List UInt8)} (plain : level ≠ .checkpoint)
    (chosen_eq : LogState.chooseAttachment table checkpoints attachment level msg =
      .ok (chosen, next)) : chosen = attachment := by
  cases level with
  | checkpoint => exact absurd rfl plain
  | _ =>
      cases msg <;> exact (congrArg Prod.fst (Except.ok.inj chosen_eq)).symm

/-- The events of one dispatch of a message. -/
def deliveries (registry : Registry) (logmsg : List UInt8) (level : LogLevel) : List Event :=
  registry.entries.map fun entry => .message entry.1 entry.2 logmsg level

namespace LogState

variable {Table : Type} {table : CheckpointTable Table} {state : LogState Table}
  {registry : Registry}

/-- From any entry on, a dispatch with callbacks which make no calls visits the rest of the list. -/
theorem run_dispatchTurn_silent (logmsg : List UInt8) (level : LogLevel) {turns : ℕ}
    {earlier later : List (ℕ × Backend)} (registered : state.Registered registry)
    (entries_eq : registry.entries = earlier ++ later) (enough : later.length ≤ turns) :
    run (dispatchTurn logmsg level) (firstPointer later none, state) (List.replicate turns []) =
      .ok (none, { state with
        events := state.events ++
          later.map fun entry => .message entry.1 entry.2 logmsg level }) := by
  induction turns generalizing state earlier later with
  | zero =>
      have empty : later = [] := List.length_eq_zero_iff.mp (Nat.le_zero.mp enough)
      simp [empty, firstPointer]
  | succ turns ih =>
      cases later with
      | nil =>
          have next := ih registered entries_eq (Nat.zero_le _)
          rw [List.replicate_succ]
          exact (run_cons_of_ok rfl).trans next
      | cons entry later =>
          have recorded := registered.record (.message entry.1 entry.2 logmsg level)
          have split : registry.entries = (earlier ++ [entry]) ++ later := by simp [entries_eq]
          have next := ih recorded split (Nat.le_of_succ_le_succ enough)
          have turned : dispatchTurn logmsg level (some entry.1, state) [] =
              .ok (firstPointer later none, { state with
                events := state.events ++ [.message entry.1 entry.2 logmsg level] }) := by
            simp only [dispatchTurn, registered.load entries_eq, ok_bind, run_nil]
          rw [List.replicate_succ, List.map_cons, firstPointer, run_cons_of_ok turned, next]
          simp

/-- Every registered entry gets the message, in order. -/
theorem sbufferLogSend_silent (registered : state.Registered registry) (logmsg : List UInt8)
    (level : LogLevel) :
    state.sbufferLogSend logmsg level (List.replicate state.entries.bound []) =
      .ok { state with events := state.events ++ deliveries registry logmsg level } := by
  have all : registry.entries = [] ++ registry.entries := rfl
  have ran := run_dispatchTurn_silent logmsg level registered all registered.represents.length_le
  rw [← registered.represents.head_eq] at ran
  rw [sbufferLogSend, ran, ok_bind]
  rfl

/-- The process ID which a log call uses. -/
def cachedPid (state : LogState Table) (call : LogCall) : UInt32 :=
  if state.pid = 0 then call.getpid else state.pid

/-- The message of a log call, with the attachment chosen for it. -/
def messageFor (state : LogState Table) (call : LogCall) (chosen : Option Object) : LogMessage :=
  state.messageOf call.level call.timestamp (state.cachedPid call) call.origin call.msg call.len
    chosen

theorem renders_messageFor {call : LogCall} {checkpoints next : Table} {chosen : Option Object}
    (chosen_eq : chooseAttachment table checkpoints call.attachment call.level call.msg =
      .ok (chosen, next)) : (state.messageFor call chosen).Renders call :=
  ⟨rfl, rfl, rfl, rfl, fun plain => eq_of_chooseAttachment plain chosen_eq⟩

/-- The state after a message was emitted. -/
def emitted (state : LogState Table) (registry : Registry) (call : LogCall)
    (chosen : Option Object) (checkpoints : Table) : LogState Table :=
  { state with
    indentLevel := state.nextIndent call.level
    checkpoints := checkpoints
    serial := state.serial + 1
    pid := state.cachedPid call
    events := state.events ++
      deliveries registry (state.messageFor call chosen).pack call.level }

theorem Registered.emitted (registered : state.Registered registry) (call : LogCall)
    (chosen : Option Object) (checkpoints : Table) :
    (state.emitted registry call chosen checkpoints).Registered registry :=
  ⟨registered.represents, registered.only, registered.bound_eq⟩

theorem attachLogLevel_of_suppressed {call : LogCall}
    (suppressed : call.level.number < state.globalThreshold.number) :
    state.attachLogLevel table call = .ok state := by
  simp [attachLogLevel, suppressed]

theorem attachLogLevel_of_emitted {call : LogCall} (registered : state.Registered registry)
    (reached : ¬call.level.number < state.globalThreshold.number) :
    state.attachLogLevel table call =
      (chooseAttachment table state.checkpoints call.attachment call.level call.msg >>=
        fun (chosen, checkpoints) =>
          .ok (state.emitted registry call chosen checkpoints)) := by
  have pid_eq : (if state.pid = 0 then { state with pid := call.getpid } else state) =
      { state with pid := state.cachedPid call } := by
    unfold cachedPid
    split <;> rfl
  simp only [attachLogLevel, if_neg reached, pid_eq,
    sbufferLogLevel_eq call.readable call.unwrapped]
  cases chooseAttachment table state.checkpoints call.attachment call.level call.msg with
  | error fault => rfl
  | ok result =>
      rcases result with ⟨chosen, checkpoints⟩
      have packed : { state with
          indentLevel := state.nextIndent call.level
          checkpoints := checkpoints
          serial := state.serial + 1
          pid := state.cachedPid call }.Registered registry :=
        ⟨registered.represents, registered.only, registered.bound_eq⟩
      exact sbufferLogSend_silent packed _ _

end LogState

/-- The effect of an operation on the registry. -/
def Registry.execute (registry : Registry) : LogState.Op → Registry
  | .registerBackend backend => registry.register backend
  | .unregisterBackend callback userptr => registry.unregister callback userptr
  | .shutdown => registry.cleared
  | .setThreshold _ => registry
  | .reset _ => registry
  | .attach _ => registry

/-- The message which an event delivers to an entry. -/
def Event.messageTo (address : ℕ) : Event → Option (List UInt8)
  | .message entry _ logmsg _ => if entry = address then some logmsg else none
  | _ => none

/-- The messages which an entry received, in order. -/
def messagesTo (address : ℕ) (events : List Event) : List (List UInt8) :=
  events.filterMap (Event.messageTo address)

theorem messagesTo_append (address : ℕ) (first second : List Event) :
    messagesTo address (first ++ second) = messagesTo address first ++ messagesTo address second :=
  List.filterMap_append

theorem messagesTo_removal (address : ℕ) (entry : ℕ × Backend) :
    messagesTo address (Registry.removal entry) = [] := by
  rcases entry with ⟨entry, ⟨callback, notify, userptr⟩⟩
  cases notify <;> rfl

theorem messagesTo_flatMap_removal (address : ℕ) (entries : List (ℕ × Backend)) :
    messagesTo address (entries.flatMap Registry.removal) = [] := by
  induction entries with
  | nil => rfl
  | cons entry entries ih =>
      rw [List.flatMap_cons, messagesTo_append, messagesTo_removal, ih]
      rfl

/-- A dispatch delivers a message to each registered entry once, and to nobody else. -/
theorem messagesTo_deliveries (address : ℕ) (registry : Registry) (logmsg : List UInt8)
    (level : LogLevel) :
    messagesTo address (deliveries registry logmsg level) =
      if address ∈ addresses registry.entries then [logmsg] else [] := by
  have distinct := registry.distinct
  rw [deliveries]
  generalize registry.entries = entries at distinct
  induction entries with
  | nil => rfl
  | cons entry entries ih =>
      rcases List.nodup_cons.mp distinct with ⟨notLater, laterDistinct⟩
      have rest := ih laterDistinct
      simp only [messagesTo, List.map_cons, List.filterMap_cons, Event.messageTo] at rest ⊢
      by_cases same : entry.1 = address
      · subst same
        rw [if_neg notLater] at rest
        simp [rest]
      · rw [if_neg same]
        simp only [rest, addresses, List.mem_cons, Ne.symm same, false_or]

/-- The serials count up by one. -/
def Consecutive (serials : List UInt32) : Prop :=
  serials.IsChain fun serial next => next = serial + 1

namespace LogState

variable {Table : Type} {table : CheckpointTable Table} {state next : LogState Table}
  {registry : Registry} {address : ℕ}

/-- What an entry has received so far: consecutive messages of the log calls of the run, up
to the current serial as long as it is registered, and nothing before it is registered. -/
structure Numbered (state : LogState Table) (registry : Registry) (executed : List Op)
    (address : ℕ) (messages : List LogMessage) : Prop where
  received : messagesTo address state.events = messages.map LogMessage.pack
  rendered : ∀ message ∈ messages, ∃ call, .attach call ∈ executed ∧ message.Renders call
  consecutive : Consecutive (messages.map LogMessage.serial)
  upToDate : address ∈ addresses registry.entries →
    ∀ last ∈ (messages.map LogMessage.serial).getLast?, last = state.serial
  unborn : registry.fresh ≤ address → messages = []

variable {executed : List Op} {messages : List LogMessage} {op : Op}

theorem Numbered.initial (table : Table) (threshold : LogLevel) (address : ℕ) :
    (LogState.initial table threshold).Numbered Registry.empty [] address [] where
  received := rfl
  rendered := by simp
  consecutive := List.isChain_nil
  upToDate := by simp
  unborn _ := rfl

theorem rendered_append (op : Op)
    (rendered : ∀ message ∈ messages, ∃ call, .attach call ∈ executed ∧ message.Renders call) :
    ∀ message ∈ messages, ∃ call, .attach call ∈ executed ++ [op] ∧ message.Renders call := by
  intro message messageMem
  rcases rendered message messageMem with ⟨call, callMem, renders⟩
  exact ⟨call, List.mem_append_left _ callMem, renders⟩

/-- Operations which deliver nothing and register nobody. -/
theorem Numbered.silent (numbered : state.Numbered registry executed address messages)
    {other : Registry}
    (unchanged : messagesTo address next.events = messagesTo address state.events)
    (serial_eq : next.serial = state.serial) (fresh_le : registry.fresh ≤ other.fresh)
    (fewer : addresses other.entries ⊆ addresses registry.entries) :
    next.Numbered other (executed ++ [op]) address messages where
  received := unchanged.trans numbered.received
  rendered := rendered_append op numbered.rendered
  consecutive := numbered.consecutive
  upToDate := by
    intro current
    rw [serial_eq]
    exact numbered.upToDate (fewer current)
  unborn later := numbered.unborn (Nat.le_trans fresh_le later)

theorem Numbered.register (numbered : state.Numbered registry executed address messages)
    (backend : Backend) (events_eq : next.events = state.events)
    (serial_eq : next.serial = state.serial) :
    next.Numbered (registry.register backend) (executed ++ [op]) address messages where
  received := by rw [events_eq, numbered.received]
  rendered := rendered_append op numbered.rendered
  consecutive := numbered.consecutive
  upToDate := by
    intro current
    rw [serial_eq]
    simp only [Registry.register, addresses, List.map_append, List.map_cons, List.map_nil,
      List.mem_append, List.mem_singleton] at current
    rcases current with old | rfl
    · exact numbered.upToDate old
    · simp [numbered.unborn (Nat.le_refl _)]
  unborn later := numbered.unborn (Nat.le_of_succ_le later)

theorem Numbered.emitted (numbered : state.Numbered registry executed address messages)
    {call : LogCall} {chosen : Option Object} {checkpoints : Table}
    (renders : (state.messageFor call chosen).Renders call) :
    ∃ messages, (state.emitted registry call chosen checkpoints).Numbered registry
      (executed ++ [.attach call]) address messages := by
  have delivered := messagesTo_deliveries address registry
    (state.messageFor call chosen).pack call.level
  by_cases current : address ∈ addresses registry.entries
  · refine ⟨messages ++ [state.messageFor call chosen], ?_, ?_, ?_, ?_, ?_⟩
    · rw [LogState.emitted, messagesTo_append, numbered.received, delivered, if_pos current]
      simp
    · intro message messageMem
      rcases List.mem_append.mp messageMem with earlier | latest
      · exact rendered_append _ numbered.rendered message earlier
      · rw [List.mem_singleton.mp latest]
        exact ⟨call, by simp, renders⟩
    · rw [List.map_append]
      apply List.isChain_append.mpr
      refine ⟨numbered.consecutive, List.isChain_singleton _, ?_⟩
      rintro last lastMem serial ⟨rfl⟩
      rw [numbered.upToDate current last lastMem]
      rfl
    · intro _ last lastMem
      simp only [List.map_append, List.map_cons, List.map_nil, List.getLast?_append,
        List.getLast?_singleton, Option.some_or, Option.mem_def, Option.some.injEq] at lastMem
      exact lastMem.symm
    · intro later
      have := registry.below address current
      omega
  · refine ⟨messages, ?_, rendered_append _ numbered.rendered, numbered.consecutive,
      fun impossible => absurd impossible current, numbered.unborn⟩
    rw [LogState.emitted, messagesTo_append, numbered.received, delivered, if_neg current]
    simp

/-- The registry lists the entries, and what each entry has received is numbered. -/
def Tracks (state : LogState Table) (recorded : Registry × List Op) : Prop :=
  state.Registered recorded.1 ∧
    ∀ address, ∃ messages, state.Numbered recorded.1 recorded.2 address messages

/-- The registry, and the operations which were executed. -/
def recordStep (recorded : Registry × List Op) (op : Op) : Registry × List Op :=
  (recorded.1.execute op, recorded.2 ++ [op])

theorem foldl_recordStep (registry : Registry) (executed ops : List Op) :
    ops.foldl recordStep (registry, executed) =
      (ops.foldl Registry.execute registry, executed ++ ops) := by
  induction ops generalizing registry executed with
  | nil => simp
  | cons op ops ih =>
      rw [List.foldl_cons, List.foldl_cons, recordStep, ih]
      simp

theorem Tracks.initial (checkpoints : Table) (threshold : LogLevel) :
    (LogState.initial checkpoints threshold).Tracks (Registry.empty, []) :=
  ⟨Registered.initial checkpoints threshold,
    fun address => ⟨[], Numbered.initial checkpoints threshold address⟩⟩

/-- One operation keeps the list, the numbering and the absence of faults. -/
theorem execute_spec (aside : table.NeverFaults) (tracks : state.Tracks (registry, executed))
    (op : Op) :
    ∃ next, state.execute table op = .ok next ∧
      next.Tracks (registry.execute op, executed ++ [op]) := by
  rcases tracks with ⟨registered, numbered⟩
  cases op with
  | registerBackend backend =>
      rcases logRegisterBackend_spec registered backend with
        ⟨entries, logBackends, succeeded, added⟩
      refine ⟨_, succeeded, added, ?_⟩
      intro address
      rcases numbered address with ⟨messages, known⟩
      exact ⟨messages, known.register backend rfl rfl⟩
  | unregisterBackend callback userptr =>
      simp only [execute, Registry.execute, Registry.unregister]
      cases matched : registry.matching callback userptr with
      | none =>
          refine ⟨state, logUnregisterBackend_of_none registered matched, registered, ?_⟩
          intro address
          rcases numbered address with ⟨messages, known⟩
          exact ⟨messages, known.silent rfl rfl (Nat.le_refl _) (List.Subset.refl _)⟩
      | some entry =>
          rcases logUnregisterBackend_of_some registered matched with
            ⟨entries, logBackends, succeeded, removed⟩
          refine ⟨_, succeeded, removed, ?_⟩
          intro address
          rcases numbered address with ⟨messages, known⟩
          refine ⟨messages, known.silent ?_ rfl (Nat.le_refl registry.fresh) ?_⟩
          · rw [messagesTo_append, messagesTo_removal, List.append_nil]
          · exact (List.filter_sublist.map _).subset
  | setThreshold threshold =>
      refine ⟨_, rfl, ⟨registered.represents, registered.only, registered.bound_eq⟩, ?_⟩
      intro address
      rcases numbered address with ⟨messages, known⟩
      exact ⟨messages, known.silent rfl rfl (Nat.le_refl _) (List.Subset.refl _)⟩
  | reset withCheckpoints =>
      rcases aside.clear state.checkpoints with ⟨cleared, clear⟩
      cases withCheckpoints with
      | false =>
          refine ⟨_, rfl, ⟨registered.represents, registered.only, registered.bound_eq⟩, ?_⟩
          intro address
          rcases numbered address with ⟨messages, known⟩
          exact ⟨messages, known.silent rfl rfl (Nat.le_refl _) (List.Subset.refl _)⟩
      | true =>
          refine ⟨{ state with indentLevel := 0, checkpoints := cleared }, ?_,
            ⟨registered.represents, registered.only, registered.bound_eq⟩, ?_⟩
          · simp [execute, logReset, clear]
          · intro address
            rcases numbered address with ⟨messages, known⟩
            exact ⟨messages, known.silent rfl rfl (Nat.le_refl _) (List.Subset.refl _)⟩
  | attach call =>
      by_cases suppressed : call.level.number < state.globalThreshold.number
      · refine ⟨state, attachLogLevel_of_suppressed suppressed, registered, ?_⟩
        intro address
        rcases numbered address with ⟨messages, known⟩
        exact ⟨messages, known.silent rfl rfl (Nat.le_refl _) (List.Subset.refl _)⟩
      · rcases chooseAttachment_ok aside state.checkpoints call with
          ⟨chosen, checkpoints, chosen_eq⟩
        refine ⟨state.emitted registry call chosen checkpoints, ?_, registered.emitted call _ _, ?_⟩
        · rw [execute, attachLogLevel_of_emitted registered suppressed, chosen_eq, ok_bind]
        · intro address
          rcases numbered address with ⟨messages, known⟩
          exact known.emitted (renders_messageFor chosen_eq)
  | shutdown =>
      rcases aside.clear state.checkpoints with ⟨cleared, clear⟩
      rcases logShutdown_spec registered clear with ⟨entries, logBackends, succeeded, ended⟩
      refine ⟨_, succeeded, ended, ?_⟩
      intro address
      rcases numbered address with ⟨messages, known⟩
      refine ⟨messages, known.silent ?_ rfl (Nat.le_refl registry.fresh) ?_⟩
      · rw [messagesTo_append, messagesTo_flatMap_removal, List.append_nil]
      · exact List.nil_subset _

/--
After any run, a message below the threshold changes nothing, any other message is
numbered and delivered to every registered entry once and in order, and what each
entry has received so far are messages of the log calls of the run, which carry
consecutive serials.
-/
theorem run_delivers_consecutively {Table : Type} (table : CheckpointTable Table)
    (aside : table.NeverFaults) (checkpoints : Table) (threshold : LogLevel) (ops : List Op) :
    ∃ state, run (execute table) (initial checkpoints threshold) ops = .ok state ∧
      state.Registered (ops.foldl Registry.execute Registry.empty) ∧
      (∀ call : LogCall, call.level.number < state.globalThreshold.number →
        state.attachLogLevel table call = .ok state) ∧
      (∀ call : LogCall, ¬call.level.number < state.globalThreshold.number →
        ∃ next chosen, state.attachLogLevel table call = .ok next ∧
          (state.messageFor call chosen).Renders call ∧
          (state.messageFor call chosen).serial = state.serial + 1 ∧
          next.serial = state.serial + 1 ∧
          next.events = state.events ++
            (ops.foldl Registry.execute Registry.empty).entries.map fun entry =>
              .message entry.1 entry.2 (state.messageFor call chosen).pack call.level) ∧
      ∀ address, ∃ messages : List LogMessage,
        messagesTo address state.events = messages.map LogMessage.pack ∧
        (∀ message ∈ messages, ∃ call, .attach call ∈ ops ∧ message.Renders call) ∧
        Consecutive (messages.map LogMessage.serial) := by
  have stepped : ∀ (state : LogState Table) (recorded : Registry × List Op) (op : Op),
      state.Tracks recorded → True →
      ∃ next, state.execute table op = .ok next ∧ next.Tracks (recordStep recorded op) :=
    fun state recorded op tracks _ => execute_spec aside tracks op
  rcases run_simulates recordStep Tracks (fun _ => True) stepped _
      (Tracks.initial checkpoints threshold) (fun op _ => trivial) with
    ⟨state, ran, related⟩
  rw [foldl_recordStep, List.nil_append] at related
  rcases related with ⟨registered, numbered⟩
  refine ⟨state, ran, registered, ?_, ?_, ?_⟩
  · intro call suppressed
    exact attachLogLevel_of_suppressed suppressed
  · intro call reached
    rcases chooseAttachment_ok aside state.checkpoints call with ⟨chosen, later, chosen_eq⟩
    refine ⟨state.emitted _ call chosen later, chosen, ?_, renders_messageFor chosen_eq, rfl, rfl,
      rfl⟩
    rw [attachLogLevel_of_emitted registered reached, chosen_eq]
    rfl
  · intro address
    rcases numbered address with ⟨messages, known⟩
    exact ⟨messages, known.received, known.rendered, known.consecutive⟩

/-- One backend registered twice, a suppressed message, a reset and a removal. -/
theorem run_delivers_consecutively_twice :
    let table : CheckpointTable Unit := ⟨fun _ _ => .ok (1, ()), fun _ => .ok ()⟩
    let call : LogLevel → LogCall := fun level =>
      ⟨none, level, none, some [104, 105], -1, 0, 42, by simp, unwrapped_of_short (by simp)⟩
    ∃ (state : LogState Unit) (messages : List LogMessage),
      run (execute table) (initial () .info)
        [.registerBackend ⟨1, none, none⟩, .attach (call .info), .registerBackend ⟨1, none, none⟩,
          .attach (call .debug), .reset true, .attach (call .error), .unregisterBackend 1 none,
          .attach (call .fatal)] = .ok state ∧
      messagesTo 1 state.events = messages.map LogMessage.pack ∧
      Consecutive (messages.map LogMessage.serial) ∧ messages.length = 2 := by
  intro table call
  rcases run_delivers_consecutively table
    ⟨fun _ _ => ⟨_, rfl⟩, fun _ => ⟨_, rfl⟩⟩ () .info
    [.registerBackend ⟨1, none, none⟩, .attach (call .info), .registerBackend ⟨1, none, none⟩,
      .attach (call .debug), .reset true, .attach (call .error), .unregisterBackend 1 none,
      .attach (call .fatal)] with ⟨state, ran, -, -, -, numbered⟩
  rcases numbered 1 with ⟨messages, messages_eq, -, consecutive⟩
  refine ⟨state, messages, ran, messages_eq, consecutive, ?_⟩
  have count : (run (execute table) (initial () .info)
      [.registerBackend ⟨1, none, none⟩, .attach (call .info), .registerBackend ⟨1, none, none⟩,
        .attach (call .debug), .reset true, .attach (call .error), .unregisterBackend 1 none,
        .attach (call .fatal)]).toOption.map (fun state => (messagesTo 1 state.events).length) =
        some 2 := by rfl
  rw [ran] at count
  simpa [messages_eq, Except.toOption] using count

end LogState

end Lucciefr.Log
