import Lucciefr.Log.Checkpoints
import Lucciefr.Log.Indentation

/-!
# Pass counts

What the counters of the check points are for: each message carries how often its
check point has been passed since the counters were cleared. The history of a run
says what was passed, from the operations alone. The log system follows it as long
as the map is not used any more after a clear which released an entry.
-/

namespace Lucciefr.Log

open LogState Checkpoints

/-- What matters about the operations which were executed. -/
structure History where
  threshold : LogLevel
  /-- The check points passed since the counters were cleared. -/
  passed : List (List UInt8)
  /-- The counters were cleared when a check point had been passed. -/
  released : Bool

namespace History

/-- The check point which a log call passes, unless its message is suppressed. -/
def passing (history : History) (call : LogCall) : Option (List UInt8) :=
  if call.level.number < history.threshold.number then none else call.checkpointId

/-- The counters are cleared. -/
def cleared (history : History) : History where
  threshold := history.threshold
  passed := []
  released := history.released || !history.passed.isEmpty

def step (history : History) : Op → History
  | .setThreshold threshold => { history with threshold := threshold }
  | .attach call =>
      match history.passing call with
      | some id => { history with passed := id :: history.passed }
      | none => history
  | .reset true => history.cleared
  | .shutdown => history.cleared
  | .reset false => history
  | .registerBackend _ => history
  | .unregisterBackend _ _ => history

/-- The history after some operations. -/
def after (threshold : LogLevel) (ops : List Op) : History :=
  ops.foldl step { threshold := threshold, passed := [], released := false }

/-- The operation uses the counters. -/
def Uses (history : History) : Op → Prop
  | .attach call => ∃ id, history.passing call = some id
  | .reset withCheckpoints => withCheckpoints = true
  | .shutdown => True
  | _ => False

end History

/-- No operation uses the counters after a clear which released an entry. -/
def NeverUsedAfterRelease (threshold : LogLevel) (ops : List Op) : Prop :=
  ∀ earlier op later, ops = earlier ++ op :: later →
    (History.after threshold earlier).released = true → ¬(History.after threshold earlier).Uses op

/--
The run is free of faults, and every message of a check point has how often the ID has
been passed as its attachment, this pass included.
-/
def CountsPasses (threshold : LogLevel) (ops : List Op) : Prop :=
  (∃ final, run (execute table) (initial Checkpoints.empty threshold) ops = .ok final) ∧
  ∀ earlier call later id before, ops = earlier ++ .attach call :: later →
    call.checkpointId = some id →
    run (execute table) (initial Checkpoints.empty threshold) earlier = .ok before →
    ¬call.level.number < before.globalThreshold.number →
    before.Emits table call (before.messageFor call (some (.positiveInteger (UInt32.ofNat
      ((History.after threshold earlier).passed.count id + 1)).toUInt64)))

namespace LogState

section AnyTable

variable {Table : Type} {table : CheckpointTable Table} {state : LogState Table}
  {registry : Registry} {call : LogCall} {checkpoints : Table} {fault : Fault}

/-- What an operation does to the map of check points. -/
def useTable (table : CheckpointTable Table) (state : LogState Table) : Op → Except Fault Table
  | .attach call =>
      if call.level.number < state.globalThreshold.number then
        .ok state.checkpoints
      else
        match call.checkpointId with
        | some id => (table.passCount state.checkpoints id).map Prod.snd
        | none => .ok state.checkpoints
  | .reset true => table.clear state.checkpoints
  | .shutdown => table.clear state.checkpoints
  | _ => .ok state.checkpoints

/-- The threshold which an operation sets. -/
def useThreshold (threshold : LogLevel) : Op → LogLevel
  | .setThreshold next => next
  | _ => threshold

theorem attachLogLevel_useTable (registered : state.Registered registry)
    (used : useTable table state (.attach call) = .ok checkpoints) :
    ∃ next, state.attachLogLevel table call = .ok next ∧ next.Registered registry ∧
      next.checkpoints = checkpoints ∧ next.globalThreshold = state.globalThreshold := by
  simp only [useTable] at used
  by_cases suppressed : call.level.number < state.globalThreshold.number
  · rw [if_pos suppressed, Except.ok.injEq] at used
    exact ⟨state, attachLogLevel_of_suppressed suppressed, registered, used, rfl⟩
  · rw [if_neg suppressed] at used
    rw [attachLogLevel_of_emitted registered suppressed, chooseAttachment_eq]
    cases id_eq : call.checkpointId with
    | none =>
        simp only [id_eq, Except.ok.injEq] at used
        exact ⟨_, rfl, registered.emitted call _ _, used, rfl⟩
    | some id =>
        simp only [id_eq] at used
        cases counted : table.passCount state.checkpoints id with
        | error fault =>
            rw [counted] at used
            contradiction
        | ok result =>
            rw [counted] at used
            simp only [Except.map, Except.ok.injEq] at used
            refine ⟨state.emitted registry call (some (.positiveInteger result.1.toUInt64))
              result.2,
              ?_, registered.emitted call _ _, used, rfl⟩
            simp only [counted, ok_bind]

theorem attachLogLevel_useTable_error (registered : state.Registered registry)
    (used : useTable table state (.attach call) = .error fault) :
    state.attachLogLevel table call = .error fault := by
  simp only [useTable] at used
  by_cases suppressed : call.level.number < state.globalThreshold.number
  · rw [if_pos suppressed] at used
    contradiction
  · rw [if_neg suppressed] at used
    rw [attachLogLevel_of_emitted registered suppressed, chooseAttachment_eq]
    cases id_eq : call.checkpointId with
    | none =>
        simp only [id_eq] at used
        contradiction
    | some id =>
        simp only [id_eq] at used
        cases counted : table.passCount state.checkpoints id with
        | error reason =>
            rw [counted] at used
            simp only [Except.map, Except.error.injEq] at used
            simp only [counted, used, error_bind]
        | ok result =>
            rw [counted] at used
            contradiction

theorem execute_useTable (registered : state.Registered registry) {op : Op}
    (used : useTable table state op = .ok checkpoints) :
    ∃ next, state.execute table op = .ok next ∧ next.Registered (registry.execute op) ∧
      next.checkpoints = checkpoints ∧
      next.globalThreshold = useThreshold state.globalThreshold op := by
  cases op with
  | registerBackend backend =>
      simp only [useTable, Except.ok.injEq] at used
      rcases logRegisterBackend_spec registered backend with
        ⟨entries, logBackends, succeeded, added⟩
      exact ⟨_, succeeded, added, used, rfl⟩
  | unregisterBackend callback userptr =>
      simp only [useTable, Except.ok.injEq] at used
      simp only [execute, Registry.execute, Registry.unregister]
      cases matched : registry.matching callback userptr with
      | none =>
          exact ⟨state, logUnregisterBackend_of_none registered matched, registered, used, rfl⟩
      | some entry =>
          rcases logUnregisterBackend_of_some registered matched with
            ⟨entries, logBackends, succeeded, removed⟩
          exact ⟨_, succeeded, removed, used, rfl⟩
  | setThreshold threshold =>
      simp only [useTable, Except.ok.injEq] at used
      exact ⟨_, rfl, ⟨registered.represents, registered.only, registered.bound_eq⟩, used, rfl⟩
  | reset withCheckpoints =>
      cases withCheckpoints with
      | false =>
          simp only [useTable, Except.ok.injEq] at used
          exact ⟨_, rfl, ⟨registered.represents, registered.only, registered.bound_eq⟩, used, rfl⟩
      | true =>
          simp only [useTable] at used
          refine ⟨{ state with indentLevel := 0, checkpoints := checkpoints }, ?_,
            ⟨registered.represents, registered.only, registered.bound_eq⟩, rfl, rfl⟩
          simp [execute, logReset, used]
  | attach call => exact attachLogLevel_useTable registered used
  | shutdown =>
      simp only [useTable] at used
      rcases logShutdown_spec registered used with ⟨entries, logBackends, succeeded, ended⟩
      exact ⟨_, succeeded, ended, rfl, rfl⟩

theorem execute_useTable_error (registered : state.Registered registry) {op : Op}
    (used : useTable table state op = .error fault) :
    state.execute table op = .error fault := by
  cases op with
  | registerBackend backend => contradiction
  | unregisterBackend callback userptr => contradiction
  | setThreshold threshold => contradiction
  | reset withCheckpoints =>
      cases withCheckpoints with
      | false => contradiction
      | true =>
          simp only [useTable] at used
          simp [execute, logReset, used]
  | attach call => exact attachLogLevel_useTable_error registered used
  | shutdown =>
      simp only [useTable] at used
      simp [execute, logShutdown, used]

end AnyTable

variable {state next : LogState Checkpoints} {registry : Registry} {history : History}
  {threshold : LogLevel} {ops : List Op} {op : Op}

/-- The state of the log system follows the history. -/
structure FollowsHistory (state : LogState Checkpoints) (history : History) : Prop where
  threshold_eq : state.globalThreshold = history.threshold
  counting : history.released = false → state.checkpoints.Counting history.passed
  dangling : history.released = true → state.checkpoints.Dangling

theorem FollowsHistory.initial (threshold : LogLevel) :
    (LogState.initial Checkpoints.empty threshold).FollowsHistory (History.after threshold []) where
  threshold_eq := rfl
  counting _ := counting_empty
  dangling := by
    intro impossible
    contradiction

theorem FollowsHistory.clear (follows : state.FollowsHistory history)
    (usable : history.released = false) :
    ∃ cleared, table.clear state.checkpoints = .ok cleared ∧
      (history.cleared.released = false → cleared.Counting history.cleared.passed) ∧
      (history.cleared.released = true → cleared.Dangling) := by
  rcases clearCheckpoints_spec (follows.counting usable) with
    ⟨cleared, succeeded, counting, dangling⟩
  refine ⟨cleared, succeeded, ?_, ?_⟩
  · intro still
    apply counting
    simpa [History.cleared, usable] using still
  · intro lost
    apply dangling
    simpa [History.cleared, usable] using lost

theorem FollowsHistory.useTable_ok (follows : state.FollowsHistory history)
    (allowed : history.released = true → ¬history.Uses op) :
    ∃ checkpoints, useTable table state op = .ok checkpoints ∧
      ((history.step op).released = false → checkpoints.Counting (history.step op).passed) ∧
      ((history.step op).released = true → checkpoints.Dangling) := by
  cases op with
  | registerBackend backend => exact ⟨_, rfl, follows.counting, follows.dangling⟩
  | unregisterBackend callback userptr => exact ⟨_, rfl, follows.counting, follows.dangling⟩
  | setThreshold threshold => exact ⟨_, rfl, follows.counting, follows.dangling⟩
  | reset withCheckpoints =>
      cases withCheckpoints with
      | false => exact ⟨_, rfl, follows.counting, follows.dangling⟩
      | true =>
          have usable : history.released = false :=
            Bool.eq_false_iff.mpr fun released => allowed released rfl
          exact follows.clear usable
  | shutdown =>
      have usable : history.released = false :=
        Bool.eq_false_iff.mpr fun released => allowed released trivial
      exact follows.clear usable
  | attach call =>
      cases passing_eq : history.passing call with
      | none =>
          refine ⟨state.checkpoints, ?_, ?_⟩
          · simp only [History.passing, ← follows.threshold_eq] at passing_eq
            simp only [LogState.useTable]
            split
            · rfl
            · rw [if_neg ‹_›] at passing_eq
              rw [passing_eq]
          · simp only [History.step, passing_eq]
            exact ⟨follows.counting, follows.dangling⟩
      | some id =>
          have usable : history.released = false :=
            Bool.eq_false_iff.mpr fun released => allowed released ⟨id, passing_eq⟩
          rcases checkpointPassCount_spec (follows.counting usable) id with
            ⟨next, counted, counting⟩
          refine ⟨next, ?_, ?_⟩
          · simp only [History.passing, ← follows.threshold_eq] at passing_eq
            simp only [LogState.useTable, table]
            split at passing_eq
            · contradiction
            · simp only [if_neg ‹_›, passing_eq, counted]
              rfl
          · simp only [History.step, passing_eq]
            refine ⟨fun _ => counting, ?_⟩
            intro released
            rw [usable] at released
            contradiction

theorem FollowsHistory.useTable_error (follows : state.FollowsHistory history)
    (released : history.released = true)
    (uses : history.Uses op) : ∃ fault, useTable table state op = .error fault := by
  have dangling := follows.dangling released
  cases op with
  | registerBackend backend => contradiction
  | unregisterBackend callback userptr => contradiction
  | setThreshold threshold => contradiction
  | reset withCheckpoints =>
      simp only [History.Uses] at uses
      subst uses
      exact clearCheckpoints_of_dangling dangling
  | shutdown => exact clearCheckpoints_of_dangling dangling
  | attach call =>
      rcases uses with ⟨id, passing_eq⟩
      rcases checkpointPassCount_of_dangling dangling id with ⟨fault, failed⟩
      refine ⟨fault, ?_⟩
      simp only [History.passing, ← follows.threshold_eq] at passing_eq
      simp only [LogState.useTable, table]
      split at passing_eq
      · contradiction
      · simp only [if_neg ‹_›, passing_eq, failed]
        rfl

theorem threshold_step (history : History) (op : Op) :
    (history.step op).threshold = useThreshold history.threshold op := by
  cases op with
  | attach call =>
      simp only [History.step]
      split <;> rfl
  | reset withCheckpoints => cases withCheckpoints <;> rfl
  | _ => rfl

theorem execute_follows (registered : state.Registered registry)
    (follows : state.FollowsHistory history)
    (allowed : history.released = true → ¬history.Uses op) :
    ∃ next, state.execute table op = .ok next ∧ next.Registered (registry.execute op) ∧
      next.FollowsHistory (history.step op) := by
  rcases follows.useTable_ok allowed with ⟨checkpoints, used, counting, dangling⟩
  rcases execute_useTable registered used with ⟨next, executed, still, same, threshold⟩
  subst same
  refine ⟨next, executed, still, ?_, counting, dangling⟩
  rw [threshold, threshold_step, follows.threshold_eq]

theorem allowed_of_execute (registered : state.Registered registry)
    (follows : state.FollowsHistory history)
    (executed : state.execute table op = .ok next) :
    history.released = true → ¬history.Uses op := by
  intro released uses
  rcases follows.useTable_error released uses with ⟨fault, used⟩
  rw [execute_useTable_error registered used] at executed
  contradiction

/-- A run in which no operation uses a released map succeeds. -/
theorem run_follows (registered : state.Registered registry)
    (follows : state.FollowsHistory history)
    (allowed : ∀ earlier op later, ops = earlier ++ op :: later →
      (earlier.foldl History.step history).released = true →
        ¬(earlier.foldl History.step history).Uses op) :
    ∃ final, run (execute table) state ops = .ok final := by
  induction ops generalizing state registry history with
  | nil => exact ⟨state, rfl⟩
  | cons op ops ih =>
      rcases execute_follows registered follows (allowed [] op ops rfl) with
        ⟨next, executed, still, followed⟩
      rcases ih still followed fun earlier other later split =>
        allowed (op :: earlier) other later (by rw [split]; rfl) with ⟨final, ran⟩
      exact ⟨final, by rw [run_cons_of_ok executed, ran]⟩

/-- A run which succeeded followed the history, and used no released map. -/
theorem follows_of_run (registered : state.Registered registry)
    (follows : state.FollowsHistory history)
    (ran : run (execute table) state ops = .ok next) :
    (∃ registry, next.Registered registry) ∧
      next.FollowsHistory (ops.foldl History.step history) := by
  induction ops generalizing state registry history with
  | nil =>
      simp only [run_nil, Except.ok.injEq] at ran
      subst ran
      exact ⟨⟨registry, registered⟩, follows⟩
  | cons op ops ih =>
      rcases run_cons_ok ran with ⟨middle, executed, rest⟩
      rcases execute_follows registered follows
        (allowed_of_execute registered follows executed) with ⟨same, again, still, followed⟩
      rw [executed, Except.ok.injEq] at again
      subst again
      exact ih still followed rest

/--
A run is free of faults, with the right pass count in every message of a check point,
if and only if no check point is passed and no counters are cleared after the counters
were cleared when a check point had been passed.
-/
theorem countsPasses_iff_neverUsedAfterRelease (threshold : LogLevel) (ops : List Op) :
    CountsPasses threshold ops ↔ NeverUsedAfterRelease threshold ops := by
  have registered := Registered.initial Checkpoints.empty threshold
  have follows := FollowsHistory.initial threshold
  constructor
  · rintro ⟨⟨final, ran⟩, -⟩ earlier op later rfl
    rcases run_append_ok ran with ⟨before, ranBefore, ranAfter⟩
    rcases run_cons_ok ranAfter with ⟨next, executed, -⟩
    rcases follows_of_run registered follows ranBefore with ⟨⟨registry, still⟩, followed⟩
    exact allowed_of_execute still followed executed
  · intro allowed
    refine ⟨run_follows registered follows allowed, ?_⟩
    rintro earlier call later id before rfl id_eq ranBefore reached
    rcases follows_of_run registered follows ranBefore with ⟨⟨registry, still⟩, followed⟩
    change before.FollowsHistory (History.after threshold earlier) at followed
    have passing_eq : (History.after threshold earlier).passing call = some id := by
      rw [History.passing, ← followed.threshold_eq, if_neg reached, id_eq]
    have usable : (History.after threshold earlier).released = false :=
      Bool.eq_false_iff.mpr fun released =>
        allowed earlier (.attach call) later rfl released ⟨id, passing_eq⟩
    rcases checkpointPassCount_spec (followed.counting usable) id with ⟨next, counted, -⟩
    refine ⟨reached, ?_⟩
    rw [sbufferLogLevel_eq call.readable call.unwrapped, chooseAttachment_eq, id_eq]
    simp only [table, counted, ok_bind]
    exact ⟨_, rfl⟩

/--
The check point "a", a reset of the counters, and the check point "a" again: the last
message looks the ID up through the released entry.
-/
theorem countsPasses_after_reset :
    let check : LogCall :=
      ⟨none, .checkpoint, none, some [97], -1, 0, 42, by simp, unwrapped_of_short (by simp)⟩
    run (execute table) (initial Checkpoints.empty .info)
        [.attach check, .reset true, .attach check] = .error .useAfterFree ∧
      ¬CountsPasses .info [.attach check, .reset true, .attach check] := by
  intro check
  have faults : run (execute table) (initial Checkpoints.empty .info)
      [.attach check, .reset true, .attach check] = .error .useAfterFree := rfl
  refine ⟨faults, ?_⟩
  rintro ⟨⟨final, ran⟩, -⟩
  rw [faults] at ran
  contradiction

/-- Two different check points, one of them twice, and a final clear. -/
example :
    let first : LogCall :=
      ⟨none, .checkpoint, none, some [97], -1, 0, 42, by simp, unwrapped_of_short (by simp)⟩
    let second : LogCall :=
      ⟨none, .checkpoint, none, some [98], -1, 0, 42, by simp, unwrapped_of_short (by simp)⟩
    (run (execute table) (initial Checkpoints.empty .info)
        [.attach first, .attach second, .attach first, .shutdown]).toOption.map
      (fun final => final.serial) = some 3 := by
  rfl

end LogState

end Lucciefr.Log
