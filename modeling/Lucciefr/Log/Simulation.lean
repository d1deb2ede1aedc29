import Lucciefr.Log.Message

/-!
# Exchanging the map of check points

The log system only reaches its map of check points through the two operations on it. So
it cannot tell apart two maps whose operations succeed and fail together, with the same
pass counts: every run over one of them is the run over the other one, up to the map. The
second one only has to admit the check points which are passed in the run.
-/

namespace Lucciefr.Log

open Msgpack

variable {Table Other : Type}

namespace LogState

/-- The state with another map of check points. -/
def withTable (state : LogState Table) (checkpoints : Other) : LogState Other where
  indentLevel := state.indentLevel
  checkpoints := checkpoints
  serial := state.serial
  globalThreshold := state.globalThreshold
  pid := state.pid
  entries := state.entries
  logBackends := state.logBackends
  events := state.events

/-- The state without the map of check points. -/
def withoutTable (state : LogState Table) : LogState Unit :=
  state.withTable ()

end LogState

/-- The operations on the first map do what the ones on the second map do, if it admits the
check point. -/
structure CheckpointTable.Simulates (table : CheckpointTable Table) (other : CheckpointTable Other)
    (related : Table → Other → Prop) (admits : Other → List UInt8 → Prop) : Prop where
  passCount : ∀ checkpoints otherCheckpoints checkpointId, related checkpoints otherCheckpoints →
    admits otherCheckpoints checkpointId →
      SameOutcome (fun first second => first.1 = second.1 ∧ related first.2 second.2)
        (table.passCount checkpoints checkpointId) (other.passCount otherCheckpoints checkpointId)
  clear : ∀ checkpoints otherCheckpoints, related checkpoints otherCheckpoints →
    SameOutcome related (table.clear checkpoints) (other.clear otherCheckpoints)

/-- The map admits the check point which an operation passes, if it passes one. -/
def LogState.Admits (admits : Other → List UInt8 → Prop) (state : LogState Other) : Op → Prop
  | .attach call => ∀ checkpointId, call.checkpointId = some checkpointId →
      admits state.checkpoints checkpointId
  | _ => True

instance (admits : Other → List UInt8 → Prop)
    [∀ checkpoints checkpointId, Decidable (admits checkpoints checkpointId)]
    (state : LogState Other) (op : LogState.Op) : Decidable (state.Admits admits op) :=
  match op with
  | .attach call => inferInstanceAs
      (Decidable (∀ checkpointId ∈ call.checkpointId, admits state.checkpoints checkpointId))
  | .registerBackend _ => isTrue trivial
  | .unregisterBackend _ _ => isTrue trivial
  | .setThreshold _ => isTrue trivial
  | .reset _ => isTrue trivial
  | .shutdown => isTrue trivial

/-- Two states which only differ in their maps, and these are related. -/
def LogState.Alike (related : Table → Other → Prop) (state : LogState Table)
    (other : LogState Other) : Prop :=
  ∃ checkpoints, other = state.withTable checkpoints ∧ related state.checkpoints checkpoints

namespace LogState

variable {table : CheckpointTable Table} {other : CheckpointTable Other}
  {related : Table → Other → Prop} {admits : Other → List UInt8 → Prop} {state : LogState Table}
  {checkpoints : Other}

theorem logBackendNotify_alike (same : related state.checkpoints checkpoints) (entry : Pointer)
    (reason : LogNotify) :
    SameOutcome (Alike related) (state.logBackendNotify entry reason)
      ((state.withTable checkpoints).logBackendNotify entry reason) := by
  cases entry with
  | none => rfl
  | some address =>
      apply (SameOutcome.of_eq (state.entries.load (some address))).bind
      rintro node _ rfl
      cases node.value.notify with
      | none => exact ⟨checkpoints, rfl, same⟩
      | some notify => exact ⟨checkpoints, rfl, same⟩

theorem logRegisterBackend_alike (same : related state.checkpoints checkpoints)
    (backend : Backend) :
    SameOutcome (Alike related) (state.logRegisterBackend backend)
      ((state.withTable checkpoints).logRegisterBackend backend) := by
  apply (SameOutcome.of_eq _).bind
  rintro appended _ rfl
  exact ⟨checkpoints, rfl, same⟩

theorem logUnregisterBackend_alike (same : related state.checkpoints checkpoints) (callback : ℕ)
    (userptr : Pointer) :
    SameOutcome (Alike related) (state.logUnregisterBackend callback userptr)
      ((state.withTable checkpoints).logUnregisterBackend callback userptr) := by
  apply (SameOutcome.of_eq (state.findBackend callback userptr)).bind
  rintro found _ rfl
  cases found with
  | none => exact ⟨checkpoints, rfl, same⟩
  | some entry =>
      apply (logBackendNotify_alike same (some entry) .shutdown).bind
      rintro notified _ ⟨checkpoints, rfl, same⟩
      apply (SameOutcome.of_eq _).bind
      rintro deleted _ rfl
      apply (SameOutcome.of_eq _).bind
      rintro released _ rfl
      exact ⟨checkpoints, rfl, same⟩

theorem logShutdownFrom_alike (same : related state.checkpoints checkpoints) (turns : ℕ)
    (entry : Pointer) :
    SameOutcome (Alike related) (logShutdownFrom turns entry state)
      (logShutdownFrom turns entry (state.withTable checkpoints)) := by
  induction turns generalizing entry state checkpoints with
  | zero =>
      cases entry with
      | none => exact ⟨checkpoints, rfl, same⟩
      | some address => rfl
  | succ turns ih =>
      cases entry with
      | none => exact ⟨checkpoints, rfl, same⟩
      | some address =>
          apply (SameOutcome.of_eq (state.entries.load (some address))).bind
          rintro node _ rfl
          apply (logUnregisterBackend_alike same node.value.callback node.value.userptr).bind
          rintro removed _ ⟨checkpoints, rfl, same⟩
          exact ih same node.next

theorem logShutdown_alike (simulates : table.Simulates other related admits)
    (same : related state.checkpoints checkpoints) :
    SameOutcome (Alike related) (state.logShutdown table)
      ((state.withTable checkpoints).logShutdown other) := by
  apply (simulates.clear _ _ same).bind
  intro cleared otherCleared sameCleared
  exact logShutdownFrom_alike sameCleared _ _

theorem logReset_alike (simulates : table.Simulates other related admits)
    (same : related state.checkpoints checkpoints) (withCheckpoints : Bool) :
    SameOutcome (Alike related) (state.logReset table withCheckpoints)
      ((state.withTable checkpoints).logReset other withCheckpoints) := by
  cases withCheckpoints with
  | false => exact ⟨checkpoints, rfl, same⟩
  | true =>
      apply (simulates.clear _ _ same).bind
      intro cleared otherCleared sameCleared
      exact ⟨otherCleared, rfl, sameCleared⟩

theorem chooseAttachment_alike {checkpoints : Table} {otherCheckpoints : Other}
    (simulates : table.Simulates other related admits) (same : related checkpoints otherCheckpoints)
    {call : LogCall} (admitted : ∀ checkpointId, call.checkpointId = some checkpointId →
      admits otherCheckpoints checkpointId) :
    SameOutcome (fun first second => first.1 = second.1 ∧ related first.2 second.2)
      (chooseAttachment table checkpoints call.attachment call.level call.msg)
      (chooseAttachment other otherCheckpoints call.attachment call.level call.msg) := by
  rw [chooseAttachment_eq, chooseAttachment_eq]
  cases id_eq : call.checkpointId with
  | none => exact ⟨rfl, same⟩
  | some checkpointId =>
      apply (simulates.passCount _ _ checkpointId same (admitted checkpointId id_eq)).bind
      rintro ⟨count, passed⟩ ⟨_, otherPassed⟩ ⟨rfl, samePassed⟩
      exact ⟨rfl, samePassed⟩

theorem leaveScope_withTable (level : LogLevel) :
    (state.withTable checkpoints).leaveScope level =
      (state.leaveScope level).withTable checkpoints := by
  by_cases leaves : level = .leave ∧ state.indentLevel > 0
  · rw [leaveScope, leaveScope, if_pos leaves, if_pos (by exact leaves)]
    rfl
  · rw [leaveScope, leaveScope, if_neg leaves, if_neg (by exact leaves)]

theorem enterScope_withTable (level : LogLevel) :
    (state.withTable checkpoints).enterScope level =
      (state.enterScope level).withTable checkpoints := by
  by_cases enters : level = .enter
  · rw [enterScope, enterScope, if_pos enters, if_pos enters]
    rfl
  · rw [enterScope, enterScope, if_neg enters, if_neg enters]

theorem checkpoints_scopes (state : LogState Table) (level : LogLevel) :
    ((state.leaveScope level).enterScope level).checkpoints = state.checkpoints := by
  rw [enterScope, leaveScope]
  split <;> split <;> rfl

theorem sbufferLogLevel_alike (simulates : table.Simulates other related admits)
    (same : related state.checkpoints checkpoints) {call : LogCall}
    (admitted : ∀ checkpointId, call.checkpointId = some checkpointId →
      admits checkpoints checkpointId) (pid : UInt32) :
    SameOutcome (fun first second => first.1 = second.1 ∧ Alike related first.2 second.2)
      (state.sbufferLogLevel table call.attachment call.level call.timestamp pid call.origin
        call.msg call.len)
      ((state.withTable checkpoints).sbufferLogLevel other call.attachment call.level
        call.timestamp pid call.origin call.msg call.len) := by
  simp only [sbufferLogLevel, leaveScope_withTable, enterScope_withTable]
  rw [← checkpoints_scopes state call.level] at same
  apply (SameOutcome.of_eq (packLstring _ call.msg (textLength call.msg call.len))).bind
  rintro text _ rfl
  apply (chooseAttachment_alike simulates same admitted).bind
  rintro ⟨chosen, passed⟩ ⟨_, otherPassed⟩ ⟨rfl, samePassed⟩
  exact ⟨rfl, otherPassed, rfl, samePassed⟩

/-- The callbacks do not call the log system. -/
theorem dispatch_alike (same : related state.checkpoints checkpoints) (logmsg : List UInt8)
    (level : LogLevel) (turns : ℕ) (entry : Pointer) :
    SameOutcome (fun first second => first.1 = second.1 ∧ Alike related first.2 second.2)
      (run (dispatchTurn logmsg level) (entry, state) (List.replicate turns []))
      (run (dispatchTurn logmsg level) (entry, state.withTable checkpoints)
        (List.replicate turns [])) := by
  induction turns generalizing entry state checkpoints with
  | zero => exact ⟨rfl, checkpoints, rfl, same⟩
  | succ turns ih =>
      rw [List.replicate_succ]
      cases entry with
      | none => exact ih same none
      | some address =>
          have turned : SameOutcome
              (fun first second : Pointer × LogState _ =>
                first.1 = second.1 ∧ Alike related first.2 second.2)
              (dispatchTurn logmsg level (some address, state) [])
              (dispatchTurn logmsg level (some address, state.withTable checkpoints) []) := by
            apply (SameOutcome.of_eq (state.entries.load (some address))).bind
            rintro node _ rfl
            apply (SameOutcome.of_eq (state.entries.load (some address))).bind
            rintro later _ rfl
            exact ⟨rfl, checkpoints, rfl, same⟩
          apply turned.bind
          rintro ⟨next, sent⟩ ⟨_, _⟩ ⟨rfl, checkpoints, rfl, same⟩
          exact ih same next

theorem attachLogLevel_alike (simulates : table.Simulates other related admits)
    (same : related state.checkpoints checkpoints) {call : LogCall}
    (admitted : ∀ checkpointId, call.checkpointId = some checkpointId →
      admits checkpoints checkpointId) :
    SameOutcome (Alike related) (state.attachLogLevel table call)
      ((state.withTable checkpoints).attachLogLevel other call) := by
  simp only [attachLogLevel]
  by_cases suppressed : call.level.number < state.globalThreshold.number
  · rw [if_pos suppressed,
      if_pos (show call.level.number < (state.withTable checkpoints).globalThreshold.number from
        suppressed)]
    exact ⟨checkpoints, rfl, same⟩
  · rw [if_neg suppressed,
      if_neg (show ¬call.level.number < (state.withTable checkpoints).globalThreshold.number from
        suppressed)]
    have knows : (if (state.withTable checkpoints).pid = 0
          then { state.withTable checkpoints with pid := call.getpid }
          else state.withTable checkpoints) =
        (if state.pid = 0 then { state with pid := call.getpid } else state).withTable
          checkpoints := by
      by_cases unknown : state.pid = 0
      · rw [if_pos unknown, if_pos (show (state.withTable checkpoints).pid = 0 from unknown)]
        rfl
      · rw [if_neg unknown, if_neg (show ¬(state.withTable checkpoints).pid = 0 from unknown)]
    have keeps : (if state.pid = 0 then { state with pid := call.getpid } else state).checkpoints =
        state.checkpoints := by
      split <;> rfl
    rw [knows]
    rw [← keeps] at same
    generalize (if state.pid = 0 then { state with pid := call.getpid } else state) = known
      at same ⊢
    apply (sbufferLogLevel_alike simulates same admitted known.pid).bind
    rintro ⟨sbuf, sent⟩ ⟨_, _⟩ ⟨rfl, checkpoints, rfl, same⟩
    apply (dispatch_alike same sbuf call.level sent.entries.bound sent.logBackends).bind
    rintro ⟨entry, delivered⟩ ⟨_, _⟩ ⟨rfl, checkpoints, rfl, same⟩
    cases entry with
    | none => exact ⟨checkpoints, rfl, same⟩
    | some address => rfl

theorem execute_alike (simulates : table.Simulates other related admits)
    (same : related state.checkpoints checkpoints) {op : Op}
    (admitted : (state.withTable checkpoints).Admits admits op) :
    SameOutcome (Alike related) (state.execute table op)
      ((state.withTable checkpoints).execute other op) := by
  cases op with
  | registerBackend backend => exact logRegisterBackend_alike same backend
  | unregisterBackend callback userptr => exact logUnregisterBackend_alike same callback userptr
  | setThreshold threshold => exact ⟨checkpoints, rfl, same⟩
  | reset withCheckpoints => exact logReset_alike simulates same withCheckpoints
  | attach call => exact attachLogLevel_alike simulates same admitted
  | shutdown => exact logShutdown_alike simulates same

/-- The two maps cannot be told apart by a run. -/
theorem run_alike (simulates : table.Simulates other related admits)
    (same : related state.checkpoints checkpoints) {ops : List Op}
    (admitted : RunMeets (execute other) (Admits admits) (state.withTable checkpoints) ops) :
    SameOutcome (Alike related) (run (execute table) state ops)
      (run (execute other) (state.withTable checkpoints) ops) := by
  refine run_same (Alike related) (Admits admits) ?_ ⟨checkpoints, rfl, same⟩ admitted
  rintro state _ op ⟨checkpoints, rfl, same⟩ allowed
  exact execute_alike simulates same allowed

/-- Outcomes which agree are the same up to the maps. -/
theorem map_withoutTable_eq {first : Except Fault (LogState Table)}
    {second : Except Fault (LogState Other)} (same : SameOutcome (Alike related) first second) :
    second.map withoutTable = first.map withoutTable := by
  cases first with
  | error fault =>
      cases second with
      | error other => rw [show fault = other from same]; rfl
      | ok state => cases same
  | ok state =>
      cases second with
      | error fault => cases same
      | ok other =>
          rcases same with ⟨checkpoints, rfl, -⟩
          rfl

end LogState

end Lucciefr.Log
