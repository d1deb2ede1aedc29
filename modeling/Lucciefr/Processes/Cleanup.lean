import Lucciefr.Processes.Monitor

/-!
# What an injection leaves behind

On every path of `inject_crt` the ledger is settled at the end: each handle was
closed once, the memory allocated in the target was passed to `VirtualFreeEx`
once, and the target was resumed if and only if it was suspended. The result is
taken from the exit code of the remote thread, which is also a success when the
thread ends after the timeout and still before its exit code is read.
-/

namespace Lucciefr.Processes

/-- A handle is closed while it is open. -/
def ClosesOpen (situation : Situation) : OsEvent → Prop
  | .call (.closeHandle handle) _ => handle ∈ situation.ledger.handles
  | _ => True

abbrev cleanups : Monitor Situation OsCall OsCall.Answer Background :=
  monitor (fun _ _ => True) ClosesOpen

/-- The ledger is known, and the world meets a condition. -/
def At (ledger : Ledger) (condition : World → Prop) (situation : Situation) : Prop :=
  situation.ledger = ledger ∧ condition situation.world

/-- Background events keep the condition. -/
def Calm (condition : World → Prop) : Prop :=
  ∀ world event, condition world → world.Allows (.background event) →
    condition (world.progressed event)

theorem stable_at {ledger : Ledger} {condition : World → Prop} (calm : Calm condition) :
    Stable cleanups (At ledger condition) := by
  rintro situation event ⟨ledger_eq, holds⟩ ⟨allowed, -⟩
  exact ⟨trivial, ledger_eq, calm situation.world event holds allowed⟩

variable {ledger : Ledger} {condition : World → Prop} {made : OsCall} {Result : Type}
  {rest : made.Answer → Injector Result} {post : Result → Situation → Prop}

theorem at_call {answered : made.Answer → World → Prop} (calm : Calm condition)
    (safe : ∀ handle, made = .closeHandle handle → handle ∈ ledger.handles)
    (next : ∀ answer world, condition world → world.Allows (.call made answer) →
      answered answer (world.answered made answer))
    (second : ∀ answer, Triple cleanups (At (ledger.answered made answer) (answered answer))
      (rest answer) post) :
    Triple cleanups (At ledger condition) (os made >>= rest) post := by
  refine Triple.bind (Triple.request (stable_at calm) ?_) second
  rintro ⟨current, world⟩ answer ⟨rfl, holds⟩ ⟨allowed, -⟩
  refine ⟨?_, rfl, next answer world holds allowed⟩
  cases made with
  | closeHandle handle => exact safe handle rfl
  | _ => trivial

/-- The calls which the world does not notice. -/
def KeepsWorld (made : OsCall) : Prop :=
  ∀ (world : World) (answer : made.Answer), world.answered made answer = world

/-- A call which is not about the remote thread, then the rest of the program. -/
theorem at_call_keeping (calm : Calm condition) (keeps : KeepsWorld made)
    (safe : ∀ handle, made = .closeHandle handle → handle ∈ ledger.handles)
    (second : ∀ answer, Triple cleanups (At (ledger.answered made answer) condition)
      (rest answer) post) :
    Triple cleanups (At ledger condition) (os made >>= rest) post := by
  refine at_call calm safe (fun answer world holds _ => ?_) second
  rw [keeps world answer]
  exact holds

theorem at_done {result : Result} (holds : ∀ world, condition world → post result ⟨ledger, world⟩) :
    Triple cleanups (At ledger condition) (pure result : Injector Result) post := by
  apply Triple.done
  rintro ⟨current, world⟩ ⟨rfl, conditionHolds⟩
  exact holds world conditionHolds

theorem at_pure {result : Result} : Triple cleanups (At ledger condition)
    (pure result : Injector Result) fun _ => At ledger condition :=
  Triple.done fun _ holds => holds

theorem at_part {Part : Type} {part : Injector Part} {following : Part → Injector Result}
    {pre : Situation → Prop} (middle : Part → Situation → Prop)
    (first : Triple cleanups pre part middle)
    (second : ∀ result, Triple cleanups (middle result) (following result) post) :
    Triple cleanups pre (part >>= following) post :=
  first.bind second

/-- The ledger after a call of `suspend_process`. -/
def Ledger.suspended (ledger : Ledger) (succeeded : Bool) : Ledger :=
  { ledger with suspends := ledger.suspends + if succeeded then 1 else 0 }

/-- The ledger after a call of `resume_process`. -/
def Ledger.resumed (ledger : Ledger) (pid : ℕ) : Ledger :=
  { ledger with resumes := ledger.resumes ++ [pid] }

/-- A function of `ntdll` is called with a handle which is closed afterwards. The
suspensions that it adds depend on its success. -/
theorem throughNtdll_at {name : String} {invoke : ℕ → Injector ℤ} (added : Bool → ℕ)
    (calm : Calm condition) (pid : ℕ) (none_added : added false = 0)
    (invoked : ∀ (ledger : Ledger) (proc : ℕ), Triple cleanups (At ledger condition) (invoke proc)
      fun status => At { ledger with
        suspends := ledger.suspends + added (decide (status = 0)) } condition) :
    Triple cleanups (At ledger condition) (throughNtdll name invoke pid) fun succeeded =>
      At { ledger with suspends := ledger.suspends + added succeeded } condition := by
  refine at_call_keeping calm (fun _ _ => rfl) nofun fun (proc : Option ℕ) => ?_
  rcases proc with _ | proc
  · apply at_done
    intro world holds
    rw [none_added]
    exact ⟨rfl, holds⟩
  · refine at_call_keeping calm (fun _ _ => rfl) nofun fun (found : Option ℕ) => ?_
    refine at_part (fun succeeded => At { ledger.opened (some proc) with
      suspends := ledger.suspends + added succeeded } condition) ?_ fun succeeded => ?_
    · rcases found with _ | found
      · apply at_done
        intro world holds
        rw [none_added]
        exact ⟨rfl, holds⟩
      · apply (invoked (ledger.opened (some proc)) proc).bind
        intro status
        apply at_done
        intro world holds
        exact ⟨rfl, holds⟩
    · apply at_call_keeping calm (fun _ _ => rfl)
      · rintro handle ⟨rfl⟩
        simp [Ledger.opened]
      · intro _
        apply at_done
        intro world holds
        refine ⟨?_, holds⟩
        simp [Ledger.answered, Ledger.opened]

theorem suspendProcess_at (calm : Calm condition) (pid : ℕ) :
    Triple cleanups (At ledger condition) (suspendProcess pid)
      fun succeeded => At (ledger.suspended succeeded) condition := by
  rw [suspendProcess_eq]
  apply throughNtdll_at _ calm pid rfl
  intro ledger proc
  refine at_call_keeping calm (fun _ _ => rfl) nofun fun (status : ℤ) => ?_
  apply at_done
  intro world holds
  refine ⟨?_, holds⟩
  simp [Ledger.answered]

theorem resumeProcess_at (calm : Calm condition) (pid : ℕ) :
    Triple cleanups (At ledger condition) (resumeProcess pid)
      fun _ => At (ledger.resumed pid) condition := by
  rw [resumeProcess_eq]
  refine at_call_keeping calm (fun _ _ => rfl) nofun fun _ => ?_
  apply throughNtdll_at (fun _ => 0) calm pid rfl
  intro ledger proc
  refine at_call_keeping calm (fun _ _ => rfl) nofun fun (status : ℤ) => ?_
  apply at_done
  intro world holds
  exact ⟨rfl, holds⟩

/-- The thread has ended, with the given exit code. -/
def World.EndedWith (world : World) (code : UInt32) : Prop :=
  ∃ thread endTime, world.thread = some thread ∧ thread.ended = some (code, endTime)

/-- What is known when `execute_remote_thread` has returned. -/
structure Executed (returned : Bool × UInt32) (world : World) : Prop where
  waited : returned.1 = true → world.waitBegan ≠ none
  ended : returned.1 = true → world.EndedWith returned.2
  read : returned.1 = true → world.exitCode = some returned.2 ∧ returned.2 ≠ stillActive
  unread : returned.1 = false → ∀ code, world.exitCode = some code → code = stillActive

/-- A background event leaves a thread which has ended, and what the injector did. -/
theorem progressed_eq {world : World} {event : Background} {code : UInt32}
    (ended : world.EndedWith code) (allowed : world.Allows (.background event)) :
    (world.progressed event).EndedWith code := by
  rcases ended with ⟨thread, endTime, live, ended_eq⟩
  cases event with
  | elapse milliseconds => exact ⟨thread, endTime, live, ended_eq⟩
  | threadEnds other =>
      refine absurd ?_ allowed
      intro some live'
      rw [live, Option.some.injEq] at live'
      simp [← live', ended_eq]

theorem waitBegan_progressed (world : World) (event : Background) :
    (world.progressed event).waitBegan = world.waitBegan := by
  cases event <;> rfl

theorem exitCode_progressed (world : World) (event : Background) :
    (world.progressed event).exitCode = world.exitCode := by
  cases event <;> rfl

/-- No exit code has been read yet. -/
def Unread (world : World) : Prop :=
  world.exitCode = none

/-- The creation of the remote thread returned a handle. -/
structure Created (handle : Option ℕ) (world : World) : Prop where
  unread : Unread world
  created : handle ≠ none → world.thread ≠ none

/-- The remote thread was created. -/
def Started (world : World) : Prop :=
  Unread world ∧ world.thread ≠ none

/-- The injector began to wait for the remote thread. -/
def Waited (world : World) : Prop :=
  Started world ∧ world.waitBegan ≠ none

/-- The query for the exit code was answered. -/
structure Queried (answer : Option UInt32) (world : World) : Prop where
  waited : world.waitBegan ≠ none
  read : world.exitCode = answer
  ended : ∀ code, answer = some code → code ≠ stillActive → world.EndedWith code

theorem calm_unread : Calm Unread := by
  intro world event unread _
  rwa [Unread, exitCode_progressed]

theorem calm_started : Calm Started := by
  rintro world event ⟨unread, created⟩ allowed
  refine ⟨calm_unread world event unread allowed, ?_⟩
  cases event with
  | elapse milliseconds => exact created
  | threadEnds code => simpa [World.progressed] using created

theorem calm_waited : Calm Waited := by
  rintro world event ⟨started, waited⟩ allowed
  refine ⟨calm_started world event started allowed, ?_⟩
  rwa [waitBegan_progressed]

theorem calm_queried (answer : Option UInt32) : Calm (Queried answer) := by
  rintro world event ⟨waited, read, ended⟩ allowed
  refine ⟨?_, ?_, fun code answered active => progressed_eq (ended code answered active) allowed⟩
  · rwa [waitBegan_progressed]
  · rwa [exitCode_progressed]

/-- An exit code other than `STILL_ACTIVE` is that of a thread which has ended. -/
theorem queried_of_answered {world : World} {thread : ℕ} {answer : Option UInt32}
    (waited : Waited world) (allowed : world.Allows (.call (.getExitCodeThread thread) answer)) :
    Queried answer (world.answered (.getExitCodeThread thread) answer) := by
  refine ⟨waited.2, rfl, ?_⟩
  rintro code rfl active
  rcases Option.ne_none_iff_exists'.mp waited.1.2 with ⟨remote, live⟩
  have code_eq := allowed remote live
  cases ended_eq : remote.ended with
  | none => exact absurd (by simpa [ended_eq] using code_eq) active
  | some ended =>
      rw [ended_eq] at code_eq
      exact ⟨remote, ended.2, live, by rw [ended_eq, code_eq]; rfl⟩

theorem executed_of_queried {world : World} {answer : Option UInt32} (exitCode : UInt32)
    (queried : Queried answer world) :
    Executed (match answer with
      | some code => (decide (code ≠ stillActive), code)
      | none => (false, exitCode)) world := by
  rcases queried with ⟨waited, read, ended⟩
  rcases answer with _ | code
  · refine ⟨by simp, by simp, by simp, fun _ code read' => ?_⟩
    rw [read] at read'
    contradiction
  · refine ⟨fun _ => waited, fun active => ?_, fun active => ?_, fun inactive other read' => ?_⟩
    · exact ended code rfl (of_decide_eq_true active)
    · exact ⟨read, of_decide_eq_true active⟩
    · rw [read, Option.some.injEq] at read'
      rw [← read']
      simpa using inactive

theorem executeRemoteThread_at (hProcess entryPoint param timeout : ℕ) (exitCode : UInt32) :
    Triple cleanups (At ledger Unread)
      (executeRemoteThread (some hProcess) entryPoint param timeout exitCode)
      fun returned => At ledger (Executed returned) := by
  have created : ∀ (handle : Option ℕ) (world : World), Unread world →
      world.Allows (.call (.createRemoteThread hProcess entryPoint param) handle) →
      Created handle (world.answered (.createRemoteThread hProcess entryPoint param) handle) := by
    rintro (_ | handle) world unread _
    · exact ⟨unread, by simp⟩
    · exact ⟨unread, by simp [World.answered]⟩
  refine at_call calm_unread nofun created fun (handle : Option ℕ) => ?_
  rcases handle with _ | handle
  · refine at_done fun world unread => ⟨rfl, by simp, by simp, by simp, fun _ code read => ?_⟩
    rw [unread.unread] at read
    contradiction
  · have started : ∀ situation, At (ledger.opened (some handle)) (Created (some handle)) situation →
        At (ledger.opened (some handle)) Started situation := fun situation holds =>
      ⟨holds.1, holds.2.unread, holds.2.created (by simp)⟩
    refine Triple.weaken ?_ started fun _ _ holds => holds
    refine at_call_keeping calm_started (fun _ _ => rfl) nofun fun _ => ?_
    have waited : ∀ (answer : Unit) (world : World), Started world →
        world.Allows (.call (.beginWait handle timeout) answer) →
        (fun _ => Waited) answer (world.answered (.beginWait handle timeout) answer) :=
      fun _ _ started _ => ⟨started, by simp [World.answered]⟩
    refine at_call calm_started nofun waited fun _ => ?_
    refine at_call_keeping calm_waited (fun _ _ => rfl) nofun fun _ => ?_
    have queried : ∀ (answer : Option UInt32) (world : World), Waited world →
        world.Allows (.call (.getExitCodeThread handle) answer) →
        Queried answer (world.answered (.getExitCodeThread handle) answer) :=
      fun _ _ waited allowed => queried_of_answered waited allowed
    refine at_call calm_waited nofun queried fun (answer : Option UInt32) => ?_
    refine at_call_keeping (calm_queried answer) (fun _ _ => rfl) ?_ fun _ => ?_
    · rintro closed ⟨rfl⟩
      simp [Ledger.opened, Ledger.answered]
    · have settled :
          ((ledger.opened (some handle)).answered (.closeHandle handle) ()) = ledger := by
        simp [Ledger.opened, Ledger.answered]
      cases answer with
      | none => exact at_done fun world queried => ⟨settled, executed_of_queried exitCode queried⟩
      | some code =>
          exact at_done fun world queried => ⟨settled, executed_of_queried exitCode queried⟩

/-- What the result says about the remote thread. -/
structure Outcome (result : ℕ) (world : World) : Prop where
  success : result ≠ 0 → world.waitBegan ≠ none ∧ ∃ code, world.EndedWith code ∧
    world.exitCode = some code ∧ code ≠ 0 ∧ code ≠ stillActive
  failure : result = 0 → ∀ code, world.exitCode = some code → code = 0 ∨ code = stillActive

theorem calm_outcome (result : ℕ) : Calm (Outcome result) := by
  rintro world event ⟨success, failure⟩ allowed
  refine ⟨fun loaded => ?_, ?_⟩
  · rcases success loaded with ⟨waited, code, ended, read⟩
    rw [waitBegan_progressed, exitCode_progressed]
    exact ⟨waited, code, progressed_eq ended allowed, read⟩
  · rwa [exitCode_progressed]

theorem outcome_of_unread {world : World} (unread : Unread world) : Outcome 0 world := by
  refine ⟨by simp, fun _ code read => ?_⟩
  rw [unread] at read
  contradiction

theorem outcome_of_executed {world : World} {returned : Bool × UInt32}
    (executed : Executed returned world) :
    Outcome (if returned.1 then returned.2.toNat else 0) world := by
  rcases returned with ⟨succeeded, code⟩
  cases succeeded with
  | false => exact ⟨by simp, fun _ other read => Or.inr (executed.unread rfl other read)⟩
  | true =>
      rcases executed.read rfl with ⟨read, inactive⟩
      have zero_iff : code.toNat = 0 ↔ code = 0 := by
        rw [← UInt32.toNat_inj]
        rfl
      refine ⟨fun loaded => ⟨executed.waited rfl, code, executed.ended rfl, read, ?_, inactive⟩,
        fun unloaded other read' => Or.inl ?_⟩
      · simpa [zero_iff] using loaded
      · rw [read, Option.some.injEq] at read'
        rw [← read']
        simpa [zero_iff] using unloaded

theorem at_failed : Triple cleanups (At ledger Unread) (pure 0 : Injector ℕ)
    fun result => At ledger (Outcome result) :=
  at_done fun _ unread => ⟨rfl, outcome_of_unread unread⟩

/-- The ledger after memory was passed to `VirtualFreeEx`. -/
def Ledger.freed (ledger : Ledger) (address size : ℕ) : Ledger :=
  { ledger with released := ledger.released ++ [(address, size)] }

theorem injectWithBuffer_at (proc remoteBuffer : ℕ) (dllPath : List UInt8) (pathLength : ℕ)
    (exitCode : UInt32) :
    Triple cleanups (At ledger Unread)
      (injectWithBuffer proc remoteBuffer dllPath pathLength exitCode)
      fun result => At (ledger.freed remoteBuffer pathLength) (Outcome result) := by
  refine at_call_keeping calm_unread (fun _ _ => rfl) nofun fun (bytesWritten : ℕ) => ?_
  refine at_part (fun result => At ledger (Outcome result)) ?_ fun result => ?_
  · by_cases written : bytesWritten = pathLength
    · rw [if_pos written]
      refine at_call_keeping calm_unread (fun _ _ => rfl) nofun fun (remoteLoad : Option ℕ) => ?_
      rcases remoteLoad with _ | remoteLoad
      · exact at_failed
      · refine Triple.bind
          (executeRemoteThread_at proc remoteLoad remoteBuffer 3000 exitCode) fun returned => ?_
        exact at_done fun world executed => ⟨rfl, outcome_of_executed executed⟩
    · rw [if_neg written]
      exact at_failed
  · refine at_call_keeping (calm_outcome result) (fun _ _ => rfl) nofun fun _ => ?_
    exact at_done fun world outcome => ⟨rfl, outcome⟩

/-- A ledger in which everything is settled. -/
structure Ledger.Settled (pid : ℕ) (ledger : Ledger) : Prop where
  nothingOpen : ledger.handles = []
  released : ledger.released = ledger.allocated
  allocatedOnce : ledger.allocated.length ≤ 1
  suspendedOnce : ledger.suspends ≤ 1
  resumed : ledger.resumes = List.replicate ledger.suspends pid

/-- The end of `inject_crt`, when everything but the process handle and the suspension is
settled. -/
theorem closing_at (pid proc result : ℕ) (suspended : Bool) (handles_eq : ledger.handles = [proc])
    (released : ledger.released = ledger.allocated) (allocatedOnce : ledger.allocated.length ≤ 1)
    (suspends_eq : ledger.suspends = if suspended then 1 else 0)
    (resumes_eq : ledger.resumes = []) :
    Triple cleanups (At ledger (Outcome result))
      (do
        os (.closeHandle proc)
        let _ ← (if suspended then resumeProcess pid else pure false)
        pure result)
      fun result situation =>
        situation.ledger.Settled pid ∧ Outcome result situation.world := by
  refine at_call_keeping (calm_outcome result) (fun _ _ => rfl) ?_ fun _ => ?_
  · rintro handle ⟨rfl⟩
    simp [handles_eq]
  · have closed : (ledger.answered (.closeHandle proc) ()).handles = [] := by
      simp [Ledger.answered, handles_eq]
    cases suspended with
    | false =>
        refine Triple.bind at_pure fun _ => ?_
        refine at_done fun world outcome => ⟨⟨closed, released, allocatedOnce, ?_, ?_⟩, outcome⟩
        · exact suspends_eq.trans_le (Nat.zero_le 1)
        · simp [Ledger.answered, resumes_eq, suspends_eq]
    | true =>
        refine Triple.bind (resumeProcess_at (calm_outcome result) pid) fun _ => ?_
        refine at_done fun world outcome => ⟨⟨closed, released, allocatedOnce, ?_, ?_⟩, outcome⟩
        · exact suspends_eq.le
        · simp [Ledger.resumed, Ledger.answered, resumes_eq, suspends_eq]

theorem injectCrt_at (pid : ℕ) (dllPath : List UInt8) (exitCode : UInt32) :
    Triple cleanups (At Ledger.empty Unread) (injectCrt pid dllPath exitCode)
      fun result situation => situation.ledger.Settled pid ∧ Outcome result situation.world := by
  refine at_call_keeping calm_unread (fun _ _ => rfl) nofun fun (proc : Option ℕ) => ?_
  rcases proc with _ | proc
  · refine at_done fun world unread => ⟨?_, outcome_of_unread unread⟩
    exact ⟨rfl, rfl, Nat.zero_le 1, Nat.zero_le 1, rfl⟩
  · refine Triple.bind (suspendProcess_at calm_unread pid) fun suspended => ?_
    have suspends_eq : ((Ledger.empty.opened (some proc)).suspended suspended).suspends =
        if suspended then 1 else 0 := Nat.zero_add _
    refine at_call_keeping calm_unread (fun _ _ => rfl) nofun fun (remoteBuffer : Option ℕ) => ?_
    rcases remoteBuffer with _ | remoteBuffer
    · refine Triple.bind at_failed fun result => ?_
      exact closing_at pid proc result suspended rfl rfl (Nat.zero_le 1) suspends_eq rfl
    · refine Triple.bind (injectWithBuffer_at proc remoteBuffer dllPath _ exitCode) fun result => ?_
      exact closing_at pid proc result suspended rfl rfl le_rfl suspends_eq rfl

/-- The remote thread ended within the timeout, with an exit code other than 0. -/
def World.LoadedInTime (world : World) (timeout : ℕ) : Prop :=
  ∃ thread code endTime began, world.thread = some thread ∧
    thread.ended = some (code, endTime) ∧ code ≠ 0 ∧ world.waitBegan = some began ∧
    endTime ≤ began + timeout

/-- The remote thread ended after the timeout, and its exit code was still read as that of
a library. -/
def World.LoadedLate (world : World) (timeout : ℕ) : Prop :=
  ∃ thread code endTime began, world.thread = some thread ∧
    thread.ended = some (code, endTime) ∧ world.waitBegan = some began ∧
    began + timeout < endTime ∧ world.exitCode = some code ∧ code ≠ 0 ∧ code ≠ stillActive

/-- An injection leaves no residue, and its result is that of a thread which ended in time. -/
structure LeavesNoResidue (pid : ℕ) (events : List OsEvent) (result : ℕ) : Prop where
  /-- Only open handles are closed. -/
  closesOpen : ∀ before handle later, events = before ++ .call (.closeHandle handle) () :: later →
    handle ∈ (situationAfter before).ledger.handles
  settled : (situationAfter events).ledger.Settled pid
  inTime : result ≠ 0 → (situationAfter events).world.LoadedInTime 3000

/--
A run leaves no residue unless the remote thread ends with an exit code other than 0
and `STILL_ACTIVE` after the timeout, and yet before this exit code is read.
-/
theorem leavesNoResidue_iff_not_loadedLate (pid : ℕ) (dllPath : List UInt8) (exitCode : UInt32)
    (events : List OsEvent) (result : ℕ)
    (runs : (injectCrt pid dllPath exitCode).Runs events result) (possible : Possible events) :
    LeavesNoResidue pid events result ↔ ¬(situationAfter events).world.LoadedLate 3000 := by
  have allowed : cleanups.Possible Situation.initial events :=
    (throughout_iff _ _ _).mpr fun before event later split =>
      ⟨possible before event later split, trivial⟩
  rcases injectCrt_at pid dllPath exitCode Situation.initial events result ⟨rfl, rfl⟩ runs
      allowed with
    ⟨safe, settled, outcome⟩
  constructor
  · rintro ⟨-, -, inTime⟩ ⟨thread, code, endTime, began, live, ended, waited, late, read, loaded⟩
    have loadedResult : result ≠ 0 := by
      intro failed
      rcases outcome.failure failed code read with zero | active
      · exact loaded.1 zero
      · exact loaded.2 active
    rcases inTime loadedResult with
      ⟨thread', code', endTime', began', live', ended', -, waited', early⟩
    rw [live, Option.some.injEq] at live'
    subst live'
    rw [ended, Option.some.injEq, Prod.mk.injEq] at ended'
    rw [waited, Option.some.injEq] at waited'
    omega
  · intro notLate
    refine ⟨fun before handle later split => (throughout_iff _ _ _).mp safe before _ later split,
      settled, fun loaded => ?_⟩
    rcases outcome.success loaded with
      ⟨waited, code, ⟨thread, endTime, live, ended⟩, read, loadedCode⟩
    rcases Option.ne_none_iff_exists'.mp waited with ⟨began, began_eq⟩
    refine ⟨thread, code, endTime, began, live, ended, loadedCode.1, began_eq, ?_⟩
    by_contra late
    exact notLate ⟨thread, code, endTime, began, live, ended, began_eq, by omega, read,
      loadedCode⟩

/-- The events of an injection into a suspended target, up to the wait. -/
def suspendedTarget : List OsEvent :=
  [.call (.openProcess .allAccess 7) (some 1), .call (.openProcess .suspendResume 7) (some 3),
    .call (.getProcAddress "ntdll" "NtSuspendProcess") (some 8),
    .call (.ntSuspendProcess 3) (0 : ℤ), .call (.closeHandle 3) (),
    .call (.virtualAllocEx 1 2) (some 4096), .call (.writeProcessMemory 1 4096 [65] 2) (2 : ℕ),
    .call (.getProcAddress "kernel32" "LoadLibraryA") (some 9),
    .call (.createRemoteThread 1 9 4096) (some 2), .call (.resumeThread 2) (),
    .call (.beginWait 2 3000) ()]

/-- The events after the remote thread has ended with an exit code of 65536. -/
def readExitCode : List OsEvent :=
  [.call (.getExitCodeThread 2) (some (65536 : UInt32)), .call (.closeHandle 2) (),
    .call (.virtualFreeEx 1 4096 2) (), .call (.closeHandle 1) (), .call (.resumeProcess 7) (),
    .call (.openProcess .suspendResume 7) none]

/-- The thread ends within the timeout, and the target cannot be opened to resume it. -/
theorem leavesNoResidue_iff_not_loadedLate_prompt :
    LeavesNoResidue 7 (suspendedTarget ++ [.background (.elapse 10),
      .background (.threadEnds 65536), .call (.endWait 2) ()] ++ readExitCode) 65536 := by
  apply (leavesNoResidue_iff_not_loadedLate 7 [65] 0 _ 65536 _ _).mpr
  · rintro ⟨thread, code, endTime, began, live, ended, waited, late, -⟩
    have live_eq : (⟨4096, some (65536, 10)⟩ : RemoteThread) = thread := Option.some.inj live
    subst live_eq
    have began_eq : 0 = began := Option.some.inj waited
    have end_eq : ((65536 : UInt32), 10) = (code, endTime) := Option.some.inj ended
    rw [Prod.mk.injEq] at end_eq
    omega
  · repeat first | exact .done _ | apply Program.Runs.call | apply Program.Runs.background
  · apply (throughout_iff (fun _ _ => True) ClosesOpen fun situation event =>
      situation.world.Allows event).mp
    simp [suspendedTarget, readExitCode, Monitor.Throughout, monitor, Situation.next,
      Situation.initial, World.Allows, World.answered, World.progressed, World.NoThreadRuns]

/-- The thread ends when the wait has timed out, before its exit code is read. -/
theorem not_leavesNoResidue_late :
    ∃ events, (injectCrt 7 [65] 0).Runs events 65536 ∧ Possible events ∧
      ¬LeavesNoResidue 7 events 65536 := by
  refine ⟨suspendedTarget ++ [.background (.elapse 3001), .call (.endWait 2) (),
    .background (.threadEnds 65536)] ++ readExitCode, ?_, ?_, ?_⟩
  · repeat first | exact .done _ | apply Program.Runs.call | apply Program.Runs.background
  · apply (throughout_iff (fun _ _ => True) ClosesOpen fun situation event =>
      situation.world.Allows event).mp
    simp [suspendedTarget, readExitCode, Monitor.Throughout, monitor, Situation.next,
      Situation.initial, World.Allows, World.answered, World.progressed, World.NoThreadRuns]
  · rintro ⟨-, -, inTime⟩
    rcases inTime (by decide) with ⟨thread, code, endTime, began, live, ended, -, waited, early⟩
    have live_eq : (⟨4096, some (65536, 3001)⟩ : RemoteThread) = thread := Option.some.inj live
    subst live_eq
    have began_eq : 0 = began := Option.some.inj waited
    have end_eq : ((65536 : UInt32), 3001) = (code, endTime) := Option.some.inj ended
    rw [Prod.mk.injEq] at end_eq
    omega

end Lucciefr.Processes
