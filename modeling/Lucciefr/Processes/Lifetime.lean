import Lucciefr.Processes.Monitor

/-!
# The lifetime of the injected path buffer

The remote thread runs `LoadLibraryA` on a buffer in the target, which the
injector releases when `execute_remote_thread` has returned, also when the
thread did not finish within the timeout or the query of its exit code failed.
The buffer is only released after its last use in runs in which the thread has
ended when the wait for it returns.
-/

namespace Lucciefr.Processes

/-- No thread which was started with the buffer can still be running. -/
def World.NoThreadRunsWith (world : World) (buffer : ℕ) : Prop :=
  ∀ thread, world.thread = some thread → thread.param = buffer → thread.ended ≠ none

/-- When the wait for a thread returns, the thread has ended. -/
def WaitsForEnd (world : World) : OsEvent → Prop
  | .call (.endWait _) _ => world.NoThreadRuns
  | _ => True

/-- A buffer is released when no thread which was started with it can still be running. -/
def ReleasesUnused (situation : Situation) : OsEvent → Prop
  | .call (.virtualFreeEx _ buffer _) _ => situation.world.NoThreadRunsWith buffer
  | _ => True

abbrev lifetimes : Monitor Situation OsCall OsCall.Answer Background :=
  monitor WaitsForEnd ReleasesUnused

/-- The calls which do not create a thread. -/
def StartsNoThread : OsCall → Prop
  | .createRemoteThread _ _ _ => False
  | _ => True

def Idle (situation : Situation) : Prop :=
  situation.world.NoThreadRuns

theorem stable_idle : Stable lifetimes Idle := by
  intro situation event idle allowed
  refine ⟨trivial, ?_⟩
  cases event with
  | elapse milliseconds => exact idle
  | threadEnds code => exact absurd idle allowed.1

theorem stable_true : Stable lifetimes fun _ => True := by
  intro situation event _ _
  exact ⟨trivial, trivial⟩

theorem answered_thread (world : World) {request : OsCall} (answer : request.Answer)
    (starts : StartsNoThread request) : (world.answered request answer).thread = world.thread := by
  cases request <;> first | rfl | exact starts.elim

theorem idle_kept (situation : Situation) (request : OsCall) (answer : request.Answer)
    (starts : StartsNoThread request) (idle : Idle situation)
    (_ : lifetimes.Allows situation (.call request answer)) :
    lifetimes.Safe situation (.call request answer) ∧
      Idle (lifetimes.next situation (.call request answer)) := by
  constructor
  · cases request with
    | virtualFreeEx process address size => exact fun thread live _ => idle thread live
    | _ => trivial
  · intro thread live
    apply idle thread
    rw [← answered_thread situation.world answer starts]
    exact live

theorem idle_of_makes {Result : Type} {program : Injector Result}
    (makes : program.Makes StartsNoThread) : Triple lifetimes Idle program fun _ => Idle :=
  Triple.invariant stable_idle idle_kept makes

theorem makes_os (made : OsCall) (starts : StartsNoThread made) :
    (os made).Makes StartsNoThread :=
  Program.Makes.request starts

theorem throughNtdll_makes {name : String} {invoke : ℕ → Injector ℤ} (pid : ℕ)
    (invoked : ∀ proc, (invoke proc).Makes StartsNoThread) :
    (throughNtdll name invoke pid).Makes StartsNoThread := by
  apply (makes_os (.openProcess .suspendResume pid) trivial).bind
  rintro (_ | proc)
  · exact .done false
  · apply (makes_os (.getProcAddress "ntdll" name) trivial).bind
    intro found
    apply Program.Makes.bind
    · rcases found with _ | found
      · exact .done false
      · exact (invoked proc).bind fun status => .done _
    · intro result
      exact (makes_os (.closeHandle proc) trivial).bind fun _ => .done result

theorem suspendProcess_makes (pid : ℕ) : (suspendProcess pid).Makes StartsNoThread := by
  rw [suspendProcess_eq]
  apply throughNtdll_makes
  intro proc
  exact makes_os (.ntSuspendProcess proc) trivial

theorem resumeProcess_makes (pid : ℕ) : (resumeProcess pid).Makes StartsNoThread := by
  rw [resumeProcess_eq]
  apply (makes_os (.resumeProcess pid) trivial).bind
  intro _
  apply throughNtdll_makes
  intro proc
  exact makes_os (.ntResumeProcess proc) trivial

/-- A call which keeps no condition on the threads. -/
theorem true_of_os (made : OsCall) (safe : ∀ situation answer,
    ReleasesUnused situation (.call made answer)) :
    Triple lifetimes (fun _ => True) (os made) fun _ _ => True :=
  Triple.request stable_true fun situation answer _ _ => ⟨safe situation answer, trivial⟩

theorem idle_bind {Result Other : Type} {program : Injector Result}
    {rest : Result → Injector Other} (first : Triple lifetimes Idle program fun _ => Idle)
    (second : ∀ result, Triple lifetimes Idle (rest result) fun _ => Idle) :
    Triple lifetimes Idle (program >>= rest) fun _ => Idle :=
  first.bind second

theorem idle_call {made : OsCall} {Result : Type} {rest : made.Answer → Injector Result}
    (starts : StartsNoThread made)
    (second : ∀ answer, Triple lifetimes Idle (rest answer) fun _ => Idle) :
    Triple lifetimes Idle (os made >>= rest) fun _ => Idle :=
  idle_bind (idle_of_makes (makes_os made starts)) second

theorem idle_done {Result : Type} (result : Result) :
    Triple lifetimes Idle (pure result : Injector Result) fun _ => Idle :=
  Triple.done fun _ idle => idle

/-- Whatever the thread does, it has ended when `execute_remote_thread` returns, if it has
ended when the wait returns. -/
theorem executeRemoteThread_idle (hProcess : Option ℕ) (entryPoint param timeout : ℕ)
    (exitCode : UInt32) :
    Triple lifetimes Idle (executeRemoteThread hProcess entryPoint param timeout exitCode)
      fun _ => Idle := by
  cases hProcess with
  | none => exact Triple.done fun _ idle => idle
  | some hProcess =>
      have created : Triple lifetimes Idle (os (.createRemoteThread hProcess entryPoint param))
          fun (thread : Option ℕ) situation => thread = none → Idle situation := by
        apply Triple.request stable_idle
        rintro situation (_ | thread) idle _
        · exact ⟨trivial, fun _ => idle⟩
        · exact ⟨trivial, by simp⟩
      apply created.bind
      rintro (_ | thread)
      · exact Triple.done fun _ idle => idle rfl
      · have waited : Triple lifetimes (fun _ => True) (os (.endWait thread)) fun _ => Idle :=
          Triple.request stable_true fun situation _ _ allowed => ⟨trivial, allowed.2⟩
        apply Triple.weaken _ (fun _ _ => trivial) fun _ _ idle => idle
        apply (true_of_os (.resumeThread thread) fun _ _ => trivial).bind
        intro _
        apply (true_of_os (.beginWait thread timeout) fun _ _ => trivial).bind
        intro _
        refine waited.bind fun _ => ?_
        refine idle_call trivial fun (queried : Option UInt32) => ?_
        refine idle_call trivial fun _ => ?_
        cases queried with
        | none => exact idle_done _
        | some code => exact idle_done _

theorem injectWithBuffer_idle (proc remoteBuffer : ℕ) (dllPath : List UInt8) (pathLength : ℕ)
    (exitCode : UInt32) :
    Triple lifetimes Idle (injectWithBuffer proc remoteBuffer dllPath pathLength exitCode)
      fun _ => Idle := by
  refine idle_call trivial fun (bytesWritten : ℕ) => ?_
  apply idle_bind
  · by_cases written : bytesWritten = pathLength
    · rw [if_pos written]
      refine idle_call trivial fun (remoteLoad : Option ℕ) => ?_
      rcases remoteLoad with _ | remoteLoad
      · exact idle_done 0
      · apply idle_bind
        · exact executeRemoteThread_idle (some proc) remoteLoad remoteBuffer 3000 exitCode
        · exact fun executed => idle_done _
    · rw [if_neg written]
      exact idle_done 0
  · intro remoteBase
    exact idle_call trivial fun _ => idle_done remoteBase

theorem injectCrt_idle (pid : ℕ) (dllPath : List UInt8) (exitCode : UInt32) :
    Triple lifetimes Idle (injectCrt pid dllPath exitCode) fun _ => Idle := by
  refine idle_call trivial fun (proc : Option ℕ) => ?_
  rcases proc with _ | proc
  · exact idle_done 0
  · apply idle_bind (idle_of_makes (suspendProcess_makes pid))
    intro suspended
    refine idle_call trivial fun remoteBuffer => ?_
    apply idle_bind
    · rcases remoteBuffer with _ | remoteBuffer
      · exact idle_done 0
      · exact injectWithBuffer_idle proc remoteBuffer dllPath _ exitCode
    · intro remoteBase
      refine idle_call trivial fun _ => ?_
      apply idle_bind
      · cases suspended
        · exact idle_done false
        · exact idle_of_makes (resumeProcess_makes pid)
      · exact fun _ => idle_done remoteBase

/--
In every run in which the remote thread has ended when the wait for it returns,
every buffer is released in a state in which no thread started with it can still
be running.
-/
theorem releases_unused_of_waitsForEnd (pid : ℕ) (dllPath : List UInt8) (exitCode : UInt32)
    (events : List OsEvent) (result : ℕ)
    (runs : (injectCrt pid dllPath exitCode).Runs events result) (possible : Possible events)
    (waited : ∀ before event later, events = before ++ event :: later →
      WaitsForEnd (situationAfter before).world event) :
    ∀ before process buffer size later,
      events = before ++ .call (.virtualFreeEx process buffer size) () :: later →
      (situationAfter before).world.NoThreadRunsWith buffer := by
  intro before process buffer size later split
  have allowed : lifetimes.Possible Situation.initial events :=
    (throughout_iff _ _ _).mpr fun before event later split =>
      ⟨possible before event later split, waited before event later split⟩
  have idle : Idle Situation.initial := by
    intro thread live
    cases live
  have safe := (injectCrt_idle pid dllPath exitCode _ events result idle runs allowed).1
  exact (throughout_iff _ _ _).mp safe before _ later split

/-- The events of an injection whose target cannot be suspended, up to the wait. -/
def startedThread : List OsEvent :=
  [.call (.openProcess .allAccess 7) (some 1), .call (.openProcess .suspendResume 7) none,
    .call (.virtualAllocEx 1 2) (some 4096), .call (.writeProcessMemory 1 4096 [65] 2) (2 : ℕ),
    .call (.getProcAddress "kernel32" "LoadLibraryA") (some 9),
    .call (.createRemoteThread 1 9 4096) (some 2), .call (.resumeThread 2) (),
    .call (.beginWait 2 3000) ()]

/-- A run in which the thread ends 10 ms after it was started. -/
theorem releases_unused_of_waitsForEnd_prompt :
    (situationAfter (startedThread ++ [.background (.elapse 10),
      .background (.threadEnds 65536), .call (.endWait 2) (),
      .call (.getExitCodeThread 2) (some (65536 : UInt32)),
      .call (.closeHandle 2) ()])).world.NoThreadRunsWith 4096 := by
  refine releases_unused_of_waitsForEnd 7 [65] 0
    (startedThread ++ [.background (.elapse 10), .background (.threadEnds 65536),
      .call (.endWait 2) (), .call (.getExitCodeThread 2) (some (65536 : UInt32)),
      .call (.closeHandle 2) (), .call (.virtualFreeEx 1 4096 2) (), .call (.closeHandle 1) ()])
    65536 ?_ ?_ ?_ _ 1 4096 2 [.call (.closeHandle 1) ()] rfl
  · repeat first | exact .done _ | apply Program.Runs.call | apply Program.Runs.background
  · apply (throughout_iff WaitsForEnd ReleasesUnused fun situation event =>
      situation.world.Allows event).mp
    simp [startedThread, Monitor.Throughout, monitor, Situation.next, Situation.initial,
      World.Allows, World.answered, World.progressed, World.NoThreadRuns]
  · apply (throughout_iff WaitsForEnd ReleasesUnused fun situation event =>
      WaitsForEnd situation.world event).mp
    simp [startedThread, Monitor.Throughout, monitor, Situation.next, Situation.initial,
      WaitsForEnd, World.answered, World.progressed, World.NoThreadRuns]

/-- The wait times out, and the buffer is released while the thread runs. -/
theorem not_releases_unused_timeout :
    ∃ events : List OsEvent, (injectCrt 7 [65] 0).Runs events 0 ∧ Possible events ∧
      ∃ before later, events = before ++ .call (.virtualFreeEx 1 4096 2) () :: later ∧
        ¬(situationAfter before).world.NoThreadRunsWith 4096 := by
  refine ⟨startedThread ++ [.background (.elapse 3000), .call (.endWait 2) (),
    .call (.getExitCodeThread 2) (some stillActive), .call (.closeHandle 2) (),
    .call (.virtualFreeEx 1 4096 2) (), .call (.closeHandle 1) ()], ?_, ?_,
    startedThread ++ [.background (.elapse 3000), .call (.endWait 2) (),
      .call (.getExitCodeThread 2) (some stillActive), .call (.closeHandle 2) ()],
    [.call (.closeHandle 1) ()], rfl, ?_⟩
  · repeat first | exact .done _ | apply Program.Runs.call | apply Program.Runs.background
  · apply (throughout_iff WaitsForEnd ReleasesUnused fun situation event =>
      situation.world.Allows event).mp
    simp [startedThread, Monitor.Throughout, monitor, Situation.next, Situation.initial,
      World.Allows, World.answered, World.progressed, World.NoThreadRuns]
  · intro noThread
    exact noThread ⟨4096, none⟩ rfl rfl rfl

end Lucciefr.Processes
