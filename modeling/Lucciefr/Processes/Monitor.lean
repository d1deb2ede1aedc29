import Lucciefr.Processes.Basic

/-!
# What a run of the injector does

A monitor follows the events of a run: the ledger counts what the injector has
acquired and given back, and the world keeps what the operating system knows
about the remote thread. A thread may run from its creation until its end; it is
created suspended, and may be resumed by `ResumeThread` or together with the
other threads of the target.
-/

namespace Lucciefr.Processes

/-- What the injector has acquired and given back. -/
structure Ledger where
  /-- The handles which are open. -/
  handles : List ℕ
  /-- The memory allocated in the target, with its size. -/
  allocated : List (ℕ × ℕ)
  /-- The memory passed to `VirtualFreeEx`, with its size. -/
  released : List (ℕ × ℕ)
  /-- How often `NtSuspendProcess` succeeded. -/
  suspends : ℕ
  /-- The processes which `resume_process` was called for. -/
  resumes : List ℕ

/-- A thread created in the target. -/
structure RemoteThread where
  param : ℕ
  /-- The exit code and the time of its end. -/
  ended : Option (UInt32 × ℕ)

/-- What the operating system knows about the last thread created by the injector. -/
structure World where
  time : ℕ
  thread : Option RemoteThread
  /-- When the injector began to wait for the thread. -/
  waitBegan : Option ℕ
  /-- The exit code which was read. -/
  exitCode : Option UInt32

structure Situation where
  ledger : Ledger
  world : World

namespace Ledger

def empty : Ledger where
  handles := []
  allocated := []
  released := []
  suspends := 0
  resumes := []

/-- Keep a handle, unless it is `NULL`. -/
def opened (ledger : Ledger) (handle : Option ℕ) : Ledger :=
  { ledger with handles := handle.toList ++ ledger.handles }

/-- The ledger after an answered call. -/
def answered (ledger : Ledger) : (request : OsCall) → request.Answer → Ledger
  | .openProcess _ _, (handle : Option ℕ) => ledger.opened handle
  | .createRemoteThread _ _ _, (handle : Option ℕ) => ledger.opened handle
  | .closeHandle handle, _ => { ledger with handles := ledger.handles.erase handle }
  | .virtualAllocEx _ size, (address : Option ℕ) =>
      { ledger with allocated := ledger.allocated ++ address.toList.map fun address =>
          (address, size) }
  | .virtualFreeEx _ address size, _ =>
      { ledger with released := ledger.released ++ [(address, size)] }
  | .ntSuspendProcess _, (status : ℤ) =>
      { ledger with suspends := ledger.suspends + if status = 0 then 1 else 0 }
  | .resumeProcess pid, _ => { ledger with resumes := ledger.resumes ++ [pid] }
  | _, _ => ledger

end Ledger

namespace World

/-- The world before anything happened. -/
def initial : World where
  time := 0
  thread := none
  waitBegan := none
  exitCode := none

/-- The world after an answered call. -/
def answered (world : World) : (request : OsCall) → request.Answer → World
  | .createRemoteThread _ _ param, (handle : Option ℕ) =>
      match handle with
      | none => world
      | some _ => { world with thread := some ⟨param, none⟩ }
  | .beginWait _ _, _ => { world with waitBegan := some world.time }
  | .getExitCodeThread _, (code : Option UInt32) => { world with exitCode := code }
  | _, _ => world

/-- The world after a background event. -/
def progressed (world : World) : Background → World
  | .elapse milliseconds => { world with time := world.time + milliseconds }
  | .threadEnds code =>
      { world with thread := world.thread.map fun thread =>
          { thread with ended := some (code, world.time) } }

/-- No thread created by the injector can still be running. -/
def NoThreadRuns (world : World) : Prop :=
  ∀ thread, world.thread = some thread → thread.ended ≠ none

/-- The events which the operating system can produce: a thread ends once, and its
exit code is `STILL_ACTIVE` before. -/
def Allows (world : World) : OsEvent → Prop
  | .background (.threadEnds _) => ¬world.NoThreadRuns
  | .call (.getExitCodeThread _) (some (code : UInt32)) =>
      ∀ thread, world.thread = some thread →
        code = (thread.ended.map Prod.fst).getD stillActive
  | _ => True

end World

namespace Situation

def initial : Situation where
  ledger := Ledger.empty
  world := World.initial

def next (situation : Situation) : OsEvent → Situation
  | .call request answer =>
      ⟨situation.ledger.answered request answer, situation.world.answered request answer⟩
  | .background event => ⟨situation.ledger, situation.world.progressed event⟩

end Situation

/-- The monitor of the injector for a notion of safety, in runs whose steps all meet a
condition. -/
def monitor (meets : World → OsEvent → Prop) (safe : Situation → OsEvent → Prop) :
    Monitor Situation OsCall OsCall.Answer Background where
  next := Situation.next
  Allows situation event := situation.world.Allows event ∧ meets situation.world event
  Safe := safe

/-- The situation after the events of a run. -/
def situationAfter (events : List OsEvent) : Situation :=
  events.foldl Situation.next Situation.initial

/-- The operating system can produce the events. -/
def Possible (events : List OsEvent) : Prop :=
  ∀ before event later, events = before ++ event :: later →
    (situationAfter before).world.Allows event

theorem throughout_iff (meets : World → OsEvent → Prop)
    (safe condition : Situation → OsEvent → Prop) {events : List OsEvent} :
    (monitor meets safe).Throughout condition Situation.initial events ↔
      ∀ before event later, events = before ++ event :: later →
        condition (situationAfter before) event :=
  Monitor.throughout_iff

end Lucciefr.Processes
