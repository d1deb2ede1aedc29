import Mathlib.Data.List.Basic
import Lucciefr.Lua.Call

/-!
# Guarded calls

`lua_guarded_pcall` of `core/luautils.c`, which saves its context for
`lua_exception_recovery` before it runs Lua code. There is one place for a context and
one for the handler, and they are changed by every guarded call. What Lua code does is
reduced here to the guarded calls that it makes, and to the way in which it ends.
-/

namespace Lucciefr.Guard

open Lua (luaErrrun)

/-- A value of `USER_EXCEPTION_HANDLER`. -/
inductive Handler where
  | null
  | luaExceptionRecovery
deriving DecidableEq

/-- What can be seen at one moment. A context is known by the number of the guarded call
which saved it. -/
structure Moment where
  userExceptionHandler : Handler
  luaSafeguard : Option ℕ
  /-- The guarded calls which have not returned, the innermost first. -/
  active : List ℕ
deriving DecidableEq

structure Process where
  now : Moment
  /-- The number of guarded calls so far. -/
  calls : ℕ
  /-- The moments at which control was in Lua code. -/
  seen : List Moment

/-- What ends a program before it returns. -/
inductive Jump where
  | longjmp (context : ℕ)
  /-- An exception for which there is no handler. -/
  | crash
  /-- A jump to a function which has returned. -/
  | undefined
deriving DecidableEq

abbrev GuardM (α : Type) := EStateM Jump Process α

/-- An assignment to `USER_EXCEPTION_HANDLER`. -/
def setHandler (handler : Handler) : GuardM Unit :=
  modify fun process =>
    { process with now := { process.now with userExceptionHandler := handler } }

/-- `lua_exception_recovery` -/
def luaExceptionRecovery {α : Type} : GuardM α := fun process =>
  match process.now.luaSafeguard with
  | none => .error .undefined process
  | some context =>
      if context ∈ process.now.active then
        .error (.longjmp context) process
      else
        .error .undefined process

/-- A hard exception. -/
def hardException {α : Type} : GuardM α := fun process =>
  match process.now.userExceptionHandler with
  | .null => .error .crash process
  | .luaExceptionRecovery => luaExceptionRecovery process

/-- `setjmp(lua_safeguard)`: what is done after it returns, and after a jump to it. -/
def setjmp {α : Type} (context : ℕ) (first second : GuardM α) : GuardM α := fun process =>
  match first { process with now := { process.now with luaSafeguard := some context } } with
  | .ok result reached => .ok result reached
  | .error (.longjmp target) reached =>
      if target = context then second reached else .error (.longjmp target) reached
  | .error other reached => .error other reached

/-- A function begins, which is known by its number from now on. -/
def enterGuarded : GuardM ℕ := fun process =>
  .ok process.calls { process with
    now := { process.now with active := process.calls :: process.now.active }
    calls := process.calls + 1 }

/-- A function returns to a caller, in which these guarded calls are active. -/
def leaveGuarded (active : List ℕ) : GuardM Unit :=
  modify fun process => { process with now := { process.now with active := active } }

/-- `lua_guarded_pcall`, after `setjmp` returned 0. -/
def continueNormally (luaPcall : GuardM ℤ) : GuardM ℤ := do
  setHandler .luaExceptionRecovery
  let result ← luaPcall
  setHandler .null
  pure result

/-- `lua_guarded_pcall`, after control flow was restored via longjmp. The message and the
stack trace are left out. -/
def controlRestored : GuardM ℤ := do
  setHandler .null
  pure luaErrrun

/-- `lua_guarded_pcall` -/
def luaGuardedPcall (luaPcall : GuardM ℤ) : GuardM ℤ := do
  let caller ← get
  let context ← enterGuarded
  let result ← setjmp context (continueNormally luaPcall) controlRestored
  leaveGuarded caller.now.active
  pure result

/-- The ways in which the Lua code of a guarded call can end. -/
inductive Ending where
  | normal
  | luaError
  | exception
deriving DecidableEq

/-- The guarded calls which Lua code makes, one after another. -/
inductive LuaCode where
  | done
  | call (inner : LuaCode) (ending : Ending) (rest : LuaCode)
deriving DecidableEq

/-- What `lua_pcall` returns, if it does. -/
def Ending.result : Ending → GuardM ℤ
  | normal => pure 0
  | luaError => pure luaErrrun
  | exception => hardException

/-- Control is in Lua code. -/
def observe : GuardM Unit :=
  modify fun process => { process with seen := process.seen ++ [process.now] }

/-- Run Lua code, or the program itself, which makes guarded calls likewise. -/
def LuaCode.run : LuaCode → GuardM Unit
  | done => observe
  | call inner ending rest => do
      observe
      let _ ← luaGuardedPcall do
        inner.run
        ending.result
      rest.run

/-- A process before the first guarded call. -/
def Process.initial : Process where
  now := { userExceptionHandler := .null, luaSafeguard := none, active := [] }
  calls := 0
  seen := []

/-- If a guarded call is active, then an exception would be handled by the innermost one. -/
def Moment.Guarded (moment : Moment) : Prop :=
  ∀ innermost ∈ moment.active.head?,
    moment.userExceptionHandler = .luaExceptionRecovery ∧ moment.luaSafeguard = some innermost

/-- The process which a program leaves behind, however it ends. -/
def processAfter {α : Type} : EStateM.Result Jump Process α → Process
  | .ok _ reached => reached
  | .error _ reached => reached

/-- At every moment in Lua code of a guarded call, that call is guarded. -/
def LuaCode.AlwaysGuarded (code : LuaCode) : Prop :=
  ∀ moment ∈ (processAfter (code.run .initial)).seen, moment.Guarded

/-- There is no jump to a function which has returned. -/
def LuaCode.JumpsToActive (code : LuaCode) : Prop :=
  ∀ reached, code.run .initial ≠ .error .undefined reached

/-- No guarded call is made by the Lua code of a guarded call. -/
def LuaCode.Flat : LuaCode → Prop
  | done => True
  | call inner _ rest => inner = done ∧ rest.Flat

namespace Process

/-- The process in which the Lua code of a guarded call begins. -/
def entered (process : Process) : Process where
  now := ⟨.luaExceptionRecovery, some process.calls, process.calls :: process.now.active⟩
  calls := process.calls + 1
  seen := process.seen

/-- The process after a guarded call, which left `reached`. -/
def returned (process reached : Process) : Process :=
  { reached with now := ⟨.null, reached.now.luaSafeguard, process.now.active⟩ }

/-- The process after this moment was seen. -/
def observed (process : Process) : Process :=
  { process with seen := process.seen ++ [process.now] }

end Process

/-- How Lua code ends when it is run in this process. -/
inductive LuaCode.Ends (code : LuaCode) (process : Process) :
    EStateM.Result Jump Process Unit → Prop
  | returned {reached} (active_eq : reached.now.active = process.now.active)
      (unchanged : code = done → reached.now = process.now)
      (disabled : code ≠ done → reached.now.userExceptionHandler = .null) :
      LuaCode.Ends code process (.ok () reached)
  | crash {reached} (nested : code ≠ done) : LuaCode.Ends code process (.error .crash reached)

/-- How a guarded call of Lua code ends, which has seen these moments. -/
inductive CallEnds (inner : LuaCode) (process : Process) (seen : List Moment) :
    EStateM.Result Jump Process ℤ → Prop
  | returned {result reached} (active_eq : reached.now.active = process.now.active)
      (disabled : reached.now.userExceptionHandler = .null) (seen_eq : reached.seen = seen) :
      CallEnds inner process seen (.ok result reached)
  | crash {reached} (nested : inner ≠ .done) (seen_eq : reached.seen = seen) :
      CallEnds inner process seen (.error .crash reached)

/-- The run of Lua code which begins with a guarded call. -/
inductive CallRuns (inner rest : LuaCode) (process : Process) (seen : List Moment) :
    EStateM.Result Jump Process Unit → Prop
  | continues (reached) (active_eq : reached.now.active = process.now.active)
      (disabled : reached.now.userExceptionHandler = .null) (seen_eq : reached.seen = seen) :
      CallRuns inner rest process seen (rest.run reached)
  | crash {reached} (nested : inner ≠ .done) (seen_eq : reached.seen = seen) :
      CallRuns inner rest process seen (.error .crash reached)

section Lemmas

variable {process reached : Process} {luaPcall : GuardM ℤ} {result : ℤ} {code inner rest : LuaCode}
  {ending : Ending}

theorem setjmp_of_ok {context : ℕ} {first second : GuardM ℤ}
    (ran : first { process with now := { process.now with luaSafeguard := some context } } =
      .ok result reached) : setjmp context first second process = .ok result reached := by
  simp only [setjmp, ran]

theorem setjmp_of_jump {context : ℕ} {first second : GuardM ℤ}
    (ran : first { process with now := { process.now with luaSafeguard := some context } } =
      .error (.longjmp context) reached) :
    setjmp context first second process = second reached := by
  simp only [setjmp, ran, if_true]

theorem setjmp_of_crash {context : ℕ} {first second : GuardM ℤ}
    (ran : first { process with now := { process.now with luaSafeguard := some context } } =
      .error .crash reached) :
    setjmp context first second process = .error .crash reached := by
  simp only [setjmp, ran]

theorem enterGuarded_eq : enterGuarded process = .ok process.calls { process with
    now := { process.now with active := process.calls :: process.now.active }
    calls := process.calls + 1 } := rfl

theorem luaGuardedPcall_of_ok (ran : luaPcall process.entered = .ok result reached) :
    luaGuardedPcall luaPcall process = .ok result (process.returned reached) := by
  have direct : continueNormally luaPcall { process with
      now := { process.now with
        active := process.calls :: process.now.active, luaSafeguard := some process.calls }
      calls := process.calls + 1 } =
      .ok result { reached with now := { reached.now with userExceptionHandler := .null } } := by
    rw [continueNormally, setHandler, bind_of_ok modify_eq_ok]
    exact bind_of_ok ran
  rw [luaGuardedPcall, get_bind, bind_of_ok enterGuarded_eq, bind_of_ok (setjmp_of_ok direct)]
  rfl

/-- The handler stays enabled when `lua_pcall` does not return. -/
theorem continueNormally_of_error {jump : Jump}
    (ran : luaPcall process.entered = .error jump reached) :
    continueNormally luaPcall { process with
      now := { process.now with
        active := process.calls :: process.now.active, luaSafeguard := some process.calls }
      calls := process.calls + 1 } = .error jump reached := by
  rw [continueNormally, setHandler, bind_of_ok modify_eq_ok]
  exact bind_of_error ran

theorem luaGuardedPcall_of_jump
    (ran : luaPcall process.entered = .error (.longjmp process.calls) reached) :
    luaGuardedPcall luaPcall process = .ok luaErrrun (process.returned reached) := by
  have recovered : setjmp process.calls (continueNormally luaPcall) controlRestored
      { process with
        now := { process.now with active := process.calls :: process.now.active }
        calls := process.calls + 1 } =
      .ok luaErrrun
        { reached with now := { reached.now with userExceptionHandler := .null } } := by
    rw [setjmp_of_jump (continueNormally_of_error ran)]
    rfl
  rw [luaGuardedPcall, get_bind, bind_of_ok enterGuarded_eq, bind_of_ok recovered]
  rfl

theorem luaGuardedPcall_of_crash (ran : luaPcall process.entered = .error .crash reached) :
    luaGuardedPcall luaPcall process = .error .crash reached := by
  rw [luaGuardedPcall, get_bind, bind_of_ok enterGuarded_eq,
    bind_of_error (setjmp_of_crash (continueNormally_of_error ran))]

theorem hardException_enabled {context : ℕ}
    (enabled : reached.now.userExceptionHandler = .luaExceptionRecovery)
    (saved : reached.now.luaSafeguard = some context) (isActive : context ∈ reached.now.active) :
    hardException reached = (.error (.longjmp context) reached :
      EStateM.Result Jump Process ℤ) := by
  rw [hardException, enabled]
  simp only
  rw [luaExceptionRecovery, saved]
  simp only [if_pos isActive]

theorem hardException_disabled (disabled : reached.now.userExceptionHandler = .null) :
    hardException reached = (.error .crash reached : EStateM.Result Jump Process ℤ) := by
  rw [hardException, disabled]

/-- An exception is caught by the innermost call, unless one inside of it has returned. -/
theorem luaGuardedPcall_ends (process : Process) (inner : LuaCode) (ending : Ending)
    (innerEnds : inner.Ends process.entered (inner.run process.entered)) :
    CallEnds inner process (processAfter (inner.run process.entered)).seen
      (luaGuardedPcall (do inner.run; ending.result) process) := by
  generalize ran : inner.run process.entered = ended at innerEnds
  cases innerEnds with
  | crash nested =>
      rw [luaGuardedPcall_of_crash (bind_of_error ran)]
      exact .crash nested rfl
  | returned active_eq unchanged disabled =>
      rename_i reached
      cases ending with
      | normal =>
          have body : (do inner.run; Ending.normal.result : GuardM ℤ) process.entered =
              .ok 0 reached := bind_of_ok ran
          rw [luaGuardedPcall_of_ok body]
          exact .returned rfl rfl rfl
      | luaError =>
          have body : (do inner.run; Ending.luaError.result : GuardM ℤ) process.entered =
              .ok luaErrrun reached := bind_of_ok ran
          rw [luaGuardedPcall_of_ok body]
          exact .returned rfl rfl rfl
      | exception =>
          by_cases nested : inner = .done
          · have now_eq := unchanged nested
            have jumps : hardException reached = (.error (.longjmp process.calls) reached :
                EStateM.Result Jump Process ℤ) := by
              apply hardException_enabled
              · rw [now_eq, Process.entered]
              · rw [now_eq, Process.entered]
              · rw [now_eq, Process.entered]
                exact List.mem_cons_self
            have body : (do inner.run; Ending.exception.result : GuardM ℤ) process.entered =
                .error (.longjmp process.calls) reached := (bind_of_ok ran).trans jumps
            rw [luaGuardedPcall_of_jump body]
            exact .returned rfl rfl rfl
          · have body : (do inner.run; Ending.exception.result : GuardM ℤ) process.entered =
                .error .crash reached :=
              (bind_of_ok ran).trans (hardException_disabled (disabled nested))
            rw [luaGuardedPcall_of_crash body]
            exact .crash nested rfl

theorem observe_eq : observe process = .ok () process.observed := rfl

theorem run_ends : code.Ends process (code.run process) := by
  induction code generalizing process with
  | done => exact .returned rfl (fun _ => rfl) (fun absurdity => absurd rfl absurdity)
  | call inner ending rest ihInner ihRest =>
      have ended := luaGuardedPcall_ends process.observed inner ending ihInner
      generalize called : luaGuardedPcall (do inner.run; ending.result) process.observed = result
        at ended
      rw [LuaCode.run, bind_of_ok observe_eq]
      cases ended with
      | crash nested =>
          rw [bind_of_error called]
          exact .crash nofun
      | returned active_eq disabled seen_eq =>
          rename_i result middle
          rw [bind_of_ok called]
          have later : rest.Ends middle (rest.run middle) := ihRest
          generalize rest.run middle = last at later ⊢
          cases later with
          | crash => exact .crash nofun
          | returned restActive unchanged restDisabled =>
              refine .returned (restActive.trans active_eq) nofun fun _ => ?_
              by_cases last : rest = .done
              · rw [unchanged last, disabled]
              · exact restDisabled last

theorem run_call (process : Process) (inner rest : LuaCode) (ending : Ending) :
    CallRuns inner rest process
    (processAfter (inner.run process.observed.entered)).seen
    ((LuaCode.call inner ending rest).run process) := by
  have ended := luaGuardedPcall_ends process.observed inner ending run_ends
  generalize called : luaGuardedPcall (do inner.run; ending.result) process.observed = result
    at ended
  rw [LuaCode.run, bind_of_ok observe_eq]
  cases ended with
  | crash nested seen_eq =>
      rw [bind_of_error called]
      exact .crash nested seen_eq
  | returned active_eq disabled seen_eq =>
      rw [bind_of_ok called]
      exact .continues _ active_eq disabled seen_eq

/-- The present moment is seen, and no moment is forgotten. -/
theorem seen_prefix :
    process.seen ++ [process.now] <+: (processAfter (code.run process)).seen := by
  induction code generalizing process with
  | done => exact List.prefix_refl _
  | call inner ending rest ihInner ihRest =>
      have entered : process.observed.entered.seen ++ [process.observed.entered.now] <+:
          (processAfter (inner.run process.observed.entered)).seen := ihInner
      have inside := (List.prefix_append _ _).trans entered
      have runs := run_call process inner rest ending
      generalize (LuaCode.call inner ending rest).run process = result at runs
      cases runs with
      | crash nested seen_eq =>
          rw [processAfter, seen_eq]
          exact inside
      | continues reached active_eq disabled seen_eq =>
          have continued : reached.seen ++ [reached.now] <+:
              (processAfter (rest.run reached)).seen := ihRest
          have later := (List.prefix_append _ _).trans continued
          rw [seen_eq] at later
          exact inside.trans later

theorem seen_inner {moment : Moment}
    (momentMem : moment ∈ (processAfter (inner.run process.observed.entered)).seen) :
    moment ∈ (processAfter ((LuaCode.call inner ending rest).run process)).seen := by
  have runs := run_call process inner rest ending
  generalize (LuaCode.call inner ending rest).run process = result at runs
  cases runs with
  | crash nested seen_eq => exact seen_eq ▸ momentMem
  | continues reached active_eq disabled seen_eq =>
      apply seen_prefix.subset
      rw [seen_eq]
      exact List.mem_append_left _ momentMem

/-- Lua code of a guarded call is not guarded after a call has returned to it. -/
theorem unguarded_of_call (process : Process) (called : code ≠ .done)
    (inside : process.now.active ≠ []) :
    ∃ moment ∈ (processAfter (code.run process)).seen, ¬moment.Guarded := by
  induction code generalizing process with
  | done => exact absurd rfl called
  | call inner ending rest ihInner ihRest =>
      by_cases nested : inner = .done
      · have runs := run_call process inner rest ending
        generalize (LuaCode.call inner ending rest).run process = result at runs
        cases runs with
        | crash contradiction => exact absurd nested contradiction
        | continues reached active_eq disabled seen_eq =>
            refine ⟨reached.now, ?_, ?_⟩
            · apply seen_prefix.subset
              simp
            · intro guarded
              rw [← active_eq] at inside
              have enabled := (guarded _ (List.head?_eq_some_head inside)).1
              rw [disabled] at enabled
              cases enabled
      · rcases ihInner process.observed.entered nested (by simp [Process.entered])
          with ⟨moment, momentMem, unguarded⟩
        exact ⟨moment, seen_inner momentMem, unguarded⟩

theorem unguarded_of_nested (process : Process) (nested : ¬code.Flat) :
    ∃ moment ∈ (processAfter (code.run process)).seen, ¬moment.Guarded := by
  induction code generalizing process with
  | done => exact absurd trivial nested
  | call inner ending rest ihInner ihRest =>
      by_cases leaf : inner = .done
      · have later : ¬rest.Flat := fun flat => nested ⟨leaf, flat⟩
        have runs := run_call process inner rest ending
        generalize (LuaCode.call inner ending rest).run process = result at runs
        cases runs with
        | crash contradiction => exact absurd leaf contradiction
        | continues reached => exact ihRest reached later
      · rcases unguarded_of_call process.observed.entered leaf (by simp [Process.entered])
          with ⟨moment, momentMem, unguarded⟩
        exact ⟨moment, seen_inner momentMem, unguarded⟩

theorem guarded_of_flat (flat : code.Flat) (outside : process.now.active = [])
    (before : ∀ moment ∈ process.seen, moment.Guarded) :
    ∀ moment ∈ (processAfter (code.run process)).seen, moment.Guarded := by
  have present : process.now.Guarded := by
    intro innermost innermostMem
    rw [outside] at innermostMem
    cases innermostMem
  induction code generalizing process with
  | done =>
      intro moment momentMem
      rcases List.mem_append.mp momentMem with earlier | latest
      · exact before moment earlier
      · exact List.mem_singleton.mp latest ▸ present
  | call inner ending rest ihInner ihRest =>
      rcases flat with ⟨rfl, restFlat⟩
      have entered : ∀ moment ∈ (processAfter (LuaCode.done.run process.observed.entered)).seen,
          moment.Guarded := by
        intro moment momentMem
        rcases List.mem_append.mp momentMem with earlier | latest
        · rcases List.mem_append.mp earlier with earlier | latest
          · exact before moment earlier
          · exact List.mem_singleton.mp latest ▸ present
        · rw [List.mem_singleton.mp latest]
          intro innermost innermostMem
          cases innermostMem
          exact ⟨rfl, rfl⟩
      have runs := run_call process .done rest ending
      generalize (LuaCode.call .done ending rest).run process = result at runs
      cases runs with
      | crash contradiction => exact absurd rfl contradiction
      | continues reached active_eq disabled seen_eq =>
          rw [outside] at active_eq
          rw [← seen_eq] at entered
          apply ihRest restFlat active_eq entered
          intro innermost innermostMem
          rw [active_eq] at innermostMem
          cases innermostMem

/--
No exception ever leads to a function which has returned, but Lua code is guarded at all
times if and only if no guarded call is made within another one.
-/
theorem alwaysGuarded_iff_flat (code : LuaCode) :
    code.JumpsToActive ∧ (code.AlwaysGuarded ↔ code.Flat) := by
  refine ⟨?_, ?_, ?_⟩
  · intro reached jumped
    have ends : code.Ends .initial (code.run .initial) := run_ends
    rw [jumped] at ends
    cases ends
  · intro guarded
    by_contra nested
    rcases unguarded_of_nested .initial nested with ⟨moment, momentMem, unguarded⟩
    exact unguarded (guarded moment momentMem)
  · intro flat
    exact guarded_of_flat flat rfl nofun

end Lemmas

/-- A guarded call which makes another one, and then ends by an exception. -/
theorem not_alwaysGuarded_nested :
    ¬(LuaCode.call (.call .done .normal .done) .exception .done).AlwaysGuarded := by
  intro guarded
  have after : (⟨.null, some 1, [0]⟩ : Moment) ∈ (processAfter ((LuaCode.call
      (.call .done .normal .done) .exception .done).run .initial)).seen := by decide
  have enabled := (guarded _ after 0 rfl).1
  cases enabled

end Lucciefr.Guard
