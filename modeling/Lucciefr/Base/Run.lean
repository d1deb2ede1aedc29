import Mathlib.Data.List.Basic

/-!
# Runs of fallible machines

A machine is a step function which executes one command on a state and may
fail. A run executes a list of commands in order and stops at the first
failure. Nothing here knows what the commands are: the induction over a run is
done once, as an invariant rule and as a simulation rule, and every statement
about all runs of a component instantiates one of the two.
-/

namespace Lucciefr

universe u v w x

variable {State : Type u} {Command : Type v} {Failure : Type w} {Spec : Type x}

/-- Execute the commands in order, stopping at the first failure. -/
def run (step : State → Command → Except Failure State) (state : State) :
    List Command → Except Failure State
  | [] => .ok state
  | command :: commands => step state command >>= fun next => run step next commands

@[simp]
theorem run_nil (step : State → Command → Except Failure State) (state : State) :
    run step state [] = .ok state := rfl

theorem run_cons_of_ok {step : State → Command → Except Failure State} {state next : State}
    {command : Command} {commands : List Command} (stepped : step state command = .ok next) :
    run step state (command :: commands) = run step next commands := by
  simp only [run, stepped]
  rfl

theorem run_cons_of_error {step : State → Command → Except Failure State} {state : State}
    {failure : Failure} {command : Command} {commands : List Command}
    (failed : step state command = .error failure) :
    run step state (command :: commands) = .error failure := by
  simp only [run, failed]
  rfl

theorem run_cons_ok {step : State → Command → Except Failure State} {state last : State}
    {command : Command} {commands : List Command}
    (succeeded : run step state (command :: commands) = .ok last) :
    ∃ next, step state command = .ok next ∧ run step next commands = .ok last := by
  cases stepped : step state command with
  | error failure => simp [run_cons_of_error stepped] at succeeded
  | ok next => exact ⟨next, rfl, by rwa [run_cons_of_ok stepped] at succeeded⟩

theorem run_append_of_ok {step : State → Command → Except Failure State} {state middle : State}
    {first second : List Command} (succeeded : run step state first = .ok middle) :
    run step state (first ++ second) = run step middle second := by
  induction first generalizing state with
  | nil =>
      simp only [run_nil, Except.ok.injEq] at succeeded
      simp [succeeded]
  | cons command commands ih =>
      rcases run_cons_ok succeeded with ⟨next, stepped, rest⟩
      rw [List.cons_append, run_cons_of_ok stepped]
      exact ih rest

theorem run_append_of_error {step : State → Command → Except Failure State} {state : State}
    {failure : Failure} {first second : List Command}
    (failed : run step state first = .error failure) :
    run step state (first ++ second) = .error failure := by
  induction first generalizing state with
  | nil => simp at failed
  | cons command commands ih =>
      cases stepped : step state command with
      | error reason =>
          rw [run_cons_of_error stepped] at failed
          rw [List.cons_append, run_cons_of_error stepped, failed]
      | ok next =>
          rw [run_cons_of_ok stepped] at failed
          rw [List.cons_append, run_cons_of_ok stepped]
          exact ih failed

theorem run_append_ok {step : State → Command → Except Failure State} {state last : State}
    {first second : List Command} (succeeded : run step state (first ++ second) = .ok last) :
    ∃ middle, run step state first = .ok middle ∧ run step middle second = .ok last := by
  cases ran : run step state first with
  | error failure => simp [run_append_of_error ran] at succeeded
  | ok middle => exact ⟨middle, rfl, by rwa [run_append_of_ok ran] at succeeded⟩

/-- An invariant preserved by every successful step holds at the end of every successful run. -/
theorem run_invariant {step : State → Command → Except Failure State} (invariant : State → Prop)
    (preserved : ∀ state command next, invariant state → step state command = .ok next →
      invariant next)
    {state last : State} {commands : List Command} (initial : invariant state)
    (succeeded : run step state commands = .ok last) : invariant last := by
  induction commands generalizing state with
  | nil =>
      simp only [run_nil, Except.ok.injEq] at succeeded
      exact succeeded ▸ initial
  | cons command commands ih =>
      rcases run_cons_ok succeeded with ⟨next, stepped, rest⟩
      exact ih (preserved state command next initial stepped) rest

/-- Before each step of the run, the state and the command meet a condition. -/
def RunMeets (step : State → Command → Except Failure State) (condition : State → Command → Prop)
    (state : State) : List Command → Prop
  | [] => True
  | command :: commands => condition state command ∧
      match step state command with
      | .ok next => RunMeets step condition next commands
      | .error _ => True

instance RunMeets.decidable (step : State → Command → Except Failure State)
    (condition : State → Command → Prop)
    [∀ state command, Decidable (condition state command)] (state : State) :
    (commands : List Command) → Decidable (RunMeets step condition state commands)
  | [] => isTrue trivial
  | command :: commands =>
      let _rest : Decidable (match step state command with
          | .ok next => RunMeets step condition next commands
          | .error _ => True) :=
        match step state command with
        | .ok next => RunMeets.decidable step condition next commands
        | .error _ => isTrue trivial
      inferInstanceAs (Decidable (condition state command ∧ _))

theorem RunMeets.next {step : State → Command → Except Failure State}
    {condition : State → Command → Prop} {state next : State} {command : Command}
    {commands : List Command} (meets : RunMeets step condition state (command :: commands))
    (stepped : step state command = .ok next) : RunMeets step condition next commands := by
  have rest := meets.2
  rwa [stepped] at rest

/-- A condition on the commands is met by every run of them. -/
theorem runMeets_of_forall {step : State → Command → Except Failure State}
    {admissible : Command → Prop} {state : State} {commands : List Command}
    (admitted : ∀ command ∈ commands, admissible command) :
    RunMeets step (fun _ => admissible) state commands := by
  induction commands generalizing state with
  | nil => trivial
  | cons command commands ih =>
      refine ⟨admitted command (by simp), ?_⟩
      cases step state command with
      | ok next => exact ih fun later laterMem => admitted later (by simp [laterMem])
      | error failure => trivial

/--
Forward simulation: if from related states every step which meets the condition succeeds
and leads to related states, then so does every run which meets it.
-/
theorem run_simulates_of_meets {step : State → Command → Except Failure State}
    (specStep : Spec → Command → Spec) (related : State → Spec → Prop)
    (condition : State → Command → Prop)
    (simulated : ∀ state spec command, related state spec → condition state command →
      ∃ next, step state command = .ok next ∧ related next (specStep spec command))
    {state : State} {spec : Spec} {commands : List Command} (initial : related state spec)
    (meets : RunMeets step condition state commands) :
    ∃ last, run step state commands = .ok last ∧
      related last (commands.foldl specStep spec) := by
  induction commands generalizing state spec with
  | nil => exact ⟨state, rfl, initial⟩
  | cons command commands ih =>
      rcases simulated state spec command initial meets.1 with ⟨next, stepped, nextRelated⟩
      rcases ih nextRelated (meets.next stepped) with ⟨last, ran, lastRelated⟩
      exact ⟨last, by rw [run_cons_of_ok stepped, ran], lastRelated⟩

/-- The same for a condition on the commands. -/
theorem run_simulates {step : State → Command → Except Failure State}
    (specStep : Spec → Command → Spec) (related : State → Spec → Prop)
    (admissible : Command → Prop)
    (simulated : ∀ state spec command, related state spec → admissible command →
      ∃ next, step state command = .ok next ∧ related next (specStep spec command))
    {state : State} (spec : Spec) {commands : List Command} (initial : related state spec)
    (admitted : ∀ command ∈ commands, admissible command) :
    ∃ last, run step state commands = .ok last ∧
      related last (commands.foldl specStep spec) :=
  run_simulates_of_meets specStep related (fun _ => admissible) simulated initial
    (runMeets_of_forall admitted)

/-- If every admissible command succeeds and preserves the invariant, every admissible run does. -/
theorem run_succeeds {step : State → Command → Except Failure State} (invariant : State → Prop)
    (admissible : Command → Prop)
    (progress : ∀ state command, invariant state → admissible command →
      ∃ next, step state command = .ok next ∧ invariant next)
    {state : State} {commands : List Command} (initial : invariant state)
    (admitted : ∀ command ∈ commands, admissible command) :
    ∃ last, run step state commands = .ok last ∧ invariant last := by
  have simulated := fun state (_ : Unit) => progress state
  exact run_simulates (fun spec _ => spec) (fun state _ => invariant state) admissible simulated ()
    initial admitted

section Agreement

variable {First Second First' Second' : Type u} {before : First → Second → Prop}
  {after : First' → Second' → Prop}

/-- Two outcomes with the same failure or with related results. -/
def SameOutcome (related : First → Second → Prop) :
    Except Failure First → Except Failure Second → Prop
  | .ok first, .ok second => related first second
  | .error first, .error second => first = second
  | _, _ => False

/-- Outcomes which agree are continued by steps which agree. -/
theorem SameOutcome.bind {first : Except Failure First} {second : Except Failure Second}
    {firstNext : First → Except Failure First'} {secondNext : Second → Except Failure Second'}
    (same : SameOutcome before first second)
    (continues : ∀ {value other}, before value other →
      SameOutcome after (firstNext value) (secondNext other)) :
    SameOutcome after (first >>= firstNext) (second >>= secondNext) := by
  cases first with
  | error failure =>
      cases second with
      | error other => exact same
      | ok value => cases same
  | ok value =>
      cases second with
      | error other => cases same
      | ok other => exact continues same

theorem SameOutcome.of_eq (outcome : Except Failure First) : SameOutcome Eq outcome outcome := by
  cases outcome <;> rfl

/-- Machines whose steps agree under a condition on the second one have runs which agree. -/
theorem run_same {step : First → Command → Except Failure First}
    {otherStep : Second → Command → Except Failure Second} (related : First → Second → Prop)
    (condition : Second → Command → Prop)
    (agree : ∀ state other command, related state other → condition other command →
      SameOutcome related (step state command) (otherStep other command))
    {state : First} {other : Second} {commands : List Command} (initial : related state other)
    (meets : RunMeets otherStep condition other commands) :
    SameOutcome related (run step state commands) (run otherStep other commands) := by
  induction commands generalizing state other with
  | nil => exact initial
  | cons command commands ih =>
      have stepped := agree state other command initial meets.1
      cases first : step state command with
      | error failure =>
          cases second : otherStep other command with
          | error reason =>
              rw [first, second] at stepped
              rw [run_cons_of_error first, run_cons_of_error second]
              exact stepped
          | ok otherNext =>
              rw [first, second] at stepped
              cases stepped
      | ok next =>
          cases second : otherStep other command with
          | error reason =>
              rw [first, second] at stepped
              cases stepped
          | ok otherNext =>
              rw [first, second] at stepped
              rw [run_cons_of_ok first, run_cons_of_ok second]
              exact ih stepped (meets.next second)

end Agreement

end Lucciefr
