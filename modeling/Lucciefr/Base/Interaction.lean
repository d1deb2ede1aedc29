import Mathlib.Data.List.Basic

/-!
# Programs which call their environment

A program makes calls and continues with the answers. Between its calls other
parties act, so that a run is an interleaving of answered calls and background
events. A monitor follows the events of a run: it knows which events the
environment can produce in a state, and which of them are safe. Triples state
that a program only makes safe steps from the states of a precondition and ends
in a postcondition, whatever the answers and the interleaving are; the
precondition of a call has to be stable under the background events which may
come before it.
-/

namespace Lucciefr

universe u v w x y

/-- A program which makes calls and returns a result. -/
inductive Program (Call : Type u) (Answer : Call → Type v) (Result : Type w) :
    Type (max u v w) where
  | done (result : Result)
  | call (request : Call) (next : Answer request → Program Call Answer Result)

/-- An answered call of the program, or an event of another party. -/
inductive Event (Call : Type u) (Answer : Call → Type v) (Background : Type x) :
    Type (max u v x) where
  | call (request : Call) (answer : Answer request)
  | background (event : Background)

/-- What follows the events of a run. -/
structure Monitor (State : Type y) (Call : Type u) (Answer : Call → Type v)
    (Background : Type x) where
  next : State → Event Call Answer Background → State
  /-- The events which the environment can produce. -/
  Allows : State → Event Call Answer Background → Prop
  Safe : State → Event Call Answer Background → Prop

namespace Program

variable {Call : Type u} {Answer : Call → Type v} {Result Other : Type w}
  {Background : Type x}

def bind : Program Call Answer Result → (Result → Program Call Answer Other) →
    Program Call Answer Other
  | done result, rest => rest result
  | call request next, rest => call request fun answer => (next answer).bind rest

instance : Monad (Program Call Answer) where
  pure := done
  bind := bind

/-- The program which makes one call and returns its answer. -/
def request {Call : Type u} {Answer : Call → Type w} (made : Call) :
    Program Call Answer (Answer made) :=
  call made done

/-- The program only makes calls which are among the given ones. -/
inductive Makes (among : Call → Prop) : Program Call Answer Result → Prop
  | done (result : Result) : Makes among (done result)
  | call {request : Call} {next : Answer request → Program Call Answer Result}
      (here : among request) (rest : ∀ answer, Makes among (next answer)) :
      Makes among (call request next)

theorem Makes.bind {among : Call → Prop} {program : Program Call Answer Result}
    {rest : Result → Program Call Answer Other} (makes : program.Makes among)
    (restMakes : ∀ result, (rest result).Makes among) : (program >>= rest).Makes among := by
  induction makes with
  | done result => exact restMakes result
  | call here _ ih => exact .call here ih

theorem Makes.request {Answer : Call → Type w} {among : Call → Prop} {made : Call}
    (here : among made) : (Program.request made : Program Call Answer _).Makes among :=
  .call here .done

/-- The runs of a program, up to its return. Background events come before a call. -/
inductive Runs : Program Call Answer Result → List (Event Call Answer Background) → Result → Prop
  | done (result : Result) : Runs (done result) [] result
  | call {request : Call} {next : Answer request → Program Call Answer Result}
      {answer : Answer request} {events : List (Event Call Answer Background)} {result : Result}
      (rest : Runs (next answer) events result) :
      Runs (call request next) (.call request answer :: events) result
  | background {request : Call} {next : Answer request → Program Call Answer Result}
      {event : Background} {events : List (Event Call Answer Background)} {result : Result}
      (rest : Runs (call request next) events result) :
      Runs (call request next) (.background event :: events) result

/-- A run of two programs in sequence is a run of the first and a run of the second. -/
theorem Runs.split {program : Program Call Answer Result}
    {rest : Result → Program Call Answer Other} {events : List (Event Call Answer Background)}
    {result : Other} (runs : Runs (program >>= rest) events result) :
    ∃ first second middle, events = first ++ second ∧ Runs program first middle ∧
      Runs (rest middle) second result := by
  generalize whole_eq : program >>= rest = whole at runs
  induction runs generalizing program with
  | done result =>
      cases program with
      | done middle =>
          refine ⟨[], [], middle, rfl, .done middle, ?_⟩
          rw [show rest middle = .done result from whole_eq]
          exact .done result
      | call request next => cases whole_eq
  | @call request next answer events result runs ih =>
      cases program with
      | done middle =>
          refine ⟨[], _, middle, rfl, .done middle, ?_⟩
          rw [show rest middle = .call request next from whole_eq]
          exact .call runs
      | call made continuation =>
          cases whole_eq
          have sequence : continuation answer >>= rest = (continuation answer).bind rest := rfl
          rcases ih sequence with
            ⟨first, second, middle, rfl, firstRuns, secondRuns⟩
          exact ⟨.call request answer :: first, second, middle, rfl, .call firstRuns, secondRuns⟩
  | @background request next event events result runs ih =>
      cases program with
      | done middle =>
          refine ⟨[], _, middle, rfl, .done middle, ?_⟩
          rw [show rest middle = .call request next from whole_eq]
          exact .background runs
      | call made continuation =>
          rcases ih whole_eq with ⟨first, second, middle, rfl, firstRuns, secondRuns⟩
          cases first with
          | nil => cases firstRuns
          | cons firstEvent first =>
              exact ⟨.background event :: firstEvent :: first, second, middle, rfl,
                .background firstRuns, secondRuns⟩

end Program

namespace Monitor

variable {State : Type y} {Call : Type u} {Answer : Call → Type v} {Background : Type x}
  (monitor : Monitor State Call Answer Background)

/-- The state after the events. -/
def after (state : State) (events : List (Event Call Answer Background)) : State :=
  events.foldl monitor.next state

/-- Every event meets the condition in the state in which it happens. -/
def Throughout (condition : State → Event Call Answer Background → Prop) :
    State → List (Event Call Answer Background) → Prop
  | _, [] => True
  | state, event :: events =>
      condition state event ∧ Throughout condition (monitor.next state event) events

/-- The environment can produce the events, one after the other. -/
abbrev Possible : State → List (Event Call Answer Background) → Prop :=
  monitor.Throughout monitor.Allows

abbrev AllSafe : State → List (Event Call Answer Background) → Prop :=
  monitor.Throughout monitor.Safe

variable {monitor} {condition : State → Event Call Answer Background → Prop} {state : State}
  {first second events : List (Event Call Answer Background)}

@[simp]
theorem after_nil : monitor.after state [] = state := rfl

@[simp]
theorem after_cons {event : Event Call Answer Background} :
    monitor.after state (event :: events) = monitor.after (monitor.next state event) events := rfl

theorem after_append :
    monitor.after state (first ++ second) = monitor.after (monitor.after state first) second :=
  List.foldl_append

theorem throughout_append :
    monitor.Throughout condition state (first ++ second) ↔
      monitor.Throughout condition state first ∧
        monitor.Throughout condition (monitor.after state first) second := by
  induction first generalizing state with
  | nil => simp [Throughout]
  | cons event rest ih => simp [Throughout, ih, and_assoc]

/-- A condition holds throughout if it holds of each event after the ones before it. -/
theorem throughout_iff :
    monitor.Throughout condition state events ↔
      ∀ before event later, events = before ++ event :: later →
        condition (monitor.after state before) event := by
  constructor
  · rintro holds before event later rfl
    exact (throughout_append.mp holds).2.1
  · intro each
    induction events generalizing state with
    | nil => trivial
    | cons event events ih =>
        refine ⟨each [] event events rfl, ih ?_⟩
        rintro before other later rfl
        exact each (event :: before) other later rfl

end Monitor

section Triple

variable {State : Type y} {Call : Type u} {Answer : Call → Type v} {Background : Type x}
  {Result Other : Type w} {monitor : Monitor State Call Answer Background}
  {pre pre' : State → Prop} {program : Program Call Answer Result}
  {post post' : Result → State → Prop}

/-- From the states of `pre` the program only makes safe steps and ends in `post`. -/
def Triple (monitor : Monitor State Call Answer Background) (pre : State → Prop)
    (program : Program Call Answer Result) (post : Result → State → Prop) : Prop :=
  ∀ state events result, pre state → program.Runs events result →
    monitor.Possible state events →
    monitor.AllSafe state events ∧ post result (monitor.after state events)

/-- Background events are safe and keep the condition. -/
def Stable (monitor : Monitor State Call Answer Background) (condition : State → Prop) : Prop :=
  ∀ state event, condition state → monitor.Allows state (.background event) →
    monitor.Safe state (.background event) ∧ condition (monitor.next state (.background event))

namespace Triple

theorem done {result : Result} (holds : ∀ state, pre state → post result state) :
    Triple monitor pre (.done result) post := by
  intro state events returned preHolds runs _
  cases runs
  exact ⟨trivial, holds state preHolds⟩

theorem request {Answer : Call → Type w} {monitor : Monitor State Call Answer Background}
    {made : Call} {post : Answer made → State → Prop} (stable : Stable monitor pre)
    (answered : ∀ state answer, pre state → monitor.Allows state (.call made answer) →
      monitor.Safe state (.call made answer) ∧
        post answer (monitor.next state (.call made answer))) :
    Triple monitor pre (Program.request made) post := by
  intro state events result preHolds runs possible
  induction events generalizing state with
  | nil => cases runs
  | cons event events ih =>
      cases runs with
      | call rest =>
          cases rest
          rcases answered state result preHolds possible.1 with ⟨safe, postHolds⟩
          exact ⟨⟨safe, trivial⟩, postHolds⟩
      | @background _ _ event _ _ rest =>
          rcases stable state event preHolds possible.1 with ⟨safe, preNext⟩
          rcases ih _ preNext rest possible.2 with ⟨restSafe, postHolds⟩
          exact ⟨⟨safe, restSafe⟩, postHolds⟩

theorem bind {rest : Result → Program Call Answer Other} {final : Other → State → Prop}
    (first : Triple monitor pre program post)
    (second : ∀ result, Triple monitor (post result) (rest result) final) :
    Triple monitor pre (program >>= rest) final := by
  intro state events result preHolds runs possible
  rcases runs.split with ⟨before, later, middle, rfl, firstRuns, secondRuns⟩
  rcases Monitor.throughout_append.mp possible with ⟨beforePossible, laterPossible⟩
  rcases first state before middle preHolds firstRuns beforePossible with
    ⟨beforeSafe, postHolds⟩
  rcases second middle _ later result postHolds secondRuns laterPossible with
    ⟨laterSafe, finalHolds⟩
  rw [Monitor.after_append]
  exact ⟨Monitor.throughout_append.mpr ⟨beforeSafe, laterSafe⟩, finalHolds⟩

/-- An invariant of all the calls which a program makes is an invariant of the program. -/
theorem invariant {among : Call → Prop} (stable : Stable monitor pre)
    (kept : ∀ state request answer, among request → pre state →
      monitor.Allows state (.call request answer) →
      monitor.Safe state (.call request answer) ∧ pre (monitor.next state (.call request answer)))
    (makes : program.Makes among) : Triple monitor pre program fun _ => pre := by
  intro state events result preHolds runs possible
  induction runs generalizing state with
  | done result => exact ⟨trivial, preHolds⟩
  | @call request next answer events result runs ih =>
      cases makes with
      | call here restMakes =>
          rcases kept state request answer here preHolds possible.1 with ⟨safe, preNext⟩
          rcases ih (restMakes answer) _ preNext possible.2 with ⟨restSafe, postHolds⟩
          exact ⟨⟨safe, restSafe⟩, postHolds⟩
  | @background request next event events result runs ih =>
      rcases stable state event preHolds possible.1 with ⟨safe, preNext⟩
      rcases ih makes _ preNext possible.2 with ⟨restSafe, postHolds⟩
      exact ⟨⟨safe, restSafe⟩, postHolds⟩

theorem weaken (triple : Triple monitor pre program post)
    (stronger : ∀ state, pre' state → pre state)
    (weaker : ∀ result state, post result state → post' result state) :
    Triple monitor pre' program post' := by
  intro state events result preHolds runs possible
  rcases triple state events result (stronger state preHolds) runs possible with
    ⟨safe, postHolds⟩
  exact ⟨safe, weaker result _ postHolds⟩

end Triple

end Triple

end Lucciefr
