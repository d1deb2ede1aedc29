import Lucciefr.Base.Effect

/-!
# Outcomes of programs with a state and failures

From a state, a program in `EStateM` returns into one postcondition, or fails into another.
There is a rule for each way to build such a program, so that a statement about a sequence
or a loop is put together from statements about its parts.
-/

namespace Lucciefr

universe u

/-- The program returns into one postcondition, or fails into the other one. -/
@[irreducible]
def Ends {ε σ α : Type u} (program : EStateM ε σ α) (state : σ) (returns : α → σ → Prop)
    (fails : ε → σ → Prop) : Prop :=
  match program state with
  | .ok value reached => returns value reached
  | .error failure reached => fails failure reached

namespace Ends

section Rules

variable {ε σ α β : Type u} {program : EStateM ε σ α} {next : α → EStateM ε σ β} {state reached : σ}
  {returns weaker : α → σ → Prop} {later : β → σ → Prop} {fails : ε → σ → Prop}

theorem of_ok {value : α} (returned : program state = .ok value reached)
    (holds : returns value reached) : Ends program state returns fails := by
  rw [Ends, returned]
  exact holds

theorem of_error {failure : ε} (failed : program state = .error failure reached)
    (holds : fails failure reached) : Ends program state returns fails := by
  rw [Ends, failed]
  exact holds

theorem bind (first : Ends program state returns fails)
    (rest : ∀ value reached, returns value reached → Ends (next value) reached later fails) :
    Ends (program >>= next) state later fails := by
  rw [Ends] at first
  cases ran : program state with
  | ok value reached =>
      rw [ran] at first
      have ends := rest value reached first
      rw [Ends] at ends ⊢
      rw [bind_of_ok ran]
      exact ends
  | error failure reached =>
      rw [ran] at first
      exact of_error (bind_of_error ran) first

theorem weaken (ends : Ends program state returns fails)
    (follows : ∀ value reached, returns value reached → weaker value reached) :
    Ends program state weaker fails := by
  rw [Ends] at ends ⊢
  cases ran : program state with
  | ok value reached =>
      rw [ran] at ends
      exact follows value reached ends
  | error failure reached =>
      rw [ran] at ends
      exact ends

/-- A first part whose result is known. -/
theorem bind_of_ok {value : α} (first : program state = .ok value reached)
    (rest : Ends (next value) reached later fails) :
    Ends (program >>= next) state later fails := by
  rw [Ends] at rest ⊢
  rw [Lucciefr.bind_of_ok first]
  exact rest

theorem get_bind {next : σ → EStateM ε σ β} (rest : Ends (next state) state later fails) :
    Ends ((get : EStateM ε σ σ) >>= next) state later fails :=
  bind_of_ok rfl rest

theorem modify_bind {next : PUnit → EStateM ε σ β} {change : σ → σ}
    (rest : Ends (next ⟨⟩) (change state) later fails) :
    Ends ((modify change : EStateM ε σ PUnit) >>= next) state later fails :=
  bind_of_ok rfl rest

end Rules

section Loop

variable {ε σ α : Type} {body : EStateM ε σ (Option α)} {exhausted : ε}
  {returns : α → σ → Prop} {fails : ε → σ → Prop}

/-- Each turn which is not the last one keeps the invariant with a smaller measure. -/
theorem loop (invariant : ℕ → σ → Prop)
    (turn : ∀ measure state, invariant measure state →
      Ends body state
        (fun result reached =>
          match result with
          | some value => returns value reached
          | none => ∃ smaller < measure, invariant smaller reached) fails)
    {measure turns : ℕ} {state : σ} (enough : measure < turns) (holds : invariant measure state) :
    Ends (loop exhausted body turns) state returns fails := by
  induction turns generalizing measure state with
  | zero => cases enough
  | succ turns ih =>
      rw [Lucciefr.loop]
      apply (turn measure state holds).bind
      intro result reached after
      cases result with
      | some value => exact of_ok rfl after
      | none =>
          rcases after with ⟨smaller, less, kept⟩
          exact ih (Nat.lt_of_lt_of_le less (Nat.le_of_lt_succ enough)) kept

end Loop

end Ends

end Lucciefr
