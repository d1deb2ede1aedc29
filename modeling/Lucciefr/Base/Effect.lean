import Mathlib.Data.Int.Basic

/-!
# Programs with a state and failures

Rules for programs in `EStateM`, where a failure keeps the state that was reached: what
a sequence does when its first part succeeds or fails, a loop over the indices of a
range, and a loop which ends when its body says so. Such a loop gets a number of turns,
so that "it returns" is a statement to be proved.
-/

namespace Lucciefr

universe u

variable {ε σ α β : Type u} {program : EStateM ε σ α} {next : α → EStateM ε σ β}
  {state reached : σ}

theorem bind_of_ok {value : α} (first : program state = .ok value reached) :
    (program >>= next) state = next value reached := by
  change EStateM.bind program next state = _
  rw [EStateM.bind, first]

theorem bind_of_error {failure : ε} (first : program state = .error failure reached) :
    (program >>= next) state = .error failure reached := by
  change EStateM.bind program next state = _
  rw [EStateM.bind, first]

@[simp]
theorem pure_eq_ok {value : α} : (pure value : EStateM ε σ α) state = .ok value state := rfl

@[simp]
theorem get_bind {next : σ → EStateM ε σ β} :
    ((get : EStateM ε σ σ) >>= next) state = next state state := rfl

@[simp]
theorem modify_eq_ok {change : σ → σ} :
    (modify change : EStateM ε σ PUnit) state = .ok ⟨⟩ (change state) := rfl

section Range

variable {ε σ Local : Type}

/-- The indices from `index` on, as many as given, with a local variable. -/
def forEach (body : ℤ → Local → EStateM ε σ Local) :
    (turns : ℕ) → (index : ℤ) → Local → EStateM ε σ Local
  | 0, _, held => pure held
  | turns + 1, index, held => do
      let held ← body index held
      forEach body turns (index + 1) held

/-- `for (index = first; index <= last; index++)` -/
def forRange (first last : ℤ) (initial : Local) (body : ℤ → Local → EStateM ε σ Local) :
    EStateM ε σ Local :=
  forEach body (last - first + 1).toNat first initial

variable {first last : ℤ} {body : ℤ → Local → EStateM ε σ Local} {initial : Local} {state : σ}

theorem forEach_add {turns more : ℕ} {index : ℤ} {held next : Local} {reached : σ}
    (ran : forEach body turns index held state = .ok next reached) :
    forEach body (turns + more) index held state =
      forEach body more (index + turns) next reached := by
  induction turns generalizing index held state with
  | zero =>
      cases ran
      rw [Nat.zero_add, Int.natCast_zero, Int.add_zero]
  | succ turns ih =>
      rw [forEach] at ran
      cases turn : body index held state with
      | ok first middle =>
          rw [bind_of_ok turn] at ran
          rw [Nat.succ_add, forEach, bind_of_ok turn, ih ran]
          congr 1
          push_cast
          omega
      | error failure middle =>
          rw [bind_of_error turn] at ran
          cases ran

/-- A loop which fails in its last turn. -/
theorem forEach_of_error {turns : ℕ} {index : ℤ} {held next : Local} {middle reached : σ}
    {failure : ε} (more : ℕ) (ran : forEach body turns index held state = .ok next middle)
    (failed : body (index + turns) next middle = .error failure reached) :
    forEach body (turns + (more + 1)) index held state = .error failure reached := by
  rw [forEach_add ran, forEach, bind_of_error failed]

end Range

section Loop

variable {ε σ α : Type}

/-- A loop whose body returns a value when it leaves the loop. -/
def loop (exhausted : ε) (body : EStateM ε σ (Option α)) : (turns : ℕ) → EStateM ε σ α
  | 0 => throw exhausted
  | turns + 1 => do
      match ← body with
      | some result => pure result
      | none => loop exhausted body turns

variable {exhausted : ε} {body : EStateM ε σ (Option α)} {turns : ℕ} {state reached : σ}

theorem loop_of_some {result : α} (last : body state = .ok (some result) reached) :
    loop exhausted body (turns + 1) state = .ok result reached := by
  rw [loop, bind_of_ok last]
  rfl

theorem loop_of_none (turn : body state = .ok none reached) :
    loop exhausted body (turns + 1) state = loop exhausted body turns reached := by
  rw [loop, bind_of_ok turn]

end Loop

end Lucciefr
