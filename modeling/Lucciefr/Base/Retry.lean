import Mathlib.Data.Nat.Notation
import Lucciefr.Base.Fault

/-!
# Loops which try again

The loop `do ... while (again)` over a local state, with a bound on its turns. There is
one rule for a loop which comes to an end, by a measure, and one for a loop which never
does.
-/

namespace Lucciefr

universe u v

variable {ε : Type u} {Local : Type v}

/-- `do body while (again)` -/
def doWhile (exhausted : ε) (again : Local → Bool) (body : Local → Except ε Local) :
    (turns : ℕ) → Local → Except ε Local
  | 0, _ => .error exhausted
  | turns + 1, held => do
      let next ← body held
      if again next then
        doWhile exhausted again body turns next
      else
        pure next

variable {exhausted : ε} {again : Local → Bool} {body : Local → Except ε Local}

/-- If every turn which is not the last one decreases the measure, then the loop ends. -/
theorem doWhile_returns {wanted : Local → Prop} (invariant : Local → Prop) (measure : Local → ℕ)
    (turn : ∀ held, invariant held → ∃ next, body held = .ok next ∧
      (again next = true → invariant next ∧ measure next < measure held) ∧
      (again next = false → wanted next))
    {held : Local} {turns : ℕ} (enough : measure held < turns) (holds : invariant held) :
    ∃ last, doWhile exhausted again body turns held = .ok last ∧ wanted last := by
  induction turns generalizing held with
  | zero => cases enough
  | succ turns ih =>
      rcases turn held holds with ⟨next, turned, continues, ends⟩
      rw [doWhile, turned, ok_bind]
      cases going : again next with
      | false => exact ⟨next, rfl, ends going⟩
      | true =>
          rcases continues going with ⟨kept, decreased⟩
          rw [if_pos rfl]
          exact ih (Nat.lt_of_lt_of_le decreased (Nat.le_of_lt_succ enough)) kept

/-- If no turn is the last one, then the loop never returns. -/
theorem doWhile_never_returns (invariant : Local → Prop)
    (turn : ∀ held next, invariant held → body held = .ok next →
      again next = true ∧ invariant next)
    {held last : Local} {turns : ℕ} (holds : invariant held) :
    doWhile exhausted again body turns held ≠ .ok last := by
  induction turns generalizing held with
  | zero => exact nofun
  | succ turns ih =>
      rw [doWhile]
      cases turned : body held with
      | error failure => exact nofun
      | ok next =>
          rcases turn held next holds turned with ⟨going, kept⟩
          rw [ok_bind, if_pos going]
          exact ih kept

end Lucciefr
