import Lucciefr.Lua.Api

/-!
# Traversals of a table

The loop `while (lua_next(L, idx))`, in which the key on top of the stack is all that
the traversal remembers. Its rule is about an invariant on the entries which were
visited so far: a turn begins with the key and the value of an entry on the stack, and
has to leave the key there.
-/

namespace Lucciefr.Lua

variable {Local : Type}

/-- `while (condition && lua_next(L, idx))`, with a local variable and a bound on the
turns. -/
def whileNext (runtime : Runtime) (idx : ℤ) (condition : Local → Bool)
    (body : Local → LuaM Local) : (turns : ℕ) → Local → LuaM Local
  | 0, _ => throw (.undefined .divergence)
  | turns + 1, held =>
      if condition held then do
        if ← luaNext runtime idx then
          let next ← body held
          whileNext runtime idx condition body turns next
        else
          pure held
      else
        pure held

section Rule

variable {runtime : Runtime} {idx : ℤ} {condition : Local → Bool} {body : Local → LuaM Local}
  {address : ℕ} {t : Table} {invariant : List (Value × Value) → Local → State → Prop}

/-- The table is at the index whenever the invariant holds. -/
def Traverses (idx : ℤ) (address : ℕ) (t : Table)
    (invariant : List (Value × Value) → Local → State → Prop) : Prop :=
  ∀ visited held base, invariant visited held base →
    base.Holds idx (.table address) ∧ base.tables.cells address = some t

/-- Every turn leaves the key and keeps the invariant, or fails in one of these ways. -/
def TurnKeepsUnless (failed : Failure → State → Prop) (condition : Local → Bool)
    (body : Local → LuaM Local) (t : Table)
    (invariant : List (Value × Value) → Local → State → Prop) : Prop :=
  ∀ visited key value ahead held base, t.map.entries = visited ++ (key, value) :: ahead →
    condition held = true → invariant visited held base →
      (∃ next reached, body held ((base.push key).push value) = .ok next (reached.push key) ∧
        invariant (visited ++ [(key, value)]) next reached) ∨
      ∃ failure reached, body held ((base.push key).push value) = .error failure reached ∧
        failed failure reached

/-- Every turn leaves the key, and keeps the invariant. -/
def TurnKeeps (condition : Local → Bool) (body : Local → LuaM Local) (t : Table)
    (invariant : List (Value × Value) → Local → State → Prop) : Prop :=
  ∀ visited key value ahead held base, t.map.entries = visited ++ (key, value) :: ahead →
    condition held = true → invariant visited held base →
      ∃ next reached, body held ((base.push key).push value) = .ok next (reached.push key) ∧
        invariant (visited ++ [(key, value)]) next reached

/-- The ways in which a traversal can end. -/
inductive TraversalEnds (failed : Failure → State → Prop) (condition : Local → Bool) (t : Table)
    (invariant : List (Value × Value) → Local → State → Prop) :
    EStateM.Result Failure State Local → Prop
  /-- With the last entry. -/
  | complete {final reached} (going : condition final = true)
      (holds : invariant t.map.entries final reached) :
      TraversalEnds failed condition t invariant (.ok final reached)
  /-- When the condition fails, with a key on the stack. -/
  | early {final reached} (seen unseen last) (stopped : condition final = false)
      (split : t.map.entries = seen ++ unseen) (holds : invariant seen final reached) :
      TraversalEnds failed condition t invariant (.ok final (reached.push last))
  | failure {failure reached} (here : failed failure reached) :
      TraversalEnds failed condition t invariant (.error failure reached)

variable {failed : Failure → State → Prop}

theorem whileNext_from (positive : 0 < idx) (source : Traverses idx address t invariant)
    (turn : TurnKeepsUnless failed condition body t invariant)
    {visited ahead : List (Value × Value)} {held : Local} {base : State} {key : Value} {turns : ℕ}
    (split : t.map.entries = visited ++ ahead) (next : t.nextEntry key = some ahead.head?)
    (enough : ahead.length < turns) (holds : invariant visited held base) :
    TraversalEnds failed condition t invariant
      (whileNext runtime idx condition body turns held (base.push key)) := by
  induction ahead generalizing visited held base key turns with
  | nil =>
      rcases turns with _ | turns
      · cases enough
      · by_cases going : condition held = true
        · rcases source _ _ _ holds with ⟨atIdx, live⟩
          rw [List.append_nil] at split
          rw [whileNext, if_pos going,
            bind_of_ok (luaNext_push_none (atIdx.push positive) live next)]
          exact .complete going (split ▸ holds)
        · rw [Bool.not_eq_true] at going
          rw [whileNext, going]
          exact .early visited [] key going split holds
  | cons entry ahead ih =>
      rcases entry with ⟨first, second⟩
      rcases turns with _ | turns
      · cases enough
      · by_cases going : condition held = true
        · rcases source _ _ _ holds with ⟨atIdx, live⟩
          rw [whileNext, if_pos going,
            bind_of_ok (luaNext_push_some (atIdx.push positive) live next), if_pos rfl]
          rcases turn visited first second ahead held base split going holds with
            ⟨following, middle, turned, kept⟩ | ⟨failure, middle, turned, failedHere⟩
          · have regrouped : t.map.entries = (visited ++ [(first, second)]) ++ ahead := by
              rw [split, List.append_assoc, List.singleton_append]
            rw [bind_of_ok turned]
            exact ih regrouped (Table.nextEntry_of_split split) (Nat.lt_of_succ_lt_succ enough) kept
          · rw [bind_of_error turned]
            exact .failure failedHere
        · rw [Bool.not_eq_true] at going
          rw [whileNext, going]
          exact .early visited _ key going split holds

/-- The rule for a traversal. -/
theorem whileNext_ends (runtime : Runtime) (positive : 0 < idx)
    (source : Traverses idx address t invariant)
    (turn : TurnKeepsUnless failed condition body t invariant) {held : Local} {base : State}
    {turns : ℕ} (enough : t.map.entries.length < turns) (holds : invariant [] held base) :
    TraversalEnds failed condition t invariant
      (whileNext runtime idx condition body turns held (base.push .nil)) :=
  whileNext_from positive source turn rfl Table.nextEntry_nil enough holds

/-- The rule for a traversal in which no turn fails. -/
theorem whileNext_ok (runtime : Runtime) (positive : 0 < idx)
    (source : Traverses idx address t invariant)
    (turn : TurnKeeps condition body t invariant) {held : Local} {base : State} {turns : ℕ}
    (enough : t.map.entries.length < turns) (holds : invariant [] held base) :
    TraversalEnds (fun _ _ => False) condition t invariant
      (whileNext runtime idx condition body turns held (base.push .nil)) := by
  apply whileNext_ends runtime positive source _ enough holds
  intro visited key value ahead held base split going holds
  exact Or.inl (turn visited key value ahead held base split going holds)

/-- A loop without a condition visits every entry. -/
theorem whileNext_all (runtime : Runtime) (positive : 0 < idx)
    (source : Traverses idx address t invariant)
    (turn : TurnKeeps (fun _ => true) body t invariant) (held : Local) {base : State} {turns : ℕ}
    (enough : t.map.entries.length < turns) (holds : invariant [] held base) :
    ∃ final reached, whileNext runtime idx (fun _ => true) body turns held (base.push .nil) =
      .ok final reached ∧ invariant t.map.entries final reached := by
  generalize result_eq : whileNext runtime idx (fun _ => true) body turns held
    (base.push .nil) = result
  have ends := whileNext_ok runtime positive source turn enough holds
  rw [result_eq] at ends
  cases ends with
  | complete going visited => exact ⟨_, _, rfl, visited⟩
  | early seen unseen last stopped => cases stopped
  | failure failed => cases failed

end Rule

end Lucciefr.Lua
