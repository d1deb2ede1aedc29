import Lucciefr.Luautils.Basic

/-!
# Packing and unpacking values

`luautils_xpack` and `luautils_xunpack` of `core/luautils.c`: some slots of the stack
as a table which knows their number, and such a table as slots of the stack. The
number is what keeps the nils at the end.
-/

namespace Lucciefr.Lua

/-- A table with these values at the positions from 1 on, and their number at 0. -/
structure Table.Packs (t : Table) (values : List Value) : Prop where
  value : ∀ i : ℕ, t.get (.integer (i + 1)) = values.getD i .nil
  count : t.get (.integer 0) = .integer values.length

namespace State

/-- The values at the indices from `first` to `last`. -/
def between (state : State) (first last : ℤ) : List Value :=
  (state.slots.drop (first - 1).toNat).take (last - first + 1).toNat

end State

section Lemmas

variable {runtime : Runtime} {build : Build} {state : State} {function : String}
  {idx first last : ℤ} {values : List Value} {t : Table} {address : ℕ}

theorem length_between (lower : 1 ≤ first) (upper : last ≤ state.top) :
    (state.between first last).length = (last - first + 1).toNat := by
  rw [State.top] at upper
  simp only [State.between, List.length_take, List.length_drop, State.length_slots]
  omega

/-- The first positions of the table hold the first values. -/
structure Table.PacksFirst (t : Table) (values : List Value) (count : ℕ) : Prop where
  value : ∀ i : ℕ, t.get (.integer (i + 1)) = if i < count then values.getD i .nil else .nil
  count : t.get (.integer 0) = .nil

theorem Table.PacksFirst.set {count : ℕ} {value : Value} (packs : t.PacksFirst values count)
    (next : values[count]? = some value) :
    (t.set (.integer (count + 1)) value (Value.integer_isKey _)).PacksFirst values (count + 1) := by
  constructor
  · intro i
    by_cases here : i = count
    · subst here
      rw [Table.get_set_self, if_pos (Nat.lt_succ_self i), List.getD_eq_getElem?_getD, next]
      rfl
    · have different : Value.integer (i + 1) ≠ Value.integer (count + 1) := by
        rw [ne_eq, Value.integer_inj]
        omega
      rw [Table.get_set_of_ne different, packs.value]
      split <;> split <;> first | rfl | omega
  · have different : Value.integer 0 ≠ Value.integer (count + 1) := by
      rw [ne_eq, Value.integer_inj]
      omega
    rw [Table.get_set_of_ne different, packs.count]

/-- Storing the count finishes the table. -/
theorem Table.PacksFirst.finish (packs : t.PacksFirst values values.length) :
    (t.set (.integer 0) (.integer values.length) (Value.integer_isKey 0)).Packs values := by
  constructor
  · intro i
    have different : Value.integer (i + 1) ≠ Value.integer 0 := by
      rw [ne_eq, Value.integer_inj]
      omega
    rw [Table.get_set_of_ne different, packs.value]
    split
    · rfl
    · rw [List.getD_eq_getElem?_getD, List.getElem?_eq_none (by omega)]
      rfl
  · rw [Table.get_set_self]

end Lemmas

end Lucciefr.Lua
