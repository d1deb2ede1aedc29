import Lucciefr.Luautils.Pointers

/-!
# Searching a table for a value

`luautils_table_keyof` of `core/luautils.c`, which looks for the value on top of the
stack in a table and leaves the key in its place.
-/

namespace Lucciefr.Lua

/-- `lua_iscdata` -/
def luaIscdata (index : ℤ) : LuaM Bool := do
  return (← luaType index) = .cdata

/-- `luautils_equal` -/
def luautilsEqual (runtime : Runtime) (build : Build) (index1 index2 : ℤ) : LuaM Bool := do
  let cdata1 ← luaIscdata index1
  let cdata ← (if cdata1 then pure true else luaIscdata index2)
  if !cdata then
    luaEqual index1 index2
  else if ← luaIsnoneornil index1 then
    pure false
  else if ← luaIsnoneornil index2 then
    pure false
  else
    let ptr1 ← luautilsCheckptr runtime build index1
    let ptr2 ← luautilsCheckptr runtime build index2
    pure (ptr1 = ptr2)

/-- The body of the loop of `luautils_table_keyof`, and what follows the loop. -/
def keyofTurn (runtime : Runtime) (build : Build) (table : ℤ) : LuaM (Option Bool) := do
  if ← luaNext runtime table then
    if ← luautilsEqual runtime build (-1) (-3) then
      luaPop 1
      luaReplace (-2)
      pure (some true)
    else
      luaPop 1
      pure none
  else
    luaPop 1
    luaPushnil
    pure (some false)

/-- `luautils_table_keyof`, with a bound on the turns of its loop. -/
def luautilsTableKeyof (runtime : Runtime) (build : Build) (turns : ℕ) (table : ℤ) :
    LuaM Bool := do
  let table ← luaAbsidx table
  luaLChecktype runtime table .table
  luaPushnil
  if ← luaIsnil (-2) then
    pure false
  else
    loop (.undefined .divergence) (keyofTurn runtime build table) turns

/-- The first key with this value, in the order of the traversal, or nil. -/
def Table.keyof (t : Table) (value : Value) : Value :=
  ((t.map.entries.find? fun entry => entry.2.rawEqual value).map Prod.fst).getD .nil

/-- The value on top of the stack is replaced by its first key in the table or by nil,
the result tells which, and nothing else is changed. -/
def ReplacesByKey (runtime : Runtime) (build : Build) (table : ℤ) (t : Table) (value : Value)
    (state : State) : Prop :=
  ∀ turns > t.map.entries.length, ∃ found : Bool,
    luautilsTableKeyof runtime build turns table (state.push value) =
      .ok found (state.push (t.keyof value)) ∧
    (found = true ↔ ∃ entry ∈ t.map.entries, entry.2.rawEqual value = true)

section Lemmas

variable {runtime : Runtime} {build : Build} {state : State} {idx index1 index2 : ℤ}
  {address : ℕ} {t : Table} {key value first second third : Value}

theorem luaIscdata_of_holds (holds : state.Holds idx value) (plain : value.type ≠ .cdata) :
    luaIscdata idx state = .ok false state := by
  rw [luaIscdata, bind_of_ok (luaType_of_holds holds), decide_eq_false plain, pure_eq_ok]

theorem luautilsEqual_of_plain (holds1 : state.Holds index1 first)
    (holds2 : state.Holds index2 second) (plain1 : first.type ≠ .cdata)
    (plain2 : second.type ≠ .cdata) :
    luautilsEqual runtime build index1 index2 state = .ok (first.rawEqual second) state := by
  rw [luautilsEqual, bind_of_ok (luaIscdata_of_holds holds1 plain1)]
  simp only [Bool.false_eq_true, if_false]
  rw [bind_of_ok (luaIscdata_of_holds holds2 plain2)]
  simp only [Bool.not_false, if_true]
  rw [luaEqual, bind_of_ok (index2adr_of_holds holds1), bind_of_ok (index2adr_of_holds holds2)]
  simp

section Turn

variable (searched : (state.push value).Holds idx (.table address)) (positive : 0 < idx)
  (live : state.tables.cells address = some t)

include searched positive live

theorem keyofTurn_end (last : t.nextEntry key = some none) :
    keyofTurn runtime build idx ((state.push value).push key) =
      .ok (some false) (state.push .nil) := by
  rw [keyofTurn, bind_of_ok (luaNext_push_none (searched.push positive) live last)]
  simp only [Bool.false_eq_true, if_false]
  rw [bind_of_ok luaPop_first, bind_of_ok luaPushnil_eq, pure_eq_ok]

theorem keyofTurn_entry (runtime : Runtime) (build : Build)
    (next : t.nextEntry key = some (some (first, second)))
    (plainEntry : second.type ≠ .cdata) (plain : value.type ≠ .cdata) :
    keyofTurn runtime build idx ((state.push value).push key) =
      if second.rawEqual value then
        .ok (some true) (state.push first)
      else
        .ok none ((state.push value).push first) := by
  have third : (((state.push value).push first).push second).Holds (-3) value :=
    State.holds_of_neg (by decide : 2 < 9999) rfl
  rw [keyofTurn, bind_of_ok (luaNext_push_some (searched.push positive) live next)]
  simp only [if_true]
  rw [bind_of_ok (luautilsEqual_of_plain State.holds_first third plainEntry plain)]
  split
  · rw [bind_of_ok luaPop_first, bind_of_ok luaReplace_second, pure_eq_ok]
  · rw [bind_of_ok luaPop_first, pure_eq_ok]

/-- The loop, where the entries from `after` on are still to be visited. -/
theorem keyofLoop_eq (runtime : Runtime) (build : Build)
    (plainEntries : ∀ entry ∈ t.map.entries, entry.2.type ≠ .cdata)
    (plain : value.type ≠ .cdata) {before after : List (Value × Value)} {turns : ℕ}
    (split : t.map.entries = before ++ after) (next : t.nextEntry key = some after.head?)
    (enough : after.length < turns) :
    loop (.undefined .divergence) (keyofTurn runtime build idx) turns
        ((state.push value).push key) =
      .ok (after.any fun entry => entry.2.rawEqual value) (state.push
        (((after.find? fun entry => entry.2.rawEqual value).map Prod.fst).getD .nil)) := by
  induction after generalizing before key turns with
  | nil =>
      rcases turns with _ | turns
      · cases enough
      · rw [loop_of_some (keyofTurn_end searched positive live next)]
        rfl
  | cons entry after ih =>
      rcases entry with ⟨first, second⟩
      rcases turns with _ | turns
      · cases enough
      · have plainEntry := plainEntries (first, second) (by simp [split])
        have turn := keyofTurn_entry searched positive live runtime build next plainEntry plain
        by_cases same : second.rawEqual value = true
        · rw [if_pos same] at turn
          rw [loop_of_some turn]
          simp [same]
        · rw [if_neg same] at turn
          have regrouped : t.map.entries = (before ++ [(first, second)]) ++ after := by
            rw [split, List.append_assoc, List.singleton_append]
          have rest := ih regrouped (Table.nextEntry_of_split split)
            (Nat.lt_of_succ_lt_succ enough)
          rw [loop_of_none turn, rest]
          simp [same]

end Turn

/-- Up to the comparison of the value with nil. -/
theorem luautilsTableKeyof_eq (holds : (state.push value).Holds idx (.table address))
    {turns : ℕ} :
    luautilsTableKeyof runtime build turns idx (state.push value) =
      if value = .nil then
        .ok false ((state.push value).push .nil)
      else
        loop (.undefined .divergence)
          (keyofTurn runtime build ((state.push value).absindex idx)) turns
          ((state.push value).push .nil) := by
  have isnil : luaIsnil (-2) ((state.push value).push .nil) =
      .ok (decide (value = .nil)) ((state.push value).push .nil) := by
    rw [luaIsnil, bind_of_ok (luaType_of_holds State.holds_second), pure_eq_ok]
    simp only [Value.type_eq_nil]
  rw [luautilsTableKeyof, bind_of_ok luaAbsidx_eq,
    bind_of_ok (luaLChecktype_table holds.absolute), bind_of_ok luaPushnil_eq, bind_of_ok isnil]
  simp only [decide_eq_true_eq]
  split
  · rfl
  · rfl

/-- The quick exit leaves the value where it is, below another nil. -/
theorem not_replacesByKey_nil (holds : (state.push .nil).Holds idx (.table address)) :
    ¬ReplacesByKey runtime build idx t .nil state := by
  intro replaces
  rcases replaces _ (Nat.lt_succ_self _) with ⟨found, run, -⟩
  rw [luautilsTableKeyof_eq holds, if_pos rfl] at run
  injection run with _ same
  have sizes := congrArg (fun reached => reached.stack.length) same
  simp at sizes

/--
For every value other than nil, the search replaces the value as it promises. For nil
it never does.
-/
theorem replacesByKey_iff_ne_nil (holds : (state.push value).Holds idx (.table address))
    (live : state.tables.cells address = some t) (plain : value.type ≠ .cdata)
    (plainEntries : ∀ entry ∈ t.map.entries, entry.2.type ≠ .cdata) :
    ReplacesByKey runtime build idx t value state ↔ value ≠ .nil := by
  constructor
  · rintro replaces rfl
    exact not_replacesByKey_nil holds replaces
  · intro present turns enough
    have split : t.map.entries = [] ++ t.map.entries := rfl
    have searched := keyofLoop_eq holds.absolute holds.positive live runtime build plainEntries
      plain split Table.nextEntry_nil enough
    refine ⟨_, ?_, List.any_eq_true⟩
    rw [luautilsTableKeyof_eq holds, if_neg present, searched, Table.keyof]

end Lemmas

/-- A table with the entry `t[1] = true`. -/
def Table.singleTrue : Table :=
  Table.empty.set (.integer 1) (.boolean true) (Value.integer_isKey 1)

theorem replacesByKey_iff_ne_nil_true :
    let state := (State.empty.newTable Table.singleTrue).push (.table 0)
    ReplacesByKey default .x64 (-2) Table.singleTrue (.boolean true) state := by
  intro state
  have holds : (state.push (.boolean true)).Holds (-2) (.table 0) := State.holds_second
  have live : state.tables.cells 0 = some Table.singleTrue := Heap.cells_alloc_self
  exact (replacesByKey_iff_ne_nil holds live (by decide) (by decide)).mpr (by decide)

/-- The value nil, in a table without entries. -/
theorem not_replacesByKey_empty :
    let state := (State.empty.newTable Table.empty).push (.table 0)
    ¬ReplacesByKey default .x64 (-2) Table.empty .nil state := by
  intro state
  have holds : (state.push .nil).Holds (-2) (.table 0) := State.holds_second
  exact not_replacesByKey_nil holds

end Lucciefr.Lua
