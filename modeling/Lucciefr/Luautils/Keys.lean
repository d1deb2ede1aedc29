import Mathlib.Data.List.GetD
import Lucciefr.Lua.Call
import Lucciefr.Luautils.Sequential

/-!
# The keys of a table

`luautils_table_keys` of `core/luautils.c`, which makes a list of the keys of a table.
A filter is called for each key. It can do anything but change the table; that it does
not change the list either needs no promise, as nothing but the stack of the calling
function refers to the list.
-/

namespace Lucciefr.Lua

/-- The local variables of `luautils_table_keys`. -/
structure KeysLoop where
  /-- An `int`, which counts no further than a table has entries. -/
  count : ℤ
  useKey : Bool

/-- Call the filter with the key on top of the stack. -/
def callFilter (runtime : Runtime) (code : ℕ → LuaM ℕ) (filter : ℤ) : LuaM Bool := do
  luaPushvalue filter
  luaPushvalue (-2)
  luaCall runtime code 1 1
  let useKey ← luaToboolean (-1)
  luaPop 1
  pure useKey

/-- The body of the loop of `luautils_table_keys`. -/
def keysTurn (runtime : Runtime) (code : ℕ → LuaM ℕ) (filter result : ℤ) (held : KeysLoop) :
    LuaM KeysLoop := do
  luaPop 1
  let useKey ← (if filter ≠ 0 then callFilter runtime code filter else pure held.useKey)
  if useKey then
    luaPushvalue (-1)
    luaRawseti runtime result (held.count + 1)
    pure ⟨held.count + 1, useKey⟩
  else
    pure ⟨held.count, useKey⟩

/-- The index of the filter, which is optional. -/
def filterIndex (runtime : Runtime) (filter : ℤ) : LuaM ℤ :=
  if filter ≠ 0 then do
    let filter ← luaAbsidx filter
    luaLChecktype runtime filter .function
    pure filter
  else
    pure filter

/-- `luautils_table_keys` -/
def luautilsTableKeys (runtime : Runtime) (code : ℕ → LuaM ℕ) (turns : ℕ) (table filter : ℤ) :
    LuaM ℤ := do
  let table ← luaAbsidx table
  luaLChecktype runtime table .table
  let filter ← filterIndex runtime filter
  luaNewtable runtime
  let result ← luaGettop
  luaPushnil
  let final ← whileNext runtime table (fun _ => true) (keysTurn runtime code filter result) turns
    ⟨0, true⟩
  pure final.count

/-- An optional function at an index, where 0 is for none. -/
def State.HoldsOptional (state : State) (idx : ℤ) : Option ℕ → Prop
  | none => idx = 0
  | some function => state.Holds idx (.function function)

/-- What the filter says about a key, and what it leaves behind. -/
def Asked (runtime : Runtime) (code : ℕ → LuaM ℕ) :
    (filter : Option ℕ) → Value → State → Bool → State → Prop
  | none, _, state, accepted, reached => accepted = true ∧ reached = state
  | some function, key, state, accepted, reached =>
      ∃ results, callValue runtime code (.function function) [key] state = .ok results reached ∧
        accepted = (results.headD .nil).truth

/-- The filter was called once for each of these keys, in this order, and the keys it
accepted were stored in the list. -/
inductive Filtered (runtime : Runtime) (code : ℕ → LuaM ℕ) (filter : Option ℕ) (result : ℕ)
    (start : State) : (keys kept : List Value) → State → Prop
  | start : Filtered runtime code filter result start [] [] start
  | skip {keys kept key base reached}
      (earlier : Filtered runtime code filter result start keys kept base)
      (asked : Asked runtime code filter key base false reached) :
      Filtered runtime code filter result start (keys ++ [key]) kept reached
  | take {keys kept key base reached list}
      (earlier : Filtered runtime code filter result start keys kept base)
      (asked : Asked runtime code filter key base true reached)
      (listed : reached.tables.cells result = some list) :
      Filtered runtime code filter result start (keys ++ [key]) (kept ++ [key])
        (reached.updateTable result
          (list.set (.integer (kept.length + 1)) key (Value.integer_isKey _)))

/-- Every call of the filter which is made returns, and leaves these two tables as they
are. -/
def FilterReturns (runtime : Runtime) (code : ℕ → LuaM ℕ) (filter : Option ℕ)
    (source result : ℕ) (keys : List Value) (start : State) : Prop :=
  ∀ visited key ahead kept base, keys = visited ++ key :: ahead →
    Filtered runtime code filter result start visited kept base →
      ∃ accepted reached, Asked runtime code filter key base accepted reached ∧
        reached.tables.cells source = base.tables.cells source ∧
        reached.tables.cells result = base.tables.cells result

/-- The entries of the table are these values, from 1 on. -/
structure Table.Lists (t : Table) (values : List Value) : Prop where
  sequence : t.IsSequence values.length
  value : ∀ i : ℕ, i < values.length → t.get (.integer (i + 1)) = values.getD i .nil

section Lemmas

variable {runtime : Runtime} {code : ℕ → LuaM ℕ} {filter : Option ℕ} {state start base : State}
  {table idx result : ℤ} {source address : ℕ} {t list : Table} {keys kept : List Value}
  {key value : Value} {held : KeysLoop}

theorem Table.lists_empty : Table.empty.Lists [] := by
  constructor
  · intro key
    constructor
    · intro keyMem
      cases keyMem
    · rintro ⟨i, first, last, -⟩
      rw [List.length_nil] at last
      omega
  · intro i inside
    cases inside

theorem Table.Lists.append (lists : list.Lists kept) (present : value ≠ .nil) :
    (list.set (.integer (kept.length + 1)) value (Value.integer_isKey _)).Lists
      (kept ++ [value]) := by
  constructor
  · rw [List.length_append, List.length_singleton]
    exact lists.sequence.set present
  · intro i inside
    rw [List.length_append, List.length_singleton] at inside
    by_cases latest : i = kept.length
    · subst latest
      rw [get_set_self, List.getD_append_right _ _ _ _ (le_refl _), Nat.sub_self]
      rfl
    · have earlier : i < kept.length := by omega
      rw [List.getD_append _ _ _ _ earlier, ← lists.value i earlier]
      apply get_set_of_ne
      rw [ne_eq, Value.integer_inj]
      omega

/-- A filter does not change the stack of its caller. -/
theorem Asked.stack_eq {accepted : Bool} {reached : State}
    (asked : Asked runtime code filter key base accepted reached) :
    reached.stack = base.stack := by
  cases filter with
  | none => rw [asked.2]
  | some function =>
      rcases asked with ⟨results, called, -⟩
      exact (callValue_of_stack [] called).1

theorem callFilter_eq {function : ℕ} {accepted : Bool} {reached : State} (positive : 0 < idx)
    (holds : base.Holds idx (.function function))
    (asked : Asked runtime code (some function) key base accepted reached) :
    callFilter runtime code idx (base.push key) = .ok accepted (reached.push key) := by
  rcases asked with ⟨results, called, rfl⟩
  rcases callValue_of_stack (key :: base.stack) called with ⟨kept, ran⟩
  have pushed : callValue runtime code (.function function) [key] (base.push key) =
      .ok results (reached.push key) := by
    rw [State.push, State.push, kept]
    exact ran
  rw [callFilter, bind_of_ok (luaPushvalue_of_holds (holds.push positive)),
    bind_of_ok (luaPushvalue_of_holds State.holds_second), bind_of_ok (luaCall_one pushed),
    bind_of_ok luaToboolean_first, bind_of_ok luaPop_first, pure_eq_ok]

/-- What is known when these entries were visited. -/
structure Listing (runtime : Runtime) (code : ℕ → LuaM ℕ) (filter : Option ℕ) (state : State)
    (address : ℕ) (t : Table) (visited : List (Value × Value)) (held : KeysLoop) (base : State) :
    Prop where
  stack_eq : base.stack = .table state.tables.bound :: state.stack
  source : base.tables.cells address = some t
  filtered : ∃ kept list, Filtered runtime code filter state.tables.bound
    ((state.newTable Table.empty).push (.table state.tables.bound)) (visited.map Prod.fst) kept
      base ∧ base.tables.cells state.tables.bound = some list ∧ list.Lists kept ∧
    held.count = kept.length
  unfiltered : filter = none → held.useKey = true

theorem State.Holds.of_stack {other : State} (holds : state.Holds idx value)
    (positive : 0 < idx) (stack_eq : other.stack = key :: state.stack) :
    other.Holds idx value := by
  apply holds.of_prefix positive
  rw [State.slots, State.slots, stack_eq, List.reverse_cons]
  exact List.prefix_append _ _

theorem holds_above (stack_eq : base.stack = value :: state.stack) :
    base.Holds (state.top + 1) value := by
  have positive : 0 < state.top + 1 := Int.lt_add_one_of_le State.top_nonneg
  have position : (state.top + 1).toNat - 1 = state.slots.length := by
    rw [State.top, State.length_slots]
    omega
  rw [State.holds_of_pos positive, position, State.slots, stack_eq, List.reverse_cons]
  exact List.getElem?_concat_length

theorem useKey_eq {accepted : Bool} {reached : State}
    (filterAt : state.HoldsOptional idx filter) (positive : filter ≠ none → 0 < idx)
    (stack_eq : base.stack = value :: state.stack)
    (asked : Asked runtime code filter key base accepted reached)
    (unfiltered : filter = none → held.useKey = true) :
    (if idx ≠ 0 then callFilter runtime code idx else pure held.useKey : LuaM Bool)
      (base.push key) = .ok accepted (reached.push key) := by
  cases filter with
  | none =>
      rw [State.HoldsOptional] at filterAt
      rw [if_neg (not_not_intro filterAt), pure_eq_ok, asked.1, asked.2, unfiltered rfl]
  | some function =>
      have above := positive nofun
      rw [if_pos (by omega)]
      exact callFilter_eq above (State.Holds.of_stack filterAt above stack_eq) asked

theorem keysTurn_keeps (filterAt : state.HoldsOptional idx filter)
    (positive : filter ≠ none → 0 < idx) (different : address ≠ state.tables.bound)
    (returns : FilterReturns runtime code filter address state.tables.bound t.map.keys
      ((state.newTable Table.empty).push (.table state.tables.bound))) :
    TurnKeeps (fun _ => true) (keysTurn runtime code idx (state.top + 1)) t
      (Listing runtime code filter state address t) := by
  rintro visited key value ahead held base split - ⟨stack_eq, source, filtered, unfiltered⟩
  rcases filtered with ⟨kept, list, filtered, listed, lists, count_eq⟩
  have keys_eq : t.map.keys = visited.map Prod.fst ++ key :: ahead.map Prod.fst := by
    rw [OrderedMap.keys, split, List.map_append, List.map_cons]
  have isKey : key.IsKey := t.keys key (by simp [keys_eq])
  have visited_eq : (visited ++ [(key, value)]).map Prod.fst = visited.map Prod.fst ++ [key] := by
    rw [List.map_append, List.map_singleton]
  rcases returns _ key _ kept base keys_eq filtered with
    ⟨accepted, reached, asked, sourceKept, listKept⟩
  have reached_stack := asked.stack_eq
  rw [stack_eq] at reached_stack
  rw [source] at sourceKept
  rw [listed] at listKept
  have useKey := useKey_eq filterAt positive stack_eq asked unfiltered
  cases accepted with
  | false =>
      refine ⟨⟨held.count, false⟩, reached, ?_, reached_stack, sourceKept, ?_, ?_⟩
      · rw [keysTurn, bind_of_ok luaPop_first, bind_of_ok useKey]
        rfl
      · rw [visited_eq]
        exact ⟨kept, list, filtered.skip asked, listKept, lists, count_eq⟩
      · rintro rfl
        cases asked.1
  | true =>
      have atResult : ((reached.push key).push key).Holds (state.top + 1)
          (.table state.tables.bound) :=
        (holds_above reached_stack).push_two (Int.lt_add_one_of_le State.top_nonneg)
      have stored := luaRawseti_push runtime (held.count + 1) atResult listKept
      have turned : keysTurn runtime code idx (state.top + 1) held
          ((base.push key).push value) = .ok ⟨held.count + 1, true⟩
            ((reached.updateTable state.tables.bound (list.set (.integer (kept.length + 1)) key
              (Value.integer_isKey _))).push key) := by
        rw [keysTurn, bind_of_ok luaPop_first, bind_of_ok useKey]
        simp only [if_true]
        rw [bind_of_ok (luaPushvalue_of_holds State.holds_first), bind_of_ok stored]
        simp only [count_eq]
        rfl
      refine ⟨_, _, turned, reached_stack, ?_, ?_, fun _ => rfl⟩
      · rw [State.cells_updateTable_of_ne different, sourceKept]
      · rw [visited_eq]
        refine ⟨kept ++ [key], _, filtered.take asked listKept, State.cells_updateTable listKept,
          lists.append isKey.1, ?_⟩
        rw [List.length_append, List.length_singleton, count_eq]
        push_cast
        rfl

theorem filterIndex_eq (filterAt : state.HoldsOptional idx filter) :
    ∃ absolute, filterIndex runtime idx state = .ok absolute state ∧
      state.HoldsOptional absolute filter ∧ (filter ≠ none → 0 < absolute) := by
  cases filter with
  | none =>
      rw [State.HoldsOptional] at filterAt
      refine ⟨0, ?_, rfl, fun absurdity => absurd rfl absurdity⟩
      rw [filterIndex, if_neg (not_not_intro filterAt), filterAt, pure_eq_ok]
  | some function =>
      rw [State.HoldsOptional] at filterAt
      refine ⟨state.absindex idx, ?_, filterAt.absolute, fun _ => filterAt.positive⟩
      have checked : luaLChecktype runtime (state.absindex idx) .function state = .ok () state :=
        luaLChecktype_of_holds filterAt.absolute
      rw [filterIndex, if_pos filterAt.nonzero, bind_of_ok luaAbsidx_eq, bind_of_ok checked,
        pure_eq_ok]

/--
The filter is called once for each key, in the order of the traversal, and the new table
lists the keys which it accepts. Nothing else is done to the stack.
-/
theorem luautilsTableKeys_lists (runtime : Runtime) (code : ℕ → LuaM ℕ) (state : State)
    (table idx : ℤ) (filter : Option ℕ) (address : ℕ) (t : Table)
    (holds : state.Holds table (.table address)) (live : state.tables.cells address = some t)
    (filterAt : state.HoldsOptional idx filter)
    (returns : FilterReturns runtime code filter address state.tables.bound t.map.keys
      ((state.newTable Table.empty).push (.table state.tables.bound))) :
    ∀ turns > t.map.entries.length, ∃ (kept : List Value) (list : Table) (reached : State),
      luautilsTableKeys runtime code turns table idx state = .ok kept.length reached ∧
      Filtered runtime code filter state.tables.bound
        ((state.newTable Table.empty).push (.table state.tables.bound)) t.map.keys kept reached ∧
      reached.stack = .table state.tables.bound :: state.stack ∧
      reached.tables.cells address = some t ∧
      reached.tables.cells state.tables.bound = some list ∧ list.Lists kept := by
  intro turns enough
  have different : address ≠ state.tables.bound := (Heap.lt_bound live).ne
  rcases filterIndex_eq filterAt with
    ⟨absolute, indexed, filterThere, positive⟩
  have start : Listing runtime code filter state address t [] ⟨0, true⟩
      ((state.newTable Table.empty).push (.table state.tables.bound)) := by
    refine ⟨rfl, ?_, ?_, fun _ => rfl⟩
    · exact (Heap.cells_alloc_of_ne different).trans live
    · exact ⟨[], Table.empty, .start, Heap.cells_alloc_self, Table.lists_empty, rfl⟩
  have traverses : Traverses (state.absindex table) address t
      (Listing runtime code filter state address t) := by
    rintro visited held base ⟨stack_eq, source, -⟩
    exact ⟨State.Holds.of_stack holds.absolute holds.positive stack_eq, source⟩
  have turn := keysTurn_keeps filterThere positive different returns
  rcases whileNext_all runtime holds.positive traverses turn ⟨0, true⟩ enough start with
    ⟨final, reached, run, stack_eq, source, ⟨kept, list, filtered, listed, lists, count_eq⟩, -⟩
  refine ⟨kept, list, reached, ?_, filtered, stack_eq, source, listed, lists⟩
  have created : luaNewtable runtime state =
      .ok () ((state.newTable Table.empty).push (.table state.tables.bound)) :=
    luaCreatetable_eq (by decide)
  have top_eq : ((state.newTable Table.empty).push (.table state.tables.bound)).top =
      state.top + 1 := by
    simp [State.top, State.newTable]
  rw [luautilsTableKeys, bind_of_ok luaAbsidx_eq, bind_of_ok (luaLChecktype_table holds.absolute),
    bind_of_ok indexed, bind_of_ok created, bind_of_ok luaGettop_eq, bind_of_ok luaPushnil_eq,
    top_eq, bind_of_ok run, pure_eq_ok, count_eq]

end Lemmas

/-- A function which tells whether its argument is 1. -/
def isOneCode (_ : ℕ) : LuaM ℕ := do
  let key ← index2adr 1
  push (.boolean (decide (key.getD .nil = .integer 1)))
  pure 1

theorem callValue_isOne {base : State} {key : Value}
    (live : base.closures.cells 0 = some ⟨0, [], .nil⟩) :
    callValue default isOneCode (.function 0) [key] base =
      .ok [.boolean (decide (key = .integer 1))] base := by
  have ran : callValue default isOneCode (.function 0) [key] base =
      .ok [.boolean (decide (key = .integer 1))] (base.leave ((base.enter ⟨0, [], .nil⟩ [key]).push
        (.boolean (decide (key = .integer 1)))) 0) :=
    callValue_of_ok default isOneCode live rfl (by simp)
  have unchanged : base.leave ((base.enter ⟨0, [], .nil⟩ [key]).push
      (.boolean (decide (key = .integer 1)))) 0 = base := by
    have closures_eq : (base.closures.adjust (some 0) fun closure =>
        { closure with upvalues := [], environment := .nil }) =
          base.closures.adjust (some 0) fun _ => ⟨0, [], .nil⟩ := Heap.adjust_congr live rfl
    rw [Heap.adjust_self live] at closures_eq
    exact congrArg (fun closures : Heap Closure => ({ base with closures := closures } : State))
      closures_eq
  rw [ran, unchanged]

theorem luautilsTableKeys_lists_pair :
    let state := (({ State.empty with closures := ((Heap.empty Closure).alloc
      ⟨0, [], .nil⟩).2 } : State).newTable Table.pair).push (.table 0)
    ∀ turns > 2, ∃ (kept : List Value) (list : Table) (reached : State),
      luautilsTableKeys default isOneCode turns (-2) (-1) (state.push (.function 0)) =
        .ok kept.length reached ∧
      Filtered default isOneCode (some 0) 1 ((((state.push (.function 0)).newTable
        Table.empty)).push (.table 1)) Table.pair.map.keys kept reached ∧
      reached.stack = [.table 1, .function 0, .table 0] ∧
      reached.tables.cells 0 = some Table.pair ∧
      reached.tables.cells 1 = some list ∧ list.Lists kept := by
  intro state
  have liveIn : ∀ keys kept base, Filtered default isOneCode (some 0) 1
      ((((state.push (.function 0)).newTable Table.empty)).push (.table 1)) keys kept base →
        base.closures.cells 0 = some ⟨0, [], .nil⟩ := by
    intro keys kept base filtered
    induction filtered with
    | start => rfl
    | skip earlier asked ih =>
        rcases asked with ⟨results, called, -⟩
        rw [callValue_isOne ih] at called
        cases called
        exact ih
    | take earlier asked listed ih =>
        rcases asked with ⟨results, called, -⟩
        rw [callValue_isOne ih] at called
        cases called
        exact ih
  have returns : FilterReturns default isOneCode (some 0) 0 1 Table.pair.map.keys
      ((((state.push (.function 0)).newTable Table.empty)).push (.table 1)) := by
    intro visited key ahead kept base _ filtered
    exact ⟨_, base, ⟨_, callValue_isOne (liveIn _ _ _ filtered), rfl⟩, rfl, rfl⟩
  exact luautilsTableKeys_lists default isOneCode (state.push (.function 0)) (-2) (-1) (some 0) 0
    Table.pair State.holds_second rfl State.holds_first returns

end Lucciefr.Lua
