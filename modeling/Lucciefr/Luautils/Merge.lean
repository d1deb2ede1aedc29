import Lucciefr.Lua.Traversal
import Lucciefr.Luautils.Pack

/-!
# Merging tables

`luautils_table_merge` of `core/luautils.c`, which copies the entries of the tables in a
range of slots to another table. The destination can be one of them; at its turn every
entry is stored where it is already.
-/

namespace Lucciefr.Lua

/-- The body of the loop over a table. -/
def mergeTurn (runtime : Runtime) (dest : ℤ) : LuaM Unit := do
  luaPushvalue (-2)
  luaInsert (-2)
  luaSettable runtime dest

/-- The body of the loop over the slots. -/
def mergeSlot (runtime : Runtime) (turns : ℕ) (dest index : ℤ) : LuaM Unit := do
  match ← luaType index with
  | .nil => pure ()
  | .table => do
      luaPushnil
      whileNext runtime index (fun _ => true) (fun _ => mergeTurn runtime dest) turns ()
  | other =>
      errMsg runtime s!"bad argument #{index} to '{runtime.fname}' (table or nil expected, got {
        other.name})"

/-- `luautils_table_merge`; the indices `from` and `to` are called `first` and `last`. -/
def luautilsTableMerge (runtime : Runtime) (turns : ℕ) (first last dest : ℤ) : LuaM Unit := do
  let dest ← luaChkabsidx runtime "luautils_table_merge" dest
  luaLChecktype runtime dest .table
  let first ← luaChkabsidx runtime "luautils_table_merge" first
  let last ← luaChkabsidx runtime "luautils_table_merge" last
  forRange first last () fun index _ => mergeSlot runtime turns dest index

/-- The error about a slot which can not be merged. -/
def Runtime.unmergeable (runtime : Runtime) (index : ℤ) (value : Value) : Value :=
  .string (runtime.located (characters s!"bad argument #{index} to '{
    runtime.fname}' (table or nil expected, got {value.type.name})"))

namespace State

/-- A slot which can be merged. -/
def Mergeable (state : State) (value : Value) : Prop :=
  value = .nil ∨ ∃ address t, value = .table address ∧ state.tables.cells address = some t

/-- The table behind a value, if it is not the destination. -/
def source (state : State) (destination : ℕ) : Value → Option Table
  | .table address => if address = destination then none else state.tables.cells address
  | _ => none

/-- The tables among these values, without the destination. -/
def sources (state : State) (destination : ℕ) (values : List Value) : List Table :=
  values.filterMap (state.source destination)

end State

/-- Every key has the value from the last of the sources which contain it, or the old
value. -/
structure Table.MergedFrom (sources : List Table) (before after : Table) : Prop where
  last : ∀ key earlier t later, sources = earlier ++ t :: later → key ∈ t.map.keys →
    (∀ other ∈ later, key ∉ other.map.keys) → after.get key = t.get key
  old : ∀ key, (∀ t ∈ sources, key ∉ t.map.keys) → after.get key = before.get key

namespace Table

/-- Store an entry of a table. -/
def put (t : Table) (entry : Value × Value) : Table :=
  if isKey : entry.1.IsKey then t.set entry.1 entry.2 isKey else t

/-- Store all entries of another table. -/
def merge (t source : Table) : Table :=
  source.map.entries.foldl put t

variable {t source : Table} {sources : List Table} {entries : List (Value × Value)}
  {key value : Value}

theorem put_of_mem (entryMem : (key, value) ∈ source.map.entries) :
    t.put (key, value) =
      t.set key value (isKey_of_mem entryMem) := by
  rw [put, dif_pos]

theorem get_foldl_put_of_ne (absent : ∀ entry ∈ entries, entry.1 ≠ key) :
    (entries.foldl put t).get key = t.get key := by
  induction entries generalizing t with
  | nil => rfl
  | cons entry entries ih =>
      rw [List.foldl_cons, ih fun other otherMem => absent other (List.mem_cons_of_mem _ otherMem),
        put]
      split
      · exact get_set_of_ne (absent entry (by simp)).symm
      · rfl

theorem get_merge_of_notMem (absent : key ∉ source.map.keys) :
    (t.merge source).get key = t.get key := by
  apply get_foldl_put_of_ne
  rintro entry entryMem rfl
  exact absent (OrderedMap.mem_keys_of_mem entryMem)

theorem get_merge_of_mem (present : key ∈ source.map.keys) :
    (t.merge source).get key = source.get key := by
  rcases List.mem_map.mp present with ⟨⟨found, value⟩, entryMem, rfl⟩
  rcases List.append_of_mem entryMem with ⟨earlier, later, split⟩
  have unique := source.map.nodup
  rw [split, List.map_append, List.map_cons, List.nodup_append, List.nodup_cons] at unique
  have absent : ∀ entry ∈ later, entry.1 ≠ found := by
    rintro entry laterMem rfl
    exact unique.2.1.1 (List.mem_map.mpr ⟨entry, laterMem, rfl⟩)
  rw [merge, split, List.foldl_append, List.foldl_cons, get_foldl_put_of_ne absent,
    put_of_mem entryMem, get_set_self]
  exact ((get_eq_iff (source.values _ entryMem)).mpr entryMem).symm

theorem get_foldl_merge (absent : ∀ t ∈ sources, key ∉ t.map.keys) :
    (sources.foldl merge t).get key = t.get key := by
  induction sources generalizing t with
  | nil => rfl
  | cons source sources ih =>
      rw [List.foldl_cons, ih fun other otherMem => absent other (List.mem_cons_of_mem _ otherMem),
        get_merge_of_notMem (absent source (by simp))]

theorem mergedFrom_foldl : MergedFrom sources t (sources.foldl merge t) := by
  constructor
  · intro key earlier source later split present absent
    rw [split, List.foldl_append, List.foldl_cons, get_foldl_merge absent,
      get_merge_of_mem present]
  · intro key absent
    exact get_foldl_merge absent

end Table

section Lemmas

variable {runtime : Runtime} {state : State} {dest index : ℤ} {destination address turns : ℕ}
  {t source : Table} {key value : Value} {values before rest : List Value}

/-- What is known when these entries were stored. -/
def Merging (state : State) (destination : ℕ) (t : Table) (visited : List (Value × Value))
    (_ : Unit) (base : State) : Prop :=
  base = state.updateTable destination (visited.foldl Table.put t)

theorem mergeTurn_push (runtime : Runtime) (value : Value)
    (holds : state.Holds dest (.table destination)) (positive : 0 < dest)
    (live : state.tables.cells destination = some t) (isKey : key.IsKey) :
    mergeTurn runtime dest ((state.push key).push value) =
      .ok () ((state.updateTable destination (t.set key value isKey)).push key) := by
  have stored := luaSettable_push runtime (state.push key) key value
    ((holds.push positive).push_two positive) live isKey
  rw [mergeTurn, bind_of_ok (luaPushvalue_of_holds State.holds_second), bind_of_ok luaInsert_second,
    stored]
  rfl

/-- At its own turn the destination keeps its entries. -/
theorem whileNext_merge_self (positive : 0 < dest) (holds : state.Holds dest (.table destination))
    (live : state.tables.cells destination = some t) (indexPositive : 0 < index)
    (atIndex : state.Holds index (.table destination)) (enough : t.map.entries.length < turns) :
    whileNext runtime index (fun _ => true) (fun _ => mergeTurn runtime dest) turns ()
      (state.push .nil) = .ok () state := by
  have traverses : Traverses index destination t fun _ (_ : Unit) base => base = state := by
    rintro visited held base rfl
    exact ⟨atIndex, live⟩
  have turn : TurnKeeps (fun _ => true) (fun _ => mergeTurn runtime dest) t
      fun _ (_ : Unit) base => base = state := by
    rintro visited key value ahead held base split - rfl
    have entryMem : (key, value) ∈ t.map.entries := by simp [split]
    have turned := mergeTurn_push runtime value holds positive live (Table.isKey_of_mem entryMem)
    rw [Table.set_self entryMem, State.updateTable_self live] at turned
    exact ⟨(), base, turned, rfl⟩
  rcases whileNext_all runtime indexPositive traverses turn () enough rfl with
    ⟨final, reached, run, rfl⟩
  exact run

theorem whileNext_merge (positive : 0 < dest) (holds : state.Holds dest (.table destination))
    (live : state.tables.cells destination = some t) (indexPositive : 0 < index)
    (atIndex : state.Holds index (.table address)) (other : address ≠ destination)
    (sourceLive : state.tables.cells address = some source)
    (enough : source.map.entries.length < turns) :
    whileNext runtime index (fun _ => true) (fun _ => mergeTurn runtime dest) turns ()
      (state.push .nil) = .ok () (state.updateTable destination (t.merge source)) := by
  have traverses : Traverses index address source (Merging state destination t) := by
    rintro visited held base rfl
    refine ⟨atIndex.updateTable, ?_⟩
    rw [State.cells_updateTable_of_ne other, sourceLive]
  have turn : TurnKeeps (fun _ => true) (fun _ => mergeTurn runtime dest) source
      (Merging state destination t) := by
    rintro visited key value ahead held base split - rfl
    have entryMem : (key, value) ∈ source.map.entries := by simp [split]
    refine ⟨(), _, mergeTurn_push runtime value holds.updateTable positive
      (State.cells_updateTable live) (Table.isKey_of_mem entryMem), ?_⟩
    rw [State.updateTable_updateTable]
    simp only [Merging, List.foldl_append, List.foldl_cons, List.foldl_nil,
      Table.put_of_mem entryMem]
  have start : Merging state destination t [] () state := (State.updateTable_self live).symm
  rcases whileNext_all runtime indexPositive traverses turn () enough start
    with ⟨final, reached, run, rfl⟩
  exact run

theorem sources_updateTable : (state.updateTable destination t).sources destination values =
    state.sources destination values := by
  have same : (state.updateTable destination t).source destination =
      state.source destination := by
    funext value
    cases value with
    | table address =>
        by_cases here : address = destination
        · rw [State.source, if_pos here, State.source, if_pos here]
        · rw [State.source, if_neg here, State.source, if_neg here,
            State.cells_updateTable_of_ne here]
    | _ => rfl
  rw [State.sources, same, State.sources]

theorem State.Mergeable.updateTable (mergeable : state.Mergeable value)
    (live : state.tables.cells destination = some t) {after : Table} :
    (state.updateTable destination after).Mergeable value := by
  rcases mergeable with rfl | ⟨address, held, rfl, heldLive⟩
  · exact Or.inl rfl
  · by_cases here : address = destination
    · exact Or.inr ⟨address, after, rfl, here ▸ State.cells_updateTable live⟩
    · exact Or.inr ⟨address, held, rfl, by rw [State.cells_updateTable_of_ne here, heldLive]⟩

theorem mergeSlot_error (atIndex : state.Holds index value) (notNil : value.type ≠ .nil)
    (notTable : value.type ≠ .table) :
    mergeSlot runtime turns dest index state =
      .error (.raised (runtime.unmergeable index value)) state := by
  rw [Runtime.unmergeable, mergeSlot, bind_of_ok (luaType_of_holds atIndex)]
  cases type_eq : value.type with
  | nil => exact absurd type_eq notNil
  | table => exact absurd type_eq notTable
  | _ => rfl

/-- What becomes of the destination at one slot. -/
theorem mergeSlot_ok (positive : 0 < dest) (holds : state.Holds dest (.table destination))
    (live : state.tables.cells destination = some t) (indexPositive : 0 < index)
    (atIndex : state.Holds index value) (mergeable : state.Mergeable value) :
    ∃ enough, ∀ turns ≥ enough, mergeSlot runtime turns dest index state =
      .ok () (state.updateTable destination
        ((state.sources destination [value]).foldl Table.merge t)) := by
  have slotType := luaType_of_holds atIndex
  rcases mergeable with rfl | ⟨address, source, rfl, sourceLive⟩
  · refine ⟨0, fun turns _ => ?_⟩
    rw [mergeSlot, bind_of_ok slotType]
    exact congrArg (EStateM.Result.ok ()) (State.updateTable_self live).symm
  · refine ⟨source.map.entries.length + 1, fun turns enough => ?_⟩
    rw [Value.type] at slotType
    rw [mergeSlot, bind_of_ok slotType]
    simp only []
    rw [bind_of_ok luaPushnil_eq]
    by_cases here : address = destination
    · subst here
      rw [live, Option.some.injEq] at sourceLive
      subst sourceLive
      have excluded : state.sources address [.table address] = [] := by
        simp [State.sources, State.source]
      rw [whileNext_merge_self positive holds live indexPositive atIndex (by omega), excluded,
        List.foldl_nil, State.updateTable_self live]
    · have included : state.sources destination [.table address] = [source] := by
        simp [State.sources, State.source, here, sourceLive]
      rw [whileNext_merge positive holds live indexPositive atIndex here sourceLive (by omega),
        included]
      rfl

/-- The slots are merged one after another. -/
theorem forEach_mergeSlot (positive : 0 < dest) (holds : state.Holds dest (.table destination))
    (live : state.tables.cells destination = some t)
    (split : state.slots = before ++ (values ++ rest)) (index_eq : index = before.length + 1)
    (each : ∀ value ∈ values, state.Mergeable value) :
    ∃ enough, ∀ turns ≥ enough,
      forEach (fun index (_ : Unit) => mergeSlot runtime turns dest index) values.length index ()
        state = .ok () (state.updateTable destination
          ((state.sources destination values).foldl Table.merge t)) := by
  induction values generalizing state t before index with
  | nil =>
      refine ⟨0, fun turns _ => ?_⟩
      exact congrArg (EStateM.Result.ok ()) (State.updateTable_self live).symm
  | cons value values ih =>
      have slot : state.slots[index.toNat - 1]? = some value := by
        have position : index.toNat - 1 = before.length := by omega
        rw [position, split, List.getElem?_append_right (le_refl _), Nat.sub_self]
        rfl
      have indexPositive : 0 < index := by omega
      have atIndex := (State.holds_of_pos indexPositive).mpr slot
      rcases mergeSlot_ok positive holds live indexPositive atIndex (each value (by simp)) with
        ⟨enough, first⟩
      have regrouped : (state.updateTable destination
          ((state.sources destination [value]).foldl Table.merge t)).slots =
          (before ++ [value]) ++ (values ++ rest) := by
        rw [List.append_assoc]
        exact split
      have later : ∀ other ∈ values, (state.updateTable destination
          ((state.sources destination [value]).foldl Table.merge t)).Mergeable other :=
        fun other otherMem => (each other (List.mem_cons_of_mem _ otherMem)).updateTable live
      have next_eq : index + 1 = ((before ++ [value]).length : ℤ) + 1 := by
        rw [List.length_append, List.length_singleton]
        omega
      rcases ih holds.updateTable (State.cells_updateTable live) regrouped next_eq later with
        ⟨enoughLater, others⟩
      refine ⟨max enough enoughLater, fun turns many => ?_⟩
      have run := others turns (le_trans (le_max_right _ _) many)
      rw [List.length_cons, forEach,
        bind_of_ok (first turns (le_trans (le_max_left _ _) many)), run, sources_updateTable,
        State.updateTable_updateTable]
      have parts : state.sources destination (value :: values) =
          state.sources destination [value] ++ state.sources destination values :=
        List.filterMap_append (l := [value])
      rw [parts, List.foldl_append]

/-- The slots before a range, in it, and behind it. -/
theorem slots_eq_between {first last : ℤ} :
    state.slots = state.slots.take (first - 1).toNat ++ (state.between first last ++
      (state.slots.drop (first - 1).toNat).drop (last - first + 1).toNat) := by
  rw [State.between, List.take_append_drop, List.take_append_drop]

theorem between_of_lt {first last : ℤ} (beyond : last < first) :
    state.between first last = [] := by
  have none_left : (last - first + 1).toNat = 0 := by omega
  rw [State.between, none_left, List.take_zero]

theorem luautilsTableMerge_eq {first last : ℤ} (holds : state.Holds dest (.table destination))
    (firstNonzero : first ≠ 0) (lastNonzero : last ≠ 0) :
    luautilsTableMerge runtime turns first last dest state =
      forRange (state.absindex first) (state.absindex last) ()
        (fun index _ => mergeSlot runtime turns (state.absindex dest) index) state := by
  rw [luautilsTableMerge, bind_of_ok (luaChkabsidx_eq holds.nonzero),
    bind_of_ok (luaLChecktype_table holds.absolute),
    bind_of_ok (luaChkabsidx_eq firstNonzero), bind_of_ok (luaChkabsidx_eq lastNonzero)]

/-- The slots from `first` on, as many as given. -/
theorem forEach_mergeSlot_between {first last : ℤ} (positive : 0 < dest)
    (holds : state.Holds dest (.table destination))
    (live : state.tables.cells destination = some t)
    (range : first ≤ last → 1 ≤ first ∧ last ≤ state.top)
    (each : ∀ value ∈ state.between first last, state.Mergeable value) :
    ∃ enough, ∀ turns ≥ enough,
      forEach (fun index (_ : Unit) => mergeSlot runtime turns dest index)
        (last - first + 1).toNat first () state = .ok () (state.updateTable destination
          ((state.sources destination (state.between first last)).foldl Table.merge t)) := by
  rcases lt_or_ge last first with beyond | inOrder
  · have none_left : (last - first + 1).toNat = 0 := by omega
    refine ⟨0, fun turns _ => ?_⟩
    rw [none_left, between_of_lt beyond]
    exact congrArg (EStateM.Result.ok ()) (State.updateTable_self live).symm
  · rcases range inOrder with ⟨lower, upper⟩
    have sizes : (state.slots.take (first - 1).toNat).length = (first - 1).toNat := by
      rw [List.length_take, State.length_slots]
      rw [State.top] at upper
      omega
    have first_eq : first = (state.slots.take (first - 1).toNat).length + 1 := by
      rw [sizes]
      omega
    rcases forEach_mergeSlot positive holds live slots_eq_between first_eq each with ⟨enough, run⟩
    rw [length_between lower upper] at run
    exact ⟨enough, run⟩

/--
Every key of the destination gets the value from the last of the other tables in the
range which contain it. At the first slot with another value the error about this slot is
raised.
-/
theorem luautilsTableMerge_mergedFrom (runtime : Runtime) (state : State) (first last dest : ℤ)
    (destination : ℕ) (t : Table) (holds : state.Holds dest (.table destination))
    (live : state.tables.cells destination = some t) (firstNonzero : first ≠ 0)
    (lastNonzero : last ≠ 0)
    (range : state.absindex first ≤ state.absindex last →
      1 ≤ state.absindex first ∧ state.absindex last ≤ state.top) :
    ((∀ value ∈ state.between (state.absindex first) (state.absindex last),
        state.Mergeable value) →
      ∃ enough after, t.MergedFrom (state.sources destination
          (state.between (state.absindex first) (state.absindex last))) after ∧
        ∀ turns ≥ enough, luautilsTableMerge runtime turns first last dest state =
          .ok () (state.updateTable destination after)) ∧
    ∀ index value, state.absindex first ≤ index → index ≤ state.absindex last →
      state.slots[index.toNat - 1]? = some value → value.type ≠ .nil → value.type ≠ .table →
      (∀ earlier ∈ state.between (state.absindex first) (index - 1), state.Mergeable earlier) →
        ∃ enough after, t.MergedFrom (state.sources destination
            (state.between (state.absindex first) (index - 1))) after ∧
          ∀ turns ≥ enough, luautilsTableMerge runtime turns first last dest state =
            .error (.raised (runtime.unmergeable index value))
              (state.updateTable destination after) := by
  constructor
  · intro each
    rcases forEach_mergeSlot_between holds.positive holds.absolute live range each with
      ⟨enough, run⟩
    refine ⟨enough, _, Table.mergedFrom_foldl, fun turns many => ?_⟩
    rw [luautilsTableMerge_eq holds firstNonzero lastNonzero, forRange, run turns many]
  · intro index value lower upper slot notNil notTable each
    rcases range (le_trans lower upper) with ⟨positive, inside⟩
    have earlierRange : state.absindex first ≤ index - 1 →
        1 ≤ state.absindex first ∧ index - 1 ≤ state.top := fun _ => ⟨positive, by omega⟩
    rcases forEach_mergeSlot_between holds.positive holds.absolute live earlierRange each with
      ⟨enough, run⟩
    have atIndex := (State.holds_of_pos (by omega)).mpr slot
    have mergedFrom : t.MergedFrom
        (state.sources destination (state.between (state.absindex first) (index - 1)))
        ((state.sources destination (state.between (state.absindex first) (index - 1))).foldl
          Table.merge t) := Table.mergedFrom_foldl
    generalize (state.sources destination
      (state.between (state.absindex first) (index - 1))).foldl Table.merge t = after
      at run mergedFrom
    refine ⟨enough, after, mergedFrom, fun turns many => ?_⟩
    have position : state.absindex first + ((index - 1 - state.absindex first + 1).toNat : ℕ) =
        index := by omega
    have count : (state.absindex last - state.absindex first + 1).toNat =
        (index - 1 - state.absindex first + 1).toNat +
          ((state.absindex last - index).toNat + 1) := by
      omega
    rw [luautilsTableMerge_eq holds firstNonzero lastNonzero, forRange, count]
    apply forEach_of_error _ (run turns many)
    rw [position]
    exact mergeSlot_error atIndex.updateTable notNil notTable

end Lemmas

/-- A table with `t[1] = value`. -/
def Table.one (value : Bool) : Table :=
  Table.empty.setInteger 1 (.boolean value)

/-- A state with the tables 0 and 1 in its first two slots. -/
def State.twoTables : State :=
  (((State.empty.newTable (Table.one true)).newTable (Table.one false)).push (.table 1)).push
    (.table 0)

theorem State.mergeable_twoTables :
    ∀ value ∈ State.twoTables.between 1 2, State.twoTables.Mergeable value := by
  intro value valueMem
  rcases List.mem_cons.mp valueMem with rfl | valueMem
  · exact Or.inr ⟨1, Table.one false, rfl, rfl⟩
  · rw [List.mem_singleton.mp valueMem]
    exact Or.inr ⟨0, Table.one true, rfl, rfl⟩

theorem luautilsTableMerge_mergedFrom_twoTables :
    let state := State.twoTables
    let other := (state.push .nil).push (.boolean true)
    (∃ enough after, (Table.one true).MergedFrom [Table.one false] after ∧
      ∀ turns ≥ enough, luautilsTableMerge default turns 1 (-1) (-1) state =
        .ok () (state.updateTable 0 after)) ∧
    ∃ enough after, (Table.one true).MergedFrom [Table.one false] after ∧
      ∀ turns ≥ enough, luautilsTableMerge default turns 1 4 2 other =
        .error (.raised (Runtime.unmergeable default 4 (.boolean true)))
          (other.updateTable 0 after) := by
  intro state other
  have live : state.tables.cells 0 = some (Table.one true) := rfl
  have otherLive : other.tables.cells 0 = some (Table.one true) := rfl
  constructor
  · exact (luautilsTableMerge_mergedFrom default state 1 (-1) (-1) 0 (Table.one true)
      State.holds_first live (by decide) (by decide) (fun _ => ⟨by decide, by decide⟩)).1
      State.mergeable_twoTables
  · apply (luautilsTableMerge_mergedFrom default other 1 4 2 0 (Table.one true)
      ((State.holds_of_pos (by decide)).mpr rfl) otherLive (by decide) (by decide)
      (fun _ => ⟨by decide, by decide⟩)).2 4 (.boolean true) (by decide) (by decide) rfl
      (by decide) (by decide)
    intro value valueMem
    rcases List.mem_cons.mp valueMem with rfl | valueMem
    · exact Or.inr ⟨1, Table.one false, rfl, rfl⟩
    · rcases List.mem_cons.mp valueMem with rfl | valueMem
      · exact Or.inr ⟨0, Table.one true, rfl, rfl⟩
      · rw [List.mem_singleton.mp valueMem]
        exact Or.inl rfl

/-- An empty range which ends with 0, and a range which ends with the destination. -/
theorem not_merges_last_of_range :
    let state := State.twoTables
    (∀ turns, ∃ message, luautilsTableMerge default turns 1 0 2 state =
      .error (.raised message) state) ∧
    (Table.one true).get (.integer 1) = .boolean true ∧
    ∃ enough after, after.get (.integer 1) = .boolean false ∧
      ∀ turns ≥ enough, luautilsTableMerge default turns 1 2 2 state =
        .ok () (state.updateTable 0 after) := by
  intro state
  have holds : state.Holds 2 (.table 0) := (State.holds_of_pos (by decide)).mpr rfl
  refine ⟨fun turns => ?_, by decide, ?_⟩
  · have rejected : ∃ message, luaChkabsidx default "luautils_table_merge" 0 state =
        .error (.raised message) state := ⟨_, rfl⟩
    rcases rejected with ⟨message, rejected⟩
    refine ⟨message, ?_⟩
    rw [luautilsTableMerge, bind_of_ok (luaChkabsidx_eq holds.nonzero),
      bind_of_ok (luaLChecktype_table holds.absolute),
      bind_of_ok (luaChkabsidx_eq (by decide)), bind_of_error rejected]
  · have live : state.tables.cells 0 = some (Table.one true) := rfl
    rcases forEach_mergeSlot_between (by decide) holds live (fun _ => ⟨by decide, by decide⟩)
        State.mergeable_twoTables with
      ⟨enough, run⟩
    refine ⟨enough, (state.sources 0 (state.between 1 2)).foldl Table.merge (Table.one true),
      by decide, fun turns many => ?_⟩
    rw [luautilsTableMerge_eq holds (by decide) (by decide)]
    exact run turns many

end Lucciefr.Lua
