import Lucciefr.Lua.Traversal
import Lucciefr.Luautils.Basic

/-!
# Counting the entries of a table

`luautils_table_count` of `core/luautils.c`, which counts the entries of a table and
looks for the largest of its numerical keys. A key is taken for a numerical one if it
is or can be converted to a number, and the number is converted to an `int`.
-/

namespace Lucciefr.Lua

/-- `lua_istable` -/
def luaIstable (idx : ℤ) : LuaM Bool := do
  return (← luaType idx) = .table

/-- The results of `luautils_table_count`. -/
structure TableCount where
  count : ℕ
  maxn : ℤ

/-- The body of the loop of `luautils_table_count`. -/
def tableCountTurn (runtime : Runtime) (build : Build) (wanted : Bool) (held : TableCount) :
    LuaM TableCount := do
  luaPop 1
  let isnumber ← (if wanted then luaIsnumber runtime (-1) else pure false)
  if isnumber then
    let key ← luaTointeger runtime build (-1)
    pure ⟨held.count + 1, max held.maxn (integerToInt key)⟩
  else
    pure ⟨held.count + 1, held.maxn⟩

/-- `luautils_table_count`. The maximum is looked for if there is a place for it. -/
def luautilsTableCount (runtime : Runtime) (build : Build) (turns : ℕ) (idx : ℤ)
    (wanted : Bool) : LuaM TableCount := do
  let idx ← luaChkabsidx runtime "luautils_table_count" idx
  if ← luaIstable idx then
    luaPushnil
    whileNext runtime idx (fun _ => true) (tableCountTurn runtime build wanted) turns ⟨0, 0⟩
  else
    pure ⟨0, 0⟩

/-- `INT_MAX` -/
def intMax : ℤ := 2147483647

/-- A key of type number, which is an integer from 1 to `INT_MAX`. -/
def Table.HasIndex (t : Table) (n : ℤ) : Prop :=
  1 ≤ n ∧ n ≤ intMax ∧ .integer n ∈ t.map.keys

/-- The largest key of this kind, or 0. -/
structure Table.MaxIndex (t : Table) (maxn : ℤ) : Prop where
  upper : ∀ n, t.HasIndex n → n ≤ maxn
  attained : maxn = 0 ∨ t.HasIndex maxn

/-- The entries are counted, the largest index is found, and nothing is changed. -/
def CountsIndices (runtime : Runtime) (build : Build) (idx : ℤ) (t : Table) (state : State) :
    Prop :=
  ∀ turns > t.map.entries.length, ∃ maxn,
    luautilsTableCount runtime build turns idx true state =
      .ok ⟨t.map.entries.length, maxn⟩ state ∧ t.MaxIndex maxn

/-- A key is converted to this `int`. -/
def KeyConverts (runtime : Runtime) (build : Build) (key : Value) (converted : ℤ) : Prop :=
  ∃ n whole, numberOf runtime key = some n ∧ toInteger runtime build n = some whole ∧
    integerToInt whole = converted

/-- Each key which is or can be converted to a number is converted to an `int`, and one
which is not above all indices. -/
def KeysConvertBelow (runtime : Runtime) (build : Build) (t : Table) : Prop :=
  ∀ key ∈ t.map.keys, ∀ n, numberOf runtime key = some n →
    ∃ whole, toInteger runtime build n = some whole ∧
      (integerToInt whole ≤ 0 ∨ ∃ index, t.HasIndex index ∧ integerToInt whole ≤ index)

section Lemmas

variable {runtime : Runtime} {build : Build} {state : State} {idx : ℤ} {address : ℕ} {t : Table}
  {key : Value} {maxn other : ℤ}

/-- What is known when these entries were visited. -/
structure Counted (runtime : Runtime) (build : Build) (state : State)
    (visited : List (Value × Value)) (held : TableCount) (base : State) : Prop where
  base_eq : base = state
  count_eq : held.count = visited.length
  nonneg : 0 ≤ held.maxn
  upper : ∀ entry ∈ visited, ∀ n, numberOf runtime entry.1 = some n →
    ∃ whole, toInteger runtime build n = some whole ∧ integerToInt whole ≤ held.maxn
  attained : held.maxn = 0 ∨ ∃ entry ∈ visited, KeyConverts runtime build entry.1 held.maxn

/-- The conversion of a key is not defined. -/
def Overflows (runtime : Runtime) (build : Build) (t : Table) (failure : Failure) (_ : State) :
    Prop :=
  failure = .undefined .signedOverflow ∧
    ∃ key ∈ t.map.keys, ∃ n, numberOf runtime key = some n ∧ toInteger runtime build n = none

theorem tableCountTurn_popped {wanted : Bool} {held : TableCount} {value : Value} :
    tableCountTurn runtime build wanted held ((state.push key).push value) =
      ((if wanted then luaIsnumber runtime (-1) else pure false : LuaM Bool) >>= fun isnumber =>
        if isnumber then do
          let key ← luaTointeger runtime build (-1)
          pure ⟨held.count + 1, max held.maxn (integerToInt key)⟩
        else
          pure ⟨held.count + 1, held.maxn⟩) (state.push key) := by
  rw [tableCountTurn, bind_of_ok luaPop_first]

/-- A key which is no number is only counted. -/
theorem Counted.skip {visited : List (Value × Value)} {held : TableCount} {value : Value}
    (counted : Counted runtime build state visited held state)
    (noNumber : numberOf runtime key = none) :
    Counted runtime build state (visited ++ [(key, value)]) ⟨held.count + 1, held.maxn⟩ state := by
  rcases counted with ⟨-, count_eq, nonneg, upper, attained⟩
  refine ⟨rfl, ?_, nonneg, ?_, ?_⟩
  · rw [List.length_append, List.length_singleton, count_eq]
  · intro entry entryMem n number
    rcases List.mem_append.mp entryMem with earlier | latest
    · exact upper entry earlier n number
    · rw [List.mem_singleton] at latest
      subst latest
      rw [noNumber] at number
      cases number
  · rcases attained with zero | ⟨entry, entryMem, converts⟩
    · exact Or.inl zero
    · exact Or.inr ⟨entry, List.mem_append_left _ entryMem, converts⟩

/-- A key which is converted is counted and compared with the maximum. -/
theorem Counted.take {visited : List (Value × Value)} {held : TableCount} {value : Value}
    {n : Number} {whole : ℤ} (counted : Counted runtime build state visited held state)
    (isNumber : numberOf runtime key = some n)
    (conversion : toInteger runtime build n = some whole) :
    Counted runtime build state (visited ++ [(key, value)])
      ⟨held.count + 1, max held.maxn (integerToInt whole)⟩ state := by
  rcases counted with ⟨-, count_eq, nonneg, upper, attained⟩
  refine ⟨rfl, ?_, le_max_of_le_left nonneg, ?_, ?_⟩
  · rw [List.length_append, List.length_singleton, count_eq]
  · intro entry entryMem m number
    rcases List.mem_append.mp entryMem with earlier | latest
    · rcases upper entry earlier m number with ⟨found, found_eq, below⟩
      exact ⟨found, found_eq, le_max_of_le_left below⟩
    · rw [List.mem_singleton] at latest
      subst latest
      rw [isNumber, Option.some.injEq] at number
      subst number
      exact ⟨whole, conversion, le_max_right _ _⟩
  · rcases le_total (integerToInt whole) held.maxn with below | above
    · rw [max_eq_left below]
      rcases attained with zero | ⟨entry, entryMem, converts⟩
      · exact Or.inl zero
      · exact Or.inr ⟨entry, List.mem_append_left _ entryMem, converts⟩
    · rw [max_eq_right above]
      exact Or.inr ⟨(key, value), by simp, n, whole, isNumber, conversion, rfl⟩

theorem tableCountTurn_keeps :
    TurnKeepsUnless (Overflows runtime build t) (fun _ => true)
      (tableCountTurn runtime build true) t (Counted runtime build state) := by
  rintro visited key value ahead held base split - counted
  obtain rfl := counted.base_eq
  rw [tableCountTurn_popped, if_pos rfl, bind_of_ok luaIsnumber_first]
  cases number : numberOf runtime key with
  | none => exact Or.inl ⟨_, base, rfl, counted.skip number⟩
  | some n =>
      rw [Option.isSome_some, if_pos rfl]
      cases conversion : toInteger runtime build n with
      | none =>
          right
          have keyMem : key ∈ t.map.keys := by simp [OrderedMap.keys, split]
          refine ⟨_, base.push key, bind_of_error ?_, rfl, key, keyMem, n, number, conversion⟩
          exact luaTointeger_of_none number conversion
      | some whole =>
          left
          refine ⟨_, base, bind_of_ok ?_, counted.take number conversion⟩
          exact luaTointeger_of_some number conversion

theorem luautilsTableCount_eq {turns : ℕ} {wanted : Bool}
    (holds : state.Holds idx (.table address)) :
    luautilsTableCount runtime build turns idx wanted state =
      whileNext runtime (state.absindex idx) (fun _ => true) (tableCountTurn runtime build wanted)
        turns ⟨0, 0⟩ (state.push .nil) := by
  have istable : luaIstable (state.absindex idx) state = .ok true state := by
    rw [luaIstable, bind_of_ok (luaType_of_holds holds.absolute)]
    rfl
  rw [luautilsTableCount, bind_of_ok (luaChkabsidx_eq holds.nonzero), bind_of_ok istable,
    if_pos rfl, bind_of_ok luaPushnil_eq]

theorem counted_nil : Counted runtime build state [] ⟨0, 0⟩ state := by
  refine ⟨rfl, rfl, le_refl 0, nofun, Or.inl rfl⟩

/-- The entries are counted, or a conversion is not defined. -/
theorem luautilsTableCount_cases {turns : ℕ} (holds : state.Holds idx (.table address))
    (live : state.tables.cells address = some t) (enough : t.map.entries.length < turns) :
    (∃ held, luautilsTableCount runtime build turns idx true state = .ok held state ∧
      Counted runtime build state t.map.entries held state) ∨
    (∃ reached, luautilsTableCount runtime build turns idx true state =
      .error (.undefined .signedOverflow) reached) ∧
    ∃ key ∈ t.map.keys, ∃ n, numberOf runtime key = some n ∧ toInteger runtime build n = none := by
  have source : Traverses (state.absindex idx) address t (Counted runtime build state) := by
    rintro visited held base counted
    obtain rfl := counted.base_eq
    exact ⟨holds.absolute, live⟩
  rw [luautilsTableCount_eq holds]
  generalize run : whileNext runtime (state.absindex idx) (fun _ => true)
    (tableCountTurn runtime build true) turns ⟨0, 0⟩ (state.push .nil) = ended
  have ends := whileNext_ends runtime holds.positive source tableCountTurn_keeps enough counted_nil
  rw [run] at ends
  cases ends with
  | complete going counted =>
      obtain rfl := counted.base_eq
      exact Or.inl ⟨_, rfl, counted⟩
  | early seen unseen last stopped => cases stopped
  | failure overflows =>
      rcases overflows with ⟨rfl, undefinedKey⟩
      exact Or.inr ⟨⟨_, rfl⟩, undefinedKey⟩

/-- An index is converted to itself. -/
theorem integerToInt_of_index {n : ℤ} (positive : 1 ≤ n) (small : n ≤ intMax) :
    toInteger runtime build (.finite n) = some n ∧ integerToInt n = n := by
  rw [intMax] at small
  constructor
  · exact toInteger_integer (by omega) (by omega)
  · rw [integerToInt, Int.bmod_def]
    split <;> omega

theorem Table.MaxIndex.unique (maximum : t.MaxIndex maxn) (same : t.MaxIndex other) :
    maxn = other := by
  have bound : ∀ {low high}, t.MaxIndex low → t.MaxIndex high → low ≤ high := by
    intro low high lowMax highMax
    rcases lowMax.attained with rfl | index
    · rcases highMax.attained with rfl | ⟨positive, -⟩
      · exact le_refl 0
      · omega
    · exact highMax.upper low index
  exact le_antisymm (bound maximum same) (bound same maximum)

/-- The maximum of the conversions is not below an index. -/
theorem Counted.index_le {held : TableCount} {n : ℤ}
    (counted : Counted runtime build state t.map.entries held state) (index : t.HasIndex n) :
    n ≤ held.maxn := by
  rcases index with ⟨positive, small, present⟩
  rcases List.mem_map.mp present with ⟨entry, entryMem, key_eq⟩
  rcases counted.upper entry entryMem (.finite n) (by rw [key_eq]; rfl) with
    ⟨whole, conversion, bound⟩
  rcases integerToInt_of_index positive small with ⟨itself, same⟩
  rw [itself, Option.some.injEq] at conversion
  rwa [← conversion, same] at bound

/-- It is the largest index, if no other key is converted to more. -/
theorem Counted.maxIndex {held : TableCount}
    (counted : Counted runtime build state t.map.entries held state)
    (below : KeysConvertBelow runtime build t) : t.MaxIndex held.maxn := by
  refine ⟨fun n => counted.index_le, ?_⟩
  rcases counted.attained with zero | ⟨entry, entryMem, n, whole, number, conversion, converted⟩
  · exact Or.inl zero
  · rcases below entry.1 (OrderedMap.mem_keys_of_mem entryMem) n number with
      ⟨found, found_eq, bound⟩
    rw [conversion, Option.some.injEq] at found_eq
    subst found_eq
    rw [converted] at bound
    rcases bound with nonpositive | ⟨index, isIndex, bound⟩
    · exact Or.inl (le_antisymm nonpositive counted.nonneg)
    · rw [le_antisymm bound (counted.index_le isIndex)]
      exact Or.inr isIndex

theorem keysConvertBelow_of_countsIndices (holds : state.Holds idx (.table address))
    (live : state.tables.cells address = some t)
    (counts : CountsIndices runtime build idx t state) : KeysConvertBelow runtime build t := by
  rcases counts _ (Nat.lt_succ_self _) with ⟨maxn, run, maximum⟩
  rcases luautilsTableCount_cases holds live (Nat.lt_succ_self _) with
    ⟨held, same, counted⟩ | ⟨⟨reached, overflow⟩, -⟩
  · rw [run, EStateM.Result.ok.injEq] at same
    intro key keyMem n number
    rcases List.mem_map.mp keyMem with ⟨entry, entryMem, rfl⟩
    rcases counted.upper entry entryMem n number with ⟨whole, conversion, bound⟩
    rw [← same.1] at bound
    refine ⟨whole, conversion, ?_⟩
    rcases maximum.attained with rfl | index
    · exact Or.inl bound
    · exact Or.inr ⟨maxn, index, bound⟩
  · rw [run] at overflow
    cases overflow

/--
The largest index is found if and only if no key of another kind, which is or can be
converted to a number, is converted to more.
-/
theorem countsIndices_iff_keysConvertBelow (runtime : Runtime) (build : Build) (state : State)
    (idx : ℤ) (address : ℕ) (t : Table) (holds : state.Holds idx (.table address))
    (live : state.tables.cells address = some t) :
    CountsIndices runtime build idx t state ↔ KeysConvertBelow runtime build t := by
  constructor
  · exact keysConvertBelow_of_countsIndices holds live
  · intro below turns enough
    rcases luautilsTableCount_cases holds live enough with
      ⟨held, run, counted⟩ | ⟨-, key, keyMem, n, number, undefinedKey⟩
    · refine ⟨held.maxn, ?_, counted.maxIndex below⟩
      rw [run, ← counted.count_eq]
    · rcases below key keyMem n number with ⟨whole, conversion, -⟩
      rw [undefinedKey] at conversion
      cases conversion

end Lemmas

/-- A table with the keys 2, -7 and "x". -/
def Table.mixedKeys : Table :=
  ((Table.empty.setInteger 2 (.boolean true)).setInteger (-7) (.boolean true)).set
    (.string [120]) (.boolean true) (by decide)

/-- A table with a key which is 5 as an `int`. -/
def Table.beyondInt : Table :=
  Table.empty.setInteger 4294967301 (.boolean true)

theorem countsIndices_iff_keysConvertBelow_mixed :
    let state := (State.empty.newTable Table.mixedKeys).push (.table 0)
    CountsIndices default .x86 (-1) Table.mixedKeys state := by
  intro state
  apply (countsIndices_iff_keysConvertBelow default .x86 state (-1) 0 Table.mixedKeys
    State.holds_first Heap.cells_alloc_self).mpr
  have keys_eq : Table.mixedKeys.map.keys = [.integer 2, .integer (-7), .string [120]] := by
    decide
  have index : Table.mixedKeys.HasIndex 2 := ⟨by decide, by decide, by rw [keys_eq]; simp⟩
  intro key keyMem n number
  rw [keys_eq, List.mem_cons, List.mem_cons, List.mem_singleton] at keyMem
  rcases keyMem with rfl | rfl | rfl
  · cases number
    exact ⟨2, toInteger_integer (by decide) (by decide), Or.inr ⟨2, index, by decide⟩⟩
  · cases number
    exact ⟨-7, toInteger_integer (by decide) (by decide), Or.inl (by decide)⟩
  · cases number

/-- The key 2^32 + 5. -/
theorem not_countsIndices_beyondInt :
    let state := (State.empty.newTable Table.beyondInt).push (.table 0)
    ¬CountsIndices default .x64 (-1) Table.beyondInt state := by
  intro state counts
  have keys_eq : Table.beyondInt.map.keys = [.integer 4294967301] := by decide
  have live : state.tables.cells 0 = some Table.beyondInt := Heap.cells_alloc_self
  have below := keysConvertBelow_of_countsIndices State.holds_first live counts
  rcases below (.integer 4294967301) (by rw [keys_eq]; simp) (.finite (4294967301 : ℤ)) rfl with
    ⟨whole, conversion, bound⟩
  rw [toInteger, truncated_integer, if_pos (by decide), Option.some.injEq] at conversion
  subst conversion
  rcases bound with nonpositive | ⟨index, ⟨-, small, present⟩, -⟩
  · exact absurd nonpositive (by decide)
  · rw [keys_eq, List.mem_singleton, Value.integer_inj] at present
    subst present
    exact absurd small (by decide)

end Lucciefr.Lua
