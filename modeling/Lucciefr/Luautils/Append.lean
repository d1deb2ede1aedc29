import Lucciefr.Luautils.Count
import Lucciefr.Luautils.Sequential

/-!
# Appending to a table

`luautils_table_append` of `core/luautils.c`, which stores the value on top of the stack
in a table. Without a given position it is stored at the index which follows the
numerical keys.
-/

namespace Lucciefr.Lua

/-- Increment a variable of type `int`. -/
def incrementInt (n : ℤ) : LuaM ℤ :=
  if n < intMax then
    pure (n + 1)
  else
    throw (.undefined .signedOverflow)

/-- The position at which `luautils_table_append` stores the value. -/
def appendPosition (runtime : Runtime) (build : Build) (turns : ℕ) (idx pos : ℤ) : LuaM ℤ :=
  if pos < 1 then do
    let counted ← luautilsTableCount runtime build turns idx true
    incrementInt counted.maxn
  else
    pure pos

/-- `luautils_table_append` -/
def luautilsTableAppend (runtime : Runtime) (build : Build) (turns : ℕ) (idx pos pop : ℤ) :
    LuaM Unit := do
  let idx ← luaChkabsidx runtime "luautils_table_append" idx
  luaLChecktype runtime idx .table
  let pos ← appendPosition runtime build turns idx pos
  luaPushinteger pos
  luaPushvalue (-2)
  luaSettable runtime idx
  if pop > 0 then
    luaPop pop

/-- Append these values one after another, each of which is discarded. -/
def appendEach (runtime : Runtime) (build : Build) (turns : ℕ) (idx pos : ℤ) :
    List Value → LuaM Unit
  | [] => pure ()
  | value :: values => do
      push value
      luautilsTableAppend runtime build turns idx pos 1
      appendEach runtime build turns idx pos values

/-- The keys which are or can be converted to a number are between these bounds. -/
def Table.NumbersBelow (runtime : Runtime) (t : Table) (bound : ℤ) : Prop :=
  ∀ key ∈ t.map.keys, ∀ n, numberOf runtime key = some n →
    ∃ value : ℚ, n = .finite value ∧ -bound < value ∧ value < bound

/-- Without SSE2 no such key is rounded up to `INT_MAX`. -/
def Table.RoundsBelow (runtime : Runtime) (build : Build) (t : Table) : Prop :=
  build = .x64 ∨ ∀ key ∈ t.map.keys, ∀ n, numberOf runtime key = some n →
    ljNum2bit runtime.fpu n ≠ intMax

/-- A value was stored at an index above all others. -/
structure Table.Appended (before after : Table) (index : ℤ) (value : Value) : Prop where
  positive : 1 ≤ index
  absent : .integer index ∉ before.map.keys
  above : ∀ n, .integer n ∈ before.map.keys → n < index
  stored : after.get (.integer index) = value
  others : ∀ key, key ≠ .integer index → after.get key = before.get key

/-- These values follow at the positions from n + 1 on. -/
structure Table.Extended (before after : Table) (n : ℕ) (values : List Value) : Prop where
  sequence : after.IsSequence (n + values.length)
  appended : ∀ i : ℕ, i < values.length →
    after.get (.integer (n + 1 + i)) = values.getD i .nil
  others : ∀ key ∈ before.map.keys, after.get key = before.get key

/-- The value is stored above the integer keys, nothing else changes, and so many values are
discarded. -/
def AppendsAbove (runtime : Runtime) (build : Build) (idx pos pop : ℤ) (address : ℕ) (t : Table)
    (value : Value) (state : State) : Prop :=
  ∀ turns > t.map.entries.length, ∃ index after, t.Appended after index value ∧
    luautilsTableAppend runtime build turns idx pos pop (state.push value) =
      .ok () { state.updateTable address after with
        stack := (value :: state.stack).drop pop.toNat }

section Lemmas

variable {runtime : Runtime} {build : Build} {state : State} {idx pos : ℤ} {address n turns : ℕ}
  {t after : Table} {key value : Value} {number : ℚ}

theorem roundToZero_between (lower : -(intMax : ℚ) < number) (upper : number < (intMax : ℚ)) :
    -intMax ≤ roundToZero number ∧ roundToZero number < intMax := by
  have positive : 0 < intMax := by decide
  rw [roundToZero]
  split
  · rename_i nonneg
    have bound := Int.floor_nonneg.mpr nonneg
    exact ⟨by omega, Int.floor_lt.mpr upper⟩
  · rename_i negative
    have nonpos : number ≤ ((0 : ℤ) : ℚ) := by
      rw [Int.cast_zero]
      exact le_of_not_ge negative
    have above : ((-intMax : ℤ) : ℚ) < number := by exact_mod_cast lower
    exact ⟨(Int.lt_ceil.mpr above).le, lt_of_le_of_lt (Int.ceil_le.mpr nonpos) positive⟩

/-- A number between these bounds is converted to an `int`, which only `ljNum2bit` can make
as large as `INT_MAX`. -/
theorem toInteger_between (runtime : Runtime) (build : Build) (lower : -(intMax : ℚ) < number)
    (upper : number < (intMax : ℚ)) :
    ∃ whole, toInteger runtime build (.finite number) = some whole ∧ integerToInt whole = whole ∧
      whole ≤ intMax ∧
      (whole = intMax → build = .x86 ∧ ljNum2bit runtime.fpu (.finite number) = intMax) := by
  have asInt : ∀ {whole : ℤ}, -intMax ≤ whole → whole ≤ intMax → integerToInt whole = whole := by
    intro whole least greatest
    rw [intMax] at least greatest
    rw [integerToInt, Int.bmod_def]
    split <;> omega
  cases build with
  | x86 =>
      have least : ((-intMax : ℤ) : ℚ) ≤ number := by exact_mod_cast lower.le
      rcases ljNum2bit_between (by decide) (by decide) least upper.le with ⟨above, below⟩
      exact ⟨_, rfl, asInt above below, below, fun same => ⟨rfl, same⟩⟩
  | x64 =>
      rcases roundToZero_between lower upper with ⟨above, below⟩
      refine ⟨roundToZero number, ?_, asInt above below.le, below.le, fun same => ?_⟩
      · rw [intMax] at above below
        rw [toInteger, truncated, if_pos ⟨by omega, by omega⟩]
      · omega

/-- What `luautils_table_count` finds for such a table. -/
theorem luautilsTableCount_of_numbersBelow (runtime : Runtime) (build : Build)
    (holds : state.Holds idx (.table address))
    (live : state.tables.cells address = some t) (below : t.NumbersBelow runtime intMax)
    (enough : t.map.entries.length < turns) :
    ∃ held, luautilsTableCount runtime build turns idx true state = .ok held state ∧
      Counted runtime build state t.map.entries held state ∧ held.maxn ≤ intMax ∧
      ∀ n, .integer n ∈ t.map.keys → n ≤ held.maxn := by
  rcases luautilsTableCount_cases holds live enough with
    ⟨held, run, counted⟩ | ⟨-, key, keyMem, n, isNumber, undefinedKey⟩
  · refine ⟨held, run, counted, ?_, ?_⟩
    · rcases counted.attained with zero | ⟨entry, entryMem, n, whole, isNumber, conversion, same⟩
      · rw [zero]
        decide
      · have keyMem : entry.1 ∈ t.map.keys := OrderedMap.mem_keys_of_mem entryMem
        rcases below _ keyMem n isNumber with ⟨number, rfl, lower, upper⟩
        rcases toInteger_between runtime build lower upper with
          ⟨found, found_eq, kept, small, -⟩
        rw [conversion, Option.some.injEq] at found_eq
        rw [← same, found_eq, kept]
        exact small
    · intro n keyMem
      rcases List.mem_map.mp keyMem with ⟨entry, entryMem, key_eq⟩
      have isNumber : numberOf runtime entry.1 = some (.finite n) := by
        rw [key_eq]
        rfl
      rcases below _ keyMem (.finite n) rfl with ⟨number, number_eq, lower, upper⟩
      rw [Number.finite.injEq] at number_eq
      subst number_eq
      have least : -intMax < n := by exact_mod_cast lower
      have greatest : n < intMax := by exact_mod_cast upper
      rcases counted.upper entry entryMem _ isNumber with ⟨whole, conversion, bound⟩
      rcases toInteger_between runtime build lower upper with ⟨found, found_eq, kept, -⟩
      rw [intMax] at least greatest
      rw [toInteger_integer (by omega) (by omega), Option.some.injEq] at conversion found_eq
      rwa [← conversion, found_eq, kept, ← found_eq] at bound
  · rcases below key keyMem n isNumber with ⟨number, rfl, lower, upper⟩
    rcases toInteger_between runtime build lower upper with ⟨found, found_eq, -⟩
    rw [undefinedKey] at found_eq
    cases found_eq

/-- The maximum is `INT_MAX` if and only if a key is rounded up to it. -/
theorem Counted.maxn_lt_iff {held : TableCount}
    (counted : Counted runtime build state t.map.entries held state)
    (below : t.NumbersBelow runtime intMax) :
    held.maxn < intMax ↔ t.RoundsBelow runtime build := by
  constructor
  · intro small
    cases build with
    | x64 => exact Or.inl rfl
    | x86 =>
        refine Or.inr fun key keyMem n isNumber rounded => ?_
        rcases List.mem_map.mp keyMem with ⟨entry, entryMem, rfl⟩
        rcases counted.upper entry entryMem n isNumber with ⟨whole, conversion, bound⟩
        rw [toInteger, Option.some.injEq, rounded] at conversion
        subst conversion
        exact absurd (lt_of_le_of_lt bound small) (by decide)
  · intro rounds
    rcases counted.attained with zero | ⟨entry, entryMem, n, whole, isNumber, conversion, same⟩
    · rw [zero]
      decide
    · have keyMem : entry.1 ∈ t.map.keys := OrderedMap.mem_keys_of_mem entryMem
      rcases below _ keyMem n isNumber with ⟨number, rfl, lower, upper⟩
      rcases toInteger_between runtime build lower upper with
        ⟨found, found_eq, kept, most, rounding⟩
      rw [conversion, Option.some.injEq] at found_eq
      subst found_eq
      rw [← same, kept]
      refine lt_of_le_of_ne most fun greatest => ?_
      rcases rounding greatest with ⟨rfl, rounded⟩
      rcases rounds with other | none
      · cases other
      · exact none entry.1 keyMem _ isNumber rounded

/-- Where the value is stored, when the entries were counted. -/
theorem luautilsTableAppend_of_counted {pop : ℤ} {held : TableCount} (automatic : pos < 1)
    (holds : (state.push value).Holds idx (.table address))
    (live : state.tables.cells address = some t) (enough : pop ≤ state.top + 1)
    (counted : luautilsTableCount runtime build turns ((state.push value).absindex idx) true
      (state.push value) = .ok held (state.push value))
    (small : held.maxn < intMax) :
    luautilsTableAppend runtime build turns idx pos pop (state.push value) =
      .ok () { state.updateTable address
          (t.set (.integer (held.maxn + 1)) value (Value.integer_isKey _)) with
        stack := (value :: state.stack).drop pop.toNat } := by
  have position : appendPosition runtime build turns ((state.push value).absindex idx) pos
      (state.push value) = .ok (held.maxn + 1) (state.push value) := by
    rw [appendPosition, if_pos automatic, bind_of_ok counted, incrementInt, if_pos small]
    rfl
  have duplicated : luaPushvalue (-2) ((state.push value).push (.integer (held.maxn + 1))) =
      .ok () (((state.push value).push (.integer (held.maxn + 1))).push value) :=
    luaPushvalue_of_holds State.holds_second
  have stored := luaSettable_push runtime (state.push value) (.integer (held.maxn + 1)) value
    (holds.absolute.push_two holds.positive) live (Value.integer_isKey _)
  rw [luautilsTableAppend, bind_of_ok (luaChkabsidx_eq holds.nonzero),
    bind_of_ok (luaLChecktype_table holds.absolute),
    bind_of_ok position, bind_of_ok luaPushinteger_eq, bind_of_ok duplicated, bind_of_ok stored]
  by_cases popped : pop > 0
  · have fits : pop.toNat ≤ (value :: state.stack).length := by
      rw [State.top] at enough
      rw [List.length_cons]
      omega
    have count : ((pop.toNat : ℕ) : ℤ) = pop := by omega
    have removed := luaPop_eq ((state.push value).updateTable address
      (t.set (.integer (held.maxn + 1)) value (Value.integer_isKey _))) fits
    rw [count] at removed
    rw [if_pos popped, removed]
    rfl
  · have none_popped : pop.toNat = 0 := by omega
    rw [if_neg popped, none_popped]
    rfl

theorem luautilsTableAppend_overflow {pop : ℤ} {held : TableCount} (automatic : pos < 1)
    (holds : (state.push value).Holds idx (.table address))
    (counted : luautilsTableCount runtime build turns ((state.push value).absindex idx) true
      (state.push value) = .ok held (state.push value))
    (greatest : held.maxn = intMax) :
    luautilsTableAppend runtime build turns idx pos pop (state.push value) =
      .error (.undefined .signedOverflow) (state.push value) := by
  have position : appendPosition runtime build turns ((state.push value).absindex idx) pos
      (state.push value) = .error (.undefined .signedOverflow) (state.push value) := by
    rw [appendPosition, if_pos automatic, bind_of_ok counted, incrementInt, greatest]
    rfl
  rw [luautilsTableAppend, bind_of_ok (luaChkabsidx_eq holds.nonzero),
    bind_of_ok (luaLChecktype_table holds.absolute), bind_of_error position]

theorem Table.appended_set {index : ℤ} (positive : 1 ≤ index)
    (above : ∀ n, .integer n ∈ t.map.keys → n < index) :
    t.Appended (t.set (.integer index) value (Value.integer_isKey _)) index value := by
  refine ⟨positive, ?_, above, get_set_self, ?_⟩
  · intro present
    exact lt_irrefl _ (above index present)
  · intro key different
    exact get_set_of_ne different

/-- The value is stored if and only if the position does not overflow. -/
theorem appendsAbove_iff_roundsBelow {pop : ℤ} (automatic : pos < 1)
    (holds : (state.push value).Holds idx (.table address))
    (live : state.tables.cells address = some t) (below : t.NumbersBelow runtime intMax)
    (fits : pop ≤ state.top + 1) :
    AppendsAbove runtime build idx pos pop address t value state ↔ t.RoundsBelow runtime build := by
  constructor
  · intro appends
    rcases appends _ (Nat.lt_succ_self _) with ⟨index, after, -, run⟩
    rcases luautilsTableCount_of_numbersBelow runtime build holds.absolute live below
        (Nat.lt_succ_self _) with
      ⟨held, counting, counted, most, -⟩
    apply (counted.maxn_lt_iff below).mp
    refine lt_of_le_of_ne most fun greatest => ?_
    rw [luautilsTableAppend_overflow automatic holds counting greatest] at run
    cases run
  · intro rounds turns enough
    rcases luautilsTableCount_of_numbersBelow runtime build holds.absolute live below enough with
      ⟨held, counting, counted, -, upper⟩
    have small := (counted.maxn_lt_iff below).mpr rounds
    have nonneg := counted.nonneg
    have above : ∀ n, .integer n ∈ t.map.keys → n < held.maxn + 1 := by
      intro n keyMem
      have bound := upper n keyMem
      omega
    exact ⟨held.maxn + 1, _, Table.appended_set (by omega) above,
      luautilsTableAppend_of_counted automatic holds live fits counting small⟩

theorem Table.IsSequence.numbersBelow (sequence : t.IsSequence n) (small : (n : ℤ) < intMax) :
    t.NumbersBelow runtime intMax := by
  intro key keyMem number isNumber
  rcases (sequence key).mp keyMem with ⟨i, first, last, rfl⟩
  rw [Value.integer, numberOf, Option.some.injEq] at isNumber
  have lower : -intMax < (i : ℤ) := by
    rw [intMax]
    omega
  have upper : (i : ℤ) < intMax := by omega
  exact ⟨_, isNumber.symm, by exact_mod_cast lower, by exact_mod_cast upper⟩

/-- The maximum for a sequence is its length. -/
theorem Counted.maxn_eq {held : TableCount}
    (counted : Counted runtime build state t.map.entries held state)
    (sequence : t.IsSequence n) (small : (n : ℤ) < intMax)
    (upper : ∀ m, .integer m ∈ t.map.keys → m ≤ held.maxn) : held.maxn = n := by
  have lower : (n : ℤ) ≤ held.maxn := by
    rcases Nat.eq_zero_or_pos n with rfl | positive
    · exact counted.nonneg
    · exact upper n ((sequence _).mpr ⟨n, positive, le_refl n, rfl⟩)
  rcases counted.attained with zero | ⟨entry, entryMem, m, whole, isNumber, conversion, same⟩
  · omega
  · have keyMem : entry.1 ∈ t.map.keys := OrderedMap.mem_keys_of_mem entryMem
    rcases (sequence _).mp keyMem with ⟨i, first, last, key_eq⟩
    rw [key_eq, Value.integer, numberOf, Option.some.injEq] at isNumber
    subst isNumber
    rcases integerToInt_of_index (n := i) (by exact_mod_cast first) (by omega) with ⟨itself, kept⟩
    rw [itself, Option.some.injEq] at conversion
    rw [← conversion, kept] at same
    omega

/-- Appending to a sequence makes it longer by one. -/
theorem luautilsTableAppend_sequence (runtime : Runtime) (build : Build) (turns : ℕ)
    (automatic : pos < 1)
    (holds : (state.push value).Holds idx (.table address))
    (live : state.tables.cells address = some t) (sequence : t.IsSequence n)
    (small : (n : ℤ) < intMax) (enough : n < turns) :
    luautilsTableAppend runtime build turns idx pos 1 (state.push value) =
      .ok () (state.updateTable address
        (t.set (.integer (n + 1)) value (Value.integer_isKey _))) := by
  have turnsEnough : t.map.entries.length < turns := by rwa [sequence.length_eq]
  rcases luautilsTableCount_of_numbersBelow runtime build holds.absolute live
      (sequence.numbersBelow small) turnsEnough with
    ⟨held, run, counted, -, upper⟩
  have maxn := counted.maxn_eq sequence small upper
  have one : 1 ≤ state.top + 1 := Int.add_le_add_right State.top_nonneg 1
  have ran := luautilsTableAppend_of_counted automatic holds live one run (maxn ▸ small)
  simp only [maxn] at ran
  exact ran

theorem Table.Extended.cons {values : List Value} (sequence : t.IsSequence n)
    (extended : (t.set (.integer (n + 1)) value (Value.integer_isKey _)).Extended after (n + 1)
      values) (present : value ≠ .nil) : t.Extended after n (value :: values) := by
  refine ⟨?_, ?_, ?_⟩
  · have length_eq : n + (value :: values).length = n + 1 + values.length := by
      rw [List.length_cons]
      omega
    exact length_eq ▸ extended.sequence
  · intro i inside
    rcases i with _ | i
    · have latest : .integer (n + 1) ∈
          (t.set (.integer (n + 1)) value (Value.integer_isKey _)).map.keys :=
        (mem_keys_set present).mpr (Or.inl rfl)
      have kept := extended.others _ latest
      rw [get_set_self] at kept
      simpa using kept
    · have later := extended.appended i (by simpa using inside)
      rw [List.getD_cons_succ, ← later]
      congr 2
      push_cast
      ring
  · intro key keyMem
    have kept := extended.others key ((mem_keys_set present).mpr (Or.inr keyMem))
    rw [kept]
    rcases (sequence key).mp keyMem with ⟨i, -, last, rfl⟩
    apply get_set_of_ne
    rw [ne_eq, Value.integer_inj]
    omega

theorem appendEach_extended {values : List Value} (automatic : pos < 1)
    (live : state.tables.cells address = some t) (sequence : t.IsSequence n)
    (each : ∀ value ∈ values, value ≠ .nil ∧ (state.push value).Holds idx (.table address))
    (small : (n + values.length : ℤ) ≤ intMax) (enough : n + values.length < turns) :
    ∃ after, t.Extended after n values ∧
      appendEach runtime build turns idx pos values state =
        .ok () (state.updateTable address after) := by
  induction values generalizing state t n with
  | nil =>
      refine ⟨t, ⟨by simpa using sequence, nofun, fun _ _ => rfl⟩, ?_⟩
      rw [appendEach, State.updateTable_self live]
      rfl
  | cons value values ih =>
      rcases each value (by simp) with ⟨present, holds⟩
      rw [List.length_cons] at small enough
      have turn := luautilsTableAppend_sequence runtime build turns automatic holds live sequence
        (by omega) (by omega)
      have eachLater : ∀ other ∈ values, other ≠ .nil ∧
          ((state.updateTable address (t.set (.integer (n + 1)) value
            (Value.integer_isKey _))).push other).Holds idx (.table address) := by
        intro other otherMem
        rcases each other (List.mem_cons_of_mem _ otherMem) with ⟨otherPresent, otherHolds⟩
        exact ⟨otherPresent, otherHolds.updateTable⟩
      rcases ih (State.cells_updateTable live) (sequence.set present) eachLater
        (by push_cast at small ⊢; omega) (by omega) with ⟨after, extended, run⟩
      refine ⟨after, extended.cons sequence present, ?_⟩
      rw [appendEach, bind_of_ok push_eq, bind_of_ok turn, run, State.updateTable_updateTable]

/--
Without a given position the value is stored at an index above all integer keys, if and
only if no key is rounded up to `INT_MAX`. Values which are appended to a sequence follow
it in their order.
-/
theorem luautilsTableAppend_appends_iff (runtime : Runtime) (build : Build) (idx pos : ℤ)
    (automatic : pos < 1) :
    (∀ (state : State) (value : Value) (address : ℕ) (t : Table) (pop : ℤ),
      (state.push value).Holds idx (.table address) → state.tables.cells address = some t →
      value ≠ .nil → t.NumbersBelow runtime intMax → pop ≤ state.top + 1 →
        (AppendsAbove runtime build idx pos pop address t value state ↔
          t.RoundsBelow runtime build)) ∧
    (∀ (state : State) (values : List Value) (address n : ℕ) (t : Table) (turns : ℕ),
      (∀ value ∈ values, value ≠ .nil ∧ (state.push value).Holds idx (.table address)) →
      state.tables.cells address = some t → t.IsSequence n →
      (n + values.length : ℤ) ≤ intMax → n + values.length < turns →
        ∃ after, t.Extended after n values ∧
          appendEach runtime build turns idx pos values state =
            .ok () (state.updateTable address after)) := by
  constructor
  · intro state value address t pop holds live present below fits
    exact appendsAbove_iff_roundsBelow automatic holds live below fits
  · intro state values address n t turns each live sequence small enough
    exact appendEach_extended automatic live sequence each small enough

end Lemmas

theorem luautilsTableAppend_appends_iff_pair :
    let state := (State.empty.newTable Table.mixedKeys).push (.table 0)
    let other := (State.empty.newTable Table.pair).push (.table 0)
    AppendsAbove default .x86 (-2) 0 1 0 Table.mixedKeys (.boolean false) state ∧
    ∃ after, Table.pair.Extended after 2 [.boolean true, .string []] ∧
      appendEach default .x86 5 (-2) 0 [.boolean true, .string []] other =
        .ok () (other.updateTable 0 after) := by
  intro state other
  rcases luautilsTableAppend_appends_iff default .x86 (-2) 0 (by decide) with ⟨single, several⟩
  constructor
  · have keys_eq : Table.mixedKeys.map.keys = [.integer 2, .integer (-7), .string [120]] := by
      decide
    have below : Table.mixedKeys.NumbersBelow default intMax := by
      intro key keyMem n isNumber
      rw [keys_eq, List.mem_cons, List.mem_cons, List.mem_singleton] at keyMem
      rcases keyMem with rfl | rfl | rfl
      · cases isNumber
        exact ⟨_, rfl, by norm_num [intMax], by norm_num [intMax]⟩
      · cases isNumber
        exact ⟨_, rfl, by norm_num [intMax], by norm_num [intMax]⟩
      · cases isNumber
    have rounds : Table.mixedKeys.RoundsBelow default .x86 := by
      refine Or.inr fun key keyMem n isNumber => ?_
      rw [keys_eq, List.mem_cons, List.mem_cons, List.mem_singleton] at keyMem
      rcases keyMem with rfl | rfl | rfl
      · cases isNumber
        decide +kernel
      · cases isNumber
        decide +kernel
      · cases isNumber
    exact (single state (.boolean false) 0 Table.mixedKeys 1 State.holds_second
      Heap.cells_alloc_self (by decide) below (by decide)).mpr rounds
  · have sequence : Table.pair.IsSequence 2 := by
      rw [Table.isSequence_iff, show Table.pair.map.keys = sequenceKeys 2 by decide]
    have each : ∀ value ∈ [Value.boolean true, .string []],
        value ≠ .nil ∧ (other.push value).Holds (-2) (.table 0) := by
      intro value valueMem
      rw [List.mem_cons, List.mem_singleton] at valueMem
      rcases valueMem with rfl | rfl
      · exact ⟨by decide, State.holds_second⟩
      · exact ⟨by decide, State.holds_second⟩
    exact several other [.boolean true, .string []] 0 2 Table.pair 5 each Heap.cells_alloc_self
      sequence (by decide) (by decide)

/-- A table with the key 2147483646.75, which is below `INT_MAX`. -/
def Table.belowMax : Table :=
  Table.empty.set (.number (.finite (8589934587 / 4))) (.boolean true) (by decide)

theorem not_appendsAbove_belowMax :
    let state := (State.empty.newTable Table.belowMax).push (.table 0)
    Table.belowMax.NumbersBelow default intMax ∧
      ¬AppendsAbove default .x86 (-2) 0 1 0 Table.belowMax (.boolean false) state := by
  intro state
  have keys_eq : Table.belowMax.map.keys = [.number (.finite (8589934587 / 4))] := by
    decide +kernel
  have below : Table.belowMax.NumbersBelow default intMax := by
    intro key keyMem n isNumber
    rw [keys_eq, List.mem_singleton] at keyMem
    subst keyMem
    cases isNumber
    exact ⟨_, rfl, by norm_num [intMax], by norm_num [intMax]⟩
  refine ⟨below, fun appends => ?_⟩
  have live : state.tables.cells 0 = some Table.belowMax := Heap.cells_alloc_self
  rcases (appendsAbove_iff_roundsBelow (by decide) State.holds_second live below
    (by decide)).mp appends with other | rounds
  · cases other
  · exact rounds (.number (.finite (8589934587 / 4))) (by rw [keys_eq]; simp) _ rfl
      (by decide +kernel)

end Lucciefr.Lua
