import Lucciefr.Base.Precision
import Lucciefr.Lua.State
import Lucciefr.Platform

/-!
# Tables and conversions

The calls of the Lua API which read and write tables, and those which convert values.
Metatables are left out: every access to a table is a raw one, and so is every
comparison.
-/

namespace Lucciefr.Lua

/-- `LJ_MAX_ASIZE` -/
def ljMaxAsize : ℤ := 2 ^ 27 + 1

/-- `LJ_MAX_HBITS` -/
def ljMaxHbits : ℕ := 26

/-- `hsize2hbits` -/
def hsize2hbits (s : ℤ) : ℕ :=
  if s = 0 then 0
  else if s = 1 then 1
  else 1 + (((s - 1) % 2 ^ 32).toNat.log2)

/-- `lua_createtable` -/
def luaCreatetable (runtime : Runtime) (narray nrec : ℤ) : LuaM Unit := do
  let asize := if narray > 0 then narray + 1 else 0
  if asize > ljMaxAsize ∨ hsize2hbits nrec > ljMaxHbits then
    errMsg runtime "table overflow"
  let address := (← get).tables.bound
  modify fun state => { state with tables := (state.tables.alloc Table.empty).2 }
  push (.table address)

/-- `lua_newtable` -/
def luaNewtable (runtime : Runtime) : LuaM Unit :=
  luaCreatetable runtime 0 0

/-- The table at an index, which an `api_check` demands to be one. -/
def tableAt (idx : ℤ) : LuaM (ℕ × Table) := do
  match ← index2adr idx with
  | some (.table address) =>
      match (← get).tables.cells address with
      | some t => pure (address, t)
      | none => throw (.undefined .useAfterFree)
  | _ => apiCheckFails

/-- `lua_rawgeti` -/
def luaRawgeti (idx n : ℤ) : LuaM Unit := do
  let held ← tableAt idx
  push (held.2.get (.integer n))

/-- Write to a table, `lj_tab_set`. -/
def tabSet (runtime : Runtime) (address : ℕ) (key value : Value) : LuaM Unit :=
  if isKey : key.IsKey then
    modify fun state =>
      { state with tables := state.tables.adjust (some address) (·.set key value isKey) }
  else if key = .nil then
    errMsg runtime "table index is nil"
  else
    errMsg runtime "table index is NaN"

/-- `lua_rawset` -/
def luaRawset (runtime : Runtime) (idx : ℤ) : LuaM Unit := do
  let held ← tableAt idx
  let key ← index2adr (-2)
  let value ← index2adr (-1)
  tabSet runtime held.1 (key.getD .nil) (value.getD .nil)
  luaPop 2

/-- `lua_settable`, without metamethods. -/
def luaSettable (runtime : Runtime) (idx : ℤ) : LuaM Unit := do
  match ← index2adr idx with
  | some (.table _) => luaRawset runtime idx
  | some other => errMsg runtime ("attempt to index a " ++ other.type.name ++ " value")
  | none => apiCheckFails

/-- `lua_rawseti` -/
def luaRawseti (runtime : Runtime) (idx n : ℤ) : LuaM Unit := do
  let held ← tableAt idx
  let value ← index2adr (-1)
  tabSet runtime held.1 (.integer n) (value.getD .nil)
  luaPop 1

/-- `lua_next` -/
def luaNext (runtime : Runtime) (idx : ℤ) : LuaM Bool := do
  let held ← tableAt idx
  let key ← index2adr (-1)
  match held.2.map.next (if key.getD .nil = .nil then none else key) with
  | none => errMsg runtime "invalid key to 'next'"
  | some none => do
      luaPop 1
      pure false
  | some (some (key, value)) => do
      luaPop 1
      push key
      push value
      pure true

/-- `lua_equal`, without metamethods. -/
def luaEqual (index1 index2 : ℤ) : LuaM Bool := do
  let o1 ← index2adr index1
  let o2 ← index2adr index2
  pure (o1.isSome && o2.isSome && (o1.getD .nil).rawEqual (o2.getD .nil))

/-- A value which counts as true. -/
def Value.truth (value : Value) : Bool :=
  value ≠ .nil && value ≠ .boolean false

/-- `lua_toboolean` -/
def luaToboolean (idx : ℤ) : LuaM Bool := do
  let o ← index2adr idx
  pure (o.getD .nil).truth

/-- The number that a value is or can be converted to. -/
def numberOf (runtime : Runtime) : Value → Option Number
  | .number n => some n
  | .string bytes => runtime.strscanNumber bytes
  | _ => none

/-- `lua_isnumber` -/
def luaIsnumber (runtime : Runtime) (idx : ℤ) : LuaM Bool := do
  let o ← index2adr idx
  pure (numberOf runtime (o.getD .nil)).isSome

/-- `lua_tonumber` -/
def luaTonumber (runtime : Runtime) (idx : ℤ) : LuaM Number := do
  let o ← index2adr idx
  pure ((numberOf runtime (o.getD .nil)).getD (.finite 0))

/-- The cast of a `double` to a signed integer with this number of bits: the fraction is
discarded, and the result has to be an integer of this type. -/
def truncate (bits : ℕ) : Number → LuaM ℤ
  | .finite value =>
      let result := if 0 ≤ value then ⌊value⌋ else ⌈value⌉
      if -2 ^ (bits - 1) ≤ result ∧ result < 2 ^ (bits - 1) then
        pure result
      else
        throw (.undefined .signedOverflow)
  | _ => throw (.undefined .signedOverflow)

/-- `lj_num2bit`: 2^52 + 2^51 is added by the FPU, and the sum is stored as a `double`. The
lower half of it is the result, which is 0 for an infinity and for NaN. -/
def ljNum2bit (fpu : FpuPrecision) : Number → ℤ
  | .finite value =>
      let sum := roundToPrecision fpu.bits (value + (6755399441055744 : ℤ))
      (significand 53 (roundToPrecision 53 sum) : ℤ).bmod (2 ^ 32)
  | _ => 0

/-- `lua_tointeger`. LuaJIT for x86 is compiled without SSE2, where `lj_num2int` is
`lj_num2bit`; on x64 the number is cast. -/
def luaTointeger (runtime : Runtime) (build : Build) (idx : ℤ) : LuaM ℤ := do
  let o ← index2adr idx
  match numberOf runtime (o.getD .nil), build with
  | none, _ => pure 0
  | some n, .x86 => pure (ljNum2bit runtime.fpu n)
  | some n, .x64 => truncate 64 n

/-- `lua_touserdata` -/
def luaTouserdata (runtime : Runtime) (idx : ℤ) : LuaM ℕ := do
  match ← index2adr idx with
  | some (.lightuserdata pointer) => pure pointer
  | some (.userdata address) => pure (runtime.address (.userdata address))
  | _ => pure 0

/-- `lua_topointer` -/
def luaTopointer (runtime : Runtime) (idx : ℤ) : LuaM ℕ := do
  match ← index2adr idx with
  | some (.lightuserdata pointer) => pure pointer
  | some (.cdata _ pointer) => pure pointer
  | some .nil => pure 0
  | some (.boolean _) => pure 0
  | some (.number _) => pure 0
  | some object => pure (runtime.address object)
  | none => pure 0

variable {runtime : Runtime} {build : Build} {state : State} {idx : ℤ} {address : ℕ} {t : Table}
  {key value first second : Value}

/-- The state with another value of a table. -/
def State.updateTable (state : State) (address : ℕ) (t : Table) : State :=
  { state with tables := state.tables.adjust (some address) fun _ => t }

/-- The state with a new table. -/
def State.newTable (state : State) (t : Table) : State :=
  { state with tables := (state.tables.alloc t).2 }

theorem luaCreatetable_eq {narray : ℤ} (small : narray < ljMaxAsize) :
    luaCreatetable runtime narray 0 state =
      .ok () ((state.newTable Table.empty).push (.table state.tables.bound)) := by
  have fits : ¬((if narray > 0 then narray + 1 else 0) > ljMaxAsize ∨
      hsize2hbits 0 > ljMaxHbits) := by
    rw [ljMaxAsize] at small ⊢
    rw [not_or]
    refine ⟨?_, by decide⟩
    split <;> omega
  rw [luaCreatetable]
  simp only [if_neg fits]
  rfl

theorem tableAt_of_holds (holds : state.Holds idx (.table address))
    (live : state.tables.cells address = some t) : tableAt idx state = .ok (address, t) state := by
  rw [tableAt, bind_of_ok (index2adr_of_holds holds)]
  simp only [get_bind, live, pure_eq_ok]

theorem tabSet_of_isKey (isKey : key.IsKey) (live : state.tables.cells address = some t) :
    tabSet runtime address key value state =
      .ok () (state.updateTable address (t.set key value isKey)) := by
  have same : state.tables.adjust (some address) (·.set key value isKey) =
      state.tables.adjust (some address) fun _ => t.set key value isKey :=
    Heap.adjust_congr live rfl
  rw [tabSet, dif_pos isKey, modify_eq_ok, same]
  rfl

theorem luaRawset_push (holds : ((state.push key).push value).Holds idx (.table address))
    (live : state.tables.cells address = some t) (isKey : key.IsKey) :
    luaRawset runtime idx ((state.push key).push value) =
      .ok () (state.updateTable address (t.set key value isKey)) := by
  rw [luaRawset, bind_of_ok (tableAt_of_holds holds live), bind_of_ok index2adr_second,
    bind_of_ok index2adr_first]
  simp only [Option.getD_some]
  rw [bind_of_ok (tabSet_of_isKey isKey (by exact live))]
  have popped : luaPop 2 (((state.updateTable address (t.set key value isKey)).push key).push
      value) = .ok () (state.updateTable address (t.set key value isKey)) := luaPop_second
  exact popped

theorem luaRawseti_push (runtime : Runtime) (n : ℤ)
    (holds : (state.push value).Holds idx (.table address))
    (live : state.tables.cells address = some t) :
    luaRawseti runtime idx n (state.push value) =
      .ok () (state.updateTable address (t.set (.integer n) value (Value.integer_isKey n))) := by
  rw [luaRawseti, bind_of_ok (tableAt_of_holds holds live), bind_of_ok index2adr_first]
  simp only [Option.getD_some]
  rw [bind_of_ok (tabSet_of_isKey (Value.integer_isKey n) (by exact live))]
  have popped : luaPop 1 ((state.updateTable address (t.set (.integer n) value
      (Value.integer_isKey n))).push value) = .ok () _ := luaPop_first
  exact popped

theorem luaToboolean_first :
    luaToboolean (-1) (state.push value) = .ok value.truth (state.push value) := by
  rw [luaToboolean, bind_of_ok index2adr_first]
  rfl

theorem luaSettable_push (runtime : Runtime) (state : State) (key value : Value)
    (holds : ((state.push key).push value).Holds idx (.table address))
    (live : state.tables.cells address = some t) (isKey : key.IsKey) :
    luaSettable runtime idx ((state.push key).push value) =
      .ok () (state.updateTable address (t.set key value isKey)) := by
  rw [luaSettable, bind_of_ok (index2adr_of_holds holds)]
  exact luaRawset_push holds live isKey

@[simp]
theorem State.updateTable_updateTable {other : Table} :
    (state.updateTable address t).updateTable address other = state.updateTable address other := by
  simp only [updateTable, Heap.adjust_adjust, Function.comp_def]

theorem State.updateTable_self (live : state.tables.cells address = some t) :
    state.updateTable address t = state := by
  rw [updateTable, Heap.adjust_self live]

theorem State.cells_updateTable (live : state.tables.cells address = some t) {other : Table} :
    (state.updateTable address other).tables.cells address = some other := by
  simp only [updateTable, Heap.cells_adjust_self, live, Option.map_some]

theorem State.cells_updateTable_of_ne {other : ℕ} (different : other ≠ address) :
    (state.updateTable address t).tables.cells other = state.tables.cells other := by
  have unrelated : some address ≠ some other := fun same => different (Option.some.inj same).symm
  rw [updateTable, Heap.cells_adjust_of_ne unrelated]

/-- The stack does not depend on the tables. -/
theorem State.Holds.updateTable (holds : state.Holds idx value) :
    (state.updateTable address t).Holds idx value :=
  ⟨holds.stackIndex, holds.positive, holds.slot⟩

/-- Rounding towards zero. -/
def roundToZero (value : ℚ) : ℤ :=
  if 0 ≤ value then ⌊value⌋ else ⌈value⌉

/-- The integer which a number is converted to, if the conversion is defined. -/
def truncated (bits : ℕ) : Number → Option ℤ
  | .finite value =>
      if -2 ^ (bits - 1) ≤ roundToZero value ∧ roundToZero value < 2 ^ (bits - 1) then
        some (roundToZero value)
      else
        none
  | _ => none

theorem truncate_finite {bits : ℕ} {value : ℚ} : truncate bits (.finite value) state =
    if -2 ^ (bits - 1) ≤ roundToZero value ∧ roundToZero value < 2 ^ (bits - 1) then
      .ok (roundToZero value) state
    else
      .error (.undefined .signedOverflow) state := by
  rw [truncate]
  change (if -2 ^ (bits - 1) ≤ roundToZero value ∧ roundToZero value < 2 ^ (bits - 1) then
    pure (roundToZero value) else throw (.undefined .signedOverflow) : LuaM ℤ) state = _
  split
  · rfl
  · rfl

theorem truncate_of_some {bits : ℕ} {n : Number} {result : ℤ}
    (defined : truncated bits n = some result) : truncate bits n state = .ok result state := by
  cases n with
  | finite value =>
      rw [truncated] at defined
      rw [truncate_finite]
      split at defined
      · rename_i range
        rw [if_pos range, Option.some.inj defined]
      · cases defined
  | _ => cases defined

theorem truncate_of_none {bits : ℕ} {n : Number} (undefined : truncated bits n = none) :
    truncate bits n state = .error (.undefined .signedOverflow) state := by
  cases n with
  | finite value =>
      rw [truncated] at undefined
      rw [truncate_finite]
      split at undefined
      · cases undefined
      · rename_i range
        rw [if_neg range]
  | _ => rfl

theorem roundToZero_intCast {n : ℤ} : roundToZero n = n := by
  rw [roundToZero]
  split
  · exact Int.floor_intCast n
  · exact Int.ceil_intCast n

theorem truncated_integer {bits : ℕ} {n : ℤ} : truncated bits (.finite n) =
    if -2 ^ (bits - 1) ≤ n ∧ n < 2 ^ (bits - 1) then some n else none := by
  rw [truncated, roundToZero_intCast]

theorem truncate_integer {bits : ℕ} {n : ℤ} : truncate bits (.finite n) state =
    if -2 ^ (bits - 1) ≤ n ∧ n < 2 ^ (bits - 1) then
      .ok n state
    else
      .error (.undefined .signedOverflow) state := by
  rw [truncate_finite, roundToZero_intCast]

theorem luaIsnumber_first :
    luaIsnumber runtime (-1) (state.push value) =
      .ok (numberOf runtime value).isSome (state.push value) := by
  rw [luaIsnumber, bind_of_ok index2adr_first]
  rfl

/-- The integer that `lua_tointeger` obtains from a number, if its conversion is defined. -/
def toInteger (runtime : Runtime) (build : Build) (n : Number) : Option ℤ :=
  match build with
  | .x86 => some (ljNum2bit runtime.fpu n)
  | .x64 => truncated 64 n

theorem luaTointeger_of_some {n : Number} {whole : ℤ} (number : numberOf runtime value = some n)
    (conversion : toInteger runtime build n = some whole) :
    luaTointeger runtime build (-1) (state.push value) = .ok whole (state.push value) := by
  rw [luaTointeger, bind_of_ok index2adr_first, Option.getD_some, number]
  cases build with
  | x86 =>
      rw [toInteger, Option.some.injEq] at conversion
      rw [← conversion]
      rfl
  | x64 => exact truncate_of_some conversion

theorem luaTointeger_of_none {n : Number} (number : numberOf runtime value = some n)
    (undefined : toInteger runtime build n = none) :
    luaTointeger runtime build (-1) (state.push value) =
      .error (.undefined .signedOverflow) (state.push value) := by
  rw [luaTointeger, bind_of_ok index2adr_first, Option.getD_some, number]
  cases build with
  | x86 => cases undefined
  | x64 => exact truncate_of_none undefined

/-- A number between integers of 32 bits is converted to an integer between them. -/
theorem ljNum2bit_between {fpu : FpuPrecision} {number : ℚ} {low high : ℤ} (lower : -2 ^ 31 ≤ low)
    (upper : high < 2 ^ 31) (above : low ≤ number) (below : number ≤ high) :
    low ≤ ljNum2bit fpu (.finite number) ∧ ljNum2bit fpu (.finite number) ≤ high := by
  have least : 2 ^ 52 ≤ low + 6755399441055744 := by omega
  have greatest : high + 6755399441055744 < 2 ^ (52 + 1) := by omega
  have sumAbove : ((low + 6755399441055744 : ℤ) : ℚ) ≤ number + (6755399441055744 : ℤ) := by
    push_cast
    gcongr
  have sumBelow : number + (6755399441055744 : ℤ) ≤ ((high + 6755399441055744 : ℤ) : ℚ) := by
    push_cast
    gcongr
  generalize added_eq : roundToPrecision fpu.bits (number + (6755399441055744 : ℤ)) = added
  have addedBetween : ((low + 6755399441055744 : ℤ) : ℚ) ≤ added ∧
      added ≤ ((high + 6755399441055744 : ℤ) : ℚ) := by
    rw [← added_eq]
    cases fpu with
    | double => exact roundToPrecision_between 0 least greatest sumAbove sumBelow
    | extended => exact roundToPrecision_between 11 least greatest sumAbove sumBelow
  have stored : ((low + 6755399441055744 : ℤ) : ℚ) ≤ roundToPrecision 53 added ∧
      roundToPrecision 53 added ≤ ((high + 6755399441055744 : ℤ) : ℚ) :=
    roundToPrecision_between 0 least greatest addedBetween.1 addedBetween.2
  have digits : low + 6755399441055744 ≤ significand 53 (roundToPrecision 53 added) ∧
      significand 53 (roundToPrecision 53 added) ≤ high + 6755399441055744 :=
    significand_between least greatest stored.1 stored.2
  have converted : ljNum2bit fpu (.finite number) =
      (significand 53 (roundToPrecision 53 added) : ℤ).bmod (2 ^ 32) := by
    rw [← added_eq]
    rfl
  rw [converted, Int.bmod_def]
  split <;> omega

theorem toInteger_integer {n : ℤ} (lower : -2 ^ 31 ≤ n) (upper : n < 2 ^ 31) :
    toInteger runtime build (.finite n) = some n := by
  cases build with
  | x86 =>
      have between : n ≤ ljNum2bit runtime.fpu (.finite n) ∧
          ljNum2bit runtime.fpu (.finite n) ≤ n :=
        ljNum2bit_between lower upper le_rfl le_rfl
      exact congrArg some (le_antisymm between.2 between.1)
  | x64 =>
      have range : -2 ^ (64 - 1) ≤ n ∧ n < 2 ^ (64 - 1) := by omega
      exact truncated_integer.trans (if_pos range)

theorem luaNext_push_none (holds : (state.push key).Holds idx (.table address))
    (live : state.tables.cells address = some t) (last : t.nextEntry key = some none) :
    luaNext runtime idx (state.push key) = .ok false state := by
  rw [luaNext, bind_of_ok (tableAt_of_holds holds live), bind_of_ok index2adr_first]
  simp only [Option.getD_some]
  rw [Table.nextEntry] at last
  simp only [last]
  rw [bind_of_ok luaPop_first, pure_eq_ok]

theorem luaNext_push_some (holds : (state.push key).Holds idx (.table address))
    (live : state.tables.cells address = some t)
    (next : t.nextEntry key = some (some (first, second))) :
    luaNext runtime idx (state.push key) = .ok true ((state.push first).push second) := by
  rw [luaNext, bind_of_ok (tableAt_of_holds holds live), bind_of_ok index2adr_first]
  simp only [Option.getD_some]
  rw [Table.nextEntry] at next
  simp only [next]
  rw [bind_of_ok luaPop_first]
  rfl

end Lucciefr.Lua
