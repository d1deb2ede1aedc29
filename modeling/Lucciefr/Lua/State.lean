import Lucciefr.Base.CString
import Lucciefr.Base.Effect
import Lucciefr.Base.Heap
import Lucciefr.Lua.Value

/-!
# Lua states

What the C API sees of a `lua_State`: the stack of the running C function and its
upvalues, and the objects. The top of the stack is the head of the list. Objects are
never collected here, and allocations and growing the stack are assumed to succeed.

A call of the API fails by raising an error, which unwinds to the innermost protected
call, or is undefined, where `lj_api.c` has an `api_check` (these are compiled out).
-/

namespace Lucciefr.Lua

/-- A function which is implemented in C, or is called like one. -/
structure Closure where
  /-- The address of the code. -/
  code : ℕ
  upvalues : List Value
  environment : Value

structure State where
  stack : List Value
  upvalues : List Value
  registry : Value
  environment : Value
  globals : Value
  tables : Heap Table
  closures : Heap Closure

inductive Failure where
  /-- A Lua error with this value as its message. -/
  | raised (message : Value)
  | undefined (fault : Fault)

/-- Calls of the C API, from a function to which the state belongs. -/
abbrev LuaM (α : Type) := EStateM Failure State α

/-- The precision in which the x87 FPU adds. -/
inductive FpuPrecision where
  | double
  | extended
deriving DecidableEq, Repr

/-- The number of its significant bits. -/
def FpuPrecision.bits : FpuPrecision → ℕ
  | double => 53
  | extended => 64

/-- What is outside of this model. -/
structure Runtime where
  /-- `lj_str_fromnumber` -/
  strFromnumber : Number → List UInt8
  /-- `lj_strscan_number` -/
  strscanNumber : List UInt8 → Option Number
  /-- `lj_tab_len` -/
  tabLen : Table → ℕ
  /-- The address of the memory of an object. -/
  address : Value → ℕ
  /-- The length of a userdata block. -/
  udataLen : ℕ → ℕ
  /-- An error message with the place where it is raised. -/
  located : List UInt8 → List UInt8
  /-- What the operating system sets up: `extended` on Linux, `double` on Windows. -/
  fpu : FpuPrecision
  /-- The name of the running function, in error messages. -/
  fname : String
  /-- The `lua_State*` in the format `%p`. -/
  formattedState : String

instance : Inhabited Runtime where
  default :=
    { strFromnumber := fun _ => []
      strscanNumber := fun _ => none
      tabLen := fun _ => 0
      address := fun _ => 0
      udataLen := fun _ => 0
      located := fun text => text
      fpu := .extended
      fname := "?"
      formattedState := "(nil)" }

/-- The characters of a text. -/
def characters (text : String) : List UInt8 :=
  text.toUTF8.toList

/-- Raise an error with this text. -/
def errMsg {α : Type} (runtime : Runtime) (text : String) : LuaM α :=
  throw (.raised (.string (runtime.located (characters text))))

/-- `luaL_error`, with the text after formatting. -/
def luaLError {α : Type} (runtime : Runtime) (text : List UInt8) : LuaM α :=
  throw (.raised (.string (runtime.located text)))

/-- A violation of an `api_check`. -/
def apiCheckFails {α : Type} : LuaM α :=
  throw (.undefined .outOfBounds)

namespace State

/-- A state without objects. -/
def empty : State where
  stack := []
  upvalues := []
  registry := .nil
  environment := .nil
  globals := .nil
  tables := Heap.empty Table
  closures := Heap.empty Closure

/-- The state with another value on top of the stack. -/
def push (state : State) (value : Value) : State :=
  { state with stack := value :: state.stack }

/-- The values at the positive indices, from 1 on. -/
def slots (state : State) : List Value :=
  state.stack.reverse

/-- The size of the stack, as `lua_gettop` returns it. -/
def top (state : State) : ℤ :=
  state.stack.length

variable {state : State} {value : Value} {values : List Value}

@[simp]
theorem stack_push : (state.push value).stack = value :: state.stack := rfl

theorem slots_push : (state.push value).slots = state.slots ++ [value] := by
  simp [slots]

@[simp]
theorem length_slots : state.slots.length = state.stack.length := by
  simp [slots]

end State

/-- `LUA_REGISTRYINDEX` -/
def luaRegistryindex : ℤ := -10000

/-- `LUA_ENVIRONINDEX` -/
def luaEnvironindex : ℤ := -10001

/-- `LUA_GLOBALSINDEX` -/
def luaGlobalsindex : ℤ := -10002

/-- `lua_upvalueindex` -/
def luaUpvalueindex (i : ℤ) : ℤ :=
  luaGlobalsindex - i

/-- `index2adr`: the value at an index, or none for an index which is acceptable only. -/
def index2adr (idx : ℤ) : LuaM (Option Value) := fun state =>
  if 0 < idx then
    .ok state.slots[idx.toNat - 1]? state
  else if luaRegistryindex < idx then
    if idx ≠ 0 ∧ -idx ≤ state.top then
      .ok state.stack[(-idx).toNat - 1]? state
    else
      apiCheckFails state
  else if idx = luaGlobalsindex then
    .ok (some state.globals) state
  else if idx = luaRegistryindex then
    .ok (some state.registry) state
  else if idx = luaEnvironindex then
    .ok (some state.environment) state
  else
    .ok state.upvalues[(luaGlobalsindex - idx).toNat - 1]? state

/-- `stkindex2adr`: the slot at an index which has to be valid, as the number of slots
above it. -/
def stkindex2adr (idx : ℤ) : LuaM ℕ := fun state =>
  if 0 < idx ∧ idx ≤ state.top then
    .ok (state.top - idx).toNat state
  else if idx < 0 ∧ -idx ≤ state.top then
    .ok ((-idx).toNat - 1) state
  else
    apiCheckFails state

section Stack

/-- `lua_gettop` -/
def luaGettop : LuaM ℤ := fun state =>
  .ok state.top state

/-- Write a value above the top of the stack, and increment the top. -/
def push (value : Value) : LuaM Unit := fun state =>
  .ok () (state.push value)

/-- `lua_settop` -/
def luaSettop (idx : ℤ) : LuaM Unit := fun state =>
  if 0 ≤ idx then
    .ok () { state with
      stack := List.replicate (idx - state.top).toNat .nil ++
        state.stack.drop (state.top - idx).toNat }
  else if -(idx + 1) ≤ state.top then
    .ok () { state with stack := state.stack.drop (-(idx + 1)).toNat }
  else
    apiCheckFails state

/-- `lua_pop` -/
def luaPop (n : ℤ) : LuaM Unit :=
  luaSettop (-n - 1)

/-- `lua_remove` -/
def luaRemove (idx : ℤ) : LuaM Unit := do
  let above ← stkindex2adr idx
  modify fun state => { state with stack := state.stack.eraseIdx above }

/-- `lua_insert` -/
def luaInsert (idx : ℤ) : LuaM Unit := do
  let above ← stkindex2adr idx
  modify fun state =>
    match state.stack with
    | [] => state
    | value :: rest => { state with stack := rest.insertIdx above value }

/-- Write a value to a pseudo-index. -/
def assignPseudo (idx : ℤ) (value : Value) : LuaM Unit := fun state =>
  if idx = luaGlobalsindex then
    if value.type = .table then .ok () { state with globals := value } else apiCheckFails state
  else if idx = luaRegistryindex then
    .ok () { state with registry := value }
  else if idx = luaEnvironindex then
    if value.type = .table then .ok () { state with environment := value } else apiCheckFails state
  else if (luaGlobalsindex - idx).toNat ≤ state.upvalues.length then
    .ok () { state with upvalues := state.upvalues.set ((luaGlobalsindex - idx).toNat - 1) value }
  else
    apiCheckFails state

/-- Write a value to an index. -/
def assign (idx : ℤ) (value : Value) : LuaM Unit :=
  if luaRegistryindex < idx then do
    let above ← stkindex2adr idx
    modify fun state => { state with stack := state.stack.set above value }
  else
    assignPseudo idx value

/-- `lua_replace` -/
def luaReplace (idx : ℤ) : LuaM Unit := do
  let value ← index2adr (-1)
  assign idx (value.getD .nil)
  luaPop 1

/-- `lua_pushvalue` -/
def luaPushvalue (idx : ℤ) : LuaM Unit := do
  let value ← index2adr idx
  push (value.getD .nil)

/-- `lua_type` -/
def luaType (idx : ℤ) : LuaM LuaType := do
  let value ← index2adr idx
  pure ((value.map Value.type).getD .none)

/-- `lua_isnil` -/
def luaIsnil (idx : ℤ) : LuaM Bool := do
  return (← luaType idx) = .nil

/-- `lua_isnoneornil` -/
def luaIsnoneornil (idx : ℤ) : LuaM Bool := do
  return (← luaType idx) = .none || (← luaType idx) = .nil

/-- `luaL_checktype` -/
def luaLChecktype (runtime : Runtime) (idx : ℤ) (type : LuaType) : LuaM Unit := do
  let actual ← luaType idx
  if actual ≠ type then
    errMsg runtime
      s!"bad argument #{idx} to '{runtime.fname}' ({type.name} expected, got {actual.name})"

/-- `lua_error` -/
def luaError {α : Type} : LuaM α := do
  let message ← index2adr (-1)
  throw (.raised (message.getD .nil))

/-- `lua_pushnil` -/
def luaPushnil : LuaM Unit :=
  push .nil

/-- `lua_pushinteger` -/
def luaPushinteger (n : ℤ) : LuaM Unit :=
  push (.integer n)

/-- `lua_pushnumber`, of a finite number. -/
def luaPushnumber (n : ℚ) : LuaM Unit :=
  push (.number (.finite n))

/-- `lua_pushstring` -/
def luaPushstring (str : List UInt8) : LuaM Unit :=
  push (.string (cString str))

/-- `lua_pushliteral` -/
def luaPushliteral (text : String) : LuaM Unit :=
  push (.string (characters text))

end Stack

namespace State

variable {state other : State} {idx : ℤ} {value above : Value}

/-- The index which `LUA_ABSIDX` makes of an index. -/
def absindex (state : State) (idx : ℤ) : ℤ :=
  if idx < 0 then idx + state.top + 1 else idx

/-- A positive or negative index of a slot with this value. -/
structure Holds (state : State) (idx : ℤ) (value : Value) : Prop where
  stackIndex : luaRegistryindex < idx
  positive : 0 < state.absindex idx
  slot : state.slots[(state.absindex idx).toNat - 1]? = some value

theorem top_nonneg : 0 ≤ state.top := by
  rw [top]
  exact Int.natCast_nonneg _

theorem absindex_of_pos (positive : 0 < idx) : state.absindex idx = idx := by
  rw [absindex, if_neg (by omega)]

theorem Holds.nonzero (holds : state.Holds idx value) : idx ≠ 0 := by
  rintro rfl
  exact absurd holds.positive (by simp [absindex])

theorem Holds.le_top (holds : state.Holds idx value) : state.absindex idx ≤ state.top := by
  have bound := (List.getElem?_eq_some_iff.mp holds.slot).1
  have positive := holds.positive
  rw [length_slots] at bound
  rw [top]
  omega

theorem holds_of_pos (positive : 0 < idx) :
    state.Holds idx value ↔ state.slots[idx.toNat - 1]? = some value := by
  constructor
  · intro holds
    have slot := holds.slot
    rwa [absindex_of_pos positive] at slot
  · intro slot
    refine ⟨?_, ?_, ?_⟩
    · rw [luaRegistryindex]
      omega
    · rwa [absindex_of_pos positive]
    · rwa [absindex_of_pos positive]

/-- The index after `LUA_ABSIDX` is one of the same slot. -/
theorem Holds.absolute (holds : state.Holds idx value) :
    state.Holds (state.absindex idx) value :=
  (holds_of_pos holds.positive).mpr holds.slot

/-- A positive index is not affected by what is pushed. -/
theorem Holds.of_prefix (holds : state.Holds idx value) (positive : 0 < idx)
    (kept : state.slots <+: other.slots) : other.Holds idx value := by
  rw [holds_of_pos positive] at holds ⊢
  rcases kept with ⟨more, slots_eq⟩
  rw [← slots_eq]
  exact List.getElem?_append_left (List.getElem?_eq_some_iff.mp holds).1 ▸ holds

theorem Holds.push (holds : state.Holds idx value) (positive : 0 < idx) :
    (state.push above).Holds idx value :=
  holds.of_prefix positive ⟨[above], slots_push.symm⟩

theorem Holds.push_two {second : Value} (holds : state.Holds idx value) (positive : 0 < idx) :
    ((state.push above).push second).Holds idx value :=
  (holds.push positive).push positive

/-- A slot, by its distance from the top. -/
theorem holds_of_neg {depth : ℕ} (small : depth < 9999)
    (slot : state.stack[depth]? = some value) : state.Holds (-(depth + 1 : ℕ)) value := by
  have bound := (List.getElem?_eq_some_iff.mp slot).1
  have absolute : state.absindex (-(depth + 1 : ℕ)) = state.top - depth := by
    rw [absindex, if_pos (by omega)]
    push_cast
    omega
  refine ⟨?_, ?_, ?_⟩
  · rw [luaRegistryindex]
    omega
  · rw [absolute, top]
    omega
  · have distance : state.stack.length - 1 - ((state.top - depth).toNat - 1) = depth := by
      rw [top]
      omega
    rw [absolute, slots, List.getElem?_reverse (by rw [top]; omega), distance, slot]

theorem holds_first : (state.push value).Holds (-1) value :=
  holds_of_neg (by decide) rfl

theorem holds_second : ((state.push value).push above).Holds (-2) value :=
  holds_of_neg (by decide) rfl

end State

section Indices

variable {runtime : Runtime} {state : State} {idx : ℤ} {value first second : Value}

theorem index2adr_of_holds (holds : state.Holds idx value) :
    index2adr idx state = .ok (some value) state := by
  rcases holds with ⟨stackIndex, positive, slot⟩
  rw [index2adr]
  by_cases sign : 0 < idx
  · rw [State.absindex_of_pos sign] at slot
    rw [if_pos sign, slot]
  · have zero : idx ≠ 0 := by
      rintro rfl
      rw [State.absindex, if_neg (by omega)] at positive
      omega
    have negative : idx < 0 := by omega
    rw [State.absindex, if_pos negative] at positive slot
    have distance : state.stack.length - 1 - ((idx + state.top + 1).toNat - 1) =
        (-idx).toNat - 1 := by
      rw [State.top] at positive ⊢
      omega
    rw [State.slots, List.getElem?_reverse (by rw [State.top] at positive ⊢; omega), distance]
      at slot
    rw [if_neg sign, if_pos stackIndex, if_pos ⟨zero, by omega⟩, slot]

theorem stkindex2adr_of_holds (holds : state.Holds idx value) :
    stkindex2adr idx state = .ok (state.top - state.absindex idx).toNat state := by
  have bound := holds.le_top
  have positive := holds.positive
  rw [stkindex2adr]
  by_cases sign : 0 < idx
  · rw [State.absindex_of_pos sign] at bound ⊢
    rw [if_pos ⟨sign, bound⟩]
  · have negative : idx < 0 := by
      by_contra nonneg
      rw [State.absindex, if_neg nonneg] at positive
      exact sign positive
    rw [State.absindex, if_pos negative] at positive bound ⊢
    rw [if_neg (by omega), if_pos ⟨negative, by omega⟩]
    congr 1
    omega

@[simp]
theorem index2adr_first : index2adr (-1) (state.push first) =
    .ok (some first) (state.push first) :=
  index2adr_of_holds State.holds_first

@[simp]
theorem index2adr_second : index2adr (-2) ((state.push second).push first) =
    .ok (some second) ((state.push second).push first) :=
  index2adr_of_holds State.holds_second

@[simp]
theorem push_eq : push value state = .ok () (state.push value) := rfl

@[simp]
theorem luaPushinteger_eq {n : ℤ} :
    luaPushinteger n state = .ok () (state.push (.integer n)) := rfl

@[simp]
theorem luaPushnil_eq : luaPushnil state = .ok () (state.push .nil) := rfl

@[simp]
theorem luaGettop_eq : luaGettop state = .ok state.top state := rfl

theorem luaPop_eq (state : State) {n : ℕ} (enough : n ≤ state.stack.length) :
    luaPop n state = .ok () { state with stack := state.stack.drop n } := by
  have exact_n : (-(-(n : ℤ) - 1 + 1)).toNat = n := by omega
  rw [luaPop, luaSettop, if_neg (by omega), if_pos (by rw [State.top]; omega), exact_n]

@[simp]
theorem luaPop_first : luaPop 1 (state.push first) = .ok () state :=
  luaPop_eq _ (by simp)

@[simp]
theorem luaPop_second : luaPop 2 ((state.push second).push first) = .ok () state :=
  luaPop_eq _ (by simp)

theorem luaPushvalue_of_holds (holds : state.Holds idx value) :
    luaPushvalue idx state = .ok () (state.push value) := by
  rw [luaPushvalue, bind_of_ok (index2adr_of_holds holds)]
  rfl

theorem top_of_append {higher lower : List Value} (split : state.stack = higher ++ lower) :
    state.top = higher.length + lower.length := by
  rw [State.top, split, List.length_append]
  push_cast
  rfl

theorem stkindex2adr_of_split {lower : List Value} (higher : List Value)
    (split : state.stack = higher ++ lower)
    (nonempty : higher ≠ []) (idx_eq : idx = lower.length + 1) :
    stkindex2adr idx state = .ok (higher.length - 1) state := by
  have positive := List.length_pos_iff.mpr nonempty
  have top_eq := top_of_append split
  have distance : (state.top - idx).toNat = higher.length - 1 := by omega
  rw [stkindex2adr, if_pos ⟨by omega, by omega⟩, distance]

theorem stkindex2adr_second : stkindex2adr (-2) ((state.push second).push first) =
    .ok 1 ((state.push second).push first) := by
  have distance : (((state.push second).push first).top -
      ((state.push second).push first).absindex (-2)).toNat = 1 := by
    rw [State.absindex, if_pos (by decide)]
    omega
  rw [stkindex2adr_of_holds State.holds_second, distance]

/-- Inserting moves the top of the stack below the values from the index on. -/
theorem luaInsert_of_split {higher lower : List Value}
    (split : state.stack = value :: (higher ++ lower)) (idx_eq : idx = lower.length + 1) :
    luaInsert idx state = .ok () { state with stack := higher ++ value :: lower } := by
  have position := stkindex2adr_of_split (value :: higher) split (by simp) idx_eq
  have inserted : (higher ++ lower).insertIdx higher.length value = higher ++ value :: lower := by
    clear split position
    induction higher with
    | nil => rfl
    | cons first higher ih => simpa using ih
  rw [List.length_cons, Nat.add_sub_cancel] at position
  rw [luaInsert, bind_of_ok position, modify_eq_ok, split]
  simp only [inserted]

theorem luaInsert_second :
    luaInsert (-2) ((state.push second).push first) =
      .ok () ((state.push first).push second) := by
  rw [luaInsert, bind_of_ok stkindex2adr_second]
  rfl

theorem luaRemove_of_split (state : State) (idx : ℤ) {higher lower : List Value}
    (split : state.stack = higher ++ value :: lower) (idx_eq : idx = lower.length + 1) :
    luaRemove idx state = .ok () { state with stack := higher ++ lower } := by
  have regrouped : state.stack = (higher ++ [value]) ++ lower := by simpa using split
  have position :=
    stkindex2adr_of_split _ regrouped (by simp) idx_eq
  have erased : (higher ++ value :: lower).eraseIdx higher.length = higher ++ lower := by
    rw [List.eraseIdx_append_of_length_le (Nat.le_refl _), Nat.sub_self]
    rfl
  rw [List.length_append, List.length_singleton, Nat.add_sub_cancel] at position
  rw [luaRemove, bind_of_ok position, modify_eq_ok, split, erased]

theorem luaType_of_holds (holds : state.Holds idx value) :
    luaType idx state = .ok value.type state := by
  rw [luaType, bind_of_ok (index2adr_of_holds holds)]
  rfl

theorem luaLChecktype_of_holds (holds : state.Holds idx value) :
    luaLChecktype runtime idx value.type state = .ok () state := by
  rw [luaLChecktype, bind_of_ok (luaType_of_holds holds), if_neg (not_not_intro rfl), pure_eq_ok]

theorem luaLChecktype_table {address : ℕ} (holds : state.Holds idx (.table address)) :
    luaLChecktype runtime idx .table state = .ok () state :=
  luaLChecktype_of_holds holds

theorem luaReplace_second :
    luaReplace (-2) ((state.push second).push first) = .ok () (state.push first) := by
  have assigned : assign (-2) first ((state.push second).push first) =
      .ok () ((state.push first).push first) := by
    rw [assign, if_pos (by decide), bind_of_ok stkindex2adr_second]
    rfl
  rw [luaReplace, bind_of_ok index2adr_first, Option.getD_some, bind_of_ok assigned, luaPop_first]

theorem luaSettop_of_append {higher lower : List Value} (split : state.stack = higher ++ lower) :
    luaSettop lower.length state = .ok () { state with stack := lower } := by
  have top_eq := top_of_append split
  have none_missing : ((lower.length : ℤ) - state.top).toNat = 0 := by omega
  have surplus : (state.top - (lower.length : ℤ)).toNat = higher.length := by omega
  rw [luaSettop, if_pos (by omega), none_missing, surplus, split, List.drop_left]
  rfl

end Indices

end Lucciefr.Lua
