import Mathlib.Data.Rat.Floor
import Lucciefr.Base.OrderedMap

/-!
# Lua values

The values of the Lua language, as LuaJIT represents them (`lj_obj.h`). A number is a
`double`; a finite one is taken as the rational number it stands for, so that the two
zeros are one number, as they are for every comparison and for table keys. Strings
are compared by their contents, since LuaJIT interns them. Tables, functions and the
other objects are referred to by an address.
-/

namespace Lucciefr.Lua

/-- `lua_Number` -/
inductive Number where
  | finite (value : ℚ)
  | infinite (negative : Bool)
  | nan
deriving DecidableEq

/-- `TValue` -/
inductive Value where
  | nil
  | boolean (value : Bool)
  | number (value : Number)
  | string (bytes : List UInt8)
  | lightuserdata (pointer : ℕ)
  | table (address : ℕ)
  | function (address : ℕ)
  | userdata (address : ℕ)
  | thread (address : ℕ)
  /-- An FFI object. The pointer is what `cdata_topointer` obtains from it. -/
  | cdata (address : ℕ) (pointer : ℕ)
deriving DecidableEq

/-- The `LUA_T` constants. -/
inductive LuaType where
  | none
  | nil
  | boolean
  | lightuserdata
  | number
  | string
  | table
  | function
  | userdata
  | thread
  | cdata
deriving DecidableEq

/-- `lua_typename` -/
def LuaType.name : LuaType → String
  | none => "no value"
  | nil => "nil"
  | boolean => "boolean"
  | lightuserdata => "userdata"
  | number => "number"
  | string => "string"
  | table => "table"
  | function => "function"
  | userdata => "userdata"
  | thread => "thread"
  | cdata => "cdata"

namespace Value

def type : Value → LuaType
  | nil => .nil
  | boolean _ => .boolean
  | number _ => .number
  | string _ => .string
  | lightuserdata _ => .lightuserdata
  | table _ => .table
  | function _ => .function
  | userdata _ => .userdata
  | thread _ => .thread
  | cdata _ _ => .cdata

/-- The number of an integer. -/
def integer (n : ℤ) : Value :=
  .number (.finite n)

/-- Comparison of two values without a metamethod. -/
def rawEqual : Value → Value → Bool
  | .number .nan, _ => false
  | value, other => value = other

/-- A value which can be the key of a table. -/
def IsKey (value : Value) : Prop :=
  value ≠ .nil ∧ value ≠ .number .nan

instance : DecidablePred IsKey := fun value =>
  inferInstanceAs (Decidable (value ≠ .nil ∧ value ≠ .number .nan))

theorem type_eq_nil {value : Value} : value.type = .nil ↔ value = .nil := by
  cases value <;> simp [type]

theorem integer_inj {n m : ℤ} : integer n = integer m ↔ n = m := by
  simp [integer]

theorem integer_isKey (n : ℤ) : (integer n).IsKey := by
  simp [IsKey, integer]

end Value

/-- The entries of a table, in the order in which `lua_next` visits them. -/
structure Table where
  map : OrderedMap Value Value
  keys : ∀ key ∈ map.keys, key.IsKey
  values : ∀ entry ∈ map.entries, entry.2 ≠ .nil

namespace Table

def empty : Table where
  map := OrderedMap.empty Value Value
  keys := by
    intro key keyMem
    cases keyMem
  values := by
    intro entry entryMem
    cases entryMem

/-- `t[key]`, without metamethods. -/
def get (t : Table) (key : Value) : Value :=
  (t.map.find key).getD .nil

/-- `t[key] = value`, without metamethods. -/
def set (t : Table) (key value : Value) (isKey : key.IsKey) : Table :=
  if present : value = .nil then
    { map := t.map.erase key
      keys := by
        intro other otherMem
        rcases List.mem_map.mp otherMem with ⟨entry, entryMem, rfl⟩
        exact t.keys _ (List.mem_map.mpr ⟨entry, (List.mem_filter.mp entryMem).1, rfl⟩)
      values := fun entry entryMem => t.values entry (List.mem_filter.mp entryMem).1 }
  else
    { map := t.map.insert key value
      keys := by
        intro other otherMem
        by_cases same : other = key
        · exact same ▸ isKey
        · rcases List.mem_map.mp otherMem with ⟨⟨_, held⟩, entryMem, rfl⟩
          exact t.keys _ (List.mem_map.mpr
            ⟨_, (OrderedMap.mem_insert_of_ne same).mp entryMem, rfl⟩)
      values := by
        rintro ⟨other, held⟩ entryMem
        by_cases same : other = key
        · subst same
          rw [← OrderedMap.find_eq_some_iff, OrderedMap.find_insert_self] at entryMem
          exact Option.some.inj entryMem ▸ present
        · exact t.values _ ((OrderedMap.mem_insert_of_ne same).mp entryMem) }

/-- `t[n] = value` -/
def setInteger (t : Table) (n : ℤ) (value : Value) : Table :=
  t.set (.integer n) value (Value.integer_isKey n)

/-- The entry which follows a key in the traversal, where nil is before the first one. -/
def nextEntry (t : Table) (key : Value) : Option (Option (Value × Value)) :=
  t.map.next (if key = .nil then none else some key)

variable {t : Table} {key other value : Value} {isKey : key.IsKey}

@[simp]
theorem get_empty : empty.get key = .nil := rfl

@[simp]
theorem get_set_self : (t.set key value isKey).get key = value := by
  unfold set
  split
  · rename_i erased
    simp [get, erased]
  · simp [get]

theorem get_set_of_ne (different : other ≠ key) :
    (t.set key value isKey).get other = t.get other := by
  unfold set
  split
  · rw [get, get, OrderedMap.find_erase_of_ne different]
  · rw [get, get, OrderedMap.find_insert_of_ne different]

theorem get_eq_iff (present : value ≠ .nil) :
    t.get key = value ↔ (key, value) ∈ t.map.entries := by
  rw [← OrderedMap.find_eq_some_iff, get]
  cases t.map.find key with
  | none => simp [present.symm]
  | some held => simp

theorem get_eq_nil_iff : t.get key = .nil ↔ key ∉ t.map.keys := by
  rw [← OrderedMap.find_eq_none_iff, get]
  cases found : t.map.find key with
  | none => simp
  | some held =>
      have present := t.values _ (OrderedMap.find_eq_some_iff.mp found)
      simpa using present

theorem get_ne_nil_iff : t.get key ≠ .nil ↔ key ∈ t.map.keys := by
  rw [ne_eq, get_eq_nil_iff, not_not]

theorem isKey_of_mem (entryMem : (key, value) ∈ t.map.entries) : key.IsKey :=
  t.keys key (OrderedMap.mem_keys_of_mem entryMem)

/-- Storing what is there changes nothing, not even the order. -/
theorem set_self (present : (key, value) ∈ t.map.entries) : t.set key value isKey = t := by
  have nonnil := t.values _ present
  have keyMem : key ∈ t.map.keys := OrderedMap.mem_keys_of_mem present
  rcases t with ⟨⟨entries, nodup⟩, keys, values⟩
  have unchanged : (entries.map fun entry => if entry.1 = key then (key, value) else entry) =
      entries := by
    conv_rhs => rw [← List.map_id entries]
    apply List.map_congr_left
    intro entry entryMem
    by_cases here : entry.1 = key
    · have same : (entry.1, entry.2) = (key, value) := by
        have same := List.inj_on_of_nodup_map nodup entryMem present here
        exact same
      rw [if_pos here, ← same]
      rfl
    · rw [if_neg here]
      rfl
  simp only [set, dif_neg nonnil, OrderedMap.insert, if_pos keyMem, unchanged]

theorem mem_keys_set (present : value ≠ .nil) :
    other ∈ (t.set key value isKey).map.keys ↔ other = key ∨ other ∈ t.map.keys := by
  rw [← get_ne_nil_iff, ← get_ne_nil_iff]
  by_cases same : other = key
  · subst same
    simp [present]
  · rw [get_set_of_ne same]
    simp [same]

theorem nextEntry_nil : t.nextEntry .nil = some t.map.entries.head? := by
  rw [Table.nextEntry, if_pos rfl]
  rfl

theorem nextEntry_of_split {before after : List (Value × Value)}
    (split : t.map.entries = before ++ (key, value) :: after) :
    t.nextEntry key = some after.head? := by
  have isKey : key.IsKey := t.keys key (by simp [OrderedMap.keys, split])
  rw [Table.nextEntry, if_neg isKey.1, OrderedMap.next_of_split split]

end Table

end Lucciefr.Lua
