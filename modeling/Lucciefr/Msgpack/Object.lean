import Mathlib.Data.List.Basic
import Mathlib.Tactic.Ring

/-!
# MessagePack objects

The dynamically typed objects of `msgpack/object.h`. The integers have the width
of the C union members; a `double` is represented by its bit pattern. The sizes
of strings and containers are the lengths of the lists. In C these sizes are
32-bit fields, and an object tagged as a negative integer has a negative value:
an object with both properties, in all its parts, is well-formed.
-/

namespace Lucciefr.Msgpack

/-- `msgpack_object` -/
inductive Object where
  | nil
  | boolean (value : Bool)
  | positiveInteger (u64 : UInt64)
  | negativeInteger (i64 : Int64)
  | float (f64 : UInt64)
  | str (bytes : List UInt8)
  | bin (bytes : List UInt8)
  | ext (type : Int8) (bytes : List UInt8)
  | array (items : List Object)
  | map (pairs : List (Object × Object))
deriving Repr

namespace Object

mutual

/-- The sizes fit their fields, and negative integers are negative. -/
def WellFormed : Object → Prop
  | .nil => True
  | .boolean _ => True
  | .positiveInteger _ => True
  | .negativeInteger i64 => i64.toInt < 0
  | .float _ => True
  | .str bytes => bytes.length < 2 ^ 32
  | .bin bytes => bytes.length < 2 ^ 32
  | .ext _ bytes => bytes.length < 2 ^ 32
  | .array items => items.length < 2 ^ 32 ∧ ItemsWellFormed items
  | .map pairs => pairs.length < 2 ^ 32 ∧ PairsWellFormed pairs

def ItemsWellFormed : List Object → Prop
  | [] => True
  | item :: items => item.WellFormed ∧ ItemsWellFormed items

def PairsWellFormed : List (Object × Object) → Prop
  | [] => True
  | (key, val) :: pairs => key.WellFormed ∧ val.WellFormed ∧ PairsWellFormed pairs

end

mutual

/-- The depth of the nesting of containers. -/
def depth : Object → ℕ
  | .array items => itemsDepth items + 1
  | .map pairs => pairsDepth pairs + 1
  | _ => 0

def itemsDepth : List Object → ℕ
  | [] => 0
  | item :: items => max item.depth (itemsDepth items)

def pairsDepth : List (Object × Object) → ℕ
  | [] => 0
  | (key, val) :: pairs => max (max key.depth val.depth) (pairsDepth pairs)

end

mutual

/-- Every extension in the object satisfies the condition on its size. -/
def ExtSizes (condition : ℕ → Prop) : Object → Prop
  | .ext _ bytes => condition bytes.length
  | .array items => ItemsExtSizes condition items
  | .map pairs => PairsExtSizes condition pairs
  | _ => True

def ItemsExtSizes (condition : ℕ → Prop) : List Object → Prop
  | [] => True
  | item :: items => item.ExtSizes condition ∧ ItemsExtSizes condition items

def PairsExtSizes (condition : ℕ → Prop) : List (Object × Object) → Prop
  | [] => True
  | (key, val) :: pairs =>
      key.ExtSizes condition ∧ val.ExtSizes condition ∧ PairsExtSizes condition pairs

end

/-- Induction over an object and everything it contains. -/
@[elab_as_elim]
theorem nested {motive : Object → Prop} (leaf : ∀ object, object.depth = 0 → motive object)
    (array : ∀ items, (∀ item ∈ items, motive item) → motive (.array items))
    (map : ∀ pairs, (∀ pair ∈ pairs, motive pair.1 ∧ motive pair.2) → motive (.map pairs))
    (object : Object) : motive object := by
  apply Object.rec
  case nil => exact leaf _ rfl
  case boolean => exact fun _ => leaf _ rfl
  case positiveInteger => exact fun _ => leaf _ rfl
  case negativeInteger => exact fun _ => leaf _ rfl
  case float => exact fun _ => leaf _ rfl
  case str => exact fun _ => leaf _ rfl
  case bin => exact fun _ => leaf _ rfl
  case ext => exact fun _ _ => leaf _ rfl
  case array => exact array
  case map => exact map
  · simp
  · intro item items own others
    exact List.forall_mem_cons.mpr ⟨own, others⟩
  · simp
  · intro pair pairs own others
    exact List.forall_mem_cons.mpr ⟨own, others⟩
  · exact fun _ _ key val => ⟨key, val⟩

section Contents

variable {items : List Object} {pairs : List (Object × Object)} {condition : ℕ → Prop} {bound : ℕ}

theorem itemsWellFormed_iff : ItemsWellFormed items ↔ ∀ item ∈ items, item.WellFormed := by
  induction items with
  | nil => simp [ItemsWellFormed]
  | cons item items ih => simp [ItemsWellFormed, ih]

theorem pairsWellFormed_iff :
    PairsWellFormed pairs ↔ ∀ pair ∈ pairs, pair.1.WellFormed ∧ pair.2.WellFormed := by
  induction pairs with
  | nil => simp [PairsWellFormed]
  | cons pair pairs ih => simp [PairsWellFormed, ih, and_assoc]

theorem itemsDepth_le_iff : itemsDepth items ≤ bound ↔ ∀ item ∈ items, item.depth ≤ bound := by
  induction items with
  | nil => simp [itemsDepth]
  | cons item items ih => rw [itemsDepth, Nat.max_le, ih, List.forall_mem_cons]

theorem pairsDepth_le_iff :
    pairsDepth pairs ≤ bound ↔ ∀ pair ∈ pairs, pair.1.depth ≤ bound ∧ pair.2.depth ≤ bound := by
  induction pairs with
  | nil => simp [pairsDepth]
  | cons pair pairs ih => rw [pairsDepth, Nat.max_le, Nat.max_le, ih, List.forall_mem_cons]

theorem itemsExtSizes_iff :
    ItemsExtSizes condition items ↔ ∀ item ∈ items, item.ExtSizes condition := by
  induction items with
  | nil => simp [ItemsExtSizes]
  | cons item items ih => simp [ItemsExtSizes, ih]

theorem pairsExtSizes_iff : PairsExtSizes condition pairs ↔
    ∀ pair ∈ pairs, pair.1.ExtSizes condition ∧ pair.2.ExtSizes condition := by
  induction pairs with
  | nil => simp [PairsExtSizes]
  | cons pair pairs ih => simp [PairsExtSizes, ih, and_assoc]

end Contents

end Object

end Lucciefr.Msgpack
