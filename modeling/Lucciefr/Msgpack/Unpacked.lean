import Lucciefr.Msgpack.RoundTrip

/-!
# Objects as they are unpacked

In a C program an object can be tagged as a negative integer although its value is
not negative. It is packed like the positive integer of this value, and unpacked as
one. Otherwise an object is unpacked as it was, unless it nests too deep: then
unpacking fails.
-/

namespace Lucciefr.Msgpack

namespace Object

mutual

/-- The object which is obtained by unpacking, with integers tagged by their sign. -/
def unpacked : Object → Object
  | .negativeInteger i64 =>
      if i64.toInt < 0 then .negativeInteger i64 else .positiveInteger i64.toUInt64
  | .array items => .array (unpackedItems items)
  | .map pairs => .map (unpackedPairs pairs)
  | object => object

def unpackedItems : List Object → List Object
  | [] => []
  | item :: items => item.unpacked :: unpackedItems items

def unpackedPairs : List (Object × Object) → List (Object × Object)
  | [] => []
  | (key, val) :: pairs => (key.unpacked, val.unpacked) :: unpackedPairs pairs

end

variable {items : List Object} {pairs : List (Object × Object)} {object : Object}

theorem unpackedItems_eq : unpackedItems items = items.map unpacked := by
  induction items with
  | nil => rfl
  | cons item items ih => rw [unpackedItems, ih, List.map_cons]

theorem unpackedPairs_eq :
    unpackedPairs pairs = pairs.map fun pair => (pair.1.unpacked, pair.2.unpacked) := by
  induction pairs with
  | nil => rfl
  | cons pair pairs ih => rw [unpackedPairs, ih, List.map_cons]

theorem unpacked_leaf_depth (leaf : object.depth = 0) : object.unpacked.depth = 0 := by
  cases object with
  | negativeInteger i64 =>
      rw [unpacked]
      split <;> rfl
  | array items => simp [depth] at leaf
  | map pairs => simp [depth] at leaf
  | _ => rfl

theorem itemsDepth_unpacked (each : ∀ item ∈ items, item.unpacked.depth = item.depth) :
    itemsDepth (unpackedItems items) = itemsDepth items := by
  induction items with
  | nil => rfl
  | cons item items ih =>
      rcases List.forall_mem_cons.mp each with ⟨own, others⟩
      rw [unpackedItems, itemsDepth, itemsDepth, own, ih others]

theorem pairsDepth_unpacked (each : ∀ pair ∈ pairs, pair.1.unpacked.depth = pair.1.depth ∧
    pair.2.unpacked.depth = pair.2.depth) :
    pairsDepth (unpackedPairs pairs) = pairsDepth pairs := by
  induction pairs with
  | nil => rfl
  | cons pair pairs ih =>
      rcases List.forall_mem_cons.mp each with ⟨own, others⟩
      rw [unpackedPairs, pairsDepth, pairsDepth, own.1, own.2, ih others]

@[simp]
theorem depth_unpacked : object.unpacked.depth = object.depth := by
  induction object using nested with
  | leaf object leaf => rw [unpacked_leaf_depth leaf, leaf]
  | array items ih => rw [unpacked, depth, depth, itemsDepth_unpacked ih]
  | map pairs ih => rw [unpacked, depth, depth, pairsDepth_unpacked ih]

theorem extSizes_unpacked {condition : ℕ → Prop} :
    object.unpacked.ExtSizes condition ↔ object.ExtSizes condition := by
  induction object using nested with
  | leaf object leaf =>
      cases object with
      | negativeInteger i64 =>
          rw [unpacked]
          split <;> rfl
      | array items => simp [depth] at leaf
      | map pairs => simp [depth] at leaf
      | _ => rfl
  | array items ih =>
      simp only [unpacked, ExtSizes, itemsExtSizes_iff, unpackedItems_eq, List.forall_mem_map]
      exact forall₂_congr ih
  | map pairs ih =>
      simp only [unpacked, ExtSizes, pairsExtSizes_iff, unpackedPairs_eq, List.forall_mem_map]
      exact forall₂_congr fun pair pairMem =>
        and_congr (ih pair pairMem).1 (ih pair pairMem).2

end Object

theorem storeSigned_natCast (width n : ℕ) (fits : n < 256 ^ width) :
    storeSigned width n = bigEndian width n := by
  have wrapped : ((n : ℤ) % 256 ^ width).toNat = n := by
    have same : (n : ℤ) % 256 ^ width = (n % 256 ^ width : ℕ) := by push_cast; rfl
    rw [same, Nat.mod_eq_of_lt fits, Int.toNat_natCast]
  rw [storeSigned, wrapped]

/-- A negative integer without a negative value is packed like the positive one. -/
theorem packInt64_of_nonneg {d : Int64} (nonneg : 0 ≤ d.toInt) :
    packInt64 d = packUint64 d.toUInt64 := by
  have value : d.toInt = d.toUInt64.toNat := by
    have signed : d.toInt = d.toBitVec.toInt := rfl
    have unsigned : d.toUInt64.toNat = d.toBitVec.toNat := rfl
    have bound := d.toBitVec.isLt
    rw [signed, BitVec.toInt_eq_toNat_cond] at nonneg ⊢
    rw [unsigned]
    split at nonneg <;> split <;> omega
  have byte : ∀ n : ℕ, n < 256 → bigEndian 1 n = [UInt8.ofNat n] := by
    intro n _
    simp [bigEndian]
  have bound := d.toUInt64.toNat_lt
  unfold packInt64 packUint64
  rw [value]
  generalize d.toUInt64.toNat = n at bound
  have one := storeSigned_natCast 1 n
  have two := storeSigned_natCast 2 n
  have four := storeSigned_natCast 4 n
  have eight := storeSigned_natCast 8 n
  have below : ∀ exponent : ℕ, ((n : ℤ) < 2 ^ exponent) = (n < 2 ^ exponent) := fun exponent =>
    propext (by exact_mod_cast Iff.rfl)
  rw [if_neg (by omega : ¬(n : ℤ) < -2 ^ 5)]
  simp only [below]
  by_cases fixnum : n < 2 ^ 7
  · rw [if_pos fixnum, if_pos (by omega : n < 2 ^ 8), if_pos fixnum, one (by omega),
      byte n (by omega)]
  rw [if_neg fixnum, if_neg fixnum]
  by_cases uint8 : n < 2 ^ 8
  · rw [if_pos (by omega : n < 2 ^ 16), if_pos uint8, if_pos uint8, one (by omega),
      byte n (by omega)]
  rw [if_neg uint8, if_neg uint8]
  by_cases uint16 : n < 2 ^ 16
  · rw [if_pos uint16, if_pos uint16, two (by omega)]
  rw [if_neg uint16, if_neg uint16]
  by_cases uint32 : n < 2 ^ 32
  · rw [if_pos uint32, if_pos uint32, four (by omega)]
  · rw [if_neg uint32, if_neg uint32, eight (by omega)]

variable {slots more : ℕ} {data rest tail : List UInt8} {object : Object}

theorem packObject_unpacked : packObject object.unpacked = packObject object := by
  induction object using Object.nested with
  | leaf object leaf =>
      cases object with
      | negativeInteger i64 =>
          rw [Object.unpacked]
          split
          · rfl
          · rw [packObject, packObject, packInt64_of_nonneg (by omega)]
      | array items => simp [Object.depth] at leaf
      | map pairs => simp [Object.depth] at leaf
      | _ => rfl
  | array items ih =>
      rw [Object.unpacked, packObject, packObject, packItems_eq, packItems_eq,
        Object.unpackedItems_eq, List.length_map, List.flatMap_map]
      congr 1
      exact List.flatMap_congr ih
  | map pairs ih =>
      rw [Object.unpacked, packObject, packObject, packPairs_eq, packPairs_eq,
        Object.unpackedPairs_eq, List.length_map, List.flatMap_map]
      congr 1
      apply List.flatMap_congr
      intro pair pairMem
      rw [packPair, packPair, (ih pair pairMem).1, (ih pair pairMem).2]

/-- More slots do not change what is read. -/
theorem readObject_of_le (enough : slots ≤ more)
    (read : readObject slots data = some (object, rest)) :
    readObject more data = some (object, rest) := by
  induction slots generalizing more data object rest with
  | zero =>
      rcases readObject_cases read with value | ⟨_, _, _, impossible, -⟩ | ⟨_, _, _, impossible, -⟩
      · exact readObject_of_value value
      · contradiction
      · contradiction
  | succ slots ih =>
      rcases Nat.exists_eq_add_of_le' enough with ⟨extra, rfl⟩
      have each : ∀ (input : List UInt8) (result : Object × List UInt8),
          readObject slots input = some result → readObject (extra + slots) input = some result :=
        fun input result own => ih (Nat.le_add_left slots extra) own
      rcases readObject_cases read with value |
        ⟨fewer, items, middle, slots_eq, rfl, header, contents⟩ |
        ⟨fewer, pairs, middle, slots_eq, rfl, header, contents⟩
      · exact readObject_of_value value
      · rw [Nat.add_right_cancel_iff] at slots_eq
        subst slots_eq
        rw [← Nat.add_assoc, readObject_of_array header, readMany_weaken each contents]
        rfl
      · rw [Nat.add_right_cancel_iff] at slots_eq
        subst slots_eq
        have both : ∀ (input : List UInt8) (result : (Object × Object) × List UInt8),
            readBoth (readObject slots) (readObject slots) input = some result →
              readBoth (readObject (extra + slots)) (readObject (extra + slots)) input =
                some result :=
          fun input result own => readBoth_weaken each each own
        rw [← Nat.add_assoc, readObject_of_map header, readMany_weaken both contents]
        rfl

/-- An object is read back as its unpacked form, from as many slots as it needs. -/
theorem readObject_packed (sizes : object.unpacked.WellFormed)
    (regular : object.ExtSizes (· < 2 ^ 32 - 1)) :
    readObject slots (packObject object ++ rest) =
      if object.depth ≤ slots then some (object.unpacked, rest) else none := by
  have enough : ∀ more, object.depth ≤ more →
      readObject more (packObject object ++ rest) = some (object.unpacked, rest) := by
    intro more shallow
    rw [← packObject_unpacked]
    exact readObject_packObject sizes (Object.extSizes_unpacked.mpr regular)
      (Object.depth_unpacked.le.trans shallow)
  split
  · exact enough slots ‹_›
  · rename_i deep
    rw [Option.eq_none_iff_forall_ne_some]
    rintro ⟨other, last⟩ read
    have same := readObject_of_le (Nat.le_of_not_ge deep) read
    rw [enough _ le_rfl, Option.some.injEq, Prod.mk.injEq] at same
    have shallow := (readObject_bounded read).2
    rw [← same.1, Object.depth_unpacked] at shallow
    exact deep shallow

end Lucciefr.Msgpack
