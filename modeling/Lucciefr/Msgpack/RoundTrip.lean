import Lucciefr.Msgpack.Decode

/-!
# Objects after packing and unpacking

A well-formed object is read back from its packed form when it does not nest deeper
than the stack and contains no extension of the largest size. The converse is about
what a reader does when it is not where the packed form of the next object begins:
too far ahead it stays ahead, and behind an extension of the largest size it reads
the contents of the extension as objects.
-/

namespace Lucciefr.Msgpack

variable {slots : ℕ} {data rest tail : List UInt8} {object : Object} {token : Token}

theorem packItems_eq (items : List Object) : packItems items = items.flatMap packObject := by
  induction items with
  | nil => rfl
  | cons item items ih => simp [packItems, ih]

/-- A key and its value. -/
def packPair (pair : Object × Object) : List UInt8 :=
  packObject pair.1 ++ packObject pair.2

theorem packPairs_eq (pairs : List (Object × Object)) :
    packPairs pairs = pairs.flatMap packPair := by
  induction pairs with
  | nil => rfl
  | cons pair pairs ih => simp [packPairs, packPair, ih]

/-- Reading a pair reads its key, and then its value. -/
theorem readBoth_packPair {pair : Object × Object} {read : Reader UInt8 Object}
    {result : Object × Object} :
    readBoth read read (packPair pair ++ tail) = some (result, rest) ↔
      ∃ middle, read (packObject pair.1 ++ (packObject pair.2 ++ tail)) = some (result.1, middle) ∧
        read middle = some (result.2, rest) := by
  rw [packPair, List.append_assoc]
  exact readBoth_eq_some

theorem readToken_packObject (leaf : object.depth = 0) (wellFormed : object.WellFormed)
    (regular : object.ExtSizes (· < 2 ^ 32 - 1)) :
    readToken (packObject object ++ rest) = some (.value object, rest) := by
  cases object with
  | nil => rfl
  | boolean value => cases value <;> rfl
  | positiveInteger u64 => exact readToken_packUint64 u64
  | negativeInteger i64 => exact readToken_packInt64 wellFormed
  | float f64 => exact readToken_packDouble f64
  | str bytes =>
      rw [packObject, List.append_assoc]
      exact readToken_packStr wellFormed
  | bin bytes =>
      rw [packObject, List.append_assoc]
      exact readToken_packBin wellFormed
  | ext type bytes =>
      rw [packObject, List.append_assoc]
      exact readToken_packExt regular
  | array items => simp [Object.depth] at leaf
  | map pairs => simp [Object.depth] at leaf

theorem readObject_packObject (wellFormed : object.WellFormed)
    (regular : object.ExtSizes (· < 2 ^ 32 - 1)) (shallow : object.depth ≤ slots) :
    readObject slots (packObject object ++ rest) = some (object, rest) := by
  induction object using Object.nested generalizing slots rest with
  | leaf object leaf => exact readObject_of_value (readToken_packObject leaf wellFormed regular)
  | array items ih =>
      rcases wellFormed with ⟨fits, itemsWellFormed⟩
      rw [Object.itemsWellFormed_iff] at itemsWellFormed
      simp only [Object.ExtSizes, Object.itemsExtSizes_iff] at regular
      cases slots with
      | zero => simp [Object.depth] at shallow
      | succ slots =>
          simp only [Object.depth, Nat.add_le_add_iff_right, Object.itemsDepth_le_iff] at shallow
          have contents := readMany_flatMap rest
            fun item itemMem rest =>
              ih item itemMem (itemsWellFormed item itemMem) (regular item itemMem)
                (shallow item itemMem)
          rw [packObject, packItems_eq, List.append_assoc,
            readObject_of_array (readToken_packArray fits), contents]
          rfl
  | map pairs ih =>
      rcases wellFormed with ⟨fits, pairsWellFormed⟩
      rw [Object.pairsWellFormed_iff] at pairsWellFormed
      simp only [Object.ExtSizes, Object.pairsExtSizes_iff] at regular
      cases slots with
      | zero => simp [Object.depth] at shallow
      | succ slots =>
          simp only [Object.depth, Nat.add_le_add_iff_right, Object.pairsDepth_le_iff] at shallow
          have contents := readMany_flatMap rest fun pair pairMem rest => by
              apply readBoth_packPair.mpr
              refine ⟨packObject pair.2 ++ rest, ?_, ?_⟩
              · exact (ih pair pairMem).1 (pairsWellFormed pair pairMem).1 (regular pair pairMem).1
                  (shallow pair pairMem).1
              · exact (ih pair pairMem).2 (pairsWellFormed pair pairMem).2 (regular pair pairMem).2
                  (shallow pair pairMem).2
          rw [packObject, packPairs_eq, List.append_assoc,
            readObject_of_map (readToken_packMap fits), contents]
          rfl

/-- Whatever is read is well-formed and within the slots. -/
theorem readObject_bounded (read : readObject slots data = some (object, rest)) :
    object.WellFormed ∧ object.depth ≤ slots := by
  induction slots generalizing data object rest with
  | zero =>
      rcases readObject_cases read with value | ⟨_, _, _, impossible, -⟩ | ⟨_, _, _, impossible, -⟩
      · rcases readToken_sound value with ⟨consumed, -, -, wellFormed, leaf, -⟩
        exact ⟨wellFormed, Nat.le_of_eq leaf⟩
      · contradiction
      · contradiction
  | succ slots ih =>
      rcases readObject_cases read with value |
        ⟨fewer, items, middle, slots_eq, rfl, header, contents⟩ |
        ⟨fewer, pairs, middle, slots_eq, rfl, header, contents⟩
      · rcases readToken_sound value with ⟨consumed, -, -, wellFormed, leaf, -⟩
        exact ⟨wellFormed, leaf ▸ Nat.zero_le _⟩
      · rw [Nat.add_right_cancel_iff] at slots_eq
        subst slots_eq
        rcases readToken_sound header with ⟨consumed, -, -, fits, -⟩
        have each := forall_of_readMany _ (fun _ _ _ => ih) contents
        refine ⟨⟨fits, Object.itemsWellFormed_iff.mpr fun item itemMem =>
          (each item itemMem).1⟩, ?_⟩
        simp only [Object.depth, Nat.add_le_add_iff_right, Object.itemsDepth_le_iff]
        exact fun item itemMem => (each item itemMem).2
      · rw [Nat.add_right_cancel_iff] at slots_eq
        subst slots_eq
        rcases readToken_sound header with ⟨consumed, -, -, fits, -⟩
        have each := forall_of_readPairs (fun _ _ _ => ih) contents
        refine ⟨⟨fits, Object.pairsWellFormed_iff.mpr fun pair pairMem =>
          ⟨(each pair pairMem).1.1, (each pair pairMem).2.1⟩⟩, ?_⟩
        simp only [Object.depth, Nat.add_le_add_iff_right, Object.pairsDepth_le_iff]
        exact fun pair pairMem => ⟨(each pair pairMem).1.2, (each pair pairMem).2.2⟩

section Ahead

/-- A reader whose input is `actual` is at least four bytes further than one which is
about to read `expected`. -/
def Ahead (actual expected : List UInt8) : Prop :=
  actual <:+ expected ∧ actual.length + 4 ≤ expected.length

/-- A reader which takes no less than the packed bytes stays ahead. -/
theorem Ahead.consume {packed consumed : List UInt8}
    (ahead : Ahead (consumed ++ rest) (packed ++ tail))
    (enough : packed.length ≤ consumed.length) : Ahead rest tail := by
  rcases ahead with ⟨suffix, distance⟩
  simp only [List.length_append] at distance
  refine ⟨?_, by omega⟩
  apply List.suffix_of_suffix_length_le (List.IsSuffix.trans (List.suffix_append _ _) suffix)
    (List.suffix_append _ _)
  omega

theorem floatToDouble_dvd (bits : ℕ) : 2 ^ 29 ∣ (floatToDouble bits).toNat := by
  have converted : ∀ value : ℕ, 2 ^ 29 ∣ value → 2 ^ 29 ∣ (UInt64.ofNat value).toNat := by
    intro value divides
    rw [UInt64.toNat_ofNat']
    exact (Nat.dvd_mod_iff (by decide)).mpr divides
  unfold floatToDouble
  simp only
  split
  · apply converted
    split <;> omega
  · split
    · split
      · apply converted
        omega
      · apply converted
        have small : Nat.log2 (bits % 2 ^ 23) < 23 :=
          (Nat.log2_lt ‹_›).mpr (Nat.mod_lt _ (by decide))
        have power : 2 ^ 29 ∣ 2 ^ (52 - Nat.log2 (bits % 2 ^ 23)) := Nat.pow_dvd_pow 2 (by omega)
        have shifted := Nat.dvd_sub (Nat.dvd_mul_left_of_dvd power (bits % 2 ^ 23))
          (show 2 ^ 29 ∣ 2 ^ 52 by decide)
        omega
    · apply converted
      omega

/-- Reading a number of single precision where the packed form of the number began at
least four bytes ago. -/
theorem Ahead.float {n : List UInt8} (length_eq : n.length = 4)
    (ahead : Ahead (0xca :: (n ++ rest)) (packDouble (floatToDouble (ofBigEndian n)) ++ tail)) :
    Ahead rest tail := by
  have divides := floatToDouble_dvd (ofBigEndian n)
  rcases ahead with ⟨⟨skipped, split⟩, distance⟩
  have lengths := congrArg List.length split
  simp only [packDouble, List.length_append, List.length_cons, length_bigEndian, length_eq]
    at lengths distance
  by_cases far : 8 ≤ skipped.length
  · refine ⟨?_, by omega⟩
    have suffix : rest <:+ packDouble (floatToDouble (ofBigEndian n)) ++ tail :=
      ⟨skipped ++ 0xca :: n, by rw [← split]; simp⟩
    apply List.suffix_of_suffix_length_le suffix (List.suffix_append _ _)
    omega
  · exfalso
    generalize converted : (floatToDouble (ofBigEndian n)).toNat = value at divides
    have same : ∀ position, position + skipped.length < 9 → (0xca :: (n ++ rest))[position]? =
        some (UInt8.ofNat (value / 256 ^ (8 - (position + skipped.length)))) := by
      intro position inside
      have there := congrArg (fun bytes => bytes[position + skipped.length]?) split
      simp only [List.getElem?_append_right (Nat.le_add_left _ _), Nat.add_sub_cancel, packDouble,
        List.cons_append, converted] at there
      rw [there]
      have shifted : position + skipped.length = (position + skipped.length - 1) + 1 := by omega
      rw [shifted, List.getElem?_cons_succ, List.getElem?_append_left (by simp; omega),
        getElem?_bigEndian _ (by omega)]
      congr 4
      omega
    have marker := congrArg (Option.map UInt8.toNat) (same 0 (by omega))
    simp only [List.getElem?_cons_zero, Option.map_some, Option.some.injEq, Nat.zero_add,
      UInt8.toNat_ofNat'] at marker
    have mark : (0xca : UInt8).toNat = 202 := rfl
    rw [mark] at marker
    have near : skipped.length = 4 ∨ skipped.length = 5 ∨ skipped.length = 6 ∨
        skipped.length = 7 := by omega
    rcases near with four | five | six | seven
    · -- the number is read from its own last bytes, of which only the sign and exponent are left
      have bytes : n = bigEndian 4 value := by
        apply List.ext_getElem?
        intro position
        by_cases inside : position < 4
        · have byte := same (position + 1) (by omega)
          rw [List.getElem?_cons_succ, List.getElem?_append_left (by omega)] at byte
          rw [byte, getElem?_bigEndian _ inside]
          congr 4
          omega
        · rw [List.getElem?_eq_none (by omega), List.getElem?_eq_none (by simp; omega)]
      have read : ofBigEndian n = value % 2 ^ 32 := by
        rw [bytes]
        exact ofBigEndian_bigEndian 4 value
      have few : ofBigEndian n = ofBigEndian n / 2 ^ 29 * 2 ^ 29 ∧ ofBigEndian n / 2 ^ 29 < 8 := by
        omega
      have exponents : ∀ k < 8, (floatToDouble (k * 2 ^ 29)).toNat / 256 ^ 4 % 256 ≠ 202 := by
        decide
      apply exponents _ few.2
      rw [← few.1, converted, marker, four]
    · rw [five] at marker
      omega
    · rw [six] at marker
      omega
    · rw [seven] at marker
      omega

theorem Ahead.readToken (regular : object.ExtSizes (· < 2 ^ 32 - 1))
    (ahead : Ahead data (packObject object ++ tail))
    (read : readToken data = some (.value object, rest)) : Ahead rest tail := by
  rcases readToken_sound read with ⟨consumed, rfl, -, -, -, lengths⟩
  rcases lengths regular with shorter | ⟨n, rfl, length_eq, rfl⟩
  · exact ahead.consume shorter
  · exact ahead.float length_eq

theorem depth_of_readToken (read : readToken data = some (.value object, rest)) :
    object.depth = 0 := by
  rcases readToken_sound read with ⟨consumed, -, -, -, leaf, -⟩
  exact leaf

/-- A reader which is ahead stays ahead when it reads the next object. -/
theorem Ahead.readObject (regular : object.ExtSizes (· < 2 ^ 32 - 1))
    (ahead : Ahead data (packObject object ++ tail))
    (read : readObject slots data = some (object, rest)) : Ahead rest tail := by
  induction object using Object.nested generalizing slots data rest tail with
  | leaf object leaf =>
      rcases readObject_cases read with value | ⟨_, _, _, -, rfl, -⟩ | ⟨_, _, _, -, rfl, -⟩
      · exact ahead.readToken regular value
      · simp [Object.depth] at leaf
      · simp [Object.depth] at leaf
  | array items ih =>
      rcases readObject_cases read with value | ⟨fewer, others, middle, -, same, header, contents⟩ |
        ⟨_, _, _, -, impossible, -⟩
      · have leaf := depth_of_readToken value
        simp [Object.depth] at leaf
      · rw [Object.array.injEq] at same
        subst same
        simp only [Object.ExtSizes, Object.itemsExtSizes_iff] at regular
        rcases readToken_sound header with ⟨consumed, rfl, -, -, shorter⟩
        rw [packObject, packItems_eq, List.append_assoc] at ahead
        apply readMany_follows Ahead _ (ahead.consume shorter) contents
        intro item itemMem input last remaining before item_eq
        exact ih item itemMem (regular item itemMem) before item_eq
      · contradiction
  | map pairs ih =>
      rcases readObject_cases read with value | ⟨_, _, _, -, impossible, -⟩ |
        ⟨fewer, others, middle, -, same, header, contents⟩
      · have leaf := depth_of_readToken value
        simp [Object.depth] at leaf
      · contradiction
      · rw [Object.map.injEq] at same
        subst same
        simp only [Object.ExtSizes, Object.pairsExtSizes_iff] at regular
        rcases readToken_sound header with ⟨consumed, rfl, -, -, shorter⟩
        rw [packObject, packPairs_eq, List.append_assoc] at ahead
        apply readMany_follows Ahead _ (ahead.consume shorter) contents
        intro pair pairMem input last remaining before both
        rw [packPair, List.append_assoc] at before
        rcases readBoth_eq_some.mp both with ⟨between, key_eq, val_eq⟩
        have after := (ih pair pairMem).1 (regular pair pairMem).1 before key_eq
        exact (ih pair pairMem).2 (regular pair pairMem).2 after val_eq

end Ahead

section Stray

variable {count : ℕ}

/-- The bytes `0xff` are read as the number -1, whatever the next object should be. -/
theorem readObject_stray (read : readObject slots
      (List.replicate (count + 1) 0xff ++ (packObject object ++ tail)) = some (object, rest)) :
    object = .negativeInteger (-1) ∧ rest = List.replicate (count + 1) 0xff ++ tail := by
  have first : readToken (List.replicate (count + 1) 0xff ++ (packObject object ++ tail)) =
      some (.value (.negativeInteger (-1)),
        List.replicate count 0xff ++ (packObject object ++ tail)) :=
    rfl
  rw [readObject_of_value first, Option.some.injEq, Prod.mk.injEq] at read
  rcases read with ⟨rfl, rfl⟩
  have packed : packObject (.negativeInteger (-1)) = [0xff] := by decide
  refine ⟨rfl, ?_⟩
  rw [packed, List.replicate_succ', List.append_assoc]

/-- A list which equals its own shift by one byte's copies consists of copies. -/
theorem eq_replicate_of_shift {body : List UInt8} {byte : UInt8}
    (shift : body = (List.replicate 4 byte ++ (body ++ tail)).take body.length) :
    body = List.replicate body.length byte := by
  have each : ∀ position, position < body.length → body[position]? = some byte := by
    intro position
    induction position using Nat.strongRecOn with
    | ind position ih =>
        intro inside
        rw [shift, List.getElem?_take_of_lt inside]
        by_cases start : position < 4
        · rw [List.getElem?_append_left (by simpa using start), List.getElem?_replicate,
            if_pos start]
        · rw [List.getElem?_append_right (by simpa using Nat.le_of_not_lt start),
            List.length_replicate, List.getElem?_append_left (by omega)]
          exact ih (position - 4) (by omega) (by omega)
  apply List.ext_getElem?
  intro position
  by_cases inside : position < body.length
  · rw [each position inside, List.getElem?_replicate, if_pos inside]
  · rw [List.getElem?_eq_none (by omega), List.getElem?_eq_none (by simp; omega)]

/-- Reading an extension of the largest size, from its own packed form, leaves its
contents in front of what follows. -/
theorem readObject_largestExt {type : Int8} {body : List UInt8} (largest : body.length + 1 = 2 ^ 32)
    (read : readObject slots (packObject (.ext type body) ++ tail) = some (.ext type body, rest)) :
    rest = List.replicate (body.length + 1) 0xff ++ tail := by
  have size : body.length = 2 ^ 32 - 1 := by omega
  have header : packExt body.length type =
      0xc9 :: ([0xff, 0xff, 0xff, 0xff] ++ [type.toUInt8]) := by
    rw [size]
    rfl
  rcases readObject_cases read with value | ⟨_, _, _, -, impossible, -⟩ |
    ⟨_, _, _, -, impossible, -⟩
  · rw [packObject, header] at value
    change readExt 4 ([0xff, 0xff, 0xff, 0xff] ++ (type.toUInt8 :: (body ++ tail))) =
      some (.value (.ext type body), rest) at value
    have wrapped : UInt32.ofNat (ofBigEndian [0xff, 0xff, 0xff, 0xff]) + 1 = 0 := rfl
    simp only [readExt, readExactly_append, List.length_cons, List.length_nil, Option.bind_some,
      readExtValue, wrapped, if_true, Option.map_eq_some_iff, Prod.mk.injEq, Token.value.injEq]
      at value
    rcases value with ⟨object, viewed, rfl, rfl⟩
    rcases callbackExt_eq_some viewed with ⟨first, behind, view, -, same⟩
    have all : ((0 : UInt32) - 1).toNat = body.length := by
      rw [size]
      rfl
    rw [List.cons_append, List.cons.injEq] at view
    rcases view with ⟨rfl, rfl⟩
    rw [Object.ext.injEq, all] at same
    rcases same with ⟨type_eq, shift⟩
    have type_byte : type.toUInt8 = 0xff := by
      rw [type_eq]
      rfl
    rw [type_byte] at shift ⊢
    rw [List.replicate_succ, ← eq_replicate_of_shift shift]
    rfl
  · contradiction
  · contradiction

/-- Stray bytes which the key leaves behind are still there after the value. -/
theorem readBoth_irregular {pair : Object × Object} (wellFormed : pair.1.WellFormed)
    (shallow : pair.1.depth ≤ slots)
    (broken : ¬(pair.1.ExtSizes (· < 2 ^ 32 - 1) ∧ pair.2.ExtSizes (· < 2 ^ 32 - 1)))
    (strayKey : ¬pair.1.ExtSizes (· < 2 ^ 32 - 1) → ∀ tail rest,
      readObject slots (packObject pair.1 ++ tail) = some (pair.1, rest) →
        rest = List.replicate (count + 1) 0xff ++ tail)
    (strayVal : ¬pair.2.ExtSizes (· < 2 ^ 32 - 1) → ∀ tail rest,
      readObject slots (packObject pair.2 ++ tail) = some (pair.2, rest) →
        rest = List.replicate (count + 1) 0xff ++ tail)
    (both : readBoth (readObject slots) (readObject slots) (packPair pair ++ tail) =
      some (pair, rest)) :
    rest = List.replicate (count + 1) 0xff ++ tail := by
  rcases readBoth_packPair.mp both with ⟨middle, key_eq, val_eq⟩
  by_cases regular : pair.1.ExtSizes (· < 2 ^ 32 - 1)
  · rw [readObject_packObject wellFormed regular shallow, Option.some.injEq, Prod.mk.injEq]
      at key_eq
    rw [← key_eq.2] at val_eq
    exact strayVal (fun other => broken ⟨regular, other⟩) tail rest val_eq
  · rw [strayKey regular _ _ key_eq] at val_eq
    exact (readObject_stray val_eq).2

/-- Reading an object with an extension of the largest size, from its own packed form,
leaves stray bytes in front of what follows. -/
theorem readObject_irregular (wellFormed : object.WellFormed)
    (irregular : ¬object.ExtSizes (· < 2 ^ 32 - 1)) (largest : count + 1 = 2 ^ 32)
    (read : readObject slots (packObject object ++ tail) = some (object, rest)) :
    rest = List.replicate (count + 1) 0xff ++ tail := by
  induction object using Object.nested generalizing slots rest tail with
  | leaf object leaf =>
      cases object with
      | ext type body =>
          simp only [Object.WellFormed] at wellFormed
          simp only [Object.ExtSizes] at irregular
          have length_eq : body.length = count := by omega
          rw [← length_eq] at largest ⊢
          exact readObject_largestExt largest read
      | array items => simp [Object.depth] at leaf
      | map pairs => simp [Object.depth] at leaf
      | _ => exact absurd trivial irregular
  | array items ih =>
      rcases wellFormed with ⟨fits, itemsWellFormed⟩
      rw [Object.itemsWellFormed_iff] at itemsWellFormed
      simp only [Object.ExtSizes, Object.itemsExtSizes_iff, not_forall, exists_prop] at irregular
      rw [packObject, packItems_eq, List.append_assoc] at read
      cases slots with
      | zero => simp [readObject, readToken_packArray fits] at read
      | succ slots =>
          rw [readObject_of_array (readToken_packArray fits)] at read
          simp only [Option.map_eq_some_iff, Prod.exists, Prod.mk.injEq, Object.array.injEq] at read
          rcases read with ⟨others, last, contents, rfl, rfl⟩
          have bounded := forall_of_readMany _ (fun _ _ _ => readObject_bounded) contents
          apply readMany_diverted _ _ _ irregular contents
          · intro item itemMem regular rest
            exact readObject_packObject (itemsWellFormed item itemMem) regular
              (bounded item itemMem).2
          · intro item itemMem broken rest tail item_eq
            exact ih item itemMem (itemsWellFormed item itemMem) broken item_eq
          · intro item _ rest tail item_eq
            exact (readObject_stray item_eq).2
  | map pairs ih =>
      rcases wellFormed with ⟨fits, pairsWellFormed⟩
      rw [Object.pairsWellFormed_iff] at pairsWellFormed
      simp only [Object.ExtSizes, Object.pairsExtSizes_iff] at irregular
      rw [packObject, packPairs_eq, List.append_assoc] at read
      cases slots with
      | zero => simp [readObject, readToken_packMap fits] at read
      | succ slots =>
          rw [readObject_of_map (readToken_packMap fits)] at read
          simp only [Option.map_eq_some_iff, Prod.exists, Prod.mk.injEq, Object.map.injEq] at read
          rcases read with ⟨others, last, contents, rfl, rfl⟩
          have bounded := forall_of_readPairs (fun _ _ _ => readObject_bounded) contents
          have broken : ∃ pair ∈ others, ¬(pair.1.ExtSizes (· < 2 ^ 32 - 1) ∧
              pair.2.ExtSizes (· < 2 ^ 32 - 1)) := by
            simpa only [not_forall, exists_prop] using irregular
          apply readMany_diverted _ _ _ broken contents
          · intro pair pairMem regular rest
            apply readBoth_packPair.mpr
            refine ⟨packObject pair.2 ++ rest, ?_, ?_⟩
            · exact readObject_packObject (pairsWellFormed pair pairMem).1 regular.1
                (bounded pair pairMem).1.2
            · exact readObject_packObject (pairsWellFormed pair pairMem).2 regular.2
                (bounded pair pairMem).2.2
          · intro pair pairMem broken rest tail both
            exact readBoth_irregular (pairsWellFormed pair pairMem).1 (bounded pair pairMem).1.2
              broken
              (fun irregular _ _ => (ih pair pairMem).1 (pairsWellFormed pair pairMem).1 irregular)
              (fun irregular _ _ => (ih pair pairMem).2 (pairsWellFormed pair pairMem).2 irregular)
              both
          · intro pair _ rest tail both
            rw [packPair, List.append_assoc] at both
            rcases readBoth_eq_some.mp both with ⟨middle, key_eq, val_eq⟩
            rw [(readObject_stray key_eq).2] at val_eq
            exact (readObject_stray val_eq).2

end Stray

end Lucciefr.Msgpack
