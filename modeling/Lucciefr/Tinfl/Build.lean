import Lucciefr.Tinfl.Assignment

/-!
# The tables of a code

The loops which build the tables of a code enter each codeword once, in the order of the
symbols, and never write outside of a table. They reject the sizes which do not make up a
code.
-/

namespace Lucciefr.Tinfl

variable {code : CanonicalCode 15} {known index : ℕ} {nodes : List (List Bool)}
  {tables : Assignment} {table : HuffTable} {tableSize : ℕ}

section Short

theorem fillLookUp_spec {k : ℤ} (step turns revCode : ℕ) (lookUp : List ℤ)
    (length_eq : lookUp.length = 1024) (positive : 0 < step) (some_turn : 0 < turns)
    (enough : 1024 < turns + revCode) :
    ∃ filled, fillLookUp k step turns revCode lookUp = .ok filled ∧ filled.length = 1024 ∧
      ∀ index < 1024, filled[index]? =
        if revCode ≤ index ∧ (index - revCode) % step = 0 then some k else lookUp[index]? := by
  induction turns generalizing revCode lookUp with
  | zero => cases some_turn
  | succ turns ih =>
      rw [fillLookUp, fastLookupSize_eq]
      by_cases inside : revCode < 1024
      · rcases ih (revCode + step) (lookUp.set revCode k) (by rw [List.length_set, length_eq])
          (by omega) (by omega) with ⟨filled, returned, filled_length, entries⟩
        rw [if_pos inside, writeAt_of_lt (by omega), ok_bind, returned]
        refine ⟨filled, rfl, filled_length, ?_⟩
        intro index below
        rw [entries index below, List.getElem?_set, length_eq, if_pos inside]
        by_cases later : revCode + step ≤ index
        · have differ : revCode ≠ index := by omega
          have shifted : index - revCode = index - (revCode + step) + step := by omega
          rw [if_neg differ, shifted, Nat.add_mod_right]
          apply if_congr _ rfl rfl
          omega
        · rw [if_neg (by omega)]
          apply if_congr _ rfl rfl
          constructor
          · rintro rfl
            simp
          · rintro ⟨order, multiple⟩
            rw [Nat.mod_eq_of_lt (by omega)] at multiple
            omega
      · rw [if_neg inside]
        refine ⟨lookUp, rfl, length_eq, ?_⟩
        intro index below
        rw [if_neg (by omega)]

/-- The indices which are filled are the ones which begin with the codeword. -/
theorem filled_iff (short : code.size known ≤ 10) :
    (reversed code known ≤ index ∧ (index - reversed code known) % 2 ^ code.size known = 0) ↔
      code.codeword known <+: lowBits 10 index := by
  have below : reversed code known < 2 ^ code.size known := reversed_lt
  have begins : code.codeword known <+: lowBits 10 index ↔
      lowBits (code.size known) (reversed code known) = lowBits (code.size known) index := by
    rw [lowBits_reversed]
    constructor
    · intro begins
      have same := lowBits_eq_of_isPrefix begins
      rwa [CanonicalCode.length_codeword] at same
    · intro same
      rw [same]
      exact lowBits_isPrefix short
  rw [begins, lowBits_eq_iff, Nat.mod_eq_of_lt below]
  constructor
  · rintro ⟨order, multiple⟩
    rcases Nat.dvd_of_mod_eq_zero multiple with ⟨count, difference⟩
    have split : index = reversed code known + 2 ^ code.size known * count := by omega
    rw [split, Nat.add_mul_mod_self_left, Nat.mod_eq_of_lt below]
  · intro residue
    have split := Nat.mod_add_div index (2 ^ code.size known)
    rw [← residue] at split
    refine ⟨by omega, ?_⟩
    have difference : index - reversed code known =
        2 ^ code.size known * (index / 2 ^ code.size known) := by omega
    rw [difference, Nat.mul_mod_right]

end Short

section Long

theorem take_codeword_succ {depth : ℕ} (inside : depth < code.size known) :
    (code.codeword known).take (depth + 1) =
      (code.codeword known).take depth ++ [(reversed code known).testBit depth] := by
  have bit : (code.codeword known)[depth]? = some ((reversed code known).testBit depth) := by
    rw [← lowBits_reversed, getElem?_lowBits inside]
  rw [List.take_add_one, bit]
  rfl

theorem innerBelow_take {depth : ℕ} (has : code.Has known) (inside : depth < code.size known) :
    InnerBelow code (known + 1) ((code.codeword known).take depth) := by
  refine ⟨known, Nat.lt_succ_self known, has, List.take_prefix _ _, ?_⟩
  rw [List.length_take]
  omega

theorem shiftRight_and_one (value depth : ℕ) :
    value >>> depth &&& 1 = (value.testBit depth).toNat := by
  rw [Nat.and_one_is_mod, Nat.testBit_eq_decide_div_mod_eq, Nat.shiftRight_eq_div_pow]
  rcases Nat.mod_two_eq_zero_or_one (value / 2 ^ depth) with even | odd
  · simp [even]
  · simp [odd]

theorem treeAt_natCast {tree : List ℤ} {place : ℕ} {entry : ℤ}
    (found : tree[place]? = some entry) : treeAt tree (place : ℤ) = .ok entry := by
  rw [treeAt, if_pos (Int.natCast_nonneg place), Int.toNat_natCast, readAt_of_some found]

theorem writeTree_natCast {tree : List ℤ} {place : ℕ} {value : ℤ} (inside : place < tree.length) :
    writeTree tree (place : ℤ) value = .ok (tree.set place value) := by
  rw [writeTree, if_pos (Int.natCast_nonneg place), Int.toNat_natCast, writeAt_of_lt inside]

/-- The bits from this one on are left, and the node of the path up to it was reached. -/
structure Reached (code : CanonicalCode 15) (known depth : ℕ) (nodes : List (List Bool))
    (index : ℕ) (tables : Assignment) : Prop extends
    Trie code known (known + 1) nodes tables where
  node : nodes[index]? = some ((code.codeword known).take depth)
  visited : ∀ length, 10 ≤ length → length ≤ depth → (code.codeword known).take length ∈ nodes

theorem Reached.next {depth second : ℕ} {later : List (List Bool)} {after : Assignment}
    (reached : Reached code known depth nodes index tables)
    (trie : Trie code known (known + 1) later after) (kept : nodes ⊆ later)
    (node : later[second]? = some ((code.codeword known).take (depth + 1))) :
    Reached code known (depth + 1) later second after where
  toTrie := trie
  node := node
  visited := by
    intro length long within
    rcases Nat.le_succ_iff.mp within with before | rfl
    · exact kept (reached.visited length long before)
    · exact List.mem_of_getElem? node

/-- The place of the entry for the next bit. -/
theorem place_eq (index : ℕ) (bit : Bool) :
    -(-(2 * (index : ℤ) + 1) - (bit.toNat : ℤ)) - 1 = ((2 * index + bit.toNat : ℕ) : ℤ) := by
  omega

theorem deepen_spec (few : code.sizes.length ≤ 288) (has : code.Has known) {turns depth : ℕ}
    (reached : Reached code known depth nodes index tables) (deep : 10 ≤ depth)
    (inside : depth + turns < code.size known) :
    ∃ (later : List (List Bool)) (second : ℕ) (after : Assignment),
      deepen turns (-(2 * index + 1)) (reversed code known >>> (depth - 1)) tables =
        .ok (-(2 * second + 1), reversed code known >>> (depth + turns - 1), after) ∧
      Reached code known (depth + turns) later second after ∧
      after.nextCode = tables.nextCode := by
  induction turns generalizing depth nodes index tables with
  | zero => exact ⟨nodes, index, tables, rfl, reached, rfl⟩
  | succ turns ih =>
      have shifted : reversed code known >>> (depth - 1) >>> 1 = reversed code known >>> depth := by
        rw [← Nat.shiftRight_add]
        congr 1
        omega
      have path := take_codeword_succ (by omega : depth < code.size known)
      have inner := innerBelow_take has (by omega : depth + 1 < code.size known)
      have sum : depth + 1 + turns = depth + (turns + 1) := by omega
      rcases reached.tree index _ ((reversed code known).testBit depth) reached.node with
        ⟨entry, found, slot⟩
      rw [deepen]
      simp only [shifted, shiftRight_and_one, place_eq, treeAt_natCast found, ok_bind]
      rw [← path] at slot
      rcases slot.of_inner inner.inner with ⟨second, node, rfl⟩ | ⟨notMem, rfl⟩
      · -- the node exists
        have next := reached.next reached.toTrie (List.Subset.refl _) node
        rcases ih next (by omega) (by omega) with ⟨later, third, after, ran, holds, same⟩
        rw [sum] at ran holds
        rw [if_neg (by omega)]
        exact ⟨later, third, after, ran, holds, same⟩
      · -- a node is allocated
        rw [path] at notMem inner
        have place := (List.getElem?_eq_some_iff.mp found).1
        have trie := reached.toTrie.addNext few reached.node inner notMem
        have next := reached.next trie (List.subset_append_left _ _)
          (by rw [path, List.getElem?_concat_length])
        rcases ih next (by omega) (by omega) with ⟨later, third, after, ran, holds, same⟩
        rw [sum] at ran holds
        rw [if_pos rfl, writeTree_natCast place, ok_bind, reached.treeNext_eq]
        rw [Nat.add_sub_cancel, reached.treeNext_eq] at ran
        exact ⟨later, third, after, ran, holds, same⟩

theorem lowBits_index (long : 10 < code.size known) :
    lowBits 10 (reversed code known &&& (fastLookupSize - 1)) = (code.codeword known).take 10 := by
  have mask : reversed code known &&& (fastLookupSize - 1) = reversed code known % 2 ^ 10 :=
    and_mask 10 _
  rcases Nat.exists_eq_add_of_lt long with ⟨more, size_eq⟩
  rw [mask, lowBits_mod, ← lowBits_reversed, size_eq, Nat.add_assoc, lowBits_add,
    List.take_left' length_lowBits]

theorem firstNode_spec (few : code.sizes.length ≤ 288) (has : code.Has known)
    (long : 10 < code.size known) (trie : Trie code known known nodes tables) :
    ∃ (later : List (List Bool)) (second : ℕ) (after : Assignment),
      firstNode (reversed code known) tables = .ok (-(2 * second + 1), after) ∧
      Reached code known 10 later second after ∧ after.nextCode = tables.nextCode := by
  have path := lowBits_index long
  have inner := innerBelow_take has long
  have inside : reversed code known &&& (fastLookupSize - 1) < 1024 :=
    Nat.lt_of_le_of_lt Nat.and_le_right (by decide)
  have visited : ∀ {later : List (List Bool)}, (code.codeword known).take 10 ∈ later →
      ∀ length, 10 ≤ length → length ≤ 10 → (code.codeword known).take length ∈ later := by
    intro later pathMem length atLeast atMost
    rwa [Nat.le_antisymm atMost atLeast]
  have reach : Trie code known (known + 1) nodes tables :=
    { trie with toShape := trie.toShape.reach (Nat.le_succ known) }
  rcases trie.lookUp _ inside with ⟨entry, found, slot⟩
  rw [firstNode, readAt_of_some found, ok_bind]
  rw [path] at slot
  rcases slot.of_inner inner.inner with ⟨second, node, rfl⟩ | ⟨notMem, rfl⟩
  · rw [if_neg (by omega)]
    exact ⟨nodes, second, tables, rfl, ⟨reach, node, visited (List.mem_of_getElem? node)⟩, rfl⟩
  · rw [← path] at notMem inner
    have added := reach.addFirst few inside inner notMem
    have node : (nodes ++
      [lowBits 10 (reversed code known &&& (fastLookupSize - 1))])[nodes.length]? =
        some ((code.codeword known).take 10) := by
      rw [path, List.getElem?_concat_length]
    have place : reversed code known &&& (fastLookupSize - 1) < tables.lookUp.length := by
      rw [trie.lookUp_length]
      exact inside
    rw [if_pos rfl, writeAt_of_lt place, ok_bind, trie.treeNext_eq]
    rw [trie.treeNext_eq] at added
    exact ⟨_, nodes.length, _, rfl, ⟨added, node, visited (List.mem_of_getElem? node)⟩, rfl⟩

theorem insertLong_spec (few : code.sizes.length ≤ 288) (has : code.Has known)
    (long : 10 < code.size known) (trie : Trie code known known nodes tables) :
    ∃ (later : List (List Bool)) (after : Assignment),
      insertLong known (code.size known) (reversed code known) tables = .ok after ∧
      Trie code (known + 1) (known + 1) later after ∧ after.nextCode = tables.nextCode := by
  rcases firstNode_spec few has long trie with ⟨later, second, middle, first, reached, same⟩
  rcases deepen_spec few has reached (Nat.le_refl 10)
      (by omega : 10 + (code.size known - 11) < code.size known) with
    ⟨last, third, after, deepened, holds, kept⟩
  have depth : 10 + (code.size known - 11) = code.size known - 1 := by omega
  rw [depth] at deepened holds
  have path := take_codeword_succ (by omega : code.size known - 1 < code.size known)
  have whole : (code.codeword known).take (code.size known - 1 + 1) = code.codeword known := by
    apply List.take_of_length_le
    rw [CanonicalCode.length_codeword]
    omega
  have shifted : reversed code known >>> (code.size known - 1 - 1) >>> 1 =
      reversed code known >>> (code.size known - 1) := by
    rw [← Nat.shiftRight_add]
    congr 1
    omega
  have closed : ∀ path, path <+: code.codeword known → 10 ≤ path.length →
      path.length < code.size known → path ∈ last := by
    intro path begins atLeast shorter
    rw [List.prefix_iff_eq_take.mp begins]
    exact holds.visited path.length atLeast (by omega)
  rcases holds.tree third _ ((reversed code known).testBit (code.size known - 1)) holds.node with
    ⟨entry, found, _⟩
  have place := (List.getElem?_eq_some_iff.mp found).1
  have entered := holds.toTrie.enterLong few has (whole ▸ path) long holds.node closed
  rw [insertLong, first, ok_bind]
  simp only [fastLookupBits]
  rw [deepened, ok_bind]
  simp only [shifted, shiftRight_and_one, place_eq, writeTree_natCast place, ok_bind]
  exact ⟨last, _, rfl, entered, kept.trans same⟩

end Long

section Symbols

/-- The loop over a range keeps what each turn keeps. -/
theorem foldlM_range {σ : Type} {body : σ → ℕ → Except Fault σ} (invariant : ℕ → σ → Prop)
    {initial : σ} {length : ℕ} (holds : invariant 0 initial)
    (turn : ∀ index < length, ∀ state, invariant index state →
      ∃ next, body state index = .ok next ∧ invariant (index + 1) next) :
    ∃ final, (List.range length).foldlM body initial = .ok final ∧ invariant length final := by
  induction length with
  | zero => exact ⟨initial, rfl, holds⟩
  | succ length ih =>
      rcases ih fun index inside => turn index (Nat.lt_succ_of_lt inside) with
        ⟨middle, ran, kept⟩
      rcases turn length (Nat.lt_succ_self length) middle kept with ⟨final, last, done⟩
      refine ⟨final, ?_, done⟩
      rw [List.range_succ, List.foldlM_append, ran, ok_bind, List.foldlM_cons, last]
      rfl

/-- The next code of each size. -/
structure NextCodes (sizes : List ℕ) (known : ℕ) (nextCode : List ℕ) : Prop where
  length : nextCode.length = 17
  next : ∀ size, 0 < size → size ≤ 15 →
    nextCode[size]? = some (firstCode sizes size + (sizes.take known).count size)

theorem NextCodes.initial (sizes : List ℕ) :
    NextCodes sizes 0 ((List.range 17).map (firstCode sizes)) where
  length := by simp
  next := by
    intro size _ small
    have inside : size < 17 := by omega
    simp [inside]

theorem NextCodes.step {sizes nextCode : List ℕ} {size : ℕ} (codes : NextCodes sizes known nextCode)
    (found : sizes[known]? = some size) :
    NextCodes sizes (known + 1)
      (nextCode.set size (firstCode sizes size + (sizes.take known).count size + 1)) where
  length := by rw [List.length_set, codes.length]
  next := by
    intro other positive small
    rw [List.getElem?_set, codes.length, List.take_add_one, found, List.count_append]
    by_cases same : size = other
    · subst same
      rw [if_pos rfl, if_pos (by omega), Option.toList_some, List.count_singleton_self,
        Nat.add_assoc]
    · rw [if_neg same, codes.next other positive small, Option.toList_some,
        List.count_singleton, if_neg (by simpa using same), Nat.add_zero]

theorem NextCodes.skip {sizes nextCode : List ℕ} (codes : NextCodes sizes known nextCode)
    (found : sizes[known]? = some 0) : NextCodes sizes (known + 1) nextCode where
  length := codes.length
  next := by
    intro other positive small
    rw [codes.next other positive small, List.take_add_one, found, List.count_append,
      Option.toList_some, List.count_singleton, if_neg (by simpa using positive.ne),
      Nat.add_zero]

/-- What holds before the turn of a symbol. -/
def Assigned (code : CanonicalCode 15) (known : ℕ) (tables : Assignment) : Prop :=
  (∃ nodes, Trie code known known nodes tables) ∧ NextCodes code.sizes known tables.nextCode

theorem assignCode_spec {codeSize : List ℕ} (sizes_eq : code.sizes = codeSize.take tableSize)
    (few : code.sizes.length ≤ 288) (inside : known < code.sizes.length)
    (assigned : Assigned code known tables) :
    ∃ after, assignCode codeSize tables known = .ok after ∧ Assigned code (known + 1) after := by
  rcases assigned with ⟨⟨nodes, trie⟩, codes⟩
  have found : code.sizes[known]? = some (code.size known) := by
    rw [CanonicalCode.size, List.getD_eq_getElem?_getD, List.getElem?_eq_getElem inside]
    rfl
  have element : codeSize[known]? = some (code.size known) := by
    have shorter : known < tableSize := by
      rw [sizes_eq, List.length_take] at inside
      omega
    rw [← found, sizes_eq, List.getElem?_take_of_lt shorter]
  rw [assignCode, readAt_of_some element, ok_bind]
  by_cases unused : code.size known = 0
  · rw [if_pos unused]
    rw [unused] at found
    exact ⟨tables, rfl, ⟨nodes, trie.skip (not_not.mpr unused)⟩, codes.skip found⟩
  · have has : code.Has known := unused
    have positive := CanonicalCode.size_pos has
    have small := CanonicalCode.size_le_longest has
    have current := codes.next _ positive small
    have next := codes.step found
    have trie' : Trie code known known nodes
        { tables with
          nextCode := tables.nextCode.set (code.size known)
            (firstCode code.sizes (code.size known) +
              (code.sizes.take known).count (code.size known) + 1) } :=
      { trie with }
    rw [if_neg unused, readAt_of_some current, ok_bind,
      writeAt_of_lt (by rw [codes.length]; omega), ok_bind]
    change ∃ after, (if code.size known ≤ 10 then
      (fillLookUp _ _ _ (reversed code known) tables.lookUp >>= _) else
      insertLong known (code.size known) (reversed code known) _) = _ ∧ _
    by_cases short : code.size known ≤ 10
    · have positive : 0 < 1 <<< code.size known := by
        rw [Nat.one_shiftLeft]
        exact Nat.two_pow_pos _
      rcases fillLookUp_spec (1 <<< code.size known) (fastLookupSize + 1) _ _ trie.lookUp_length
          positive (by decide) (by rw [fastLookupSize_eq]; omega) with
        ⟨filled, ran, length_eq, entries⟩
      rw [if_pos short, ran, ok_bind]
      refine ⟨_, rfl, ⟨nodes, trie'.enterShort has short length_eq ?_⟩, next⟩
      intro index below
      rw [entries index below, leafEntry, if_pos short, Nat.one_shiftLeft]
      exact if_congr (filled_iff short) rfl rfl
    · rcases insertLong_spec few has (by omega) trie' with ⟨later, after, ran, entered, same⟩
      rw [if_neg short, ran]
      exact ⟨after, rfl, ⟨later, entered⟩, same ▸ next⟩

end Symbols

/-- The table decodes a code. -/
def HuffTable.Holds (table : HuffTable) (code : CanonicalCode 15) : Prop :=
  ∃ nodes nextCode treeNext, Trie code code.sizes.length code.sizes.length nodes
    { lookUp := table.lookUp, tree := table.tree, nextCode := nextCode, treeNext := treeNext }

/-- The tables of a code are built, and every access is inside of them. -/
theorem build_of_code (code : CanonicalCode 15) (enough : tableSize ≤ table.codeSize.length)
    (sizes_eq : code.sizes = table.codeSize.take tableSize) (few : tableSize ≤ 288) :
    ∃ built, table.build tableSize = .ok (some built) ∧ built.codeSize = table.codeSize ∧
      built.Holds code := by
  have size_le : ∀ size ∈ table.codeSize.take tableSize, size ≤ 15 := sizes_eq ▸ code.size_le
  have length_eq : code.sizes.length = tableSize := by
    rw [sizes_eq, List.length_take_of_le enough]
  have accepted := (accepts_iff code.size_le).mpr code.accepted
  have initial : Assigned code 0
      { lookUp := List.replicate fastLookupSize 0
        tree := List.replicate (maxHuffSymbols0 * 2) 0
        nextCode := (List.range 17).map (firstCode code.sizes)
        treeNext := -1 } := ⟨⟨[], .initial⟩, .initial code.sizes⟩
  have turn : ∀ index < tableSize, ∀ state, Assigned code index state →
      ∃ next, assignCode table.codeSize state index = .ok next ∧ Assigned code (index + 1) next :=
    fun index inside state assigned =>
      assignCode_spec sizes_eq (length_eq ▸ few) (length_eq ▸ inside) assigned
  rcases foldlM_range (Assigned code) initial turn with ⟨tables, ran, ⟨nodes, trie⟩, _⟩
  refine ⟨{ table with lookUp := tables.lookUp, tree := tables.tree }, ?_, rfl,
    nodes, tables.nextCode, tables.treeNext, length_eq ▸ trie⟩
  rw [HuffTable.build, countSizes_eq enough size_le, ok_bind, ← sizes_eq, nextCodes_eq, ok_bind]
  change (if 65536 ≠ firstCode code.sizes 16 ∧ _ then _ else _) = _
  rw [if_neg accepted, ran]
  rfl

/-- There are no tables for sizes which do not make up a code. -/
theorem build_of_not_code (enough : tableSize ≤ table.codeSize.length)
    (size_le : ∀ size ∈ table.codeSize.take tableSize, size ≤ 15)
    (rejected : ¬(weight 15 (table.codeSize.take tableSize) = 2 ^ 15 ∨
      (table.codeSize.take tableSize).countP (· ≠ 0) ≤ 1)) :
    table.build tableSize = .ok none := by
  have refused := mt (accepts_iff size_le).mp rejected
  rw [HuffTable.build, countSizes_eq enough size_le, ok_bind, nextCodes_eq, ok_bind]
  simp only [if_pos (not_not.mp refused)]
  rfl

end Lucciefr.Tinfl
