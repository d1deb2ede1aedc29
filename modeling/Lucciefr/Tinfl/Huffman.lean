import Lucciefr.Tinfl.Build
import Lucciefr.Tinfl.Input

/-!
# Decoding of codewords

When a codeword comes next, its symbol is found in the tables of the code. Near the end of
the input the bit buffer is filled byte by byte, until the codeword is complete; that is
noticed by a search for it among the bits which are there, and no shorter codeword is taken
for it.
-/

namespace Lucciefr.Tinfl

variable {code : CanonicalCode 15} {table : HuffTable} {build : Build} {input : Input}
  {packed : List UInt8}
  {symbol bitBuf offset : ℕ} {rest : List Bool}

section Entries

theorem leafEntry_of_short (short : code.size symbol ≤ 10) (small : symbol < 512) :
    leafEntry code symbol = (code.size symbol * 512 + symbol : ℕ) := by
  have power : (512 : ℕ) = 2 ^ 9 := rfl
  rw [leafEntry, if_pos short, ← Nat.shiftLeft_add_eq_or_of_lt small, Nat.shiftLeft_eq, power]

theorem leafEntry_nonneg : 0 ≤ leafEntry code symbol := by
  rw [leafEntry]
  split <;> exact Int.natCast_nonneg _

theorem leafEntry_symbol (small : symbol < 512) :
    (leafEntry code symbol).toNat &&& 511 = symbol := by
  have mask : (leafEntry code symbol).toNat &&& 511 = (leafEntry code symbol).toNat % 2 ^ 9 :=
    and_mask 9 _
  rw [mask]
  by_cases short : code.size symbol ≤ 10
  · rw [leafEntry_of_short short small, Int.toNat_natCast]
    omega
  · rw [leafEntry, if_neg short, Int.toNat_natCast]
    omega

theorem leafEntry_size (short : code.size symbol ≤ 10) (small : symbol < 512) :
    (leafEntry code symbol).toNat >>> 9 = code.size symbol := by
  rw [leafEntry_of_short short small, Int.toNat_natCast, Nat.shiftRight_eq_div_pow]
  omega

end Entries

/-- At most one codeword comes next. -/
theorem eq_of_both {other : ℕ} {path : List Bool} (has : code.Has symbol)
    (otherHas : code.Has other) (begins : code.codeword symbol <+: path)
    (otherBegins : code.codeword other <+: path) : symbol = other := by
  rcases List.prefix_or_prefix_of_prefix begins otherBegins with within | within
  · exact CanonicalCode.eq_of_isPrefix has otherHas within
  · exact (CanonicalCode.eq_of_isPrefix otherHas has within).symm

/-- The entry for a path which begins with a codeword. -/
theorem Slot.of_codeword {nodes : List (List Bool)} {path : List Bool} {entry : ℤ}
    (slot : Slot code code.sizes.length nodes path entry)
    (shape : Shape code code.sizes.length code.sizes.length nodes) (has : code.Has symbol)
    (begins : code.codeword symbol <+: path) : entry = leafEntry code symbol := by
  cases slot with
  | node node =>
      have inner := (shape.inner _ (List.mem_of_getElem? node)).inner
      exact absurd begins (inner.not_isPrefix has)
  | leaf _ otherHas otherBegins => rw [eq_of_both has otherHas begins otherBegins]
  | empty _ unused =>
      exact absurd begins (unused symbol (CanonicalCode.lt_length_of_has has) has)

theorem lowBits_and_mask (bitBuf : ℕ) :
    lowBits 10 (bitBuf &&& (fastLookupSize - 1)) = lowBits 10 bitBuf := by
  have mask : bitBuf &&& (fastLookupSize - 1) = bitBuf % 2 ^ 10 := and_mask 10 _
  rw [mask, lowBits_mod]

namespace HuffTable.Holds

theorem lookUp (holds : table.Holds code) (bitBuf : ℕ) :
    ∃ nodes entry, readAt table.lookUp (bitBuf &&& (fastLookupSize - 1)) = .ok entry ∧
      Slot code code.sizes.length nodes (lowBits 10 bitBuf) entry := by
  rcases holds with ⟨nodes, nextCode, treeNext, trie⟩
  have inside : bitBuf &&& (fastLookupSize - 1) < 1024 :=
    Nat.lt_of_le_of_lt Nat.and_le_right (by decide)
  rcases trie.lookUp _ inside with ⟨entry, found, slot⟩
  rw [lowBits_and_mask] at slot
  exact ⟨nodes, entry, readAt_of_some found, slot⟩

/-- The entry for the bits which a short codeword begins. -/
theorem lookUp_short (holds : table.Holds code) (has : code.Has symbol)
    (short : code.size symbol ≤ 10)
      (next : lowBits (code.size symbol) bitBuf = code.codeword symbol) :
    readAt table.lookUp (bitBuf &&& (fastLookupSize - 1)) = .ok (leafEntry code symbol) := by
  have begins : code.codeword symbol <+: lowBits 10 bitBuf := by
    rw [← next]
    exact lowBits_isPrefix short
  rcases holds with ⟨nodes, nextCode, treeNext, trie⟩
  have inside : bitBuf &&& (fastLookupSize - 1) < 1024 :=
    Nat.lt_of_le_of_lt Nat.and_le_right (by decide)
  rcases trie.lookUp _ inside with ⟨entry, found, slot⟩
  rw [lowBits_and_mask] at slot
  rw [readAt_of_some found, slot.of_codeword trie.toShape has begins]

/-- The walk from the node of the first bits, up to a depth or to the symbol. -/
theorem walk_long (holds : table.Holds code) (has : code.Has symbol)
    (long : 10 < code.size symbol) {depth : ℕ} (deep : 10 < depth)
    (within : depth ≤ code.size symbol)
    (next : lowBits depth bitBuf = (code.codeword symbol).take depth) (again : ℕ → Bool)
    (goesOn : ∀ codeLen < depth, again codeLen = true)
    (stops : depth < code.size symbol → again depth = false) :
    ∃ temp found, readAt table.lookUp (bitBuf &&& (fastLookupSize - 1)) = .ok temp ∧ temp < 0 ∧
      table.walk bitBuf again temp fastLookupBits = .ok (found, depth) ∧
      (depth = code.size symbol → found = leafEntry code symbol) ∧
      (depth < code.size symbol → found < 0) := by
  have paths : ∀ length ≤ depth, lowBits length bitBuf = (code.codeword symbol).take length := by
    intro length shorter
    have begins : lowBits length bitBuf <+: code.codeword symbol :=
      (lowBits_isPrefix shorter).trans (next ▸ List.take_prefix _ _)
    rw [List.prefix_iff_eq_take.mp begins, length_lowBits]
  rcases holds with ⟨nodes, nextCode, treeNext, trie⟩
  have visited : ∀ length, 10 ≤ length → length < code.size symbol → length ≤ depth →
      lowBits length bitBuf ∈ nodes := by
    intro length atLeast shorter inside
    rw [paths length inside]
    apply trie.closed symbol (CanonicalCode.lt_length_of_has has) has _ (List.take_prefix _ _)
    · rw [List.length_take, CanonicalCode.length_codeword]
      omega
    · rw [List.length_take]
      omega
  have inside : bitBuf &&& (fastLookupSize - 1) < 1024 :=
    Nat.lt_of_le_of_lt Nat.and_le_right (by decide)
  rcases trie.lookUp _ inside with ⟨entry, found, slot⟩
  rw [lowBits_and_mask] at slot
  have firstMem := visited 10 (Nat.le_refl _) long (Nat.le_of_lt deep)
  rcases slot.of_inner (trie.inner _ firstMem).inner with ⟨index, node, rfl⟩ | ⟨notMem, _⟩
  · -- each turn goes down by one bit
    have ends : ∃ last, table.walk bitBuf again (-(2 * index + 1)) fastLookupBits = .ok last ∧
        last.2 = depth ∧ (depth = code.size symbol → last.1 = leafEntry code symbol) ∧
        (depth < code.size symbol → last.1 < 0) := by
      apply doWhile_returns (fun state : ℤ × ℕ =>
        ∃ index : ℕ, nodes[index]? = some (lowBits state.2 bitBuf) ∧
          state.1 = -(2 * index + 1) ∧ 10 ≤ state.2 ∧ state.2 < depth)
        (fun state => depth - state.2)
      · rintro ⟨temp, length⟩ ⟨index, node, rfl, atLeast, shorter⟩
        simp only at node shorter atLeast
        have path : lowBits length bitBuf ++ [bitBuf.testBit length] =
          lowBits (length + 1) bitBuf := by
          rw [lowBits_add, lowBits_succ, Nat.testBit_shiftRight]
          rfl
        rcases trie.tree index _ (bitBuf.testBit length) node with ⟨entry, found, slot⟩
        have place : -(-(2 * (index : ℤ) + 1)) - 1 + ((bitBuf >>> length &&& 1 : ℕ) : ℤ) =
            ((2 * index + (bitBuf.testBit length).toNat : ℕ) : ℤ) := by
          rw [shiftRight_and_one]
          omega
        rw [path] at slot
        have inner : length + 1 < code.size symbol → ∃ second : ℕ,
            nodes[second]? = some (lowBits (length + 1) bitBuf) ∧ entry = -(2 * second + 1) := by
          intro below
          have pathMem := visited (length + 1) (by omega) below shorter
          rcases slot.of_inner (trie.inner _ pathMem).inner with exists_node | ⟨notMem, _⟩
          · exact exists_node
          · exact absurd pathMem notMem
        have leaf : length + 1 = code.size symbol → entry = leafEntry code symbol := by
          intro whole
          have same : lowBits (length + 1) bitBuf = code.codeword symbol := by
            rw [paths (length + 1) shorter, whole]
            exact List.take_of_length_le (by simp)
          exact slot.of_codeword trie.toShape has (same ▸ List.prefix_refl _)
        refine ⟨(entry, length + 1), ?_, ?_, ?_⟩
        · rw [HuffTable.follow]
          simp only [place, treeAt_natCast found, ok_bind]
          rfl
        · intro going
          simp only [Bool.and_eq_true, decide_eq_true_eq] at going
          have below : length + 1 < depth := by
            rcases Nat.lt_or_eq_of_le shorter with below | last
            · exact below
            · exfalso
              rcases Nat.lt_or_eq_of_le within with partly | whole
              · have stopped := stops partly
                rw [← last, going.2] at stopped
                contradiction
              · rw [leaf (last.trans whole)] at going
                exact absurd leafEntry_nonneg (Int.not_le.mpr going.1)
          rcases inner (by omega) with ⟨second, secondNode, entry_eq⟩
          exact ⟨⟨second, secondNode, entry_eq, by simp only; omega, below⟩, by simp only; omega⟩
        · intro ended
          have last : length + 1 = depth := by
            rcases Nat.lt_or_eq_of_le shorter with below | last
            · exfalso
              rcases inner (by omega) with ⟨second, _, rfl⟩
              simp only [goesOn _ below, Bool.and_true, decide_eq_false_iff_not] at ended
              omega
            · exact last
          refine ⟨last, fun whole => leaf (last.trans whole), fun partly => ?_⟩
          rcases inner (by omega) with ⟨second, _, rfl⟩
          simp only
          omega
      · simp only [fastLookupBits, maxHuffSymbols0]
        have longest := CanonicalCode.size_le_longest has
        omega
      · exact ⟨index, node, rfl, Nat.le_refl _, deep⟩
    rcases ends with ⟨⟨last, _⟩, walked, rfl, whole, partly⟩
    exact ⟨_, last, readAt_of_some found, by omega, walked, whole, partly⟩
  · exact absurd firstMem notMem

/-- The symbol whose codeword comes next is found. -/
theorem find_eq (holds : table.Holds code) (has : code.Has symbol) (small : symbol < 512)
    (next : lowBits (code.size symbol) bitBuf = code.codeword symbol) :
    table.find bitBuf = .ok (leafEntry code symbol, code.size symbol) := by
  rw [HuffTable.find]
  by_cases short : code.size symbol ≤ 10
  · rw [holds.lookUp_short has short next, ok_bind, if_pos leafEntry_nonneg,
      leafEntry_size short small]
    rfl
  · have whole : lowBits (code.size symbol) bitBuf =
        (code.codeword symbol).take (code.size symbol) := by
      rw [next, List.take_of_length_le (by simp)]
    rcases holds.walk_long has (by omega) (by omega) (Nat.le_refl _) whole (fun _ => true)
        (fun _ _ => rfl) (fun partly => absurd partly (Nat.lt_irrefl _))
      with ⟨temp, found, entry, negative, walked, same, _⟩
    rw [entry, ok_bind, if_neg (Int.not_le.mpr negative), walked, same rfl]

/-- The codeword is found among the bits of the buffer when they contain all of it. -/
theorem finds_eq (holds : table.Holds code) (has : code.Has symbol) (small : symbol < 512)
    (few : code.sizes.length ≤ 288)
    (reads : input.Reads packed offset (code.codeword symbol ++ rest)) :
    table.finds input = .ok (decide (code.size symbol ≤ input.numBits)) := by
  rw [HuffTable.finds]
  by_cases complete : code.size symbol ≤ input.numBits
  · have next := reads.lowBits_eq (by simpa using complete)
    rw [CanonicalCode.length_codeword] at next
    by_cases short : code.size symbol ≤ 10
    · have positive := CanonicalCode.size_pos has
      rw [holds.lookUp_short has short next, ok_bind, if_pos leafEntry_nonneg,
        leafEntry_size short small]
      simp [complete, positive.ne']
      rfl
    · have whole : lowBits (code.size symbol) input.bitBuf =
          (code.codeword symbol).take (code.size symbol) := by
        rw [next, List.take_of_length_le (by simp)]
      rcases holds.walk_long has (by omega) (by omega) (Nat.le_refl _) whole
          (fun codeLen => decide (codeLen + 1 ≤ input.numBits))
          (fun codeLen below => by simp only [decide_eq_true_eq]; omega)
          (fun partly => absurd partly (Nat.lt_irrefl _)) with
        ⟨temp, found, entry, negative, walked, same, _⟩
      have enough : fastLookupBits < input.numBits := by
        simp only [fastLookupBits]
        omega
      rw [entry, ok_bind, if_neg (Int.not_le.mpr negative), if_pos enough, walked, same rfl,
        ok_bind]
      simp [complete, leafEntry_nonneg]
      rfl
  · have within : lowBits input.numBits input.bitBuf <+: code.codeword symbol := by
      have shorter : input.numBits ≤ (code.codeword symbol).length := by
        rw [CanonicalCode.length_codeword]
        omega
      apply List.prefix_of_prefix_length_le _ reads.weaken.begins (by simpa using shorter)
      exact List.prefix_append _ _
    by_cases wide : fastLookupBits < input.numBits
    · -- the walk ends at a node, before the symbol
      have deep : 10 < input.numBits := wide
      have path := List.prefix_iff_eq_take.mp within
      rw [length_lowBits] at path
      rcases holds.walk_long has (by omega) deep (by omega) path
          (fun codeLen => decide (codeLen + 1 ≤ input.numBits))
          (fun codeLen below => by simp only [decide_eq_true_eq]; omega)
          (fun _ => by simp) with ⟨temp, found, entry, negative, walked, _, inner⟩
      have below := inner (by omega)
      rw [entry, ok_bind, if_neg (Int.not_le.mpr negative), if_pos wide, walked, ok_bind]
      simp [complete, Int.not_le.mpr below]
      rfl
    · rcases holds.lookUp input.bitBuf with ⟨nodes, entry, found, slot⟩
      rw [found, ok_bind]
      cases slot with
      | node node =>
          rw [if_neg (by omega), if_neg wide]
          simp [complete]
          rfl
      | empty _ _ =>
          rw [if_pos (Int.le_refl 0)]
          simp [complete]
          rfl
      | @leaf other _ otherHas begins =>
          -- another codeword would be a beginning of this one
          have otherShort : code.size other ≤ 10 := by simpa using begins.length_le
          have otherSmall := CanonicalCode.lt_length_of_has otherHas
          have incomplete : ¬code.size other ≤ input.numBits := by
            intro otherComplete
            have otherWithin : code.codeword other <+: code.codeword symbol := by
              apply List.IsPrefix.trans _ within
              rw [lowBits_eq_of_isPrefix begins, CanonicalCode.length_codeword]
              exact lowBits_isPrefix otherComplete
            rw [CanonicalCode.eq_of_isPrefix otherHas has otherWithin] at otherComplete
            exact complete otherComplete
          rw [if_pos leafEntry_nonneg, leafEntry_size otherShort (by omega)]
          simp [complete, incomplete]
          rfl

/-- The bit buffer is filled until it contains the next codeword. -/
theorem fillCode (build : Build) (holds : table.Holds code) (has : code.Has symbol)
    (small : symbol < 512)
    (few : code.sizes.length ≤ 288)
    (reads : input.Reads packed offset (code.codeword symbol ++ rest)) :
    ∃ next, table.fillCode build input = .ok next ∧
      next.Reads packed offset (code.codeword symbol ++ rest) ∧
        code.size symbol ≤ next.numBits := by
  have longest := CanonicalCode.size_le_longest has
  have wide : 32 ≤ build.bits := by cases build <;> decide
  rw [HuffTable.fillCode]
  by_cases full : input.numBits < 15
  · rw [if_pos full]
    by_cases last : input.inBuf.length < 2
    · rw [if_pos last]
      have ends : ∃ state : Bool × Input, doWhile .divergence
          (fun state => !state.1 && decide (state.2.numBits < 15))
          (fun state => do
            if ← table.finds state.2 then pure (true, state.2)
            else pure (false, state.2.pushByte build))
          16 (false, input) = .ok state ∧
          state.2.Reads packed offset (code.codeword symbol ++ rest) ∧
          code.size symbol ≤ state.2.numBits := by
        apply doWhile_returns (fun state : Bool × Input =>
          state.2.Reads packed offset (code.codeword symbol ++ rest) ∧ state.2.numBits < 15)
          (fun state => 15 - state.2.numBits)
        · rintro ⟨_, held⟩ ⟨heldReads, heldFew⟩
          simp only at heldReads heldFew
          simp only [holds.finds_eq has small few heldReads, ok_bind]
          by_cases complete : code.size symbol ≤ held.numBits
          · refine ⟨(true, held), ?_, ?_, fun _ => ⟨heldReads, complete⟩⟩
            · simp [complete]
              rfl
            · intro going
              simp at going
          · have pushed : (held.pushByte build).Reads packed offset _ :=
              heldReads.pushByte (by omega)
            refine ⟨(false, held.pushByte build), ?_, ?_, ?_⟩
            · simp [complete]
              rfl
            · intro going
              simp only [Bool.not_false, Bool.true_and, decide_eq_true_eq] at going
              refine ⟨⟨pushed, going⟩, ?_⟩
              simp only [Input.numBits_pushByte] at going ⊢
              omega
            · intro ended
              simp only [Bool.not_false, Bool.true_and, decide_eq_false_iff_not] at ended
              exact ⟨pushed, Nat.le_trans longest (Nat.le_of_not_lt ended)⟩
        · simp only
          omega
        · exact ⟨reads, full⟩
      rcases ends with ⟨⟨found, next⟩, returned, nextReads, enough⟩
      refine ⟨next, ?_, nextReads, enough⟩
      rw [HuffTable.bitbufFill, returned]
      rfl
    · rcases Input.Reads.exists_pushBytes build input 2 (by omega) (by omega) with
        ⟨next, pushed, kept, numBits_eq, _⟩
      rw [if_neg last, pushed]
      exact ⟨next, rfl, kept _ _ _ reads, by omega⟩
  · rw [if_neg full]
    exact ⟨input, rfl, reads, by omega⟩

/-- The next symbol is decoded. -/
theorem decode (build : Build) (holds : table.Holds code) (has : code.Has symbol)
    (small : symbol < 512)
    (few : code.sizes.length ≤ 288)
    (reads : input.Reads packed offset (code.codeword symbol ++ rest)) :
    ∃ next, table.decode build input = .ok (symbol, next) ∧
      next.Reads packed (offset + code.size symbol) rest := by
  rcases holds.fillCode build has small few reads with
    ⟨filled, returned, filledReads, enough⟩
  have next := filledReads.lowBits_eq (by simpa using enough)
  rw [CanonicalCode.length_codeword] at next
  have dropped := filledReads.dropBits (by simpa using enough)
  rw [CanonicalCode.length_codeword] at dropped
  refine ⟨filled.dropBits (code.size symbol), ?_, dropped⟩
  rw [HuffTable.decode, returned, ok_bind, holds.find_eq has small next, ok_bind]
  simp only [leafEntry_symbol small]
  rfl

end HuffTable.Holds

/-- A table is built exactly if its sizes are the ones of a code, which then is decoded. No
access is outside of an array. -/
theorem build_find (table : HuffTable) {tableSize : ℕ} (enough : tableSize ≤ table.codeSize.length)
    (few : tableSize ≤ 288) (size_le : ∀ size ∈ table.codeSize.take tableSize, size ≤ 15) :
    (∃ code : CanonicalCode 15, code.sizes = table.codeSize.take tableSize ∧
      ∃ built, table.build tableSize = .ok (some built) ∧
        ∀ symbol bitBuf, code.Has symbol →
          lowBits (code.size symbol) bitBuf = code.codeword symbol →
            ∃ temp, built.find bitBuf = .ok (temp, code.size symbol) ∧
              temp.toNat &&& 511 = symbol) ∨
    (∀ code : CanonicalCode 15, code.sizes ≠ table.codeSize.take tableSize) ∧
      table.build tableSize = .ok none := by
  by_cases accepted : weight 15 (table.codeSize.take tableSize) = 2 ^ 15 ∨
      (table.codeSize.take tableSize).countP (· ≠ 0) ≤ 1
  · left
    rcases build_of_code ⟨table.codeSize.take tableSize, size_le, accepted⟩ enough rfl few with
      ⟨built, built_eq, _, holds⟩
    refine ⟨⟨_, size_le, accepted⟩, rfl, built, built_eq, ?_⟩
    intro symbol bitBuf has next
    have inside := CanonicalCode.lt_length_of_has has
    have small : symbol < 512 := by
      simp only [List.length_take] at inside
      omega
    exact ⟨_, holds.find_eq has small next, leafEntry_symbol small⟩
  · right
    refine ⟨?_, build_of_not_code enough size_le accepted⟩
    intro code same
    rw [← same] at accepted
    exact accepted code.accepted

theorem build_find_sample :
    ∃ built, HuffTable.build ⟨[2, 1, 3, 3], [], []⟩ 4 = .ok (some built) := by
  rcases build_find ⟨[2, 1, 3, 3], [], []⟩ (by decide : 4 ≤ 4) (by decide) (by decide) with
    ⟨_, _, built, built_eq, _⟩ | ⟨none_same, _⟩
  · exact ⟨built, built_eq⟩
  · exact absurd rfl (none_same ⟨[2, 1, 3, 3], by decide, by decide⟩)

end Lucciefr.Tinfl
