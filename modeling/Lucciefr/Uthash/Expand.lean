import Lucciefr.Uthash.Chains

/-!
# Bucket expansion

`HASH_EXPAND_BUCKETS` moves the handles one by one to twice as many buckets. It walks a
chain along the links which the handles had before: those which were not moved yet are as
they were. The result files the same elements, and leaves the app order as it was, if there
is room for twice as many buckets.
-/

namespace Lucciefr.Uthash

open Element

variable {Value : Type}

/-- The buckets of a table file the elements. -/
structure Filed (elements : Heap (Element Value)) (table : HashTable)
    (filings : List (ℕ × Filing)) : Prop where
  chained : ∃ chain, Chained elements table.buckets filings chain
  length_eq : table.buckets.length = table.numBuckets
  numBuckets_eq : table.numBuckets = 2 ^ table.log2NumBuckets
  log2_lt : table.log2NumBuckets < 32

/-- Neither the doubled number of buckets nor their size in bytes wraps. -/
structure HashTable.CanDouble (build : Build) (table : HashTable) : Prop where
  buckets : table.numBuckets * 2 < 2 ^ 32
  bytes : 2 * table.numBuckets * sizeofBucket build < 2 ^ build.bits

/-- The new buckets file the handles which were moved, and the other handles are as they
were before. -/
structure Moved (before : Heap (Element Value)) (ideal count : ℕ) (expansion : Expansion Value)
    (moved : List (ℕ × Filing)) : Prop where
  chained : ∃ chain, Chained expansion.elements expansion.newBuckets moved chain
  length_eq : expansion.newBuckets.length = count
  expandMult_eq : ∀ bucket ∈ expansion.newBuckets,
    bucket.expandMult = if ideal < bucket.count then bucket.count / ideal else 0
  app_eq : expansion.elements.seen appView = before.seen appView
  bound_eq : expansion.elements.bound = before.bound
  unchanged : ∀ address, address ∉ addresses moved →
    expansion.elements.cells address = before.cells address

variable {build : Build} {before : Heap (Element Value)} {ideal numBuckets thh turns : ℕ}
  {expansion : Expansion Value} {moved rest filings : List (ℕ × Filing)} {element : Element Value}
  {entered : Pointer} {table : HashTable} {chain : ℕ → List (ℕ × Filing)}

theorem Filed.numBuckets_pos {elements : Heap (Element Value)}
    (filed : Filed elements table filings) :
    0 < table.numBuckets := by
  rw [filed.numBuckets_eq]
  exact Nat.two_pow_pos _

theorem Filed.numBuckets_le {elements : Heap (Element Value)}
    (filed : Filed elements table filings) :
    table.numBuckets ≤ 2 ^ 32 := by
  rw [filed.numBuckets_eq]
  exact Nat.pow_le_pow_right (by decide) filed.log2_lt.le

theorem HashTable.CanDouble.nextNumBuckets_eq (room : table.CanDouble build) :
    table.nextNumBuckets = table.numBuckets * 2 :=
  unsigned_of_lt room.buckets

theorem HashTable.CanDouble.allocated_eq (room : table.CanDouble build) :
    table.allocated build = .replicate (table.numBuckets * 2) .zero := by
  have positive : 0 < sizeofBucket build := by
    rw [sizeofBucket]
    omega
  have bytes := room.bytes
  have fewer : 2 * table.numBuckets < 2 ^ build.bits :=
    lt_of_le_of_lt (Nat.le_mul_of_pos_right _ positive) bytes
  rw [HashTable.allocated, Build.mul_of_lt fewer, Build.mul_of_lt bytes,
    Nat.mul_div_cancel _ positive, Nat.mul_comm 2]

theorem Filed.nextLog2_eq {elements : Heap (Element Value)} (filed : Filed elements table filings) :
    table.nextLog2 = table.log2NumBuckets + 1 := by
  have small := filed.log2_lt
  exact unsigned_of_lt (by omega)

/-- There is a shift by the next logarithm if the number of buckets can be doubled. -/
theorem Filed.nextLog2_lt {elements : Heap (Element Value)} (filed : Filed elements table filings)
    (room : table.CanDouble build) : table.nextLog2 < 32 := by
  have doubled := room.buckets
  rw [filed.numBuckets_eq, ← Nat.pow_succ] at doubled
  rw [filed.nextLog2_eq]
  exact (Nat.pow_lt_pow_iff_right (by decide)).mp doubled

theorem Chained.of_mem_iff {elements : Heap (Element Value)} {buckets : List HashBucket}
    {other : List (ℕ × Filing)} (chains : Chained elements buckets filings chain)
    (same : ∀ entry, entry ∈ other ↔ entry ∈ filings) (distinct : (addresses other).Nodup) :
    Chained elements buckets other chain where
  represents := chains.represents
  count_eq := chains.count_eq
  members := by
    intro bkt entry
    rw [chains.members, same]
  distinct := distinct

theorem Moved.start (before : Heap (Element Value)) (ideal count : ℕ) :
    Moved before ideal count ⟨before, List.replicate count .zero, 0⟩ [] where
  chained := ⟨_, Chained.zero before count⟩
  length_eq := List.length_replicate
  expandMult_eq := by
    intro bucket bucketMem
    rw [List.eq_of_mem_replicate bucketMem]
    rfl
  app_eq := rfl
  bound_eq := rfl
  unchanged _ _ := rfl

theorem moveHandle_spec (some_bkt : 0 < numBuckets) (few_bkts : numBuckets * 2 < 2 ^ 32)
    (ideal_pos : 0 < ideal) (held : Moved before ideal (numBuckets * 2) expansion moved)
    (live : before.cells thh = some element) (fresh : thh ∉ addresses moved)
    (small : moved.length + 1 < 2 ^ 32) :
    ∃ next, moveHandle ideal numBuckets expansion thh = .ok (element.hh.hhNext, next) ∧
      Moved before ideal (numBuckets * 2) next (moved ++ [(thh, element.filing)]) := by
  rcases held.chained with ⟨chain, chains⟩
  have still : expansion.elements.cells thh = some element :=
    (held.unchanged thh fresh).trans live
  have inside : toBkt element.hh.hashv (numBuckets * 2) < expansion.newBuckets.length := by
    rw [held.length_eq]
    exact toBkt_lt (by omega) few_bkts.le
  cases found : expansion.newBuckets[toBkt element.hh.hashv (numBuckets * 2)]? with
  | none =>
      rw [List.getElem?_eq_none_iff] at found
      omega
  | some bucket =>
      have bucketMem := List.mem_of_getElem? found
      generalize count_eq : unsigned (bucket.count + 1) = count
      have count_ge : bucket.count ≤ count := by
        have short := chains.length_le found
        rw [← count_eq, chains.count_eq found, unsigned_of_lt (by omega)]
        omega
      obtain ⟨expandMult, multiplied, expandMult_eq⟩ : ∃ expandMult,
          (if ideal < count then divide count ideal else .ok bucket.expandMult) = .ok expandMult ∧
          expandMult = if ideal < count then count / ideal else bucket.expandMult := by
        refine ⟨_, ?_, rfl⟩
        split
        · exact if_neg (Nat.ne_of_gt ideal_pos)
        · rfl
      rcases chains.push still fresh (by rw [held.length_eq]) found small expandMult with
        ⟨elements, pushed, pushedChains, app_eq, bound_eq, unchanged⟩
      rw [count_eq] at pushedChains
      refine ⟨⟨elements, expansion.newBuckets.set (toBkt element.hh.hashv (numBuckets * 2))
          ⟨some thh, count, expandMult⟩,
          if ideal < count then unsigned (expansion.nonidealItems + 1)
          else expansion.nonidealItems⟩, ?_, ?_⟩
      · simp only [moveHandle, Heap.load_of_live still, ok_bind, unsigned_of_lt few_bkts,
          bucketAt_of_some found, count_eq, decide_eq_true_eq, multiplied, pushed]
      · refine ⟨⟨_, pushedChains⟩, ?_, ?_, app_eq.trans held.app_eq,
          bound_eq.trans held.bound_eq, ?_⟩
        · rw [List.length_set]
          exact held.length_eq
        · intro changed changedMem
          rcases List.mem_or_eq_of_mem_set changedMem with old | rfl
          · exact held.expandMult_eq changed old
          · simp only [expandMult_eq]
            split
            · rfl
            · rename_i within
              rw [held.expandMult_eq bucket bucketMem, if_neg (by omega)]
        · intro address notMoved
          simp only [addresses, List.map_append, List.map_cons, List.map_nil, List.mem_append,
            List.mem_singleton, not_or] at notMoved
          rw [unchanged address notMoved.2 notMoved.1]
          exact held.unchanged address notMoved.1

/-- The handles from `thh` on are moved in the order of their chain. -/
theorem moveChainFrom_spec (some_bkt : 0 < numBuckets) (few_bkts : numBuckets * 2 < 2 ^ 32)
    (ideal_pos : 0 < ideal) (held : Moved before ideal (numBuckets * 2) expansion moved)
    (linked : Linked (before.seen bucketView) entered rest none)
    (distinct : (addresses (moved ++ rest)).Nodup) (small : (moved ++ rest).length < 2 ^ 32)
    (enough : rest.length ≤ turns) :
    ∃ next, moveChainFrom ideal numBuckets turns (firstPointer rest none) expansion = .ok next ∧
      Moved before ideal (numBuckets * 2) next (moved ++ rest) := by
  induction rest generalizing entered expansion moved turns with
  | nil =>
      refine ⟨expansion, by cases turns <;> rfl, ?_⟩
      rw [List.append_nil]
      exact held
  | cons entry rest ih =>
      rcases entry with ⟨thh, filing⟩
      rcases Heap.exists_of_seen linked.1 with ⟨element, live, view_eq⟩
      have next_eq : element.hh.hhNext = firstPointer rest none := congrArg Node.next view_eq
      have filing_eq : element.filing = filing := congrArg Node.value view_eq
      have fresh : thh ∉ addresses moved := by
        intro movedMem
        simp only [addresses, List.map_append, List.map_cons] at distinct
        exact (List.nodup_append.mp distinct).2.2 thh movedMem thh (by simp) rfl
      have fewer : moved.length + 1 < 2 ^ 32 := by
        rw [List.length_append, List.length_cons] at small
        omega
      rw [List.append_cons] at distinct small
      cases turns with
      | zero => simp at enough
      | succ turns =>
          rcases moveHandle_spec some_bkt few_bkts ideal_pos held live fresh fewer with
            ⟨next, turned, nextHeld⟩
          rw [filing_eq] at nextHeld
          rcases ih nextHeld linked.2 distinct small (Nat.le_of_succ_le_succ enough) with
            ⟨last, walked, lastHeld⟩
          refine ⟨last, ?_, ?_⟩
          · simp only [firstPointer, moveChainFrom, turned, ok_bind, next_eq]
            exact walked
          · rw [List.append_cons]
            exact lastHeld

/-- The filings in the first buckets, in the order of the walk. -/
def walked (chain : ℕ → List (ℕ × Filing)) (count : ℕ) : List (ℕ × Filing) :=
  (List.range count).flatMap chain

theorem walked_succ (chain : ℕ → List (ℕ × Filing)) (count : ℕ) :
    walked chain (count + 1) = walked chain count ++ chain count := by
  simp [walked, List.range_succ, List.flatMap_append]

namespace Chained

theorem mem_walked_iff (chains : Chained before table.buckets filings chain)
    (some_bkt : 0 < table.buckets.length) (few_bkts : table.buckets.length ≤ 2 ^ 32)
    (entry : ℕ × Filing) :
    entry ∈ walked chain table.buckets.length ↔ entry ∈ filings := by
  simp only [walked, List.mem_flatMap, List.mem_range, chains.members]
  constructor
  · rintro ⟨bkt, inside, filed, selects⟩
    exact filed
  · intro filed
    exact ⟨_, toBkt_lt some_bkt few_bkts, filed, rfl⟩

theorem nodup_walked (chains : Chained before table.buckets filings chain) {count : ℕ}
    (inside : count ≤ table.buckets.length) : (addresses (walked chain count)).Nodup := by
  induction count with
  | zero => simp [walked]
  | succ count ih =>
      rw [walked_succ, addresses, List.map_append]
      apply List.nodup_append.mpr
      refine ⟨ih (by omega), ?_, ?_⟩
      · exact (chains.represents (List.getElem?_eq_getElem (by omega))).distinct
      · rintro address walkedMem other chainMem rfl
        rcases List.mem_map.mp walkedMem with ⟨entry, entryMem, rfl⟩
        rcases List.mem_flatMap.mp entryMem with ⟨bkt, bktMem, here⟩
        have same := chains.apart (List.mem_map_of_mem here) chainMem
        rw [List.mem_range, same] at bktMem
        exact Nat.lt_irrefl _ bktMem

theorem length_walked_le (chains : Chained before table.buckets filings chain) {count : ℕ}
    (inside : count ≤ table.buckets.length) : (walked chain count).length ≤ filings.length := by
  have distinct : (walked chain count).Nodup := List.Nodup.of_map _ (chains.nodup_walked inside)
  apply (distinct.subperm _).length_le
  intro entry entryMem
  rcases List.mem_flatMap.mp entryMem with ⟨bkt, -, here⟩
  exact (chains.members.mp here).1

end Chained

/-- The buckets are emptied one after the other. -/
theorem moveChains_spec (filed : Filed before table filings)
    (chains : Chained before table.buckets filings chain) (room : table.CanDouble build)
    (ideal_pos : 0 < ideal) (small : filings.length < 2 ^ 32)
    {count : ℕ} (inside : count ≤ table.numBuckets) :
    ∃ next, (List.range count).foldlM (moveChain table ideal)
        ⟨before, List.replicate (table.numBuckets * 2) .zero, 0⟩ = .ok next ∧
      Moved before ideal (table.numBuckets * 2) next (walked chain count) := by
  induction count with
  | zero =>
      exact ⟨_, rfl, Moved.start before ideal _⟩
  | succ count ih =>
      rcases ih (by omega) with ⟨expansion, moved, held⟩
      have here : count < table.buckets.length := by
        rw [filed.length_eq]
        exact inside
      have found := List.getElem?_eq_getElem here
      have represents := chains.represents found
      have distinct := chains.nodup_walked (Nat.succ_le_of_lt here)
      have walkedSmall := lt_of_le_of_lt (chains.length_walked_le (Nat.succ_le_of_lt here)) small
      rw [walked_succ] at distinct walkedSmall
      have enough : (chain count).length ≤ expansion.elements.bound := by
        rw [held.bound_eq]
        exact represents.length_le
      rcases moveChainFrom_spec filed.numBuckets_pos room.buckets ideal_pos held represents.linked
        distinct walkedSmall enough with ⟨next, chainMoved, nextHeld⟩
      refine ⟨next, ?_, ?_⟩
      · rw [List.range_succ, List.foldlM_append, moved]
        simp only [List.foldlM_cons, List.foldlM_nil, ok_bind, moveChain, bucketAt_of_some found,
          represents.head_eq, chainMoved]
        rfl
      · rw [walked_succ]
        exact nextHeld

/-- The table with twice as many buckets. -/
structure Expanded (table next : HashTable) : Prop where
  numBuckets_eq : next.numBuckets = table.numBuckets * 2
  numItems_eq : next.numItems = table.numItems
  tail_eq : next.tail = table.tail
  expandMult_eq : ∀ bucket ∈ next.buckets, bucket.expandMult =
    if table.idealLength < bucket.count then bucket.count / table.idealLength else 0
  noexpand_of_noexpand : table.noexpand = true → next.noexpand = true

/-- An expansion files the same elements, and changes nothing else. -/
theorem expandBuckets_spec {hash : Hash Value} {address : ℕ}
    (live : hash.tables.cells address = some table)
    (filed : Filed hash.elements table filings) (room : table.CanDouble build)
    (ideal_pos : 0 < table.idealLength) (small : filings.length < 2 ^ 32) :
    ∃ next nextTable, expandBuckets build hash (some address) = .ok next ∧
      next.tables.cells address = some nextTable ∧
      Filed next.elements nextTable filings ∧ Expanded table nextTable ∧
      next.head = hash.head ∧
      next.elements.seen appView = hash.elements.seen appView ∧
      ∀ other, other ∉ addresses filings →
        next.elements.cells other = hash.elements.cells other := by
  rcases filed.chained with ⟨chain, chains⟩
  have some_bkt : 0 < table.buckets.length := by
    rw [filed.length_eq]
    exact filed.numBuckets_pos
  have few_bkts : table.buckets.length ≤ 2 ^ 32 := by
    rw [filed.length_eq]
    exact filed.numBuckets_le
  rcases moveChains_spec filed chains room ideal_pos small (Nat.le_refl _) with
    ⟨expansion, moved, held⟩
  have members := chains.mem_walked_iff some_bkt few_bkts
  rw [filed.length_eq] at members
  have doubled := room.nextNumBuckets_eq
  have shifted := filed.nextLog2_lt room
  refine ⟨⟨expansion.elements, hash.tables.adjust (some address) fun table =>
      table.expanded expansion, hash.head⟩, table.expanded expansion, ?_, ?_,
    ⟨?_, ?_, ?_, shifted⟩, ⟨doubled, rfl, rfl, held.expandMult_eq, ?_⟩, rfl, held.app_eq, ?_⟩
  · simp only [expandBuckets, Heap.load_of_live live, ok_bind, if_pos shifted, room.allocated_eq,
      moved, Heap.modify_of_live live]
  · simp only [Heap.cells_adjust_self, live]
    rfl
  · rcases held.chained with ⟨newChain, newChains⟩
    exact ⟨newChain, newChains.of_mem_iff (fun entry => (members entry).symm) chains.distinct⟩
  · exact held.length_eq.trans doubled.symm
  · simp only [HashTable.expanded, doubled, filed.nextLog2_eq, filed.numBuckets_eq, Nat.pow_succ]
  · intro inhibited
    simp [HashTable.expanded, inhibited]
  · intro other notFiled
    apply held.unchanged
    intro walkedMem
    rcases List.mem_map.mp walkedMem with ⟨entry, entryMem, rfl⟩
    exact notFiled (List.mem_map_of_mem ((members entry).mp entryMem))

end Lucciefr.Uthash
