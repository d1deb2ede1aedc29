import Lucciefr.Uthash.Balance

/-!
# Finding and adding elements

The invariant of a table: the app order leads from `head` to its elements, the buckets file
all of them, and the numbers in the table are true. A search looks in the bucket which the
hash selects and finds an element with the key if there is one. An element is added at the
end of the app order and in front of its bucket, which may ask for an expansion: there has
to be room for it, and the length of its key has to be an `unsigned`.
-/

namespace Lucciefr.Uthash

open Element

variable {Value : Type}

/-- What the record of an element is filed under. -/
def filed (entry : ℕ × Record Value) : ℕ × Filing :=
  (entry.1, entry.2.key, entry.2.hashv)

/-- The app order leads from `head` to the elements, and each one leads to the table. -/
structure Listed (hash : Hash Value) (address : ℕ) (table : HashTable)
    (entries : List (ℕ × Record Value)) : Prop where
  represents : Represents (hash.elements.seen appView) hash.head entries
  nonempty : entries ≠ []
  live : hash.tables.cells address = some table
  tbl_eq : ∀ entry ∈ entries, entry.2.tbl = some address
  tail_eq : table.tail = lastPointer none entries

/-- The table is the table of the elements. -/
structure Stores (hashFcn : List UInt8 → UInt32) (hash : Hash Value) (address : ℕ)
    (table : HashTable) (entries : List (ℕ × Record Value)) : Prop where
  listed : Listed hash address table entries
  files : Filed hash.elements table (entries.map filed)
  hashv_eq : ∀ entry ∈ entries, entry.2.hashv = hashFcn entry.2.key
  numItems_eq : table.numItems = entries.length
  few_items : entries.length < 2 ^ 32
  balanced : table.noexpand = false → Balanced table

/-- `head` is `NULL` and there is no table, or it leads to the table of the elements. -/
def Holds (hashFcn : List UInt8 → UInt32) (hash : Hash Value)
    (entries : List (ℕ × Record Value)) : Prop :=
  hash.head = none ∧ entries = [] ∨ ∃ address table, Stores hashFcn hash address table entries

/-- One more item can be counted, and the number of buckets can be doubled for it. -/
structure HashTable.HasRoom (build : Build) (table : HashTable) : Prop
    extends table.CanDouble build where
  items : table.numItems + 1 < 2 ^ 32

/-- The table has room for one more element, if there is a table. -/
def Hash.HasRoom (build : Build) (hash : Hash Value) : Prop :=
  ∀ table, hash.table = .ok table → table.HasRoom build

instance (build : Build) (table : HashTable) : Decidable (table.HasRoom build) :=
  decidable_of_iff (table.numBuckets * 2 < 2 ^ 32 ∧
      2 * table.numBuckets * sizeofBucket build < 2 ^ build.bits ∧ table.numItems + 1 < 2 ^ 32)
    ⟨fun ⟨buckets, bytes, items⟩ => ⟨⟨buckets, bytes⟩, items⟩,
      fun room => ⟨room.buckets, room.bytes, room.items⟩⟩

instance (build : Build) (hash : Hash Value) : Decidable (hash.HasRoom build) :=
  match found : hash.table with
  | .ok table => decidable_of_iff (table.HasRoom build)
      ⟨fun room other same => by rw [found] at same; exact Except.ok.inj same ▸ room,
        fun room => room table found⟩
  | .error _ => isTrue fun other same => by rw [found] at same; cases same

variable {build : Build} {hashFcn : List UInt8 → UInt32} {hash next : Hash Value}
  {address add out : ℕ} {table nextTable : HashTable} {head : Pointer}
  {entries : List (ℕ × Record Value)} {entry : ℕ × Record Value}
  {elements : Heap (Element Value)} {element : Element Value} {keyptr : List UInt8}
  {change : HashTable → HashTable}

@[simp]
theorem addresses_map_filed (entries : List (ℕ × Record Value)) :
    addresses (entries.map filed) = addresses entries := by
  simp [addresses, filed]

theorem filed_eq_filing (record_eq : element.appView.value = entry.2) :
    (entry.1, element.filing) = filed entry := by
  rw [filed, ← record_eq]
  rfl

theorem exists_live_of_represents (represents : Represents (elements.seen appView) head entries)
    (entryMem : entry ∈ entries) :
    ∃ element, elements.cells entry.1 = some element ∧ element.appView.value = entry.2 := by
  rcases List.append_of_mem entryMem with ⟨earlier, later, rfl⟩
  rcases Heap.exists_of_seen represents.cell with ⟨element, live, view_eq⟩
  exact ⟨element, live, congrArg Node.value view_eq⟩

theorem tbl_of_represents (hash : Hash Value)
    (represents : Represents (hash.elements.seen appView) hash.head entries)
    (nonempty : entries ≠ []) (tbl_eq : ∀ entry ∈ entries, entry.2.tbl = some address) :
    hash.tbl = .ok (some address) := by
  cases entries with
  | nil => exact absurd rfl nonempty
  | cons first rest =>
      rcases exists_live_of_represents represents List.mem_cons_self with
        ⟨element, live, record_eq⟩
      have here : element.hh.tbl = some address :=
        (congrArg Record.tbl record_eq).trans (tbl_eq first (by simp))
      rw [Hash.tbl, represents.head_eq, firstPointer, Heap.load_of_live live, ok_bind, here]

namespace Listed

theorem exists_live (listed : Listed hash address table entries) (entryMem : entry ∈ entries) :
    ∃ element, hash.elements.cells entry.1 = some element ∧ element.appView.value = entry.2 :=
  exists_live_of_represents listed.represents entryMem

theorem tbl_ok (listed : Listed hash address table entries) : hash.tbl = .ok (some address) :=
  tbl_of_represents hash listed.represents listed.nonempty listed.tbl_eq

theorem exists_head (listed : Listed hash address table entries) :
    ∃ first, hash.head = some first := by
  rw [listed.represents.head_eq]
  cases entries with
  | nil => exact absurd rfl listed.nonempty
  | cons first rest => exact ⟨first.1, rfl⟩

theorem table_ok (listed : Listed hash address table entries) : hash.table = .ok table := by
  rw [Hash.table, listed.tbl_ok, ok_bind, Heap.load_of_live listed.live]

theorem modifyTable_ok (listed : Listed hash address table entries) :
    hash.modifyTable change =
      .ok { hash with tables := hash.tables.adjust (some address) change } := by
  rw [Hash.modifyTable, listed.tbl_ok, ok_bind, Heap.modify_of_live listed.live, ok_bind]

/-- What leaves the app order and the tail leaves the list of the elements. -/
theorem transfer (listed : Listed hash address table entries) (head_eq : next.head = hash.head)
    (app_eq : next.elements.seen appView = hash.elements.seen appView)
    (live : next.tables.cells address = some nextTable)
    (tail_eq : nextTable.tail = table.tail) : Listed next address nextTable entries where
  represents := by
    rw [head_eq, app_eq]
    exact listed.represents
  nonempty := listed.nonempty
  live := live
  tbl_eq := listed.tbl_eq
  tail_eq := tail_eq.trans listed.tail_eq

/-- A write to the table which leaves its tail. -/
theorem setTable (change : HashTable → HashTable) (listed : Listed hash address table entries)
    (same : (change table).tail = table.tail) :
    Listed { hash with tables := hash.tables.adjust (some address) change } address
      (change table) entries := by
  have live : (hash.tables.adjust (some address) change).cells address = some (change table) := by
    rw [Heap.cells_adjust_self, listed.live]
    rfl
  exact listed.transfer rfl rfl live same

/-- A write to the elements which leaves the app order. -/
theorem setElements (listed : Listed hash address table entries)
    (same : elements.seen appView = hash.elements.seen appView) :
    Listed { hash with elements := elements } address table entries :=
  listed.transfer rfl same listed.live rfl

end Listed

/-- What leaves the bucket order leaves the buckets. -/
theorem Filed.of_seen {filings : List (ℕ × Filing)} {other : Heap (Element Value)}
    (files : Filed elements table filings)
    (same : other.seen bucketView = elements.seen bucketView)
    (buckets_eq : nextTable.buckets = table.buckets)
    (numBuckets_eq : nextTable.numBuckets = table.numBuckets)
    (log2_eq : nextTable.log2NumBuckets = table.log2NumBuckets) :
    Filed other nextTable filings where
  chained := by
    rcases files.chained with ⟨chain, chains⟩
    refine ⟨chain, ?_⟩
    rw [buckets_eq]
    apply chains.frame
    intro address _
    rw [same]
  length_eq := by
    rw [buckets_eq, numBuckets_eq]
    exact files.length_eq
  numBuckets_eq := by
    rw [numBuckets_eq, log2_eq]
    exact files.numBuckets_eq
  log2_lt := by
    rw [log2_eq]
    exact files.log2_lt

/-- The table only depends on its elements. -/
theorem Stores.frame (stores : Stores hashFcn hash address table entries)
    (unchanged : ∀ other ∈ addresses entries, elements.cells other = hash.elements.cells other) :
    Stores hashFcn { hash with elements := elements } address table entries where
  listed :=
    { represents := stores.listed.represents.frame fun other otherMem =>
        Heap.seen_congr (unchanged other otherMem)
      nonempty := stores.listed.nonempty
      live := stores.listed.live
      tbl_eq := stores.listed.tbl_eq
      tail_eq := stores.listed.tail_eq }
  files :=
    { chained := by
        rcases stores.files.chained with ⟨chain, chains⟩
        refine ⟨chain, chains.frame ?_⟩
        intro other otherMem
        rw [addresses_map_filed] at otherMem
        exact Heap.seen_congr (unchanged other otherMem)
      length_eq := stores.files.length_eq
      numBuckets_eq := stores.files.numBuckets_eq
      log2_lt := stores.files.log2_lt }
  hashv_eq := stores.hashv_eq
  numItems_eq := stores.numItems_eq
  few_items := stores.few_items
  balanced := stores.balanced

/-- A write to what the application keeps in an element. -/
theorem Stores.setValue {earlier later : List (ℕ × Record Value)} {out : ℕ} {record : Record Value}
    (stores : Stores hashFcn hash address table (earlier ++ (out, record) :: later))
    (written : Value → Value) :
    Stores hashFcn
      { hash with
        elements := hash.elements.adjust (some out) fun element =>
          { element with value := written element.value } }
      address table (earlier ++ (out, { record with value := written record.value }) :: later) where
  listed :=
    { represents := by
        rw [Heap.seen_adjust]
        · exact stores.listed.represents.setValue fun record =>
            { record with value := written record.value }
        · intro cell
          rfl
      nonempty := by simp
      live := stores.listed.live
      tbl_eq := by
        intro entry entryMem
        rcases List.mem_append.mp entryMem with inEarlier | here
        · exact stores.listed.tbl_eq entry (List.mem_append_left _ inEarlier)
        · rcases List.mem_cons.mp here with rfl | inLater
          · exact stores.listed.tbl_eq (out, record) (by simp)
          · exact stores.listed.tbl_eq entry
              (List.mem_append_right _ (List.mem_cons_of_mem _ inLater))
      tail_eq := by
        rw [stores.listed.tail_eq, lastPointer_append, lastPointer_append]
        rfl }
  files := by
    have files := stores.files
    rw [List.map_append, List.map_cons] at files ⊢
    apply files.of_seen _ rfl rfl rfl
    apply Heap.seen_adjust_of_unseen
    intro cell
    rfl
  hashv_eq := by
    intro entry entryMem
    rcases List.mem_append.mp entryMem with inEarlier | here
    · exact stores.hashv_eq entry (List.mem_append_left _ inEarlier)
    · rcases List.mem_cons.mp here with rfl | inLater
      · exact stores.hashv_eq (out, record) (by simp)
      · exact stores.hashv_eq entry (List.mem_append_right _ (List.mem_cons_of_mem _ inLater))
  numItems_eq := by
    rw [stores.numItems_eq]
    simp
  few_items := by
    have few_items := stores.few_items
    rw [List.length_append, List.length_cons] at few_items ⊢
    exact few_items
  balanced := stores.balanced

/-- A search walks through the chain which the hash of the key selects. -/
theorem Stores.hashFind_chain (stores : Stores hashFcn hash address table entries)
    (keyptr : List UInt8) :
    ∃ chained : List (ℕ × Filing),
      hashFind hashFcn hash keyptr =
        .ok ((chained.find? fun entry => entry.2.1 = keyptr).map Prod.fst) ∧
      ∀ entry, entry ∈ chained ↔ entry ∈ entries.map filed ∧
        toBkt entry.2.2 table.numBuckets = toBkt (hashFcn keyptr) table.numBuckets := by
  rcases stores.files.chained with ⟨chain, chains⟩
  have inside : toBkt (hashFcn keyptr) table.numBuckets < table.buckets.length := by
    rw [stores.files.length_eq]
    exact toBkt_lt stores.files.numBuckets_pos stores.files.numBuckets_le
  have found := List.getElem?_eq_getElem inside
  have represents := chains.represents found
  refine ⟨chain (toBkt (hashFcn keyptr) table.numBuckets), ?_, ?_⟩
  · have searched := findInBktFrom_eq keyptr represents.length_le represents.linked
    rcases stores.listed.exists_head with ⟨head, head_eq⟩
    simp only [hashFind, head_eq, stores.listed.table_ok, ok_bind, bucketAt_of_some found,
      findInBkt, represents.head_eq]
    exact searched
  · intro entry
    rw [chains.members, stores.files.length_eq]

/-- A search finds the element with the key, if there is one. -/
theorem hashFind_eq (holds : Holds hashFcn hash entries)
    (unique : (entries.map fun entry => entry.2.key).Nodup) (keyptr : List UInt8) :
    hashFind hashFcn hash keyptr =
      .ok ((entries.find? fun entry => entry.2.key = keyptr).map Prod.fst) := by
  rcases holds with ⟨head_eq, rfl⟩ | ⟨address, table, stores⟩
  · simp [hashFind, head_eq]
  · rcases stores.hashFind_chain keyptr with ⟨chained, searched, members⟩
    rw [searched]
    cases match_eq : entries.find? fun entry => decide (entry.2.key = keyptr) with
    | none =>
        have absent : (chained.find? fun entry => decide (entry.2.1 = keyptr)) = none := by
          apply List.find?_eq_none.mpr
          intro other otherMem
          rcases List.mem_map.mp ((members other).mp otherMem).1 with ⟨entry, entryMem, rfl⟩
          exact List.find?_eq_none.mp match_eq entry entryMem
        rw [absent]
        rfl
    | some entry =>
        have entryMem := List.mem_of_find?_eq_some match_eq
        have key_eq : entry.2.key = keyptr := by simpa using List.find?_some match_eq
        have here : filed entry ∈ chained := by
          apply (members _).mpr
          refine ⟨List.mem_map_of_mem entryMem, ?_⟩
          rw [filed, stores.hashv_eq entry entryMem, key_eq]
        cases other_eq : chained.find? fun entry => decide (entry.2.1 = keyptr) with
        | none =>
            have differs := List.find?_eq_none.mp other_eq _ here
            simp [filed, key_eq] at differs
        | some other =>
            have otherMem := List.mem_of_find?_eq_some other_eq
            rcases List.mem_map.mp ((members other).mp otherMem).1 with ⟨same, sameMem, rfl⟩
            have sameKey : same.2.key = keyptr := by
              have found := List.find?_some other_eq
              exact of_decide_eq_true found
            have equal : same = entry :=
              List.inj_on_of_nodup_map unique sameMem entryMem (sameKey.trans key_eq.symm)
            rw [equal]
            rfl

/-- The element is put in its bucket, which expands the buckets if its chain got too long. -/
theorem addToBkt_spec (listed : Listed hash address table (entries ++ [entry]))
    (files : Filed hash.elements table (entries.map filed))
    (numItems_eq : table.numItems = entries.length + 1) (few_items : entries.length + 1 < 2 ^ 32)
    (room : table.CanDouble build) (balanced : table.noexpand = false → Balanced table) :
    ∃ next nextTable,
      addToBkt build hash (toBkt entry.2.hashv table.numBuckets) entry.1 = .ok next ∧
      Listed next address nextTable (entries ++ [entry]) ∧
      Filed next.elements nextTable ((entries ++ [entry]).map filed) ∧
      nextTable.numItems = entries.length + 1 ∧
      (nextTable.noexpand = false → Balanced nextTable) ∧
      ∀ other, other ∉ addresses (entries ++ [entry]) →
        next.elements.cells other = hash.elements.cells other := by
  rcases files.chained with ⟨chain, chains⟩
  rcases listed.exists_live (List.mem_append_right _ (List.mem_singleton_self entry)) with
    ⟨element, live, record_eq⟩
  have hashv_eq : element.hh.hashv = entry.2.hashv := congrArg Record.hashv record_eq
  have some_bkt := files.numBuckets_pos
  have few_bkts := files.numBuckets_le
  have fresh : entry.1 ∉ addresses (entries.map filed) := by
    have distinct := listed.represents.distinct
    simp only [addresses, List.map_append, List.map_cons, List.map_nil] at distinct
    rw [addresses_map_filed]
    intro entriesMem
    exact (List.nodup_append.mp distinct).2.2 _ entriesMem entry.1 (by simp) rfl
  have inside : toBkt entry.2.hashv table.numBuckets < table.buckets.length := by
    rw [files.length_eq]
    exact toBkt_lt some_bkt few_bkts
  have selects : toBkt element.hh.hashv table.buckets.length =
      toBkt entry.2.hashv table.numBuckets := by
    rw [files.length_eq, hashv_eq]
  have found := List.getElem?_eq_getElem inside
  generalize table.buckets[toBkt entry.2.hashv table.numBuckets] = bucket at found
  have filed_length : (entries.map filed).length + 1 < 2 ^ 32 := by rwa [List.length_map]
  have short := chains.length_le found
  have count_eq : unsigned (bucket.count + 1) = bucket.count + 1 := by
    rw [chains.count_eq found]
    exact unsigned_of_lt (by omega)
  rcases chains.push live fresh selects found filed_length bucket.expandMult with
    ⟨elements, pushed, pushedChains, app_eq, -, unchanged⟩
  rw [filed_eq_filing record_eq, count_eq] at pushedChains
  generalize changed_eq : HashBucket.mk (some entry.1) (bucket.count + 1) bucket.expandMult =
    changed at pushedChains
  have pushedListed := listed.setElements app_eq
  have storedListed := Listed.setTable
    (fun table' => table'.setBucket (toBkt entry.2.hashv table.numBuckets) changed) pushedListed rfl
  have storedFiles : Filed elements
      (table.setBucket (toBkt entry.2.hashv table.numBuckets) changed)
      ((entries ++ [entry]).map filed) := by
    refine ⟨⟨Function.update chain (toBkt entry.2.hashv table.numBuckets)
      (filed entry :: chain (toBkt entry.2.hashv table.numBuckets)), ?_⟩, ?_, files.numBuckets_eq,
      files.log2_lt⟩
    · rw [List.map_append]
      exact pushedChains
    · simp only [HashTable.setBucket, List.length_set]
      exact files.length_eq
  rcases storedListed.exists_live (List.mem_append_right _ (List.mem_singleton_self entry)) with
    ⟨added, addedLive, added_eq⟩
  have addedTbl : added.hh.tbl = some address :=
    (congrArg Record.tbl added_eq).trans (listed.tbl_eq entry (by simp))
  have outside : ∀ other, other ∉ addresses (entries ++ [entry]) →
      elements.cells other = hash.elements.cells other := by
    intro other otherOutside
    simp only [addresses, List.map_append, List.map_cons, List.map_nil, List.mem_append,
      List.mem_singleton, not_or] at otherOutside
    apply unchanged other otherOutside.2
    rw [addresses_map_filed]
    exact otherOutside.1
  have counts := chains.sum_counts (by omega) (by rw [files.length_eq]; exact few_bkts)
  rw [List.length_map] at counts
  have doubles : (table.setBucket (toBkt entry.2.hashv table.numBuckets) changed).CanDouble build :=
    ⟨room.buckets, room.bytes⟩
  simp only [addToBkt, listed.table_ok, ok_bind, bucketAt_of_some found, count_eq, pushed,
    pushedListed.modifyTable_ok, Heap.load_of_live addedLive, addedTbl, changed_eq,
    Heap.load_of_live storedListed.live]
  by_cases expands : bucket.count + 1 ≥ unsigned ((bucket.expandMult + 1) * bktCapacityThresh) ∧
      (table.setBucket (toBkt entry.2.hashv table.numBuckets) changed).noexpand = false
  · rw [if_pos expands]
    have storedItems : (table.setBucket (toBkt entry.2.hashv table.numBuckets) changed).numItems =
      entries.length + 1 := numItems_eq
    have ideal_pos := idealLength_pos storedFiles doubles (by omega) (by omega)
    rcases expandBuckets_spec storedListed.live storedFiles doubles ideal_pos
      (by simpa using few_items) with
      ⟨next, nextTable, expanded, nextLive, nextFiles, growth, head_eq, nextApp, nextOutside⟩
    refine ⟨next, nextTable, expanded,
      storedListed.transfer head_eq nextApp nextLive growth.tail_eq, nextFiles,
      growth.numItems_eq.trans numItems_eq, ?_, ?_⟩
    · intro _
      have few := (balanced expands.2).sum_counts_lt some_bkt files.length_eq
      rcases nextFiles.chained with ⟨nextChain, nextChains⟩
      have nextCounts := nextChains.sum_counts (by
        rw [nextFiles.length_eq]
        exact nextFiles.numBuckets_pos) (by
        rw [nextFiles.length_eq]
        exact nextFiles.numBuckets_le)
      rw [List.length_map, List.length_append, List.length_singleton] at nextCounts
      apply growth.balanced storedFiles doubles (by omega) (by omega)
      · change table.numItems ≤ 2 * bktCapacityThresh * table.numBuckets
        omega
      · exact nextCounts.trans numItems_eq.symm
    · intro other otherOutside
      rw [nextOutside other, outside other otherOutside]
      rw [addresses_map_filed]
      exact otherOutside
  · rw [if_neg expands]
    refine ⟨_, _, rfl, storedListed, storedFiles, numItems_eq, ?_, outside⟩
    intro growing
    apply (balanced growing).set found
    · rw [← changed_eq]
    · refine Or.inr ?_
      rw [← changed_eq]
      have below := Nat.lt_of_not_le fun reached => expands ⟨reached, growing⟩
      exact Nat.lt_of_lt_of_le below (Nat.mod_le _ _)

/-- The links which put an element at the end of the app order. -/
theorem linkLast_spec (represents : Represents (elements.seen appView) head entries)
    (nonempty : entries ≠ []) (live : elements.cells add = some element)
    (outside : add ∉ addresses entries) :
    ∃ prepared linked,
      modifyHandle elements (some add) (fun hh =>
        { hh with next := none, prev := lastPointer none entries }) = .ok prepared ∧
      modifyHandle prepared (lastPointer none entries) (fun hh => { hh with next := some add }) =
        .ok linked ∧
      Represents (linked.seen appView) head (entries ++ [(add, element.appView.value)]) ∧
      linked.seen bucketView = elements.seen bucketView ∧
      ∀ other, other ≠ add → other ∉ addresses entries →
        linked.cells other = elements.cells other := by
  have entered : lastPointer none entries ≠ none := by
    cases entries with
    | nil => exact absurd rfl nonempty
    | cons entry rest => exact lastPointer_cons_ne_none _ _ _
  rcases Option.ne_none_iff_exists'.mp entered with ⟨last, last_eq⟩
  have lastMem : last ∈ addresses entries := by
    rcases lastPointer_mem last_eq with ⟨impossible, -⟩ | lastMem
    · contradiction
    · exact lastMem
  have apart : (some add : Pointer) ≠ some last := by
    rintro ⟨rfl⟩
    exact outside lastMem
  rcases represents.linked.valid_last last last_eq with ⟨lastNode, lastSeen⟩
  rcases Heap.exists_of_seen lastSeen with ⟨lastElement, lastLive, -⟩
  have appended := represents.append (Heap.seen_of_live live) outside
  rw [if_neg entered, last_eq] at appended
  rw [last_eq]
  refine ⟨_, _, modifyHandle_of_live live,
    modifyHandle_of_live ((Heap.cells_adjust_of_ne apart).trans lastLive), ?_, ?_, ?_⟩
  · rw [Heap.seen_adjust, Heap.seen_adjust]
    · exact appended
    · intro cell
      rfl
    · intro cell
      rfl
  · rw [Heap.seen_adjust_of_unseen, Heap.seen_adjust_of_unseen]
    · intro cell
      rfl
    · intro cell
      rfl
  · intro other notAdd notEntry
    rw [Heap.cells_adjust_of_ne, Heap.cells_adjust_of_ne]
    · rintro ⟨rfl⟩
      exact notAdd rfl
    · rintro ⟨rfl⟩
      exact notEntry lastMem

/-- The element is the last one in app order now, and no bucket was written. -/
theorem appendList_spec (listed : Listed hash address table entries)
    (live : hash.elements.cells add = some element) (tbl_eq : element.hh.tbl = some address)
    (outside : add ∉ addresses entries) :
    ∃ next, appendList hash add = .ok next ∧
      Listed next address { table with tail := some add }
        (entries ++ [(add, element.appView.value)]) ∧
      next.elements.seen bucketView = hash.elements.seen bucketView ∧
      ∀ other, other ≠ add → other ∉ addresses entries →
        next.elements.cells other = hash.elements.cells other := by
  rcases linkLast_spec listed.represents listed.nonempty live outside with
    ⟨prepared, elements, prepared_eq, linked_eq, represents, bucket_eq, unchanged⟩
  have nextTbl : ∀ entry ∈ entries ++ [(add, element.appView.value)],
      entry.2.tbl = some address := by
    intro entry entryMem
    rcases List.mem_append.mp entryMem with old | here
    · exact listed.tbl_eq entry old
    · rw [List.mem_singleton.mp here]
      exact tbl_eq
  have reached := tbl_of_represents { hash with elements := elements } represents (by simp) nextTbl
  refine ⟨{ hash with
      elements := elements
      tables := hash.tables.adjust (some address) fun table => { table with tail := some add } },
    ?_, ⟨represents, by simp, ?_, nextTbl, ?_⟩, bucket_eq, unchanged⟩
  · simp only [appendList, listed.table_ok, ok_bind, listed.tail_eq, prepared_eq, linked_eq,
      Hash.modifyTable, reached, Heap.modify_of_live listed.live]
  · rw [Heap.cells_adjust_self, listed.live]
    rfl
  · simp [lastPointer]

theorem HashTable.canDouble_initial (build : Build) (tail : Pointer) :
    (HashTable.initial tail).CanDouble build where
  buckets := show initialNumBuckets * 2 < 2 ^ 32 by decide
  bytes := by
    change 2 * initialNumBuckets * sizeofBucket build < 2 ^ build.bits
    cases build <;> decide

/-- The first element gets a new table. -/
theorem addToList_first (head_eq : hash.head = none)
    (live : hash.elements.cells add = some element) :
    ∃ next address table, addToList hash add = .ok next ∧
      Listed next address table [(add, { element.appView.value with tbl := some address })] ∧
      Filed next.elements table [] ∧ table.numItems = 0 ∧ table.CanDouble build ∧ Balanced table ∧
      ∀ other, other ≠ add → next.elements.cells other = hash.elements.cells other := by
  have prepared : (hash.elements.adjust (some add) fun element => element.withHandle fun hh =>
      { hh with next := none, prev := none }).cells add =
      some (element.withHandle fun hh => { hh with next := none, prev := none }) := by
    rw [Heap.cells_adjust_self, live]
    rfl
  have log2_lt : initialNumBucketsLog2 < 32 := by decide
  refine ⟨⟨(hash.elements.adjust (some add) fun element => element.withHandle fun hh =>
        { hh with next := none, prev := none }).adjust (some add) fun element =>
          element.withHandle fun hh => { hh with tbl := some hash.tables.bound },
      (hash.tables.alloc (.initial (some add))).2, some add⟩,
    hash.tables.bound, .initial (some add), ?_,
    ⟨⟨rfl, ⟨?_, trivial⟩, ?_⟩, ?_, Heap.cells_alloc_self, ?_, rfl⟩,
    ⟨⟨_, Chained.zero _ _⟩, List.length_replicate, rfl, log2_lt⟩, rfl,
    HashTable.canDouble_initial build _, Balanced.initial _, ?_⟩
  · simp only [addToList, head_eq, modifyHandle_of_live live, ok_bind, makeTable,
      modifyHandle_of_live prepared]
    rfl
  · simp only [Heap.cells_seen, Heap.cells_adjust_self, live]
    rfl
  · simp
  · simp
  · intro entry entryMem
    rw [List.mem_singleton.mp entryMem]
  · intro other apart
    rw [Heap.cells_adjust_of_ne, Heap.cells_adjust_of_ne]
    · rintro ⟨rfl⟩
      exact apart rfl
    · rintro ⟨rfl⟩
      exact apart rfl

/-- Another element joins the list of all elements. -/
theorem addToList_next (stores : Stores hashFcn hash address table entries)
    (live : hash.elements.cells add = some element) (outside : add ∉ addresses entries) :
    ∃ next, addToList hash add = .ok next ∧
      Listed next address { table with tail := some add }
        (entries ++ [(add, { element.appView.value with tbl := some address })]) ∧
      Filed next.elements { table with tail := some add } (entries.map filed) ∧
      ∀ other, other ≠ add → other ∉ addresses entries →
        next.elements.cells other = hash.elements.cells other := by
  have prepared : (hash.elements.adjust (some add) fun element => element.withHandle fun hh =>
      { hh with tbl := some address }).cells add =
      some (element.withHandle fun hh => { hh with tbl := some address }) := by
    rw [Heap.cells_adjust_self, live]
    rfl
  have framed := stores.frame (Heap.cells_adjust_of_outside outside fun element =>
    element.withHandle fun hh => { hh with tbl := some address })
  rcases appendList_spec framed.listed prepared rfl outside with
    ⟨next, appended, listed, bucket_eq, unchanged⟩
  rcases stores.listed.exists_head with ⟨head, head_eq⟩
  refine ⟨next, ?_, listed, framed.files.of_seen bucket_eq rfl rfl rfl, ?_⟩
  · simp only [addToList, head_eq, stores.listed.tbl_ok, ok_bind, modifyHandle_of_live live]
    rw [← head_eq]
    exact appended
  · intro other notAdd notEntry
    rw [unchanged other notAdd notEntry, Heap.cells_adjust_of_ne]
    rintro ⟨rfl⟩
    exact notAdd rfl

namespace Holds

theorem hashv_eq (holds : Holds hashFcn hash entries) (entryMem : entry ∈ entries) :
    entry.2.hashv = hashFcn entry.2.key := by
  rcases holds with ⟨-, rfl⟩ | ⟨address, table, stores⟩
  · cases entryMem
  · exact stores.hashv_eq entry entryMem

theorem frame (holds : Holds hashFcn hash entries)
    (unchanged : ∀ other ∈ addresses entries, elements.cells other = hash.elements.cells other) :
    Holds hashFcn { hash with elements := elements } entries := by
  rcases holds with empty | ⟨address, table, stores⟩
  · exact Or.inl empty
  · exact Or.inr ⟨address, table, stores.frame unchanged⟩

theorem exists_live (holds : Holds hashFcn hash entries)
    (entryMem : entry ∈ entries) :
    ∃ element, hash.elements.cells entry.1 = some element ∧ element.appView.value = entry.2 := by
  rcases holds with ⟨-, rfl⟩ | ⟨address, table, stores⟩
  · cases entryMem
  · exact stores.listed.exists_live entryMem

theorem fresh (holds : Holds hashFcn hash entries) : hash.elements.bound ∉ addresses entries := by
  rcases holds with ⟨-, rfl⟩ | ⟨address, table, stores⟩
  · simp
  · exact stores.listed.represents.fresh

theorem distinct (holds : Holds hashFcn hash entries) : (addresses entries).Nodup := by
  rcases holds with ⟨-, rfl⟩ | ⟨address, table, stores⟩
  · simp
  · exact stores.listed.represents.distinct

/-- The room does not depend on other elements. -/
theorem hasRoom_frame (holds : Holds hashFcn hash entries)
    (unchanged : ∀ other ∈ addresses entries, elements.cells other = hash.elements.cells other)
    (room : hash.HasRoom build) : Hash.HasRoom build { hash with elements := elements } := by
  intro table found
  rcases holds with ⟨head_eq, -⟩ | ⟨address, stored, stores⟩
  · rw [Hash.table, Hash.tbl, head_eq] at found
    cases found
  · rw [(stores.frame unchanged).listed.table_ok, Except.ok.injEq] at found
    subst found
    exact room stored stores.listed.table_ok

/-- A new element, which is not in the table yet. -/
theorem alloc (holds : Holds hashFcn hash entries) (element : Element Value) :
    Holds hashFcn { hash with elements := (hash.elements.alloc element).2 } entries := by
  apply holds.frame
  intro other otherMem
  apply Heap.cells_alloc_of_ne
  rintro rfl
  exact holds.fresh otherMem

theorem hasRoom_alloc (holds : Holds hashFcn hash entries) (element : Element Value)
    (room : hash.HasRoom build) :
    Hash.HasRoom build { hash with elements := (hash.elements.alloc element).2 } := by
  apply holds.hasRoom_frame _ room
  intro other otherMem
  apply Heap.cells_alloc_of_ne
  rintro rfl
  exact holds.fresh otherMem

/-- Releasing an element which is not in the table any more. -/
theorem release (holds : Holds hashFcn hash entries) (outside : out ∉ addresses entries) :
    Holds hashFcn { hash with elements := hash.elements.discard out } entries := by
  apply holds.frame
  intro other otherMem
  apply Heap.cells_discard_of_ne
  rintro rfl
  exact outside otherMem

end Holds

/-- The element joins the list of all elements, and it is the only one without a bucket. -/
theorem addToList_spec (holds : Holds hashFcn hash entries)
    (live : hash.elements.cells add = some element) (outside : add ∉ addresses entries)
    (room : hash.HasRoom build) :
    ∃ next address table, addToList hash add = .ok next ∧
      Listed next address table
        (entries ++ [(add, { element.appView.value with tbl := some address })]) ∧
      Filed next.elements table (entries.map filed) ∧ table.numItems = entries.length ∧
      entries.length + 1 < 2 ^ 32 ∧ table.CanDouble build ∧
      (table.noexpand = false → Balanced table) ∧
      ∀ other, other ≠ add → other ∉ addresses entries →
        next.elements.cells other = hash.elements.cells other := by
  rcases holds with ⟨head_eq, rfl⟩ | ⟨address, table, stores⟩
  · rcases addToList_first head_eq live with
      ⟨next, address, table, joined, listed, files, numItems_eq, doubles, balanced, unchanged⟩
    have one : 0 + 1 < 2 ^ 32 := by decide
    exact ⟨next, address, table, joined, listed, files, numItems_eq, one, doubles,
      fun _ => balanced, fun other apart _ => unchanged other apart⟩
  · rcases addToList_next stores live outside with ⟨next, joined, listed, files, unchanged⟩
    have roomy := room table stores.listed.table_ok
    have items := roomy.items
    rw [stores.numItems_eq] at items
    refine ⟨next, address, _, joined, listed, files, stores.numItems_eq, items,
      ⟨roomy.buckets, roomy.bytes⟩, ?_, unchanged⟩
    intro growing
    exact (stores.balanced growing).of_same rfl rfl

/-- Adding an element puts it at the end, and writes to no element outside the table. -/
theorem hashAddKeyptr_spec (holds : Holds hashFcn hash entries)
    (live : hash.elements.cells add = some element) (outside : add ∉ addresses entries)
    (room : hash.HasRoom build) (short : keyptr.length < 2 ^ 32) :
    ∃ next address table, hashAddKeyptr build hashFcn hash keyptr add = .ok next ∧
      Stores hashFcn next address table
        (entries ++ [(add, ⟨some address, keyptr, hashFcn keyptr, element.value⟩)]) ∧
      ∀ other, other ≠ add → other ∉ addresses entries →
        next.elements.cells other = hash.elements.cells other := by
  have prepared : (hash.elements.adjust (some add) fun element => element.withHandle fun hh =>
      { hh with hashv := hashFcn keyptr, key := keyptr }).cells add =
      some (element.withHandle fun hh => { hh with hashv := hashFcn keyptr, key := keyptr }) := by
    rw [Heap.cells_adjust_self, live]
    rfl
  rcases addToList_spec (holds.frame (Heap.cells_adjust_of_outside outside _)) prepared outside
    (holds.hasRoom_frame (Heap.cells_adjust_of_outside outside _) room) with ⟨joined, address, table,
      joined_eq, joinedListed, files, numItems_eq, few_items, doubles, balanced, unchanged⟩
  generalize entry_eq : (⟨some address, keyptr, hashFcn keyptr, element.value⟩ : Record Value) =
    record
  have listed : Listed joined address table (entries ++ [(add, record)]) := by
    rw [← entry_eq]
    exact joinedListed
  have counted := Listed.setTable
    (fun table => { table with numItems := unsigned (table.numItems + 1) }) listed rfl
  rcases counted.exists_live (List.mem_append_right _ (List.mem_singleton_self (add, record))) with
    ⟨added, addedLive, added_eq⟩
  have hashv_eq : added.hh.hashv = record.hashv := congrArg Record.hashv added_eq
  have stillFiles : Filed joined.elements { table with numItems := unsigned (table.numItems + 1) }
      (entries.map filed) := files.of_seen rfl rfl rfl rfl
  have counted_eq : unsigned (table.numItems + 1) = entries.length + 1 := by
    rw [numItems_eq, unsigned_of_lt few_items]
  rcases addToBkt_spec counted stillFiles counted_eq few_items ⟨doubles.buckets, doubles.bytes⟩
    (fun growing => (balanced growing).of_same rfl rfl) with
    ⟨next, nextTable, put, nextListed, nextFiles, nextItems, nextBalanced, nextUnchanged⟩
  subst entry_eq
  refine ⟨next, address, nextTable, ?_, ⟨nextListed, nextFiles, ?_, ?_, ?_, nextBalanced⟩, ?_⟩
  · simp only [hashAddKeyptr, cutKey_of_lt short, modifyHandle_of_live live, ok_bind, joined_eq,
      listed.modifyTable_ok,
      Heap.load_of_live addedLive, counted.table_ok, hashv_eq]
    exact put
  · intro entry entryMem
    rcases List.mem_append.mp entryMem with old | here
    · exact holds.hashv_eq old
    · rw [List.mem_singleton.mp here]
  · rw [nextItems, List.length_append, List.length_singleton]
  · rw [List.length_append, List.length_singleton]
    exact few_items
  · intro other notAdd notEntry
    rw [nextUnchanged other, unchanged other notAdd notEntry, Heap.cells_adjust_of_ne]
    · rintro ⟨rfl⟩
      exact notAdd rfl
    · simp only [addresses, List.map_append, List.mem_append, not_or]
      refine ⟨notEntry, ?_⟩
      simpa using notAdd

end Lucciefr.Uthash
