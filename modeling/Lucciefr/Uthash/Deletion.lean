import Lucciefr.Uthash.Storage

/-!
# Deleting elements

An element leaves the app order and its bucket; with the last element goes the table. The
neighbours in both orders are linked to each other, and nothing is written to the deleted
element, which the application may release.
-/

namespace Lucciefr.Uthash

open Element

variable {Value : Type} {hashFcn : List UInt8 → UInt32} {hash : Hash Value}
  {address delptr bkt : ℕ} {table : HashTable} {entries earlier later : List (ℕ × Record Value)}
  {record : Record Value} {filings before after : List (ℕ × Filing)} {filing : Filing}
  {elements : Heap (Element Value)} {chain : ℕ → List (ℕ × Filing)} {buckets : List HashBucket}
  {bucket : HashBucket}

theorem lastPointer_of_ne_nil {Node : Type} {entries : List (ℕ × Node)} (nonempty : entries ≠ [])
    (first second : Pointer) : lastPointer first entries = lastPointer second entries := by
  cases entries with
  | nil => exact absurd rfl nonempty
  | cons entry rest => rfl

/-- The tail after the deletion of an element. -/
theorem lastPointer_delete (distinct : (addresses (earlier ++ (delptr, record) :: later)).Nodup) :
    (if lastPointer none (earlier ++ (delptr, record) :: later) = some delptr
      then lastPointer none earlier
      else lastPointer none (earlier ++ (delptr, record) :: later)) =
      lastPointer none (earlier ++ later) := by
  rw [lastPointer_append, lastPointer_append, lastPointer]
  cases later with
  | nil => simp [lastPointer]
  | cons entry rest =>
      have apart : lastPointer (some delptr) (entry :: rest) ≠ some delptr := by
        rw [lastPointer_of_ne_nil (by simp) (some delptr) none]
        apply lastPointer_ne_of_notMem
        simp only [addresses, List.map_append, List.map_cons] at distinct
        exact (List.nodup_cons.mp (List.nodup_append.mp distinct).2.1).1
      rw [if_neg apart]
      exact lastPointer_of_ne_nil (by simp) _ _

/-- The element leaves the app order. -/
theorem delInList_spec (listed : Listed hash address table (earlier ++ (delptr, record) :: later))
    (others : earlier ++ later ≠ []) :
    ∃ next, delInList hash delptr = .ok next ∧
      Listed next address { table with tail := lastPointer none (earlier ++ later) }
        (earlier ++ later) ∧
      next.elements.seen bucketView = hash.elements.seen bucketView ∧
      ∀ other, other ∉ addresses (earlier ++ later) →
        next.elements.cells other = hash.elements.cells other := by
  rcases Represents.unlink bucketView
      (fun pointer element => element.withHandle fun hh => { hh with prev := pointer })
      (fun pointer element => element.withHandle fun hh => { hh with next := pointer })
      listed.represents (fun _ _ => rfl) (fun _ _ => rfl) (fun _ _ => rfl) (fun _ _ => rfl) with
    ⟨del, middle, last, live, view_eq, prevLinked, nextLinked, represents, bucket_eq, unchanged⟩
  have prev_eq : del.hh.prev = lastPointer none earlier := congrArg Node.prev view_eq
  refine ⟨⟨last, hash.tables.adjust (some address) fun table =>
      { table with tail := if table.tail = some delptr then del.hh.prev else table.tail },
      if del.hh.prev = none then del.hh.next else hash.head⟩, ?_, ⟨represents, others, ?_, ?_, rfl⟩,
    bucket_eq, unchanged⟩
  · simp only [delInList, Heap.load_of_live live, ok_bind, listed.modifyTable_ok,
      modifyHandleUnlessNull]
    rw [show del.hh.prev = del.appView.prev from rfl, show del.hh.next = del.appView.next from rfl,
      prevLinked, ok_bind, nextLinked, ok_bind]
  · rw [Heap.cells_adjust_self, listed.live, Option.map_some, prev_eq, listed.tail_eq]
    rw [lastPointer_delete listed.represents.distinct]
  · intro entry entryMem
    apply listed.tbl_eq
    rcases List.mem_append.mp entryMem with inEarlier | inLater
    · exact List.mem_append_left _ inEarlier
    · exact List.mem_append_right _ (List.mem_cons_of_mem _ inLater)

theorem mem_delete_iff {Entry : Type} {first second : List Entry} {deleted entry : Entry}
    (distinct : (first ++ deleted :: second).Nodup) :
    entry ∈ first ++ second ↔ entry ∈ first ++ deleted :: second ∧ entry ≠ deleted := by
  rw [List.nodup_middle, List.nodup_cons] at distinct
  simp only [List.mem_append, List.mem_cons] at distinct ⊢
  constructor
  · intro entryMem
    refine ⟨?_, ?_⟩
    · rcases entryMem with inFirst | inSecond
      · exact Or.inl inFirst
      · exact Or.inr (Or.inr inSecond)
    · rintro rfl
      exact distinct.1 entryMem
  · rintro ⟨inFirst | here | inSecond, apart⟩
    · exact Or.inl inFirst
    · exact absurd here apart
    · exact Or.inr inSecond

/-- The element leaves its bucket. -/
theorem delInBkt_spec (listed : Listed hash address table entries)
    (files : Filed hash.elements table (before ++ (delptr, filing) :: after))
    (few_items : (before ++ (delptr, filing) :: after).length < 2 ^ 32) :
    ∃ next bucket changed, delInBkt hash (toBkt filing.2 table.numBuckets) delptr = .ok next ∧
      table.buckets[toBkt filing.2 table.numBuckets]? = some bucket ∧
      changed.expandMult = bucket.expandMult ∧ changed.count ≤ bucket.count ∧
      Listed next address (table.setBucket (toBkt filing.2 table.numBuckets) changed) entries ∧
      Filed next.elements (table.setBucket (toBkt filing.2 table.numBuckets) changed)
        (before ++ after) ∧
      ∀ other, other ∉ addresses (before ++ after) →
        next.elements.cells other = hash.elements.cells other := by
  rcases files.chained with ⟨chain, chains⟩
  have inside : toBkt filing.2 table.numBuckets < table.buckets.length := by
    rw [files.length_eq]
    exact toBkt_lt files.numBuckets_pos files.numBuckets_le
  have found := List.getElem?_eq_getElem inside
  generalize table.buckets[toBkt filing.2 table.numBuckets] = bucket at found
  have distinct : (before ++ (delptr, filing) :: after).Nodup :=
    List.Nodup.of_map _ chains.distinct
  have here : (delptr, filing) ∈ chain (toBkt filing.2 table.numBuckets) := by
    apply chains.members.mpr
    rw [files.length_eq]
    exact ⟨by simp, rfl⟩
  have represents := chains.represents found
  have count_eq := chains.count_eq found
  have short := chains.length_le found
  rcases List.append_of_mem here with ⟨first, second, chain_eq⟩
  have members : ∀ {entry}, entry ∈ chain (toBkt filing.2 table.numBuckets) ↔
      entry ∈ before ++ (delptr, filing) :: after ∧
        toBkt entry.2.2 table.buckets.length = toBkt filing.2 table.numBuckets :=
    chains.members
  rw [chain_eq] at represents count_eq short members
  have chainDistinct := List.Nodup.of_map _ represents.distinct
  rcases Represents.unlink appView
      (fun pointer element => element.withHandle fun hh => { hh with hhPrev := pointer })
      (fun pointer element => element.withHandle fun hh => { hh with hhNext := pointer })
      represents (fun _ _ => rfl) (fun _ _ => rfl) (fun _ _ => rfl) (fun _ _ => rfl) with
    ⟨del, middle, last, live, view_eq, prevLinked, nextLinked, unlinked, app_eq, unchanged⟩
  have firstIff : bucket.hhHead = some delptr ↔ del.bucketView.prev = none := by
    rw [view_eq]
    exact represents.head_eq_iff
  obtain ⟨changed, changed_eq⟩ : ∃ changed : HashBucket, changed =
      { bucket with
        count := decrement bucket.count
        hhHead := if bucket.hhHead = some delptr then del.hh.hhNext else bucket.hhHead } :=
    ⟨_, rfl⟩
  have lower : decrement bucket.count = (first ++ second).length := by
    rw [List.length_append, List.length_cons] at count_eq short
    rw [decrement_of_pos (by omega) (by omega), count_eq, List.length_append]
    omega
  have chainDelete : ∀ entry, entry ∈ first ++ second ↔
      entry ∈ chain (toBkt filing.2 table.numBuckets) ∧ entry ≠ (delptr, filing) := by
    intro entry
    rw [chain_eq]
    exact mem_delete_iff chainDistinct
  have shortened : Chained last (table.buckets.set (toBkt filing.2 table.numBuckets) changed)
      (before ++ after)
      (Function.update chain (toBkt filing.2 table.numBuckets) (first ++ second)) := by
    apply chains.set inside
    · rw [changed_eq]
      simp only [firstIff]
      exact unlinked
    · rw [changed_eq]
      exact lower
    · intro other notHere _
      apply unchanged
      rw [chain_eq] at notHere
      simp only [addresses, List.map_append, List.map_cons, List.mem_append, List.mem_cons,
        not_or] at notHere ⊢
      exact ⟨notHere.1, notHere.2.2⟩
    · intro entry
      rw [chainDelete, mem_delete_iff distinct, chains.members]
      exact and_right_comm
    · intro entry elsewhere
      rw [mem_delete_iff distinct]
      constructor
      · exact And.left
      · intro filed
        refine ⟨filed, ?_⟩
        rintro rfl
        rw [files.length_eq] at elsewhere
        exact elsewhere rfl
    · have filingsDistinct := chains.distinct
      simp only [addresses, List.map_append, List.map_cons] at filingsDistinct ⊢
      rw [List.nodup_middle] at filingsDistinct
      exact (List.nodup_cons.mp filingsDistinct).2
  have unlinkedListed := listed.setElements app_eq
  have storedListed := Listed.setTable
    (fun table' => table'.setBucket (toBkt filing.2 table.numBuckets) changed) unlinkedListed rfl
  refine ⟨_, bucket, changed, ?_, found, ?_, ?_, storedListed,
    ⟨⟨_, shortened⟩, ?_, files.numBuckets_eq, files.log2_lt⟩, ?_⟩
  · simp only [delInBkt, listed.table_ok, ok_bind, bucketAt_of_some found,
      Heap.load_of_live live, modifyHandleUnlessNull]
    rw [show del.hh.hhPrev = del.bucketView.prev from rfl,
      show del.hh.hhNext = del.bucketView.next from rfl, prevLinked, ok_bind, nextLinked, ok_bind,
      unlinkedListed.modifyTable_ok, changed_eq]
    rfl
  · rw [changed_eq]
  · rw [changed_eq]
    change decrement bucket.count ≤ bucket.count
    rw [lower, count_eq, List.length_append, List.length_append, List.length_cons]
    omega
  · simp only [HashTable.setBucket, List.length_set]
    exact files.length_eq
  · intro other outside
    by_cases filed : other ∈ addresses (first ++ second)
    · exfalso
      rcases List.mem_map.mp filed with ⟨entry, entryMem, rfl⟩
      have member := (chainDelete entry).mp entryMem
      apply outside
      apply List.mem_map_of_mem
      rw [mem_delete_iff distinct]
      exact ⟨(chains.members.mp member.1).1, member.2⟩
    · exact unchanged other filed

/-- The element leaves the table, which has room as before, and with the last element the table
is released. -/
theorem hashDelete_spec
    (stores : Stores hashFcn hash address table (earlier ++ (delptr, record) :: later)) :
    ∃ next, hashDelete hash delptr = .ok next ∧ Holds hashFcn next (earlier ++ later) ∧
      (∀ build, hash.HasRoom build → next.HasRoom build) ∧
      ∀ other, other ∉ addresses (earlier ++ later) →
        next.elements.cells other = hash.elements.cells other := by
  rcases Heap.exists_of_seen stores.listed.represents.cell with ⟨del, live, view_eq⟩
  have prev_eq : del.hh.prev = lastPointer none earlier := congrArg Node.prev view_eq
  have next_eq : del.hh.next = firstPointer later none := congrArg Node.next view_eq
  by_cases others : earlier ++ later = []
  · rcases List.append_eq_nil_iff.mp others with ⟨rfl, rfl⟩
    refine ⟨{ hash with tables := hash.tables.discard address, head := none }, ?_,
      Or.inl ⟨rfl, rfl⟩, ?_, fun _ _ => rfl⟩
    · simp only [hashDelete, Heap.load_of_live live, ok_bind, prev_eq, next_eq, lastPointer,
        firstPointer, stores.listed.tbl_ok, Heap.release_of_live stores.listed.live]
      rfl
    · intro build _ table found
      cases found
  · have linked : ¬(del.hh.prev = none ∧ del.hh.next = none) := by
      rw [prev_eq, next_eq]
      rintro ⟨first, last⟩
      apply others
      cases earlier with
      | nil =>
          cases later with
          | nil => rfl
          | cons entry rest => cases last
      | cons entry rest => exact absurd first (lastPointer_cons_ne_none _ _ _)
    rcases delInList_spec stores.listed others with ⟨left, left_eq, listed, bucket_eq, unchanged⟩
    have files := stores.files
    rw [List.map_append, List.map_cons] at files
    have leftFiles : Filed left.elements
        { table with tail := lastPointer none (earlier ++ later) }
        (earlier.map filed ++ filed (delptr, record) :: later.map filed) :=
      files.of_seen bucket_eq rfl rfl rfl
    have few_items := stores.few_items
    rw [List.length_append, List.length_cons] at few_items
    rcases delInBkt_spec listed leftFiles (by simpa using few_items) with
      ⟨next, bucket, changed, deleted, found, same, fewer, nextListed, nextFiles, nextUnchanged⟩
    have counted := Listed.setTable
      (fun table => { table with numItems := decrement table.numItems }) nextListed rfl
    have hashv_eq : del.hh.hashv = record.hashv :=
      congrArg (fun node => node.value.hashv) view_eq
    have numItems_eq := stores.numItems_eq
    rw [List.length_append, List.length_cons] at numItems_eq
    have lower : decrement table.numItems = table.numItems - 1 :=
      decrement_of_pos (by omega) (by omega)
    refine ⟨_, ?_, Or.inr ⟨address, _, counted, ?_, ?_, ?_, ?_, ?_⟩, ?_, ?_⟩
    · simp only [hashDelete, Heap.load_of_live live, ok_bind, if_neg linked, left_eq,
        listed.table_ok, hashv_eq]
      rw [deleted, ok_bind, nextListed.modifyTable_ok]
    · rw [List.map_append]
      exact nextFiles.of_seen rfl rfl rfl rfl
    · intro entry entryMem
      apply stores.hashv_eq
      rcases List.mem_append.mp entryMem with inEarlier | inLater
      · exact List.mem_append_left _ inEarlier
      · exact List.mem_append_right _ (List.mem_cons_of_mem _ inLater)
    · rw [List.length_append]
      change decrement table.numItems = _
      omega
    · rw [List.length_append]
      omega
    · intro growing
      have balanced : Balanced { table with tail := lastPointer none (earlier ++ later) } :=
        (stores.balanced growing).of_same rfl rfl
      exact (balanced.set found same (Or.inl fewer)).of_same rfl rfl
    · intro build room reached found
      rw [counted.table_ok, Except.ok.injEq] at found
      subst found
      have roomy := room table stores.listed.table_ok
      refine ⟨⟨roomy.buckets, roomy.bytes⟩, ?_⟩
      change decrement table.numItems + 1 < 2 ^ 32
      have items := roomy.items
      omega
    · intro other outside
      rw [← unchanged other outside]
      apply nextUnchanged
      rw [← List.map_append, addresses_map_filed]
      exact outside

end Lucciefr.Uthash
