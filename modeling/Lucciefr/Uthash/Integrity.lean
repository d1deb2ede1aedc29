import Lucciefr.Uthash.Refinement

/-!
# Integrity and the length of searches

What holds of the table after every run of an application, whatever the hash function is, if
there was room for the elements which were added.
`HASH_FSCK`, which checks the integrity of a table when `HASH_DEBUG` is defined, finds
nothing wrong. As long as expansion is not inhibited, a search makes at most as many turns
as the limit of its bucket, and the limits are twenty for each bucket at most when they
are taken together.
-/

namespace Lucciefr.Uthash

open Element

variable {Value : Type}

/-- The loops of `HASH_FSCK`, from `thh` on: count the handles, each of which has to lead
back to the one before it. There is no count after `HASH_OOPS`. -/
def fsckFrom (elements : Heap (Element Value)) (prevOf nextOf : HashHandle → Pointer) :
    (turns : ℕ) → (prev thh : Pointer) → (count : ℕ) → Except Fault (Option ℕ)
  | _, _, none, count => .ok (some count)
  | 0, _, some _, _ => .error .divergence
  | turns + 1, prev, some thh, count => do
      let element ← elements.load (some thh)
      if prev = prevOf element.hh then
        fsckFrom elements prevOf nextOf turns (some thh) (nextOf element.hh)
          (unsigned (count + 1))
      else
        .ok none

/-- The check of one bucket, which adds its handles to the count. -/
def fsckBucket (elements : Heap (Element Value)) (table : HashTable) (count : Option ℕ)
    (bktI : ℕ) : Except Fault (Option ℕ) := do
  match count with
  | none => .ok none
  | some count => do
      let bucket ← bucketAt table.buckets bktI
      match ← fsckFrom elements HashHandle.hhPrev HashHandle.hhNext elements.bound none
        bucket.hhHead 0 with
      | none => .ok none
      | some bktCount =>
          if bucket.count = bktCount then .ok (some (unsigned (count + bktCount)))
          else .ok none

/-- `HASH_FSCK`, which is false after `HASH_OOPS`. -/
def hashFsck (hash : Hash Value) : Except Fault Bool :=
  match hash.head with
  | none => .ok true
  | some head => do
      let table ← hash.table
      let count ← (List.range table.numBuckets).foldlM (fsckBucket hash.elements table) (some 0)
      if count = some table.numItems then do
        let count ← fsckFrom hash.elements HashHandle.prev HashHandle.next hash.elements.bound none
          (some head) 0
        .ok (count = some table.numItems)
      else
        .ok false

variable {Filed : Type} {hashFcn : List UInt8 → UInt32} {hash : Hash Value} {table : HashTable}
  {address : ℕ} {entries : List (ℕ × Record Value)} {elements : Heap (Element Value)}
  {map : OrderedMap (List UInt8) Value} {filings : List (ℕ × Filing)}

/-- A walk along a list finds that the links agree. -/
theorem fsckFrom_eq (view : Element Value → Node Filed) (prevOf nextOf : HashHandle → Pointer)
    (prev_eq : ∀ element, (view element).prev = prevOf element.hh)
    (next_eq : ∀ element, (view element).next = nextOf element.hh)
    {listed : List (ℕ × Filed)} {before : Pointer} {turns : ℕ} (enough : listed.length ≤ turns)
    (linked : Linked (elements.seen view) before listed none) {count : ℕ}
    (small : count + listed.length < 2 ^ 32) :
    fsckFrom elements prevOf nextOf turns before (firstPointer listed none) count =
      .ok (some (count + listed.length)) := by
  induction listed generalizing before turns count with
  | nil => cases turns <;> rfl
  | cons entry rest ih =>
      rcases entry with ⟨address, value⟩
      rcases Heap.exists_of_seen linked.1 with ⟨element, live, view_eq⟩
      have back : prevOf element.hh = before := by rw [← prev_eq, view_eq]
      have on : nextOf element.hh = firstPointer rest none := by rw [← next_eq, view_eq]
      cases turns with
      | zero => simp at enough
      | succ turns =>
          rw [List.length_cons] at small
          simp only [firstPointer, fsckFrom, Heap.load_of_live live, ok_bind, back, if_true]
          rw [on, unsigned_of_lt (by omega),
            ih (Nat.le_of_succ_le_succ enough) linked.2 (by omega), List.length_cons]
          congr 2
          omega

/-- The first buckets are counted. -/
theorem fsckBuckets_eq {chain : ℕ → List (ℕ × Filing)}
    (chains : Chained elements table.buckets filings chain)
    (small : (table.buckets.map fun bucket => bucket.count).sum < 2 ^ 32) {count : ℕ}
    (inside : count ≤ table.buckets.length) :
    (List.range count).foldlM (fsckBucket elements table) (some 0) =
      .ok (some (((table.buckets.take count).map fun bucket => bucket.count).sum)) := by
  induction count with
  | zero => rfl
  | succ count ih =>
      have found := List.getElem?_eq_getElem (Nat.lt_of_succ_le inside)
      have represents := chains.represents found
      have taken : ((table.buckets.take (count + 1)).map fun bucket => bucket.count).sum =
          ((table.buckets.take count).map fun bucket => bucket.count).sum +
            (chain count).length := by
        rw [List.take_add_one, found, Option.toList_some, List.map_append, List.sum_append,
          List.map_singleton, List.sum_singleton, chains.count_eq found]
      have part : ((table.buckets.take (count + 1)).map fun bucket => bucket.count).sum ≤
          (table.buckets.map fun bucket => bucket.count).sum :=
        ((List.take_sublist _ _).map _).sum_le_sum fun _ _ => Nat.zero_le _
      have checked := fsckFrom_eq bucketView HashHandle.hhPrev HashHandle.hhNext
        (fun _ => rfl) (fun _ => rfl) represents.length_le represents.linked
        (show 0 + (chain count).length < 2 ^ 32 by omega)
      rw [Nat.zero_add, ← represents.head_eq, Heap.bound_seen] at checked
      rw [List.range_succ, List.foldlM_append, ih (by omega)]
      simp only [List.foldlM_cons, List.foldlM_nil, ok_bind, fsckBucket, bucketAt_of_some found,
        checked, chains.count_eq found, if_true]
      rw [unsigned_of_lt (by omega), taken]
      rfl

/-- The table of some elements passes the check. -/
theorem Holds.hashFsck_eq (holds : Holds hashFcn hash entries) : hashFsck hash = .ok true := by
  rcases holds with ⟨head_eq, rfl⟩ | ⟨address, table, stores⟩
  · rw [hashFsck, head_eq]
  · rcases stores.files.chained with ⟨chain, chains⟩
    have some_bkt : 0 < table.buckets.length := by
      rw [stores.files.length_eq]
      exact stores.files.numBuckets_pos
    have few_bkts : table.buckets.length ≤ 2 ^ 32 := by
      rw [stores.files.length_eq]
      exact stores.files.numBuckets_le
    have counts := chains.sum_counts some_bkt few_bkts
    have few_items := stores.few_items
    have represents := stores.listed.represents
    have small : (table.buckets.map fun bucket => bucket.count).sum < 2 ^ 32 := by
      rwa [counts, List.length_map]
    have buckets := fsckBuckets_eq chains small (Nat.le_refl _)
    rw [List.take_length, counts, List.length_map, stores.files.length_eq] at buckets
    have list := fsckFrom_eq appView HashHandle.prev HashHandle.next (fun _ => rfl) (fun _ => rfl)
      represents.length_le represents.linked (show 0 + entries.length < 2 ^ 32 by omega)
    rcases stores.listed.exists_head with ⟨first, head_eq⟩
    rw [Nat.zero_add, ← represents.head_eq, head_eq, Heap.bound_seen] at list
    simp only [hashFsck, head_eq, stores.listed.table_ok, ok_bind, buckets, stores.numItems_eq,
      if_true, list]
    rfl

/-- After every run of an application in which there is room, the table passes the check. -/
theorem run_passes_fsck (build : Build) (hashFcn : List UInt8 → UInt32)
    (commands : List (Command Value)) (room : RunHasRoom build hashFcn commands) :
    ∃ hash answers, run (step build hashFcn) (.empty Value, []) commands = .ok (hash, answers) ∧
      hashFsck hash = .ok true := by
  rcases run_contains room with ⟨hash, ran, entries, holds, -⟩
  exact ⟨hash, _, ran, holds.hashFsck_eq⟩

theorem run_passes_fsck_two :
    ∃ (hash : Hash ℕ) (answers : List (Answer ℕ)),
      run (step .x64 hashJen) (.empty ℕ, []) [.replace [97] 1, .replace [98] 2, .delete [97]] =
        .ok (hash, answers) ∧
      hashFsck hash = .ok true :=
  run_passes_fsck .x64 hashJen _ (by decide +kernel)

/-- A search ends within the limit of its bucket. -/
theorem Stores.hashFind_within (stores : Stores hashFcn hash address table entries)
    (growing : table.noexpand = false) (key : List UInt8) :
    ∃ bucket out, bucketAt table.buckets (toBkt (hashFcn key) table.numBuckets) = .ok bucket ∧
      findInBktFrom hash.elements key bucket.limit bucket.hhHead = .ok out ∧
      hashFind hashFcn hash key = .ok out := by
  rcases stores.files.chained with ⟨chain, chains⟩
  have inside : toBkt (hashFcn key) table.numBuckets < table.buckets.length := by
    rw [stores.files.length_eq]
    exact toBkt_lt stores.files.numBuckets_pos stores.files.numBuckets_le
  have found := List.getElem?_eq_getElem inside
  generalize table.buckets[toBkt (hashFcn key) table.numBuckets] = bucket at found
  have represents := chains.represents found
  have short : (chain (toBkt (hashFcn key) table.numBuckets)).length ≤ bucket.limit := by
    rw [← chains.count_eq found]
    exact (stores.balanced growing).count_le bucket (List.mem_of_getElem? found)
  have limited := findInBktFrom_eq key short represents.linked
  have searched := findInBktFrom_eq key represents.length_le represents.linked
  rw [← represents.head_eq] at limited searched
  rcases stores.listed.exists_head with ⟨first, head_eq⟩
  refine ⟨bucket, _, bucketAt_of_some found, limited, ?_⟩
  simp only [hashFind, head_eq, stores.listed.table_ok, ok_bind, bucketAt_of_some found, findInBkt]
  exact searched

/--
After every run of an application in which there is room and expansion is not inhibited,
every search ends within the limit of its bucket, and the limits sum up to twenty for each
bucket at most.
-/
theorem run_bounds_searches (build : Build) (hashFcn : List UInt8 → UInt32)
    (commands : List (Command Value)) (room : RunHasRoom build hashFcn commands) :
    ∃ hash answers, run (step build hashFcn) (.empty Value, []) commands = .ok (hash, answers) ∧
      ∀ table, hash.table = .ok table → table.noexpand = false →
        (∀ key, ∃ bucket out,
          bucketAt table.buckets (toBkt (hashFcn key) table.numBuckets) = .ok bucket ∧
          findInBktFrom hash.elements key bucket.limit bucket.hhHead = .ok out ∧
          hashFind hashFcn hash key = .ok out) ∧
        (table.buckets.map HashBucket.limit).sum ≤ 2 * bktCapacityThresh * table.numBuckets ∧
        table.numItems ≤ 2 * bktCapacityThresh * table.numBuckets := by
  rcases run_contains room with ⟨hash, ran, entries, holds, -⟩
  refine ⟨hash, _, ran, ?_⟩
  intro table table_ok growing
  rcases holds with ⟨head_eq, -⟩ | ⟨address, stored, stores⟩
  · rw [Hash.table, Hash.tbl, head_eq] at table_ok
    cases table_ok
  · rw [stores.listed.table_ok, Except.ok.injEq] at table_ok
    subst table_ok
    have balanced := stores.balanced growing
    have some_bkt := stores.files.numBuckets_pos
    have few_bkts := stores.files.numBuckets_le
    rw [← stores.files.length_eq] at some_bkt few_bkts
    refine ⟨stores.hashFind_within growing, ?_, ?_⟩
    · rw [sum_limits, stores.files.length_eq, ← Nat.add_mul]
      have sum_le := balanced.sum_le
      simp only [bktCapacityThresh]
      omega
    · rcases stores.files.chained with ⟨chain, chains⟩
      have counts := chains.sum_counts some_bkt few_bkts
      have few := balanced.sum_counts_lt stores.files.numBuckets_pos stores.files.length_eq
      rw [counts, List.length_map, ← stores.numItems_eq] at few
      exact Nat.le_of_lt few

theorem run_bounds_searches_two :
    ∃ (hash : Hash ℕ) (answers : List (Answer ℕ)),
      run (step .x64 hashJen) (.empty ℕ, []) [.replace [97] 1, .replace [98] 2] =
        .ok (hash, answers) ∧
      ∀ table, hash.table = .ok table → table.noexpand = false →
        (∀ key, ∃ bucket out,
          bucketAt table.buckets (toBkt (hashJen key) table.numBuckets) = .ok bucket ∧
          findInBktFrom hash.elements key bucket.limit bucket.hhHead = .ok out ∧
          hashFind hashJen hash key = .ok out) ∧
        (table.buckets.map HashBucket.limit).sum ≤ 2 * bktCapacityThresh * table.numBuckets ∧
        table.numItems ≤ 2 * bktCapacityThresh * table.numBuckets :=
  run_bounds_searches .x64 hashJen _ (by decide +kernel)

end Lucciefr.Uthash
