import Lucciefr.Log.Checkpoints
import Lucciefr.Log.Simulation
import Lucciefr.Uthash.Deletion

/-!
# Check points in the hash table

`checkpoint_pass_count` and `clear_checkpoints` over the table of `uthash.h`, with its
buckets and their expansion. The log system cannot tell it from the list of entries which
stands for it elsewhere: for every hash function and every run of operations in which the
table has room for the check points, the outcome is the same, with the same faults after a
clear which released an entry.
-/

namespace Lucciefr.Log

open Uthash LogState

/-- The table behind the static variable `checkpoints`. -/
abbrev HashedCheckpoints := Hash CheckpointEntry

namespace HashedCheckpoints

/-- `HASH_FIND_STR` -/
def hashFindStr (hashFcn : List UInt8 → UInt32) (checkpoints : HashedCheckpoints)
    (findstr : List UInt8) : Except Fault Pointer :=
  hashFind hashFcn checkpoints (cutKey findstr)

/-- The entry of a check point, which is added if it is not there yet. -/
def findOrAdd (build : Build) (hashFcn : List UInt8 → UInt32) (checkpoints : HashedCheckpoints)
    (checkpointId : List UInt8) : Except Fault (ℕ × HashedCheckpoints) := do
  match ← hashFindStr hashFcn checkpoints checkpointId with
  | some entry => .ok (entry, checkpoints)
  | none => do
      let (entry, elements) := checkpoints.elements.alloc
        { hh := .zero, value := { id := checkpointId, count := 0 } }
      let checkpoints ← hashAddKeyptr build hashFcn { checkpoints with elements := elements }
        checkpointId entry
      .ok (entry, checkpoints)

/-- `checkpoint_pass_count` -/
def checkpointPassCount (build : Build) (hashFcn : List UInt8 → UInt32)
    (checkpoints : HashedCheckpoints) (checkpointId : List UInt8) :
    Except Fault (UInt32 × HashedCheckpoints) := do
  let (entry, checkpoints) ← findOrAdd build hashFcn checkpoints checkpointId
  let elements ← checkpoints.elements.modify (some entry) fun element =>
    { element with value := { element.value with count := element.value.count + 1 } }
  let element ← elements.load (some entry)
  .ok (element.value.count, { checkpoints with elements := elements })

/-- `(tmp) ? (tmp)->hh.next : NULL` -/
def nextOf (elements : Heap (Element CheckpointEntry)) : Pointer → Except Fault Pointer
  | none => .ok none
  | some entry => do
      let element ← elements.load (some entry)
      .ok element.hh.next

/-- The loop of `clear_checkpoints`, where `HASH_ITER` keeps the entry which follows
`entry` in `tmp`. -/
def clearFrom : (turns : ℕ) → (entry tmp : Pointer) → Heap (Element CheckpointEntry) →
    Except Fault (Heap (Element CheckpointEntry))
  | _, none, _, elements => .ok elements
  | 0, some _, _, _ => .error .divergence
  | turns + 1, some entry, tmp, elements => do
      let elements ← elements.release (some entry)
      let next ← nextOf elements tmp
      clearFrom turns tmp next elements

/-- `clear_checkpoints` -/
def clearCheckpoints (checkpoints : HashedCheckpoints) : Except Fault HashedCheckpoints := do
  let tmp ← nextOf checkpoints.elements checkpoints.head
  let elements ← clearFrom checkpoints.elements.bound checkpoints.head tmp checkpoints.elements
  .ok { checkpoints with elements := elements }

/-- The operations of `log.c` on the hash map. -/
def table (build : Build) (hashFcn : List UInt8 → UInt32) : CheckpointTable HashedCheckpoints where
  passCount := checkpointPassCount build hashFcn
  clear := clearCheckpoints

/-- The table has room for one more check point, and its ID is not too long. -/
def Takes (build : Build) (checkpoints : HashedCheckpoints) (checkpointId : List UInt8) : Prop :=
  checkpointId.length < 2 ^ 32 ∧ checkpoints.HasRoom build

instance (build : Build) (checkpoints : HashedCheckpoints) (checkpointId : List UInt8) :
    Decidable (Takes build checkpoints checkpointId) :=
  inferInstanceAs (Decidable (_ ∧ _))

/-- Before the first check point. -/
def empty : HashedCheckpoints :=
  Hash.empty CheckpointEntry

/-- The check point of an entry. -/
def tally (entry : ℕ × Record CheckpointEntry) : ℕ × CheckpointEntry :=
  (entry.1, entry.2.value)

/-- The entries of the table count the IDs passed, and are filed under them. -/
structure Counts (entries : List (ℕ × Record CheckpointEntry)) (passed : List (List UInt8)) :
    Prop where
  key_eq : ∀ entry ∈ entries, entry.2.key = entry.2.value.id
  tallies : Checkpoints.Tallies (entries.map tally) passed

/-- The head variable leads to a table which counts the IDs passed since the last clear. -/
def Counting (hashFcn : List UInt8 → UInt32) (checkpoints : HashedCheckpoints)
    (passed : List (List UInt8)) : Prop :=
  ∃ entries, Uthash.Holds hashFcn checkpoints entries ∧ Counts entries passed

/-- The head variable leads to an entry which was released. -/
def Dangling (checkpoints : HashedCheckpoints) : Prop :=
  ∃ address, checkpoints.head = some address ∧ checkpoints.elements.cells address = none

variable {build : Build} {hashFcn : List UInt8 → UInt32} {checkpoints : HashedCheckpoints}
  {entries earlier later : List (ℕ × Record CheckpointEntry)} {passed : List (List UInt8)}
  {checkpointId : List UInt8} {elements : Heap (Element CheckpointEntry)}

theorem Counts.unique (counts : Counts entries passed) :
    (entries.map fun entry => entry.2.key).Nodup := by
  have ids : (entries.map fun entry => entry.2.key) =
      (entries.map tally).map fun entry => entry.2.id := by
    rw [List.map_map]
    apply List.map_congr_left
    intro entry entryMem
    exact counts.key_eq entry entryMem
  rw [ids]
  exact counts.tallies.distinct

theorem Counts.pass {address : ℕ} {record : Record CheckpointEntry}
    (counts : Counts (earlier ++ (address, record) :: later) passed) :
    Counts (earlier ++ (address,
        { record with value := { record.value with count := record.value.count + 1 } }) :: later)
      (record.value.id :: passed) where
  key_eq := by
    intro entry entryMem
    rcases List.mem_append.mp entryMem with inEarlier | here
    · exact counts.key_eq entry (List.mem_append_left _ inEarlier)
    · rcases List.mem_cons.mp here with rfl | inLater
      · exact counts.key_eq (address, record) (by simp)
      · exact counts.key_eq entry (List.mem_append_right _ (List.mem_cons_of_mem _ inLater))
  tallies := by
    have tallies := counts.tallies
    rw [List.map_append, List.map_cons] at tallies ⊢
    exact tallies.pass

/-- The entry of the ID, before the pass is counted. -/
theorem findOrAdd_spec (counting : Counting hashFcn checkpoints passed)
    (takes : Takes build checkpoints checkpointId) :
    ∃ entry found address table earlier record later,
      findOrAdd build hashFcn checkpoints checkpointId = .ok (entry, found) ∧
      Stores hashFcn found address table (earlier ++ (entry, record) :: later) ∧
      record.value.count = UInt32.ofNat (passed.count checkpointId) ∧
      Counts (earlier ++ (entry,
          { record with value := { record.value with count := record.value.count + 1 } }) :: later)
        (checkpointId :: passed) := by
  rcases counting with ⟨entries, holds, counts⟩
  rcases takes with ⟨short, room⟩
  have searched := hashFind_eq holds counts.unique checkpointId
  simp only [findOrAdd, hashFindStr, cutKey_of_lt short, searched, ok_bind]
  cases match_eq : entries.find? fun entry => decide (entry.2.key = checkpointId) with
  | some entry =>
      have same : entry.2.key = checkpointId := by simpa using List.find?_some match_eq
      have entryMem := List.mem_of_find?_eq_some match_eq
      rw [counts.key_eq entry entryMem] at same
      rcases holds with ⟨-, rfl⟩ | ⟨address, table, stores⟩
      · cases entryMem
      · have count_eq := counts.tallies.counts (tally entry) (List.mem_map_of_mem entryMem)
        rcases List.append_of_mem entryMem with ⟨earlier, later, rfl⟩
        rw [← same]
        exact ⟨entry.1, checkpoints, address, table, earlier, entry.2, later, rfl, stores,
          count_eq, counts.pass⟩
  | none =>
      have unknown : checkpointId ∉ (entries.map tally).map fun entry => entry.2.id := by
        rw [List.map_map]
        intro mem
        rcases List.mem_map.mp mem with ⟨entry, entryMem, same⟩
        have differs := List.find?_eq_none.mp match_eq entry entryMem
        rw [counts.key_eq entry entryMem] at differs
        exact differs (decide_eq_true same)
      have notPassed : checkpointId ∉ passed := fun mem =>
        unknown ((counts.tallies.covers _).mp mem)
      simp only [Option.map_none, Heap.alloc_fst]
      rcases hashAddKeyptr_spec (holds.alloc _) Heap.cells_alloc_self holds.fresh
        (holds.hasRoom_alloc _ room) short with ⟨next, address, table, put, stores, -⟩
      refine ⟨checkpoints.elements.bound, next, address, table, entries, _, [], ?_, stores, ?_,
        ?_, ?_⟩
      · rw [put, ok_bind]
      · rw [List.count_eq_zero_of_not_mem notPassed]
        rfl
      · intro entry entryMem
        rcases List.mem_append.mp entryMem with old | here
        · exact counts.key_eq entry old
        · rw [List.mem_singleton.mp here]
      · rw [List.map_append]
        exact counts.tallies.add unknown _

theorem checkpointPassCount_spec (counting : Counting hashFcn checkpoints passed)
    (takes : Takes build checkpoints checkpointId) :
    ∃ next, checkpointPassCount build hashFcn checkpoints checkpointId =
        .ok (UInt32.ofNat (passed.count checkpointId + 1), next) ∧
      Counting hashFcn next (checkpointId :: passed) := by
  rcases findOrAdd_spec counting takes with
    ⟨entry, found, address, table, earlier, record, later, found_eq, stores, count_eq, counts⟩
  have counted := stores.setValue fun entry => { entry with count := entry.count + 1 }
  rcases stores.listed.exists_live (List.mem_append_right _ List.mem_cons_self) with
    ⟨element, live, -⟩
  rcases counted.listed.exists_live (List.mem_append_right _ List.mem_cons_self) with
    ⟨changed, changedLive, changed_eq⟩
  have value_eq : changed.value.count = record.value.count + 1 :=
    congrArg (fun record => record.value.count) changed_eq
  refine ⟨_, ?_, _, Or.inr ⟨address, table, counted⟩, counts⟩
  simp only [checkpointPassCount, found_eq, ok_bind, Heap.modify_of_live live,
    Heap.load_of_live changedLive, value_eq, count_eq]
  rw [UInt32.ofNat_add]
  rfl

theorem nextOf_firstPointer {before : Pointer}
    (linked : Linked (elements.seen Element.appView) before entries none) :
    nextOf elements (firstPointer entries none) = .ok (firstPointer entries.tail none) := by
  cases entries with
  | nil => rfl
  | cons entry rest =>
      rcases Heap.exists_of_seen linked.1 with ⟨element, live, view_eq⟩
      have next_eq : element.hh.next = firstPointer rest none := congrArg Node.next view_eq
      simp only [firstPointer, nextOf, Heap.load_of_live live, ok_bind]
      rw [next_eq]
      rfl

/-- The loop releases the entries one after the other, and reads no released one. -/
theorem clearFrom_spec {before : Pointer} {turns : ℕ}
    (linked : Linked (elements.seen Element.appView) before entries none)
    (distinct : (addresses entries).Nodup) (enough : entries.length ≤ turns) :
    ∃ cleared, clearFrom turns (firstPointer entries none) (firstPointer entries.tail none)
        elements = .ok cleared ∧
      (∀ address ∈ addresses entries, cleared.cells address = none) ∧
      ∀ address, elements.cells address = none → cleared.cells address = none := by
  induction entries generalizing elements before turns with
  | nil => exact ⟨elements, by cases turns <;> rfl, by simp, fun _ dead => dead⟩
  | cons entry rest ih =>
      rcases entry with ⟨address, record⟩
      rcases List.nodup_cons.mp distinct with ⟨notLater, laterDistinct⟩
      rcases Heap.exists_of_seen linked.1 with ⟨element, live, -⟩
      cases turns with
      | zero => simp at enough
      | succ turns =>
          have remaining : Linked ((elements.discard address).seen Element.appView) (some address)
              rest none := by
            apply linked.2.frame
            intro other otherMem
            apply Heap.seen_congr
            apply Heap.cells_discard_of_ne
            rintro rfl
            exact notLater otherMem
          rcases ih remaining laterDistinct (Nat.le_of_succ_le_succ enough) with
            ⟨cleared, finished, released, stillDead⟩
          refine ⟨cleared, ?_, ?_, ?_⟩
          · rw [firstPointer, List.tail_cons, clearFrom, Heap.release_of_live live, ok_bind,
              nextOf_firstPointer remaining, ok_bind]
            exact finished
          · intro other otherMem
            rcases List.mem_cons.mp otherMem with rfl | later
            · exact stillDead _ Heap.cells_discard_self
            · exact released other later
          · intro other dead
            apply stillDead
            by_cases same : other = address
            · subst same
              exact Heap.cells_discard_self
            · exact (Heap.cells_discard_of_ne same).trans dead

theorem clearCheckpoints_spec (counting : Counting hashFcn checkpoints passed) :
    ∃ next, clearCheckpoints checkpoints = .ok next ∧
      (passed = [] → Counting hashFcn next []) ∧ (passed ≠ [] → Dangling next) := by
  rcases counting with ⟨entries, holds, counts⟩
  rcases holds with ⟨head_eq, rfl⟩ | ⟨address, table, stores⟩
  · have none_passed : passed = [] := by
      apply List.eq_nil_iff_forall_not_mem.mpr
      intro id passedMem
      simpa using (counts.tallies.covers id).mp passedMem
    refine ⟨checkpoints, ?_, fun _ => ⟨[], Or.inl ⟨head_eq, rfl⟩, ?_⟩, ?_⟩
    · rcases checkpoints with ⟨elements, tables, head⟩
      change head = none at head_eq
      subst head_eq
      simp only [clearCheckpoints, nextOf, ok_bind]
      cases elements.bound <;> rfl
    · rw [← none_passed]
      exact counts
    · intro nonempty
      exact absurd none_passed nonempty
  · have represents := stores.listed.represents
    rcases clearFrom_spec represents.linked represents.distinct represents.length_le with
      ⟨cleared, finished, released, -⟩
    refine ⟨{ checkpoints with elements := cleared }, ?_, ?_, ?_⟩
    · rw [clearCheckpoints, represents.head_eq, nextOf_firstPointer represents.linked, ok_bind]
      rw [Heap.bound_seen] at finished
      rw [finished, ok_bind]
    · rintro rfl
      cases entries with
      | nil => exact absurd rfl stores.listed.nonempty
      | cons entry rest =>
          have impossible := (counts.tallies.covers (tally entry).2.id).mpr (by simp)
          cases impossible
    · intro _
      cases entries with
      | nil => exact absurd rfl stores.listed.nonempty
      | cons entry rest => exact ⟨entry.1, represents.head_eq, released _ (by simp)⟩

theorem checkpointPassCount_of_dangling (dangling : Dangling checkpoints)
    (checkpointId : List UInt8) :
    checkpointPassCount build hashFcn checkpoints checkpointId = .error .useAfterFree := by
  rcases dangling with ⟨address, head_eq, dead⟩
  simp only [checkpointPassCount, findOrAdd, hashFindStr, hashFind, head_eq, Hash.table, Hash.tbl,
    Heap.load_of_dead dead, error_bind]

theorem clearCheckpoints_of_dangling (dangling : Dangling checkpoints) :
    clearCheckpoints checkpoints = .error .useAfterFree := by
  rcases dangling with ⟨address, head_eq, dead⟩
  simp only [clearCheckpoints, head_eq, nextOf, Heap.load_of_dead dead, error_bind]

/-- The list and the table count the same passes, or both dangle. -/
def Related (hashFcn : List UInt8 → UInt32) (list : Checkpoints) (hashed : HashedCheckpoints) :
    Prop :=
  (∃ passed, list.Counting passed ∧ Counting hashFcn hashed passed) ∨
    list.Dangling ∧ 0 < list.heap.bound ∧ Dangling hashed

/-- Clearing the list releases its nodes and grants none. -/
theorem bound_clearFrom {turns : ℕ} {entry tmp : Pointer}
    {heap cleared : Heap (Node CheckpointEntry)}
    (finished : Checkpoints.clearFrom turns entry tmp heap = .ok cleared) :
    cleared.bound = heap.bound := by
  induction turns generalizing entry tmp heap with
  | zero =>
      cases entry with
      | none =>
          simp only [Checkpoints.clearFrom, Except.ok.injEq] at finished
          rw [finished]
      | some address => cases finished
  | succ turns ih =>
      cases entry with
      | none =>
          simp only [Checkpoints.clearFrom, Except.ok.injEq] at finished
          rw [finished]
      | some address =>
          simp only [Checkpoints.clearFrom, Heap.release] at finished
          cases loaded : heap.load (some address) with
          | error fault =>
              rw [loaded] at finished
              cases finished
          | ok node =>
              simp only [loaded, ok_bind] at finished
              cases next_eq : Checkpoints.nextOf (heap.discard address) tmp with
              | error fault =>
                  rw [next_eq] at finished
                  cases finished
              | ok next =>
                  rw [next_eq, ok_bind] at finished
                  exact (ih finished).trans Heap.bound_discard

theorem bound_clearCheckpoints {list cleared : Checkpoints}
    (finished : list.clearCheckpoints = .ok cleared) : cleared.heap.bound = list.heap.bound := by
  simp only [Checkpoints.clearCheckpoints] at finished
  cases tmp_eq : Checkpoints.nextOf list.heap list.head with
  | error fault =>
      rw [tmp_eq] at finished
      cases finished
  | ok tmp =>
      rw [tmp_eq, ok_bind] at finished
      cases cleared_eq : Checkpoints.clearFrom list.heap.bound list.head tmp list.heap with
      | error fault =>
          rw [cleared_eq] at finished
          cases finished
      | ok heap =>
          simp only [cleared_eq, ok_bind, Except.ok.injEq] at finished
          rw [← finished]
          exact bound_clearFrom cleared_eq

theorem bound_pos_of_counting {list : Checkpoints} (counting : list.Counting passed)
    (nonempty : passed ≠ []) : 0 < list.heap.bound := by
  rcases counting with ⟨entries, represents, tallies⟩
  rcases List.exists_mem_of_ne_nil passed nonempty with ⟨id, idMem⟩
  rcases List.mem_map.mp ((tallies.covers id).mp idMem) with ⟨entry, entryMem, -⟩
  exact Nat.zero_lt_of_lt (represents.lt_bound (List.mem_map_of_mem entryMem))

/-- The list and the table do the same. -/
theorem simulates (build : Build) (hashFcn : List UInt8 → UInt32) :
    Checkpoints.table.Simulates (table build hashFcn) (Related hashFcn) (Takes build) where
  passCount := by
    rintro list hashed checkpointId
      (⟨passed, counting, hashedCounting⟩ | ⟨lost, granted, hashedLost⟩) takes
    · rcases Checkpoints.checkpointPassCount_spec counting checkpointId with
        ⟨next, counted, nextCounting⟩
      rcases checkpointPassCount_spec hashedCounting takes with
        ⟨hashedNext, hashedCounted, nextHashed⟩
      simp only [Checkpoints.table, table, counted, hashedCounted]
      exact ⟨rfl, Or.inl ⟨_, nextCounting, nextHashed⟩⟩
    · rcases lost with ⟨address, head_eq, dead⟩
      simp only [Checkpoints.table, table, checkpointPassCount_of_dangling hashedLost]
      rcases Nat.exists_eq_succ_of_ne_zero (Nat.ne_of_gt granted) with ⟨turns, turns_eq⟩
      simp only [Checkpoints.checkpointPassCount, Checkpoints.findOrAdd, Checkpoints.hashFindStr,
        listMatch, head_eq, turns_eq, listMatchFrom, Heap.load_of_dead dead, error_bind]
      rfl
  clear := by
    rintro list hashed (⟨passed, counting, hashedCounting⟩ | ⟨lost, granted, hashedLost⟩)
    · rcases Checkpoints.clearCheckpoints_spec counting with ⟨next, cleared, still, dangling⟩
      rcases clearCheckpoints_spec hashedCounting with
        ⟨hashedNext, hashedCleared, hashedStill, hashedDangling⟩
      simp only [Checkpoints.table, table, cleared, hashedCleared]
      by_cases empty : passed = []
      · exact Or.inl ⟨[], still empty, hashedStill empty⟩
      · refine Or.inr ⟨dangling empty, ?_, hashedDangling empty⟩
        rw [bound_clearCheckpoints cleared]
        exact bound_pos_of_counting counting empty
    · rcases lost with ⟨address, head_eq, dead⟩
      simp only [Checkpoints.table, table, clearCheckpoints_of_dangling hashedLost,
        Checkpoints.clearCheckpoints, head_eq, Checkpoints.nextOf, Heap.load_of_dead dead,
        error_bind]
      rfl

theorem related_empty (hashFcn : List UInt8 → UInt32) :
    Related hashFcn Checkpoints.empty HashedCheckpoints.empty :=
  Or.inl ⟨[], Checkpoints.counting_empty, [], Or.inl ⟨rfl, rfl⟩, by simp, Checkpoints.Tallies.nil⟩

/--
Every run of the log system over the hash table has the outcome of the run over the list
of entries, as long as there is room for the check points: the same messages and
notifications of the same backends, with the same pass counts, or the same fault.
-/
theorem run_eq_list_run (build : Build) (hashFcn : List UInt8 → UInt32) (threshold : LogLevel)
    (ops : List Op)
    (room : RunMeets (execute (table build hashFcn)) (Admits (Takes build))
      (initial empty threshold) ops) :
    (run (execute (table build hashFcn)) (initial empty threshold) ops).map withoutTable =
      (run (execute Checkpoints.table) (initial Checkpoints.empty threshold) ops).map
        withoutTable :=
  map_withoutTable_eq (run_alike (simulates build hashFcn) (related_empty hashFcn) room)

/-- A check point is passed twice, and the counters are cleared. -/
theorem run_eq_list_run_twice :
    let check : LogCall :=
      ⟨none, .checkpoint, none, some [97], -1, 0, 42, by simp, unwrapped_of_short (by simp)⟩
    let ops : List Op :=
      [.registerBackend ⟨7, none, none⟩, .attach check, .attach check, .reset true]
    (run (execute (table .x86 hashJen)) (initial empty .info) ops).map withoutTable =
      (run (execute Checkpoints.table) (initial Checkpoints.empty .info) ops).map
        withoutTable := by
  intro check ops
  exact run_eq_list_run .x86 hashJen .info ops (by decide +kernel)

end HashedCheckpoints

end Lucciefr.Log
