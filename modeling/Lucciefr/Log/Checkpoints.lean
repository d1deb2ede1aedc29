import Mathlib.Data.List.Count
import Lucciefr.LinkedList.Correctness
import Lucciefr.Log.Basic

/-!
# The hash map of check points

The model of `checkpoint_pass_count` and `clear_checkpoints`. The hash map of
`uthash.h` is reduced to what it is as a map from strings: the entries in the
order in which they were added, as a doubly linked list which the head variable
leads to. Every operation on a map reaches its table through the first entry.

Clearing releases the entries but does not assign the head variable, so that it
dangles unless there was no entry.
-/

namespace Lucciefr.Log

/-- `checkpoint_entry_t` -/
structure CheckpointEntry where
  id : List UInt8
  count : UInt32
deriving DecidableEq

/-- The entries, and the static variable `checkpoints`. -/
structure Checkpoints where
  heap : Heap (Node CheckpointEntry)
  head : Pointer

namespace Checkpoints

/-- Before the first check point. -/
def empty : Checkpoints where
  heap := Heap.empty _
  head := none

/-- `HASH_FIND_STR` -/
def hashFindStr (checkpoints : Checkpoints) (findstr : List UInt8) : Except Fault Pointer :=
  listMatch checkpoints.heap checkpoints.head fun entry => entry.id = findstr

/-- The entry of a check point, which is added if it is not there yet. -/
def findOrAdd (checkpoints : Checkpoints) (checkpointId : List UInt8) :
    Except Fault (ℕ × Checkpoints) := do
  match ← checkpoints.hashFindStr checkpointId with
  | some entry => .ok (entry, checkpoints)
  | none => do
      let (entry, heap) := checkpoints.heap.alloc
        { prev := none, next := none, value := { id := checkpointId, count := 0 } }
      let (heap, head) ← listAppend heap checkpoints.head (some entry)
      .ok (entry, { heap := heap, head := head })

/-- `checkpoint_pass_count` -/
def checkpointPassCount (checkpoints : Checkpoints) (checkpointId : List UInt8) :
    Except Fault (UInt32 × Checkpoints) := do
  let (entry, checkpoints) ← checkpoints.findOrAdd checkpointId
  let heap ← checkpoints.heap.modify (some entry) fun node =>
    { node with value := { node.value with count := node.value.count + 1 } }
  let node ← heap.load (some entry)
  .ok (node.value.count, { checkpoints with heap := heap })

/-- `(tmp) ? (tmp)->hh.next : NULL` -/
def nextOf (heap : Heap (Node CheckpointEntry)) : Pointer → Except Fault Pointer
  | none => .ok none
  | some entry => do
      let node ← heap.load (some entry)
      .ok node.next

/-- The loop of `clear_checkpoints`, where `HASH_ITER` keeps the entry which follows
`entry` in `tmp`. -/
def clearFrom : (turns : ℕ) → (entry tmp : Pointer) → Heap (Node CheckpointEntry) →
    Except Fault (Heap (Node CheckpointEntry))
  | _, none, _, heap => .ok heap
  | 0, some _, _, _ => .error .divergence
  | turns + 1, some entry, tmp, heap => do
      let heap ← heap.release (some entry)
      let next ← nextOf heap tmp
      clearFrom turns tmp next heap

/-- `clear_checkpoints` -/
def clearCheckpoints (checkpoints : Checkpoints) : Except Fault Checkpoints := do
  let tmp ← nextOf checkpoints.heap checkpoints.head
  let heap ← clearFrom checkpoints.heap.bound checkpoints.head tmp checkpoints.heap
  .ok { checkpoints with heap := heap }

/-- The operations of `log.c` on the hash map. -/
def table : CheckpointTable Checkpoints where
  passCount := checkpointPassCount
  clear := clearCheckpoints

variable {checkpoints : Checkpoints} {heap : Heap (Node CheckpointEntry)} {before : Pointer}
  {entries earlier later : List (ℕ × CheckpointEntry)} {passed : List (List UInt8)}
  {checkpointId : List UInt8}

theorem nextOf_firstPointer (linked : Linked heap before entries none) :
    nextOf heap (firstPointer entries none) = .ok (firstPointer entries.tail none) := by
  cases entries with
  | nil => rfl
  | cons entry rest =>
      simp only [firstPointer, nextOf, Heap.load_of_live linked.1, ok_bind]
      rfl

theorem clearFrom_spec {turns : ℕ} (linked : Linked heap before entries none)
    (distinct : (addresses entries).Nodup) (enough : entries.length ≤ turns) :
    ∃ cleared, clearFrom turns (firstPointer entries none) (firstPointer entries.tail none) heap =
        .ok cleared ∧
      (∀ address ∈ addresses entries, cleared.cells address = none) ∧
      ∀ address, heap.cells address = none → cleared.cells address = none := by
  induction entries generalizing heap before turns with
  | nil => exact ⟨heap, by cases turns <;> rfl, by simp, fun _ dead => dead⟩
  | cons entry rest ih =>
      rcases entry with ⟨address, value⟩
      rcases List.nodup_cons.mp distinct with ⟨notLater, laterDistinct⟩
      cases turns with
      | zero => simp at enough
      | succ turns =>
          have remaining : Linked (heap.discard address) (some address) rest none := by
            apply linked.2.frame
            rintro other otherMem
            apply Heap.cells_discard_of_ne
            rintro rfl
            exact notLater otherMem
          rcases ih remaining laterDistinct (Nat.le_of_succ_le_succ enough) with
            ⟨cleared, finished, released, stillDead⟩
          refine ⟨cleared, ?_, ?_, ?_⟩
          · rw [firstPointer, List.tail_cons, clearFrom, Heap.release_of_live linked.1, ok_bind,
              nextOf_firstPointer remaining, ok_bind]
            exact finished
          · intro other otherMem
            rcases List.mem_cons.mp otherMem with rfl | later
            · exact stillDead _ Heap.cells_discard_self
            · exact released other later
          · intro other dead
            apply stillDead
            by_cases same : other = address
            · subst same
              exact Heap.cells_discard_self
            · exact (Heap.cells_discard_of_ne same).trans dead

/-- The entries count how often each ID was passed. -/
structure Tallies (entries : List (ℕ × CheckpointEntry)) (passed : List (List UInt8)) : Prop where
  counts : ∀ entry ∈ entries, entry.2.count = UInt32.ofNat (passed.count entry.2.id)
  covers : ∀ id, id ∈ passed ↔ id ∈ entries.map fun entry => entry.2.id
  distinct : (entries.map fun entry => entry.2.id).Nodup

theorem Tallies.nil : Tallies [] [] where
  counts := by simp
  covers := by simp
  distinct := by simp

theorem Tallies.pass {address : ℕ} {entry : CheckpointEntry}
    (tallies : Tallies (earlier ++ (address, entry) :: later) passed) :
    Tallies (earlier ++ (address, { entry with count := entry.count + 1 }) :: later)
      (entry.id :: passed) := by
  have distinct := tallies.distinct
  simp only [List.map_append, List.map_cons] at distinct
  rcases List.nodup_append.mp distinct with ⟨-, withEntry, apart⟩
  refine ⟨?_, ?_, ?_⟩
  · have other : ∀ other ∈ earlier ++ later, other.2.count =
        UInt32.ofNat ((entry.id :: passed).count other.2.id) := by
      intro other otherMem
      have different : entry.id ≠ other.2.id := by
        intro same
        rcases List.mem_append.mp otherMem with inEarlier | inLater
        · exact apart _ (List.mem_map_of_mem inEarlier) entry.id (by simp) same.symm
        · apply (List.nodup_cons.mp withEntry).1
          rw [same]
          exact List.mem_map_of_mem inLater
      rw [List.count_cons_of_ne different]
      apply tallies.counts
      rcases List.mem_append.mp otherMem with inEarlier | inLater
      · exact List.mem_append_left _ inEarlier
      · exact List.mem_append_right _ (List.mem_cons_of_mem _ inLater)
    have own := tallies.counts (address, entry) (by simp)
    intro changed changedMem
    simp only [List.mem_append, List.mem_cons] at changedMem
    rcases changedMem with inEarlier | rfl | inLater
    · exact other changed (List.mem_append_left _ inEarlier)
    · simp only at own ⊢
      rw [List.count_cons_self, own, UInt32.ofNat_add]
      rfl
    · exact other changed (List.mem_append_right _ inLater)
  · intro id
    have covered := tallies.covers id
    simp only [List.map_append, List.map_cons, List.mem_append, List.mem_cons] at covered ⊢
    rw [covered]
    constructor
    · rintro (rfl | known)
      · exact Or.inr (Or.inl rfl)
      · exact known
    · exact Or.inr
  · simpa only [List.map_append, List.map_cons] using distinct

theorem Tallies.add (tallies : Tallies entries passed)
    (unknown : checkpointId ∉ entries.map fun entry => entry.2.id) (address : ℕ) :
    Tallies (entries ++ [(address, { id := checkpointId, count := 1 })])
      (checkpointId :: passed) := by
  refine ⟨?_, ?_, ?_⟩
  · intro entry entryMem
    simp only [List.mem_append, List.mem_singleton] at entryMem
    rcases entryMem with old | rfl
    · have different : checkpointId ≠ entry.2.id := by
        rintro rfl
        exact unknown (List.mem_map_of_mem old)
      rw [List.count_cons_of_ne different]
      exact tallies.counts entry old
    · have notPassed : checkpointId ∉ passed := fun mem => unknown ((tallies.covers _).mp mem)
      rw [List.count_cons_self, List.count_eq_zero_of_not_mem notPassed]
      rfl
  · intro id
    have covered := tallies.covers id
    simp only [List.map_append, List.map_cons, List.map_nil, List.mem_append, List.mem_cons,
      List.not_mem_nil, or_false, covered]
    exact or_comm
  · simp only [List.map_append, List.map_cons, List.map_nil]
    apply List.nodup_append.mpr
    refine ⟨tallies.distinct, by simp, ?_⟩
    rintro id idMem other otherMem rfl
    simp only [List.mem_singleton] at otherMem
    exact unknown (otherMem ▸ idMem)

/-- The head variable leads to entries which count the IDs passed since the last clear. -/
def Counting (checkpoints : Checkpoints) (passed : List (List UInt8)) : Prop :=
  ∃ entries, Represents checkpoints.heap checkpoints.head entries ∧ Tallies entries passed

/-- The head variable leads to an entry which was released. -/
def Dangling (checkpoints : Checkpoints) : Prop :=
  ∃ address, checkpoints.head = some address ∧ checkpoints.heap.cells address = none

theorem counting_empty : Counting empty [] :=
  ⟨[], Represents.nil _, Tallies.nil⟩

theorem findOrAdd_spec (counting : checkpoints.Counting passed) (checkpointId : List UInt8) :
    ∃ address found earlier later count, checkpoints.findOrAdd checkpointId = .ok (address, found) ∧
      Represents found.heap found.head (earlier ++ (address, ⟨checkpointId, count⟩) :: later) ∧
      count = UInt32.ofNat (passed.count checkpointId) ∧
      Tallies (earlier ++ (address, ⟨checkpointId, count + 1⟩) :: later)
        (checkpointId :: passed) := by
  rcases counting with ⟨entries, represents, tallies⟩
  have searched := listMatch_eq represents fun entry => entry.id = checkpointId
  simp only [findOrAdd, hashFindStr, searched, ok_bind, firstMatch]
  cases match_eq : entries.find? fun entry => decide (entry.2.id = checkpointId) with
  | some entry =>
      have same := List.find?_some match_eq
      simp only [decide_eq_true_eq] at same
      rcases entry with ⟨address, ⟨id, count⟩⟩
      subst same
      rcases List.append_of_mem (List.mem_of_find?_eq_some match_eq) with ⟨earlier, later, rfl⟩
      exact ⟨address, checkpoints, earlier, later, count, rfl, represents,
        tallies.counts (address, ⟨id, count⟩) (by simp), tallies.pass⟩
  | none =>
      have unknown : checkpointId ∉ entries.map fun entry => entry.2.id := by
        intro mem
        rcases List.mem_map.mp mem with ⟨entry, entryMem, same⟩
        have differs := List.find?_eq_none.mp match_eq entry entryMem
        simp [same] at differs
      have notPassed : checkpointId ∉ passed := fun mem => unknown ((tallies.covers _).mp mem)
      let node : Node CheckpointEntry :=
        { prev := none, next := none, value := { id := checkpointId, count := 0 } }
      have outside : checkpoints.heap.bound ∉ addresses entries := represents.fresh
      have allocated : Represents (checkpoints.heap.alloc node).2 checkpoints.head entries := by
        apply represents.frame
        intro address addressMem
        apply Heap.cells_alloc_of_ne
        rintro rfl
        exact outside addressMem
      rcases listAppend_spec allocated Heap.cells_alloc_self outside with
        ⟨heap, head, appended, added, -, -⟩
      refine ⟨checkpoints.heap.bound, ⟨heap, head⟩, entries, [], 0, ?_, added, ?_, ?_⟩
      · simp only [Option.map_none, Heap.alloc_fst]
        rw [appended, ok_bind]
      · rw [List.count_eq_zero_of_not_mem notPassed]
        rfl
      · exact tallies.add unknown _

theorem checkpointPassCount_spec (counting : checkpoints.Counting passed)
    (checkpointId : List UInt8) :
    ∃ next, checkpoints.checkpointPassCount checkpointId =
        .ok (UInt32.ofNat (passed.count checkpointId + 1), next) ∧
      next.Counting (checkpointId :: passed) := by
  rcases findOrAdd_spec counting checkpointId with
    ⟨address, found, earlier, later, count, found_eq, represents, count_eq, tallies⟩
  have counted := represents.setValue fun entry => { entry with count := entry.count + 1 }
  refine ⟨⟨_, found.head⟩, ?_, _, counted, tallies⟩
  simp only [checkpointPassCount, found_eq, ok_bind, Heap.modify_of_live represents.cell,
    Heap.load_of_live counted.cell]
  rw [count_eq, UInt32.ofNat_add]
  rfl

/-- Clearing counts from 0 again, but only an empty map can still be used. -/
theorem clearCheckpoints_spec (counting : checkpoints.Counting passed) :
    ∃ next, checkpoints.clearCheckpoints = .ok next ∧
      (passed = [] → next.Counting []) ∧ (passed ≠ [] → next.Dangling) := by
  rcases counting with ⟨entries, represents, tallies⟩
  rcases clearFrom_spec represents.linked represents.distinct represents.length_le with
    ⟨cleared, finished, released, stillDead⟩
  refine ⟨⟨cleared, checkpoints.head⟩, ?_, ?_, ?_⟩
  · simp only [clearCheckpoints, represents.head_eq, nextOf_firstPointer represents.linked, ok_bind,
      finished]
  · rintro rfl
    cases entries with
    | nil =>
        refine ⟨[], ?_, Tallies.nil⟩
        rw [represents.head_eq]
        exact Represents.nil _
    | cons entry rest =>
        have passed := (tallies.covers entry.2.id).mpr (by simp)
        contradiction
  · intro nonempty
    rcases List.exists_mem_of_ne_nil passed nonempty with ⟨id, idMem⟩
    cases entries with
    | nil => simpa using (tallies.covers id).mp idMem
    | cons entry rest => exact ⟨entry.1, represents.head_eq, released _ (by simp)⟩

theorem checkpointPassCount_of_dangling (dangling : checkpoints.Dangling)
    (checkpointId : List UInt8) :
    ∃ fault, checkpoints.checkpointPassCount checkpointId = .error fault := by
  rcases dangling with ⟨address, head_eq, dead⟩
  simp only [checkpointPassCount, findOrAdd, hashFindStr, listMatch, head_eq]
  cases checkpoints.heap.bound with
  | zero => exact ⟨_, rfl⟩
  | succ turns =>
      simp only [listMatchFrom, Heap.load_of_dead dead, error_bind]
      exact ⟨_, rfl⟩

theorem clearCheckpoints_of_dangling (dangling : checkpoints.Dangling) :
    ∃ fault, checkpoints.clearCheckpoints = .error fault := by
  rcases dangling with ⟨address, head_eq, dead⟩
  simp only [clearCheckpoints, head_eq, nextOf, Heap.load_of_dead dead, error_bind]
  exact ⟨_, rfl⟩

end Checkpoints

end Lucciefr.Log
