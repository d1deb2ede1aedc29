import Lucciefr.LinkedList.Basic

/-!
# Correctness of the list macros

On a heap which represents a list, each macro computes what its name says about
that list and leaves a heap which represents the new list. Cells outside the
list are not written.
-/

namespace Lucciefr

variable {Value : Type} {heap : Heap (Node Value)} {head : Pointer}
  {entries earlier later : List (ℕ × Value)} {element : ℕ} {value : Value}

theorem listLastFrom_eq {before : Pointer} {turns : ℕ} (enough : entries.length ≤ turns)
    (linked : Linked heap before entries none) :
    listLastFrom heap turns (firstPointer entries none) = .ok (lastPointer none entries) := by
  induction entries generalizing before turns with
  | nil => cases turns <;> rfl
  | cons entry rest ih =>
      rcases entry with ⟨address, value⟩
      cases turns with
      | zero => simp at enough
      | succ turns =>
          have loaded := Heap.load_of_live linked.1
          simp only [firstPointer, listLastFrom, loaded, ok_bind]
          cases rest with
          | nil => rfl
          | cons second rest => exact ih (Nat.le_of_succ_le_succ enough) linked.2

theorem listLast_eq (represents : Represents heap head entries) :
    listLast heap head = .ok (lastPointer none entries) := by
  rw [represents.head_eq]
  exact listLastFrom_eq represents.length_le represents.linked

/-- The first entry whose value satisfies the condition. -/
def firstMatch (condition : Value → Bool) (entries : List (ℕ × Value)) : Pointer :=
  (entries.find? fun entry => condition entry.2).map Prod.fst

theorem listMatchFrom_eq (condition : Value → Bool) {before : Pointer} {turns : ℕ}
    (enough : entries.length ≤ turns) (linked : Linked heap before entries none) :
    listMatchFrom heap condition turns (firstPointer entries none) =
      .ok (firstMatch condition entries) := by
  induction entries generalizing before turns with
  | nil => cases turns <;> rfl
  | cons entry rest ih =>
      rcases entry with ⟨address, value⟩
      cases turns with
      | zero => simp at enough
      | succ turns =>
          have loaded := Heap.load_of_live linked.1
          rw [firstPointer, listMatchFrom, loaded, ok_bind]
          by_cases satisfied : condition value = true
          · simp [satisfied, firstMatch]
          · rw [if_neg satisfied, ih (Nat.le_of_succ_le_succ enough) linked.2]
            simp [firstMatch, satisfied]

theorem listMatch_eq (represents : Represents heap head entries) (condition : Value → Bool) :
    listMatch heap head condition = .ok (firstMatch condition entries) := by
  rw [represents.head_eq]
  exact listMatchFrom_eq condition represents.length_le represents.linked

/-- Appending a node which is not in the list adds it at the end. -/
theorem listAppend_spec (represents : Represents heap head entries) {node : Node Value}
    (live : heap.cells element = some node) (outside : element ∉ addresses entries) :
    ∃ heap' head', listAppend heap head (some element) = .ok (heap', head') ∧
      Represents heap' head' (entries ++ [(element, node.value)]) ∧
      heap'.bound = heap.bound ∧
      ∀ other, other ≠ element → other ∉ addresses entries →
        heap'.cells other = heap.cells other := by
  refine ⟨_, _, ?_, represents.append live outside, rfl, ?_⟩
  · simp only [listAppend, listLast_eq represents, ok_bind, Heap.modify_of_live live]
    rw [Heap.modifyUnlessNull_of_valid (represents.linked.valid_last.adjust _ _), ok_bind]
  · intro other notElement notEntry
    rw [Heap.cells_adjust_of_ne (lastPointer_ne_of_notMem notEntry)]
    apply Heap.cells_adjust_of_ne
    rintro ⟨rfl⟩
    exact notElement rfl

/-- Deleting an element of the list removes it and keeps the order of the others. -/
theorem listDelete_spec
    (represents : Represents heap head (earlier ++ (element, value) :: later)) :
    ∃ heap' head', listDelete heap head (some element) = .ok (heap', head') ∧
      Represents heap' head' (earlier ++ later) ∧
      heap'.bound = heap.bound ∧
      ∀ other, other ∉ addresses (earlier ++ later) →
        heap'.cells other = heap.cells other := by
  rcases Linked.append.mp represents.linked with ⟨earlierLinked, elementCell, laterLinked⟩
  refine ⟨_, _, ?_, represents.delete, rfl, ?_⟩
  · simp only [listDelete, Heap.load_of_live elementCell, ok_bind]
    rw [Heap.modifyUnlessNull_of_valid laterLinked.valid_first, ok_bind,
      Heap.modifyUnlessNull_of_valid (earlierLinked.valid_last.adjust _ _), ok_bind]
  · intro other outside
    simp only [addresses, List.map_append, List.mem_append, not_or] at outside
    rw [Heap.cells_adjust_of_ne (lastPointer_ne_of_notMem outside.1),
      Heap.cells_adjust_of_ne (firstPointer_ne_of_notMem outside.2)]

end Lucciefr
