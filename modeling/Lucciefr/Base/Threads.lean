import Lucciefr.Base.Linked

/-!
# Cells on several lists

A cell may carry the links of more than one doubly linked list. To each list the heap
is a heap of its own nodes: a view keeps the two links of this list and what is a value
to it. A write to the links of one list is not seen by the others.
-/

namespace Lucciefr

universe u v w

variable {Cell : Type u} {Value : Type v}

namespace Heap

variable {heap other : Heap Cell} {view : Cell → Node Value} {pointer second : Pointer}
  {address : ℕ} {node : Node Value} {change : Cell → Cell}

theorem ext_cells (bounds : heap.bound = other.bound)
    (same : ∀ address, heap.cells address = other.cells address) : heap = other := by
  rcases heap with ⟨cells, bound, unused⟩
  rcases other with ⟨otherCells, otherBound, otherUnused⟩
  rw [mk.injEq]
  exact ⟨funext same, bounds⟩

/-- Two writes which do not depend on each other may be exchanged. -/
theorem adjust_comm {secondChange : Cell → Cell}
    (commute : ∀ cell, change (secondChange cell) = secondChange (change cell)) :
    (heap.adjust pointer change).adjust second secondChange =
      (heap.adjust second secondChange).adjust pointer change := by
  apply ext_cells
  · rfl
  · intro address
    by_cases here : pointer = some address
    · by_cases there : second = some address
      · simp only [adjust, here, there, if_true, Option.map_map]
        congr 1
        funext cell
        exact (commute cell).symm
      · simp [adjust, here, there]
    · simp [adjust, here]

/-- The heap as one of the lists sees it. -/
def seen (heap : Heap Cell) (view : Cell → Node Value) : Heap (Node Value) where
  cells address := (heap.cells address).map view
  bound := heap.bound
  unused address beyond := by
    simp [heap.unused address beyond]

@[simp]
theorem bound_seen : (heap.seen view).bound = heap.bound := rfl

theorem cells_seen : (heap.seen view).cells address = (heap.cells address).map view := rfl

theorem seen_of_live {cell : Cell} (live : heap.cells address = some cell) :
    (heap.seen view).cells address = some (view cell) := by
  simp [cells_seen, live]

theorem exists_of_seen (live : (heap.seen view).cells address = some node) :
    ∃ cell, heap.cells address = some cell ∧ view cell = node :=
  Option.map_eq_some_iff.mp live

theorem seen_congr (same : heap.cells address = other.cells address) :
    (heap.seen view).cells address = (other.seen view).cells address := by
  simp only [cells_seen, same]

/-- A write to the links of this list. -/
theorem seen_adjust {nodeChange : Node Value → Node Value}
    (sees : ∀ cell, view (change cell) = nodeChange (view cell)) :
    (heap.adjust pointer change).seen view = (heap.seen view).adjust pointer nodeChange := by
  apply ext_cells
  · rfl
  · intro address
    by_cases here : pointer = some address
    · cases live : heap.cells address <;> simp [seen, adjust, here, live, sees]
    · simp [seen, adjust, here]

/-- A write which does not concern this list. -/
theorem seen_adjust_of_unseen (unseen : ∀ cell, view (change cell) = view cell) :
    (heap.adjust pointer change).seen view = heap.seen view := by
  apply ext_cells
  · rfl
  · intro address
    by_cases here : pointer = some address
    · cases live : heap.cells address <;> simp [seen, adjust, here, live, unseen]
    · simp [seen, adjust, here]

theorem valid_of_seen (valid : (heap.seen view).Valid pointer) : heap.Valid pointer := by
  intro address pointer_eq
  rcases valid address pointer_eq with ⟨node, live⟩
  rcases exists_of_seen live with ⟨cell, cell_live, -⟩
  exact ⟨cell, cell_live⟩

end Heap

namespace Represents

variable {heap : Heap (Node Value)} {head : Pointer} {entries earlier later : List (ℕ × Value)}
  {address : ℕ} {node : Node Value} {value : Value}

/-- Linking a node in front of the list. -/
theorem push (represents : Represents heap head entries)
    (live : heap.cells address = some node) (outside : address ∉ addresses entries) :
    Represents
      ((heap.adjust (some address) fun node => { node with prev := none, next := head }).adjust
        head fun node => { node with prev := some address })
      (some address) ((address, node.value) :: entries) where
  head_eq := rfl
  linked := by
    have prepared := represents.linked.frame (Heap.cells_adjust_of_outside outside
      fun node => { node with prev := none, next := head })
    have other : head ≠ some address := by
      rw [represents.head_eq]
      exact firstPointer_ne_of_notMem outside
    refine ⟨?_, ?_⟩
    · rw [Heap.cells_adjust_of_ne other, Heap.cells_adjust_self, live, ← represents.head_eq]
      rfl
    · rw [represents.head_eq]
      rw [represents.head_eq] at prepared
      exact prepared.setPrev represents.distinct _
  distinct := List.nodup_cons.mpr ⟨outside, represents.distinct⟩

/-- The list starts with this node if and only if it is the first one. -/
theorem head_eq_iff (represents : Represents heap head (earlier ++ (address, value) :: later)) :
    head = some address ↔ lastPointer none earlier = none := by
  rw [represents.head_eq]
  cases earlier with
  | nil => simp [firstPointer, lastPointer]
  | cons entry rest =>
      have apart : entry.1 ≠ address := by
        have distinct := represents.distinct
        simp only [addresses, List.cons_append, List.map_cons, List.nodup_cons] at distinct
        rintro rfl
        exact distinct.1 (by simp)
      simp [firstPointer, apart, lastPointer_cons_ne_none]

end Represents

section Unlink

variable {Other : Type w} {heap : Heap Cell} {head : Pointer} {earlier later : List (ℕ × Value)}
  {address : ℕ} {value : Value} {view : Cell → Node Value} {otherView : Cell → Node Other}
  {setPrev setNext : Pointer → Cell → Cell}

/-- Unlinking a cell from one of its lists: its neighbours are linked to each other. The
other lists and the other cells, with the cell itself, are left as they are. -/
theorem Represents.unlink (otherView : Cell → Node Other) (setPrev setNext : Pointer → Cell → Cell)
    (represents : Represents (heap.seen view) head
      (earlier ++ (address, value) :: later))
    (seesPrev : ∀ pointer cell, view (setPrev pointer cell) = { view cell with prev := pointer })
    (seesNext : ∀ pointer cell, view (setNext pointer cell) = { view cell with next := pointer })
    (unseenPrev : ∀ pointer cell, otherView (setPrev pointer cell) = otherView cell)
    (unseenNext : ∀ pointer cell, otherView (setNext pointer cell) = otherView cell) :
    ∃ cell middle last, heap.cells address = some cell ∧
      view cell = ⟨lastPointer none earlier, firstPointer later none, value⟩ ∧
      heap.modifyUnlessNull (view cell).prev (setNext (view cell).next) = .ok middle ∧
      middle.modifyUnlessNull (view cell).next (setPrev (view cell).prev) = .ok last ∧
      Represents (last.seen view) (if (view cell).prev = none then (view cell).next else head)
        (earlier ++ later) ∧
      last.seen otherView = heap.seen otherView ∧
      ∀ other, other ∉ addresses (earlier ++ later) → last.cells other = heap.cells other := by
  rcases Heap.exists_of_seen represents.cell with ⟨cell, live, view_eq⟩
  rcases Linked.append.mp represents.linked with ⟨earlierLinked, -, laterLinked⟩
  have validPrev : heap.Valid (lastPointer none earlier) :=
    Heap.valid_of_seen earlierLinked.valid_last
  have validNext : heap.Valid (firstPointer later none) :=
    Heap.valid_of_seen laterLinked.valid_first
  have deleted := represents.delete
  refine ⟨cell, heap.adjust (lastPointer none earlier) (setNext (firstPointer later none)),
    (heap.adjust (lastPointer none earlier) (setNext (firstPointer later none))).adjust
      (firstPointer later none) (setPrev (lastPointer none earlier)), live, view_eq, ?_⟩
  rw [view_eq]
  refine ⟨Heap.modifyUnlessNull_of_valid validPrev,
    Heap.modifyUnlessNull_of_valid (validNext.adjust _ _), ?_, ?_, ?_⟩
  · rw [Heap.seen_adjust, Heap.seen_adjust, Heap.adjust_comm]
    · exact deleted
    · intro node
      rfl
    · exact seesNext _
    · exact seesPrev _
  · rw [Heap.seen_adjust_of_unseen (unseenPrev _), Heap.seen_adjust_of_unseen (unseenNext _)]
  · intro other outside
    simp only [addresses, List.map_append, List.mem_append, not_or] at outside
    rw [Heap.cells_adjust_of_ne (firstPointer_ne_of_notMem outside.2),
      Heap.cells_adjust_of_ne (lastPointer_ne_of_notMem outside.1)]

end Unlink

end Lucciefr
