import Mathlib.Data.List.Basic
import Lucciefr.Base.Fault

/-!
# Heaps of cells

A heap of dynamically allocated cells of one type. An address is never granted
twice, so that a pointer to a released cell stays recognizable: every access
through it is a fault, as is every access through `NULL`. Addresses from
`bound` on have never been granted; their vacancy is a field of the heap.
-/

namespace Lucciefr

universe u

/-- A pointer to a cell, with `none` for `NULL`. -/
abbrev Pointer := Option ℕ

structure Heap (Cell : Type u) where
  /-- The live cells. -/
  cells : ℕ → Option Cell
  bound : ℕ
  unused : ∀ address, bound ≤ address → cells address = none

namespace Heap

variable {Cell : Type u}

def empty (Cell : Type u) : Heap Cell where
  cells _ := none
  bound := 0
  unused _ _ := rfl

/-- The cell behind a pointer. -/
def load (heap : Heap Cell) : Pointer → Except Fault Cell
  | none => .error .nullPointer
  | some address =>
      match heap.cells address with
      | none => .error .useAfterFree
      | some cell => .ok cell

/-- Change the cell behind a pointer, if there is one. -/
def adjust (heap : Heap Cell) (pointer : Pointer) (change : Cell → Cell) : Heap Cell where
  cells address := if pointer = some address then (heap.cells address).map change
    else heap.cells address
  bound := heap.bound
  unused address beyond := by
    simp [heap.unused address beyond]

/-- Write to the cell behind a pointer. -/
def modify (heap : Heap Cell) (pointer : Pointer) (change : Cell → Cell) :
    Except Fault (Heap Cell) :=
  heap.load pointer >>= fun _ => .ok (heap.adjust pointer change)

/-- Write to the cell behind a pointer which may be `NULL`. -/
def modifyUnlessNull (heap : Heap Cell) (pointer : Pointer) (change : Cell → Cell) :
    Except Fault (Heap Cell) :=
  match pointer with
  | none => .ok heap
  | some address => heap.modify (some address) change

/-- Grant a new cell. -/
def alloc (heap : Heap Cell) (cell : Cell) : ℕ × Heap Cell :=
  (heap.bound,
    { cells := fun address => if address = heap.bound then some cell else heap.cells address
      bound := heap.bound + 1
      unused := by
        intro address beyond
        simp [show address ≠ heap.bound by omega, heap.unused address (by omega)] })

/-- Remove a cell without looking at it. -/
def discard (heap : Heap Cell) (released : ℕ) : Heap Cell where
  cells address := if address = released then none else heap.cells address
  bound := heap.bound
  unused address beyond := by
    simp [heap.unused address beyond]

/-- Release the cell behind a pointer; releasing `NULL` does nothing. -/
def release (heap : Heap Cell) : Pointer → Except Fault (Heap Cell)
  | none => .ok heap
  | some address => heap.load (some address) >>= fun _ => .ok (heap.discard address)

variable {heap : Heap Cell} {address other : ℕ} {cell : Cell} {pointer : Pointer}
  {change : Cell → Cell}

theorem lt_bound (live : heap.cells address = some cell) : address < heap.bound := by
  by_contra beyond
  rw [heap.unused address (by omega)] at live
  contradiction

@[simp]
theorem load_none : heap.load none = .error .nullPointer := rfl

theorem load_of_live (live : heap.cells address = some cell) :
    heap.load (some address) = .ok cell := by
  simp [load, live]

theorem load_of_dead (dead : heap.cells address = none) :
    heap.load (some address) = .error .useAfterFree := by
  simp [load, dead]

@[simp]
theorem bound_adjust : (heap.adjust pointer change).bound = heap.bound := rfl

@[simp]
theorem bound_discard : (heap.discard address).bound = heap.bound := rfl

@[simp]
theorem adjust_none : heap.adjust none change = heap := by
  simp [adjust]

theorem cells_adjust_self :
    (heap.adjust (some address) change).cells address = (heap.cells address).map change := by
  simp [adjust]

theorem cells_adjust_of_ne (different : pointer ≠ some other) :
    (heap.adjust pointer change).cells other = heap.cells other := by
  simp [adjust, different]

theorem cells_adjust_of_outside {addresses : List ℕ} (outside : address ∉ addresses)
    (change : Cell → Cell) :
    ∀ other ∈ addresses, (heap.adjust (some address) change).cells other = heap.cells other := by
  intro other otherMem
  apply cells_adjust_of_ne
  rintro ⟨rfl⟩
  exact outside otherMem

@[simp]
theorem cells_discard_self : (heap.discard address).cells address = none := by
  simp [discard]

theorem cells_discard_of_ne (different : other ≠ address) :
    (heap.discard address).cells other = heap.cells other := by
  simp [discard, different]

theorem adjust_self (live : heap.cells address = some cell) :
    heap.adjust (some address) (fun _ => cell) = heap := by
  rcases heap with ⟨cells, bound, unused⟩
  rw [adjust, mk.injEq]
  refine ⟨?_, rfl⟩
  funext other
  by_cases here : address = other
  · subst here
    simp [show cells address = some cell from live]
  · simp [here]

theorem adjust_adjust {change' : Cell → Cell} :
    (heap.adjust pointer change).adjust pointer change' =
      heap.adjust pointer (change' ∘ change) := by
  rw [adjust, adjust, adjust, mk.injEq]
  refine ⟨?_, rfl⟩
  funext other
  by_cases here : pointer = some other
  · simp [here]
  · simp [here]

/-- Only what becomes of the cell matters. -/
theorem adjust_congr {change' : Cell → Cell} (live : heap.cells address = some cell)
    (same : change cell = change' cell) :
    heap.adjust (some address) change = heap.adjust (some address) change' := by
  rw [adjust, adjust, mk.injEq]
  refine ⟨?_, rfl⟩
  funext other
  split
  · rename_i here
    rw [← Option.some.inj here, live, Option.map_some, Option.map_some, same]
  · rfl

@[simp]
theorem alloc_fst : (heap.alloc cell).1 = heap.bound := rfl

@[simp]
theorem bound_alloc : (heap.alloc cell).2.bound = heap.bound + 1 := rfl

theorem cells_alloc_self : (heap.alloc cell).2.cells heap.bound = some cell := by
  simp [alloc]

theorem cells_alloc_of_ne (different : other ≠ heap.bound) :
    (heap.alloc cell).2.cells other = heap.cells other := by
  simp [alloc, different]

theorem modify_of_live (live : heap.cells address = some cell) :
    heap.modify (some address) change = .ok (heap.adjust (some address) change) := by
  simp [modify, load_of_live live]

theorem release_of_live (live : heap.cells address = some cell) :
    heap.release (some address) = .ok (heap.discard address) := by
  simp [release, load_of_live live]

/-- A pointer which is `NULL` or leads to a live cell. -/
def Valid (heap : Heap Cell) (pointer : Pointer) : Prop :=
  ∀ address, pointer = some address → ∃ cell, heap.cells address = some cell

theorem modifyUnlessNull_of_valid (valid : heap.Valid pointer) :
    heap.modifyUnlessNull pointer change = .ok (heap.adjust pointer change) := by
  cases pointer with
  | none => simp [modifyUnlessNull]
  | some address =>
      rcases valid address rfl with ⟨cell, live⟩
      exact modify_of_live live

theorem Valid.adjust (valid : heap.Valid pointer) (changed : Pointer) (change : Cell → Cell) :
    (heap.adjust changed change).Valid pointer := by
  intro address pointer_eq
  rcases valid address pointer_eq with ⟨cell, live⟩
  by_cases same : changed = some address
  · subst same
    exact ⟨change cell, by simp [cells_adjust_self, live]⟩
  · exact ⟨cell, by rw [cells_adjust_of_ne same, live]⟩

end Heap

end Lucciefr
