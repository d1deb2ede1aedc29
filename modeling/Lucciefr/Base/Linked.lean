import Mathlib.Data.List.Nodup
import Mathlib.Data.Finset.Card
import Mathlib.Data.Finset.Range
import Lucciefr.Base.Heap

/-!
# Doubly linked lists in a heap

A node carries a value and the pointers to its neighbours. `Linked` says that a
list of addressed values is a segment of a doubly linked list, with the pointers
it is entered and left with; segments compose by concatenation. `Represents`
says that a head pointer leads to exactly the entries of a list. The entries
are listed with their addresses, so that two nodes with equal values are still
two entries.
-/

namespace Lucciefr

universe u

/-- A node of a doubly linked list. -/
structure Node (Value : Type u) where
  prev : Pointer
  next : Pointer
  value : Value
deriving DecidableEq

variable {Value : Type u}

/-- The addresses of a list of entries. -/
abbrev addresses (entries : List (ℕ × Value)) : List ℕ :=
  entries.map Prod.fst

/-- The pointer to the first entry, or the pointer which follows an empty segment. -/
def firstPointer : List (ℕ × Value) → Pointer → Pointer
  | [], after => after
  | (address, _) :: _, _ => some address

/-- The pointer to the last entry, or the pointer which precedes an empty segment. -/
def lastPointer : Pointer → List (ℕ × Value) → Pointer
  | before, [] => before
  | _, (address, _) :: rest => lastPointer (some address) rest

/-- The entries are a segment between the pointers `before` and `after`. -/
def Linked (heap : Heap (Node Value)) : Pointer → List (ℕ × Value) → Pointer → Prop
  | _, [], _ => True
  | before, (address, value) :: rest, after =>
      heap.cells address = some ⟨before, firstPointer rest after, value⟩ ∧
        Linked heap (some address) rest after

/-- The head pointer leads to exactly the entries, in order. -/
structure Represents (heap : Heap (Node Value)) (head : Pointer) (entries : List (ℕ × Value)) :
    Prop where
  head_eq : head = firstPointer entries none
  linked : Linked heap none entries none
  distinct : (addresses entries).Nodup

@[simp]
theorem firstPointer_append (first second : List (ℕ × Value)) (after : Pointer) :
    firstPointer (first ++ second) after = firstPointer first (firstPointer second after) := by
  cases first <;> rfl

@[simp]
theorem lastPointer_append (before : Pointer) (first second : List (ℕ × Value)) :
    lastPointer before (first ++ second) = lastPointer (lastPointer before first) second := by
  induction first generalizing before with
  | nil => rfl
  | cons entry rest ih => exact ih _

theorem lastPointer_ne_none {before : Pointer} (entries : List (ℕ × Value))
    (entered : before ≠ none) : lastPointer before entries ≠ none := by
  induction entries generalizing before with
  | nil => exact entered
  | cons entry rest ih => exact ih (by simp)

theorem lastPointer_cons_ne_none (before : Pointer) (entry : ℕ × Value)
    (rest : List (ℕ × Value)) : lastPointer before (entry :: rest) ≠ none :=
  lastPointer_ne_none rest (by simp)

theorem lastPointer_mem {before : Pointer} {entries : List (ℕ × Value)} {address : ℕ}
    (pointer_eq : lastPointer before entries = some address) :
    before = some address ∧ entries = [] ∨ address ∈ addresses entries := by
  induction entries generalizing before with
  | nil => exact Or.inl ⟨pointer_eq, rfl⟩
  | cons entry rest ih =>
      rcases ih pointer_eq with ⟨same, -⟩ | later
      · simp only [Option.some.injEq] at same
        exact Or.inr (by simp [same])
      · exact Or.inr (List.mem_cons_of_mem _ later)

theorem lastPointer_ne_of_notMem {entries : List (ℕ × Value)} {address : ℕ}
    (outside : address ∉ addresses entries) : lastPointer none entries ≠ some address := by
  intro same
  rcases lastPointer_mem same with ⟨impossible, -⟩ | addressMem
  · contradiction
  · exact outside addressMem

theorem firstPointer_mem {after : Pointer} {entries : List (ℕ × Value)} {address : ℕ}
    (pointer_eq : firstPointer entries after = some address) :
    after = some address ∧ entries = [] ∨ address ∈ addresses entries := by
  cases entries with
  | nil => exact Or.inl ⟨pointer_eq, rfl⟩
  | cons entry rest =>
      simp only [firstPointer, Option.some.injEq] at pointer_eq
      exact Or.inr (by simp [pointer_eq])

theorem firstPointer_ne_of_notMem {entries : List (ℕ × Value)} {address : ℕ}
    (outside : address ∉ addresses entries) : firstPointer entries none ≠ some address := by
  intro same
  rcases firstPointer_mem same with ⟨impossible, -⟩ | addressMem
  · contradiction
  · exact outside addressMem

namespace Linked

variable {heap other : Heap (Node Value)} {before after : Pointer}
  {entries first second : List (ℕ × Value)}

theorem append :
    Linked heap before (first ++ second) after ↔
      Linked heap before first (firstPointer second after) ∧
        Linked heap (lastPointer before first) second after := by
  induction first generalizing before with
  | nil => simp [Linked, lastPointer]
  | cons entry rest ih => simp [Linked, lastPointer, ih, and_assoc]

/-- A segment only depends on its own cells. -/
theorem frame (linked : Linked heap before entries after)
    (unchanged : ∀ address ∈ addresses entries, other.cells address = heap.cells address) :
    Linked other before entries after := by
  induction entries generalizing before with
  | nil => trivial
  | cons entry rest ih =>
      refine ⟨?_, ih linked.2 ?_⟩
      · rw [unchanged entry.1 (by simp)]
        exact linked.1
      · intro address addressMem
        exact unchanged address (List.mem_cons_of_mem _ addressMem)

theorem live (linked : Linked heap before entries after) {address : ℕ}
    (addressMem : address ∈ addresses entries) :
    ∃ node, heap.cells address = some node ∧ (address, node.value) ∈ entries := by
  induction entries generalizing before with
  | nil => simp at addressMem
  | cons entry rest ih =>
      rcases List.mem_cons.mp addressMem with rfl | later
      · exact ⟨_, linked.1, by simp⟩
      · rcases ih linked.2 later with ⟨node, live, nodeMem⟩
        exact ⟨node, live, List.mem_cons_of_mem _ nodeMem⟩

theorem setNext (linked : Linked heap before entries after) (distinct : (addresses entries).Nodup)
    (next : Pointer) :
    Linked (heap.adjust (lastPointer before entries) fun node => { node with next := next })
      before entries next := by
  induction entries generalizing before with
  | nil => trivial
  | cons entry rest ih =>
      rcases entry with ⟨address, value⟩
      have notLater : address ∉ addresses rest := (List.nodup_cons.mp distinct).1
      refine ⟨?_, ih linked.2 (List.nodup_cons.mp distinct).2⟩
      cases rest with
      | nil =>
          simp only [lastPointer, Heap.cells_adjust_self, linked.1]
          rfl
      | cons second rest =>
          have elsewhere : lastPointer (some address) (second :: rest) ≠ some address := by
            intro same
            rcases lastPointer_mem same with ⟨-, empty⟩ | later
            · contradiction
            · exact notLater later
          exact (Heap.cells_adjust_of_ne elsewhere).trans linked.1

theorem setPrev (linked : Linked heap before entries after) (distinct : (addresses entries).Nodup)
    (prev : Pointer) :
    Linked (heap.adjust (firstPointer entries after) fun node => { node with prev := prev })
      prev entries after := by
  cases entries with
  | nil => trivial
  | cons entry rest =>
      rcases entry with ⟨address, value⟩
      have notLater : address ∉ addresses rest := (List.nodup_cons.mp distinct).1
      refine ⟨?_, linked.2.frame ?_⟩
      · simp only [firstPointer, Heap.cells_adjust_self, linked.1]
        rfl
      · intro other otherMem
        apply Heap.cells_adjust_of_ne
        intro same
        simp only [firstPointer, Option.some.injEq] at same
        exact notLater (same ▸ otherMem)

theorem valid_last (linked : Linked heap none entries after) :
    heap.Valid (lastPointer none entries) := by
  intro address pointer_eq
  rcases lastPointer_mem pointer_eq with ⟨impossible, -⟩ | addressMem
  · contradiction
  · rcases linked.live addressMem with ⟨node, live, -⟩
    exact ⟨node, live⟩

theorem valid_first (linked : Linked heap before entries none) :
    heap.Valid (firstPointer entries none) := by
  intro address pointer_eq
  rcases firstPointer_mem pointer_eq with ⟨impossible, -⟩ | addressMem
  · contradiction
  · rcases linked.live addressMem with ⟨node, live, -⟩
    exact ⟨node, live⟩

end Linked

namespace Represents

variable {heap other : Heap (Node Value)} {head before after : Pointer}
  {entries earlier later : List (ℕ × Value)} {address : ℕ} {value : Value}

theorem nil (heap : Heap (Node Value)) : Represents heap none [] where
  head_eq := rfl
  linked := trivial
  distinct := by simp

theorem frame (represents : Represents heap head entries)
    (unchanged : ∀ address ∈ addresses entries, other.cells address = heap.cells address) :
    Represents other head entries where
  head_eq := represents.head_eq
  linked := represents.linked.frame unchanged
  distinct := represents.distinct

/-- The cell of an entry, with the neighbours it has in the list. -/
theorem cell (represents : Represents heap head (earlier ++ (address, value) :: later)) :
    heap.cells address =
      some ⟨lastPointer none earlier, firstPointer later none, value⟩ :=
  (Linked.append.mp represents.linked).2.1

theorem lt_bound (represents : Represents heap head entries)
    (addressMem : address ∈ addresses entries) :
    address < heap.bound := by
  rcases represents.linked.live addressMem with ⟨node, live, -⟩
  exact Heap.lt_bound live

theorem length_le (represents : Represents heap head entries) : entries.length ≤ heap.bound := by
  have inside : (addresses entries).toFinset ⊆ Finset.range heap.bound := by
    intro address addressMem
    exact Finset.mem_range.mpr (represents.lt_bound (List.mem_toFinset.mp addressMem))
  have bound := Finset.card_le_card inside
  rw [Finset.card_range, List.toFinset_card_of_nodup represents.distinct, List.length_map] at bound
  exact bound

theorem fresh (represents : Represents heap head entries) : heap.bound ∉ addresses entries := by
  intro boundMem
  exact Nat.lt_irrefl _ (represents.lt_bound boundMem)

theorem append (represents : Represents heap head entries) {node : Node Value}
    (live : heap.cells address = some node) (outside : address ∉ addresses entries) :
    Represents
      ((heap.adjust (some address) fun node =>
          { node with prev := lastPointer none entries, next := none }).adjust
        (lastPointer none entries) fun node => { node with next := some address })
      (if lastPointer none entries = none then some address else head)
      (entries ++ [(address, node.value)]) where
  head_eq := by
    rw [represents.head_eq]
    cases entries with
    | nil => rfl
    | cons entry rest => exact if_neg (lastPointer_cons_ne_none _ _ _)
  linked := by
    have prepared := represents.linked.frame (Heap.cells_adjust_of_outside outside
      fun node => { node with prev := lastPointer none entries, next := none })
    apply Linked.append.mpr
    refine ⟨prepared.setNext represents.distinct _, ?_, trivial⟩
    rw [Heap.cells_adjust_of_ne (lastPointer_ne_of_notMem outside), Heap.cells_adjust_self, live]
    rfl
  distinct := by
    simp only [addresses, List.map_append, List.map_cons, List.map_nil]
    apply List.nodup_append.mpr
    refine ⟨represents.distinct, by simp, ?_⟩
    rintro other otherMem same sameMem rfl
    simp only [List.mem_singleton] at sameMem
    exact outside (sameMem ▸ otherMem)

theorem setValue (represents : Represents heap head (earlier ++ (address, value) :: later))
    (change : Value → Value) :
    Represents (heap.adjust (some address) fun node => { node with value := change node.value })
      head (earlier ++ (address, change value) :: later) := by
  rcases Linked.append.mp represents.linked with ⟨earlierLinked, cell, laterLinked⟩
  have distinct := represents.distinct
  simp only [addresses, List.map_append, List.map_cons] at distinct
  rcases List.nodup_append.mp distinct with ⟨-, withEntry, apart⟩
  have outsideEarlier : address ∉ addresses earlier := fun addressMem =>
    apart address addressMem address (by simp) rfl
  have outsideLater : address ∉ addresses later := (List.nodup_cons.mp withEntry).1
  refine ⟨?_, Linked.append.mpr
    ⟨earlierLinked.frame (Heap.cells_adjust_of_outside outsideEarlier _), ?_,
      laterLinked.frame (Heap.cells_adjust_of_outside outsideLater _)⟩, ?_⟩
  · rw [represents.head_eq]
    cases earlier <;> rfl
  · rw [Heap.cells_adjust_self, cell]
    rfl
  · simpa only [addresses, List.map_append, List.map_cons] using distinct

/-- Unlinking an entry: its neighbours are linked to each other. -/
theorem delete (represents : Represents heap head (earlier ++ (address, value) :: later)) :
    Represents
      ((heap.adjust (firstPointer later none) fun node =>
          { node with prev := lastPointer none earlier }).adjust
        (lastPointer none earlier) fun node => { node with next := firstPointer later none })
      (if lastPointer none earlier = none then firstPointer later none else head)
      (earlier ++ later) := by
  rcases Linked.append.mp represents.linked with ⟨earlierLinked, -, laterLinked⟩
  have distinct := represents.distinct
  simp only [addresses, List.map_append, List.map_cons] at distinct
  rcases List.nodup_append.mp distinct with ⟨earlierDistinct, withEntry, apart⟩
  have laterDistinct := (List.nodup_cons.mp withEntry).2
  refine ⟨?_, Linked.append.mpr ⟨?_, ?_⟩, ?_⟩
  · rw [represents.head_eq]
    cases earlier with
    | nil => rfl
    | cons entry rest => exact if_neg (lastPointer_cons_ne_none _ _ _)
  · refine Linked.setNext (earlierLinked.frame ?_) earlierDistinct _
    intro other otherMem
    apply Heap.cells_adjust_of_ne
    apply firstPointer_ne_of_notMem
    intro otherLater
    exact apart other otherMem other (List.mem_cons_of_mem _ otherLater) rfl
  · refine (laterLinked.setPrev laterDistinct _).frame ?_
    intro other otherMem
    apply Heap.cells_adjust_of_ne
    apply lastPointer_ne_of_notMem
    intro otherEarlier
    exact apart other otherEarlier other (List.mem_cons_of_mem _ otherMem) rfl
  · simp only [addresses, List.map_append]
    apply List.nodup_append.mpr
    refine ⟨earlierDistinct, laterDistinct, ?_⟩
    intro other otherMem same sameMem
    exact apart other otherMem same (List.mem_cons_of_mem _ sameMem)

end Represents

end Lucciefr
