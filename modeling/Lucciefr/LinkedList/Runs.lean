import Lucciefr.Base.Run
import Lucciefr.LinkedList.Correctness

/-!
# Runs of the list macros

Appending and deleting are the two macros which change a list. From the empty
list over an arbitrary heap of nodes, every run of them leaves a doubly linked
list of the elements which an abstract sequence has after the same operations,
so that the loops visit this sequence, forward along `next` and backward along
`prev`. A step writes no node outside the list it leaves.
-/

namespace Lucciefr

variable {Value : Type} {heap : Heap (Node Value)} {head : Pointer}
  {entries earlier later : List (ℕ × Value)} {element : ℕ}

/-- The two macros which change a list. -/
inductive ListOp where
  | append (element : ℕ)
  | delete (element : ℕ)
deriving DecidableEq

/-- Execute one macro on a heap and the head pointer of a list. -/
def listStep : Heap (Node Value) × Pointer → ListOp → Except Fault (Heap (Node Value) × Pointer)
  | (heap, head), .append element => listAppend heap head (some element)
  | (heap, head), .delete element => listDelete heap head (some element)

namespace ListOp

/-- The sequence of elements after an operation. -/
def apply (elements : List ℕ) : ListOp → List ℕ
  | append element => elements ++ [element]
  | delete element => elements.erase element

/-- A node is appended when it is not in the list, and deleted when it is. -/
def Allowed (heap : Heap (Node Value)) (elements : List ℕ) : ListOp → Prop
  | append element => (∃ node, heap.cells element = some node) ∧ element ∉ elements
  | delete element => element ∈ elements

end ListOp

/-- Every operation is allowed in the list which the operations before it leave. -/
def AllAllowed (heap : Heap (Node Value)) : (elements : List ℕ) → List ListOp → Prop
  | _, [] => True
  | elements, op :: ops => op.Allowed heap elements ∧ AllAllowed heap (op.apply elements) ops

/-- The head pointer leads to the elements, in order. -/
def Holds (heap : Heap (Node Value)) (head : Pointer) (elements : List ℕ) : Prop :=
  ∃ entries, addresses entries = elements ∧ Represents heap head entries

theorem listIterateFrom_eq {State : Type} (body : State → ℕ → State) {before : Pointer}
    {turns : ℕ} (enough : entries.length ≤ turns) (linked : Linked heap before entries none)
    (state : State) :
    listIterateFrom heap body turns state (firstPointer entries none) =
      .ok ((addresses entries).foldl body state) := by
  induction entries generalizing before turns state with
  | nil => cases turns <;> rfl
  | cons entry rest ih =>
      rcases entry with ⟨address, value⟩
      cases turns with
      | zero => simp at enough
      | succ turns =>
          have loaded := Heap.load_of_live linked.1
          simp only [firstPointer, listIterateFrom, loaded, ok_bind]
          exact ih (Nat.le_of_succ_le_succ enough) linked.2 (body state address)

/-- Going back from the last entry of a segment which starts the list. -/
theorem listIterateReversedFrom_eq {State : Type} (body : State → ℕ → State) {after : Pointer}
    {turns : ℕ} (enough : entries.length ≤ turns) (linked : Linked heap none entries after)
    (state : State) :
    listIterateReversedFrom heap body turns state (lastPointer none entries) =
      .ok ((addresses entries).reverse.foldl body state) := by
  induction entries using List.reverseRecOn generalizing after turns state with
  | nil => cases turns <;> rfl
  | append_singleton rest entry ih =>
      rcases entry with ⟨address, value⟩
      rcases Linked.append.mp linked with ⟨restLinked, cell, -⟩
      cases turns with
      | zero => simp at enough
      | succ turns =>
          have loaded := Heap.load_of_live cell
          have shorter : rest.length ≤ turns := by simpa using enough
          simp only [lastPointer_append, lastPointer, listIterateReversedFrom, loaded, ok_bind]
          rw [ih shorter restLinked]
          simp [addresses]

/-- Whether the node at an address satisfies a condition on the pointer and its fields. -/
def Heap.satisfies (heap : Heap (Node Value)) (condition : ℕ → Node Value → Bool)
    (address : ℕ) : Bool :=
  match heap.cells address with
  | none => false
  | some node => condition address node

theorem listMatchElementFrom_eq (condition : ℕ → Node Value → Bool) {before : Pointer}
    {turns : ℕ} (enough : entries.length ≤ turns) (linked : Linked heap before entries none) :
    listMatchElementFrom heap condition turns (firstPointer entries none) =
      .ok ((addresses entries).find? (heap.satisfies condition)) := by
  induction entries generalizing before turns with
  | nil => cases turns <;> rfl
  | cons entry rest ih =>
      rcases entry with ⟨address, value⟩
      cases turns with
      | zero => simp at enough
      | succ turns =>
          have cell := linked.1
          have loaded := Heap.load_of_live cell
          have satisfies_eq : heap.satisfies condition address =
              condition address ⟨before, firstPointer rest none, value⟩ := by
            simp only [Heap.satisfies, cell]
          rw [firstPointer, listMatchElementFrom, loaded, ok_bind, ← satisfies_eq]
          by_cases satisfied : heap.satisfies condition address = true
          · simp [satisfied]
          · rw [if_neg satisfied, ih (Nat.le_of_succ_le_succ enough) linked.2]
            simp [satisfied]

theorem listMatch_eq_listMatchElement (heap : Heap (Node Value)) (head : Pointer)
    (condition : Value → Bool) :
    listMatch heap head condition =
      listMatchElement heap head fun _ node => condition node.value := by
  have loops : ∀ (turns : ℕ) (element : Pointer), listMatchFrom heap condition turns element =
      listMatchElementFrom heap (fun _ node => condition node.value) turns element := by
    intro turns
    induction turns with
    | zero => intro element; cases element <;> rfl
    | succ turns ih =>
        intro element
        cases element with
        | none => rfl
        | some element => simp only [listMatchFrom, listMatchElementFrom, ih]
  exact loops heap.bound head

theorem lastPointer_eq_getLast? (entries : List (ℕ × Value)) :
    lastPointer none entries = (addresses entries).getLast? := by
  induction entries using List.reverseRecOn with
  | nil => rfl
  | append_singleton rest entry ih => simp [lastPointer, addresses]

theorem find?_satisfies_eq (linked : Linked heap none entries none) (value : ℕ) :
    (addresses entries).find? (heap.satisfies fun element _ => element = value) =
      if value ∈ addresses entries then some value else none := by
  have satisfies_eq : ∀ address ∈ addresses entries,
      heap.satisfies (fun element _ => element = value) address = decide (address = value) := by
    intro address addressMem
    rcases linked.live addressMem with ⟨node, live, -⟩
    simp only [Heap.satisfies, live]
  by_cases valueMem : value ∈ addresses entries
  · rw [if_pos valueMem]
    cases found : (addresses entries).find? (heap.satisfies fun element _ => element = value) with
    | none =>
        have unsatisfied := List.find?_eq_none.mp found value valueMem
        simp [satisfies_eq value valueMem] at unsatisfied
    | some address =>
        have satisfied := List.find?_some found
        rw [satisfies_eq address (List.mem_of_find?_eq_some found)] at satisfied
        rw [of_decide_eq_true satisfied]
  · rw [if_neg valueMem, List.find?_eq_none]
    intro address addressMem
    rw [satisfies_eq address addressMem]
    simpa using ne_of_mem_of_not_mem addressMem valueMem

/-- What the macros which read a list compute on a list of the given elements. -/
structure ReadsAs (heap : Heap (Node Value)) (head : Pointer) (elements : List ℕ) : Prop where
  iterate : ∀ {State : Type} (body : State → ℕ → State) (state : State),
    listIterate heap head body state = .ok (elements.foldl body state)
  iterateReversed : ∀ {State : Type} (body : State → ℕ → State) (state : State),
    listIterateReversed heap head body state = .ok (elements.reverse.foldl body state)
  count : listCount heap head = .ok elements.length
  last : listLast heap head = .ok elements.getLast?
  matchElement : ∀ condition, listMatchElement heap head condition =
    .ok (elements.find? (heap.satisfies condition))
  find : ∀ value, listFind heap head value =
    .ok (if value ∈ elements then some value else none)
  matchValue : ∀ condition, listMatch heap head condition =
    .ok (elements.find? (heap.satisfies fun _ node => condition node.value))

theorem foldl_count (elements : List ℕ) (counter : ℕ) :
    elements.foldl (fun counter _ => counter + 1) counter = counter + elements.length := by
  induction elements generalizing counter with
  | nil => rfl
  | cons element rest ih =>
      rw [List.foldl_cons, ih, List.length_cons]
      omega

namespace Holds

variable {elements : List ℕ}

theorem nil (heap : Heap (Node Value)) : Holds heap none [] :=
  ⟨[], rfl, Represents.nil heap⟩

theorem readsAs (holds : Holds heap head elements) : ReadsAs heap head elements := by
  rcases holds with ⟨entries, rfl, represents⟩
  have iterate : ∀ {State : Type} (body : State → ℕ → State) (state : State),
      listIterate heap head body state = .ok ((addresses entries).foldl body state) := by
    intro State body state
    rw [listIterate, represents.head_eq]
    exact listIterateFrom_eq body represents.length_le represents.linked state
  have matchElement : ∀ condition, listMatchElement heap head condition =
      .ok ((addresses entries).find? (heap.satisfies condition)) := by
    intro condition
    rw [listMatchElement, represents.head_eq]
    exact listMatchElementFrom_eq condition represents.length_le represents.linked
  refine ⟨iterate, ?_, ?_, ?_, matchElement, ?_, ?_⟩
  · intro State body state
    rw [listIterateReversed, listLast_eq represents, ok_bind]
    exact listIterateReversedFrom_eq body represents.length_le represents.linked state
  · rw [listCount, iterate, foldl_count, Nat.zero_add]
  · rw [listLast_eq represents, lastPointer_eq_getLast?]
  · intro value
    rw [listFind, matchElement, find?_satisfies_eq represents.linked]
  · intro condition
    rw [listMatch_eq_listMatchElement, matchElement]

theorem live (holds : Holds heap head elements) (elementMem : element ∈ elements) :
    ∃ node, heap.cells element = some node := by
  rcases holds with ⟨entries, rfl, represents⟩
  rcases represents.linked.live elementMem with ⟨node, live, -⟩
  exact ⟨node, live⟩

/-- An allowed operation leaves the elements of the abstract sequence and writes no
node outside them. -/
theorem step (holds : Holds heap head elements) {op : ListOp} (allowed : op.Allowed heap elements) :
    ∃ heap' head', listStep (heap, head) op = .ok (heap', head') ∧
      Holds heap' head' (op.apply elements) ∧
      ∀ other, other ∉ op.apply elements → heap'.cells other = heap.cells other := by
  rcases holds with ⟨entries, rfl, represents⟩
  cases op with
  | append element =>
      rcases allowed with ⟨⟨node, live⟩, outside⟩
      rcases listAppend_spec represents live outside with
        ⟨heap', head', appended, representsAfter, -, frame⟩
      refine ⟨heap', head', appended, ⟨_, by simp [ListOp.apply], representsAfter⟩, ?_⟩
      intro other otherOutside
      simp only [ListOp.apply, List.mem_append, List.mem_singleton, not_or] at otherOutside
      exact frame other otherOutside.2 otherOutside.1
  | delete element =>
      rcases List.mem_map.mp allowed with ⟨⟨address, value⟩, entryMem, rfl⟩
      rcases List.append_of_mem entryMem with ⟨earlier, later, rfl⟩
      rcases listDelete_spec represents with
        ⟨heap', head', deleted, representsAfter, -, frame⟩
      have distinct := represents.distinct
      have notEarlier : address ∉ addresses earlier := by
        simp only [addresses, List.map_append, List.map_cons] at distinct
        intro earlierMem
        exact (List.nodup_append.mp distinct).2.2 address earlierMem address (by simp) rfl
      have elements_eq : addresses (earlier ++ later) =
          (addresses (earlier ++ (address, value) :: later)).erase address := by
        simp only [addresses, List.map_append, List.map_cons]
        rw [List.erase_append_right _ notEarlier, List.erase_cons_head]
      refine ⟨heap', head', deleted, ⟨_, elements_eq, representsAfter⟩, ?_⟩
      intro other otherOutside
      apply frame
      rw [elements_eq]
      exact otherOutside

end Holds

/-- Appending and deleting neither add nor remove nodes. -/
theorem listStep_live {op : ListOp} {elements : List ℕ} {heap' : Heap (Node Value)}
    {head' : Pointer} (holds : Holds heap head elements) (allowed : op.Allowed heap elements)
    (stepped : listStep (heap, head) op = .ok (heap', head'))
    (live : ∃ node, heap.cells element = some node) :
    ∃ node, heap'.cells element = some node := by
  rcases holds.step allowed with ⟨heap'', head'', again, holdsAfter, frame⟩
  rw [stepped, Except.ok.injEq, Prod.mk.injEq] at again
  rcases again with ⟨rfl, rfl⟩
  by_cases elementMem : element ∈ op.apply elements
  · exact holdsAfter.live elementMem
  · rw [frame element elementMem]
    exact live

theorem ListOp.Allowed.of_live {op : ListOp} {elements : List ℕ} {heap' : Heap (Node Value)}
    (kept : ∀ element, (∃ node, heap.cells element = some node) →
      ∃ node, heap'.cells element = some node)
    (allowed : op.Allowed heap elements) : op.Allowed heap' elements := by
  cases op with
  | append element => exact ⟨kept element allowed.1, allowed.2⟩
  | delete element => exact allowed

theorem AllAllowed.of_live {ops : List ListOp} {elements : List ℕ} {heap' : Heap (Node Value)}
    (kept : ∀ element, (∃ node, heap.cells element = some node) →
      ∃ node, heap'.cells element = some node)
    (allowed : AllAllowed heap elements ops) : AllAllowed heap' elements ops := by
  induction ops generalizing elements with
  | nil => trivial
  | cons op ops ih => exact ⟨allowed.1.of_live kept, ih allowed.2⟩

/-- From a heap which holds the elements, a run of allowed operations leaves the
elements of the abstract sequence, and all nodes which were live. -/
theorem run_holds {ops : List ListOp} {elements : List ℕ} (holds : Holds heap head elements)
    (allowed : AllAllowed heap elements ops) :
    ∃ heap' head', run listStep (heap, head) ops = .ok (heap', head') ∧
      Holds heap' head' (ops.foldl ListOp.apply elements) ∧
      ∀ element, (∃ node, heap.cells element = some node) →
        ∃ node, heap'.cells element = some node := by
  induction ops generalizing heap head elements with
  | nil => exact ⟨heap, head, rfl, holds, fun element live => live⟩
  | cons op ops ih =>
      rcases allowed with ⟨opAllowed, restAllowed⟩
      rcases holds.step opAllowed with ⟨heap', head', stepped, holdsAfter, -⟩
      have kept : ∀ element, (∃ node, heap.cells element = some node) →
          ∃ node, heap'.cells element = some node :=
        fun element live => listStep_live holds opAllowed stepped live
      rcases ih holdsAfter (restAllowed.of_live kept) with
        ⟨last, lastHead, ran, holdsLast, keptRest⟩
      refine ⟨last, lastHead, ?_, holdsLast, ?_⟩
      · rw [run_cons_of_ok stepped, ran]
      · intro element live
        exact keptRest element (kept element live)

/--
From `head = NULL` over an arbitrary heap, a run which appends elements not in the
list and deletes elements in the list ends in a well-formed doubly linked list of
the elements of the abstract sequence, which the other macros read as that
sequence. A further step does not write the nodes outside the list it leaves.
-/
theorem list_macros_maintain_sequence (heap : Heap (Node Value)) (ops : List ListOp)
    (allowed : AllAllowed heap [] ops) :
    ∃ heap' head', run listStep (heap, none) ops = .ok (heap', head') ∧
      Holds heap' head' (ops.foldl ListOp.apply []) ∧
      ReadsAs heap' head' (ops.foldl ListOp.apply []) ∧
      ∀ op : ListOp, op.Allowed heap (ops.foldl ListOp.apply []) →
        ∃ heap'' head'', listStep (heap', head') op = .ok (heap'', head'') ∧
          ∀ other, other ∉ op.apply (ops.foldl ListOp.apply []) →
            heap''.cells other = heap'.cells other := by
  rcases run_holds (Holds.nil heap) allowed with ⟨heap', head', ran, holds, kept⟩
  refine ⟨heap', head', ran, holds, holds.readsAs, ?_⟩
  intro op opAllowed
  rcases holds.step (opAllowed.of_live kept) with ⟨heap'', head'', stepped, -, frame⟩
  exact ⟨heap'', head'', stepped, frame⟩

/-- Three nodes with leftover pointers: the middle one of the list is deleted again. -/
theorem list_macros_maintain_sequence_three :
    ∃ heap' head', run listStep
        ((((Heap.empty (Node ℕ)).alloc ⟨some 7, some 8, 30⟩).2.alloc ⟨some 0, none, 10⟩).2.alloc
          ⟨none, some 9, 20⟩ |>.2, none)
        [.append 1, .append 2, .append 0, .delete 2] = .ok (heap', head') ∧
      Holds heap' head' [1, 0] ∧ ReadsAs heap' head' [1, 0] := by
  rcases list_macros_maintain_sequence
      ((((Heap.empty (Node ℕ)).alloc ⟨some 7, some 8, 30⟩).2.alloc ⟨some 0, none, 10⟩).2.alloc
        ⟨none, some 9, 20⟩).2
      [.append 1, .append 2, .append 0, .delete 2]
      ⟨⟨⟨_, rfl⟩, by decide⟩, ⟨⟨_, rfl⟩, by decide⟩, ⟨⟨_, rfl⟩, by decide⟩,
        show 2 ∈ [1, 2, 0] by decide, trivial⟩ with
    ⟨heap', head', ran, holds, reads, -⟩
  exact ⟨heap', head', ran, holds, reads⟩

end Lucciefr
