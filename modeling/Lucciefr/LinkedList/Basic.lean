import Lucciefr.Base.Linked

/-!
# The list macros

The model of `core/list.h`. The macros work on any structure with the pointers
`prev` and `next`; the other fields are the `value` of a node. A list is known
by its head pointer, which is `NULL` for the empty list.

The loops only read the heap while they walk along `next`, so that a walk over
more nodes than the heap ever granted visits a node twice and never ends. The
loops are therefore bounded by the number of granted addresses, and report
divergence beyond it.
-/

namespace Lucciefr

variable {Value : Type}

/-- The loop of `LIST_LAST`, from `element` on. -/
def listLastFrom (heap : Heap (Node Value)) : (turns : ℕ) → (element : Pointer) →
    Except Fault Pointer
  | _, none => .ok none
  | 0, some _ => .error .divergence
  | turns + 1, some element => do
      let node ← heap.load (some element)
      match node.next with
      | none => .ok (some element)
      | some next => listLastFrom heap turns (some next)

/-- `LIST_LAST` -/
def listLast (heap : Heap (Node Value)) (head : Pointer) : Except Fault Pointer :=
  listLastFrom heap heap.bound head

/-- The loop of `LIST_MATCH`, from `element` on. -/
def listMatchFrom (heap : Heap (Node Value)) (condition : Value → Bool) : (turns : ℕ) →
    (element : Pointer) → Except Fault Pointer
  | _, none => .ok none
  | 0, some _ => .error .divergence
  | turns + 1, some element => do
      let node ← heap.load (some element)
      if condition node.value then
        .ok (some element)
      else
        listMatchFrom heap condition turns node.next

/-- `LIST_MATCH` -/
def listMatch (heap : Heap (Node Value)) (head : Pointer) (condition : Value → Bool) :
    Except Fault Pointer :=
  listMatchFrom heap condition heap.bound head

/-- The loop of `LIST_ITERATE`, from `element` on. The body of the loop changes a
state of its own and not the list. -/
def listIterateFrom {State : Type} (heap : Heap (Node Value)) (body : State → ℕ → State) :
    (turns : ℕ) → State → (element : Pointer) → Except Fault State
  | _, state, none => .ok state
  | 0, _, some _ => .error .divergence
  | turns + 1, state, some element => do
      let node ← heap.load (some element)
      listIterateFrom heap body turns (body state element) node.next

/-- `LIST_ITERATE` -/
def listIterate {State : Type} (heap : Heap (Node Value)) (head : Pointer)
    (body : State → ℕ → State) (state : State) : Except Fault State :=
  listIterateFrom heap body heap.bound state head

/-- The second loop of `LIST_ITERATE_REVERSED`, from `element` on. -/
def listIterateReversedFrom {State : Type} (heap : Heap (Node Value)) (body : State → ℕ → State) :
    (turns : ℕ) → State → (element : Pointer) → Except Fault State
  | _, state, none => .ok state
  | 0, _, some _ => .error .divergence
  | turns + 1, state, some element => do
      let node ← heap.load (some element)
      listIterateReversedFrom heap body turns (body state element) node.prev

/-- `LIST_ITERATE_REVERSED` -/
def listIterateReversed {State : Type} (heap : Heap (Node Value)) (head : Pointer)
    (body : State → ℕ → State) (state : State) : Except Fault State := do
  let element ← listLast heap head
  listIterateReversedFrom heap body heap.bound state element

/-- The loop of `LIST_MATCH` for a condition on the element pointer and its fields. -/
def listMatchElementFrom (heap : Heap (Node Value)) (condition : ℕ → Node Value → Bool) :
    (turns : ℕ) → (element : Pointer) → Except Fault Pointer
  | _, none => .ok none
  | 0, some _ => .error .divergence
  | turns + 1, some element => do
      let node ← heap.load (some element)
      if condition element node then
        .ok (some element)
      else
        listMatchElementFrom heap condition turns node.next

/-- `LIST_MATCH` for a condition on the element pointer and its fields. -/
def listMatchElement (heap : Heap (Node Value)) (head : Pointer)
    (condition : ℕ → Node Value → Bool) : Except Fault Pointer :=
  listMatchElementFrom heap condition heap.bound head

/-- `LIST_FIND` -/
def listFind (heap : Heap (Node Value)) (head : Pointer) (value : ℕ) : Except Fault Pointer :=
  listMatchElement heap head fun element _ => element = value

/-- `LIST_COUNT` -/
def listCount (heap : Heap (Node Value)) (head : Pointer) : Except Fault ℕ :=
  listIterate heap head (fun counter _ => counter + 1) 0

/-- `LIST_APPEND`, returning the heap and the head pointer. -/
def listAppend (heap : Heap (Node Value)) (head element : Pointer) :
    Except Fault (Heap (Node Value) × Pointer) := do
  let last ← listLast heap head
  let heap ← heap.modify element fun node => { node with prev := last, next := none }
  let heap ← heap.modifyUnlessNull last fun node => { node with next := element }
  .ok (heap, if last = none then element else head)

/-- `LIST_DELETE`, returning the heap and the head pointer. -/
def listDelete (heap : Heap (Node Value)) (head element : Pointer) :
    Except Fault (Heap (Node Value) × Pointer) := do
  let ⟨prev, next, _⟩ ← heap.load element
  let heap ← heap.modifyUnlessNull next fun node => { node with prev := prev }
  let heap ← heap.modifyUnlessNull prev fun node => { node with next := next }
  .ok (heap, if prev = none then next else head)

end Lucciefr
