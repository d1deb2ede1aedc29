import Lucciefr.Base.Run
import Lucciefr.RingBuffer.Representation

/-!
# The ring buffer refines a bounded FIFO list

Every operation of a ring buffer is simulated by the corresponding operation of
a `BoundedFifo` of the same capacity. The simulation relation also ties the
calls of the free function to the items which the list has dropped, so that the
ownership of the elements follows from the history of the abstract list.
-/

namespace Lucciefr.RingBuffer

universe u

variable {Element : Type u} {build : Build} {capacity : ℕ} {free : Bool}
  {earlier : List Element}

/-- The non-`NULL` element pointer which an operation pushes, if any. -/
def Op.pushed : Op Element → Option Element
  | .push element => element
  | .pushCopy none _ _ => none
  | .pushCopy (some bytes) size malloc => if size = 0 then none else malloc (bytes.take size)
  | .pop => none
  | .clear => none

/-- The buffer passed to `ringbuffer_push_copy` has the number of bytes to copy. -/
def Op.Readable : Op Element → Prop
  | .pushCopy (some bytes) size _ => size ≤ bytes.length
  | _ => True

/-- The operation on the bounded list which an operation implements. -/
def Op.apply (fifo : BoundedFifo Element capacity) (op : Op Element) :
    BoundedFifo Element capacity :=
  match op with
  | .pop => fifo.pop
  | .clear => fifo.clear
  | op =>
      match op.pushed with
      | none => fifo
      | some element => fifo.push element

/-- The bounded list after the given operations on an empty one. -/
def fifoAfter (capacity : ℕ) (ops : List (Op Element)) : BoundedFifo Element capacity :=
  ops.foldl Op.apply (BoundedFifo.empty Element capacity)

/-- The elements released so far: the non-`NULL` arguments of the free function. -/
def releasedElements (rb : RingBuffer Element) : List Element :=
  rb.freed.filterMap id

theorem releasedElements_append {rb next : RingBuffer Element} {calls : List (Option Element)}
    (freed_eq : next.freed = rb.freed ++ calls) :
    next.releasedElements = rb.releasedElements ++ calls.filterMap id := by
  rw [releasedElements, freed_eq, List.filterMap_append, releasedElements]

/-- A ring buffer stores `items` and has, after `earlier`, released exactly `dropped`. -/
structure Stores (build : Build) (capacity : ℕ) (free : Bool) (earlier : List Element)
    (rb : RingBuffer Element) (dropped items : List Element) : Prop where
  represents : ∃ slots, Represents build rb slots items
  capacity_eq : rb.capacity = capacity
  free_eq : rb.free = free
  released_eq : rb.releasedElements = earlier ++ (if free then dropped else [])

namespace Stores

variable {rb : RingBuffer Element} {dropped items : List Element}

theorem count_eq (stores : Stores build capacity free earlier rb dropped items) :
    rb.count = items.length := by
  rcases stores.represents with ⟨slots, represents⟩
  exact represents.count_eq

theorem init (free : Bool) {granted : Bool} {entries : List (Option Element)}
    (capacity_pos : 0 < capacity)
    (allocated : callocPointers Element build granted capacity = some entries) :
    Stores build capacity free [] (init build granted capacity free : RingBuffer Element)
      [] [] := by
  have init_eq : (RingBuffer.init build granted capacity free : RingBuffer Element) =
      { entries := some entries, position := 0, count := 0, capacity := capacity, free := free,
        freed := [] } := by
    simp [RingBuffer.init, capacity_pos, allocated]
  have entries_eq := callocPointers_eq_replicate allocated
  subst entries
  rw [init_eq]
  refine ⟨⟨List.replicate capacity none, ?_⟩, rfl, rfl, by simp [releasedElements]⟩
  exact
    { entries_eq := rfl
      length_eq := List.length_replicate
      laid := Laid.replicate_none capacity_pos
      count_eq := rfl
      small := callocPointers_small allocated }

theorem pop {oldest : Element} {rest : List Element}
    (stores : Stores build capacity free earlier rb dropped (oldest :: rest)) :
    ∃ next, rb.pop build = .ok next ∧
      Stores build capacity free earlier next (dropped ++ [oldest]) rest := by
  rcases stores with ⟨⟨slots, represents⟩, capacity_eq, free_eq, released_eq⟩
  rcases represents.pop with ⟨next, slots', popped, nextRepresents, capacity_next, free_next,
    freed_next⟩
  refine ⟨next, popped, ⟨slots', nextRepresents⟩, capacity_next.trans capacity_eq,
    free_next.trans free_eq, ?_⟩
  rw [releasedElements_append freed_next, released_eq, released, free_eq]
  cases free <;> simp

theorem popWhileAbove (stores : Stores build capacity free earlier rb dropped items) (limit : ℕ) :
    ∃ last, RingBuffer.popWhileAbove build limit rb.count rb = .ok last ∧
      Stores build capacity free earlier last (dropped ++ items.take (items.length - limit))
        (items.drop (items.length - limit)) := by
  apply popWhileAbove_spec (Stores build capacity free earlier)
  · intro rb dropped items stores
    exact stores.count_eq
  · intro rb dropped oldest rest stores
    exact stores.pop
  · exact stores
  · exact stores.count_eq.ge

theorem clear (stores : Stores build capacity free earlier rb dropped items) :
    ∃ last, rb.clear build = .ok last ∧
      Stores build capacity free earlier last (dropped ++ items) [] := by
  simpa [RingBuffer.clear] using stores.popWhileAbove 0

theorem push {fifo : BoundedFifo Element capacity} (capacity_pos : 0 < capacity)
    (stores : Stores build capacity free earlier rb fifo.dropped fifo.items) (element : Element) :
    ∃ next, rb.push build (some element) = .ok next ∧
      Stores build capacity free earlier next (fifo.push element).dropped
        (fifo.push element).items := by
  rcases stores with ⟨⟨slots, represents⟩, capacity_eq, free_eq, released_eq⟩
  by_cases room : fifo.items.length < capacity
  · rcases represents.push_of_room (by rw [capacity_eq]; exact room) element with
      ⟨next, slots', pushed, nextRepresents, capacity_next, free_next, freed_next⟩
    rcases BoundedFifo.push_of_room room element with ⟨items_push, dropped_push⟩
    rw [items_push, dropped_push]
    refine ⟨next, pushed, ⟨slots', nextRepresents⟩, capacity_next.trans capacity_eq,
      free_next.trans free_eq, ?_⟩
    rw [releasedElements_append freed_next, released_eq, released, free_eq]
    cases free <;> simp
  · have full : fifo.items.length = capacity := by
      have := fifo.bounded
      omega
    cases items_eq : fifo.items with
    | nil =>
        rw [items_eq] at full
        simp at full
        omega
    | cons oldest rest =>
        rw [items_eq] at represents
        rcases represents.push_of_full (by rw [capacity_eq, ← full, items_eq]) element with
          ⟨next, slots', pushed, nextRepresents, capacity_next, free_next, freed_next⟩
        rcases BoundedFifo.push_of_full items_eq full element with
          ⟨items_push, dropped_push⟩
        rw [items_push, dropped_push]
        refine ⟨next, pushed, ⟨slots', nextRepresents⟩, capacity_next.trans capacity_eq,
          free_next.trans free_eq, ?_⟩
        rw [releasedElements_append freed_next, released_eq, released, free_eq]
        cases free <;> simp

end Stores

/-- `ringbuffer_push_copy` pushes the copy it made, or does nothing. -/
theorem pushCopy_eq {rb : RingBuffer Element} {buffer : Option (List UInt8)} {size : ℕ}
    {malloc : List UInt8 → Option Element}
    (readable : (Op.pushCopy buffer size malloc).Readable) :
    rb.pushCopy build buffer size malloc =
      rb.push build (Op.pushCopy buffer size malloc).pushed := by
  cases buffer with
  | none => rfl
  | some bytes =>
      simp only [Op.Readable] at readable
      simp only [pushCopy, Op.pushed]
      by_cases empty : size = 0
      · simp [empty, RingBuffer.push]
      · rw [if_neg empty, if_neg empty]
        cases copied : malloc (bytes.take size) with
        | none => rfl
        | some copy => simp [readable]

theorem execute_simulates (capacity_pos : 0 < capacity) {rb : RingBuffer Element}
    (fifo : BoundedFifo Element capacity)
    (stores : Stores build capacity free earlier rb fifo.dropped fifo.items) {op : Op Element}
    (readable : op.Readable) :
    ∃ next, rb.execute build op = .ok next ∧
      Stores build capacity free earlier next (op.apply fifo).dropped (op.apply fifo).items := by
  have pushing : ∀ element : Option Element, ∃ next, rb.push build element = .ok next ∧
      Stores build capacity free earlier next
        (match element with | none => fifo | some element => fifo.push element).dropped
        (match element with | none => fifo | some element => fifo.push element).items := by
    intro element
    cases element with
    | none => exact ⟨rb, rfl, stores⟩
    | some element => exact stores.push capacity_pos element
  cases op with
  | push element => exact pushing element
  | pushCopy buffer size malloc =>
      simp only [execute, pushCopy_eq readable]
      exact pushing _
  | pop =>
      cases items_eq : fifo.items with
      | nil =>
          refine ⟨rb, pop_of_empty (by rw [stores.count_eq, items_eq]; rfl), ?_⟩
          simp only [Op.apply, BoundedFifo.pop_of_nil items_eq]
          exact stores
      | cons oldest rest =>
          rw [items_eq] at stores
          rcases BoundedFifo.pop_of_cons items_eq with ⟨items_pop, dropped_pop⟩
          simp only [Op.apply, items_pop, dropped_pop]
          exact stores.pop
  | clear => exact stores.clear

/-- Every run from a buffer which stores a bounded list is simulated by that list. -/
theorem run_simulated_from (capacity_pos : 0 < capacity) {rb : RingBuffer Element}
    (fifo : BoundedFifo Element capacity)
    (stores : Stores build capacity free earlier rb fifo.dropped fifo.items)
    {ops : List (Op Element)} (readable : ∀ op ∈ ops, op.Readable) :
    ∃ last, run (execute build) rb ops = .ok last ∧
      Stores build capacity free earlier last (ops.foldl Op.apply fifo).dropped
        (ops.foldl Op.apply fifo).items := by
  apply run_simulates Op.apply (fun rb (fifo : BoundedFifo Element capacity) =>
      Stores build capacity free earlier rb fifo.dropped fifo.items) Op.Readable
  · intro rb fifo op stores readable
    exact execute_simulates capacity_pos fifo stores readable
  · exact stores
  · exact readable

/-- Every run from a fresh buffer is simulated by the bounded list. -/
theorem run_simulated {granted : Bool} (free : Bool) {entries : List (Option Element)}
    (capacity_pos : 0 < capacity)
    (allocated : callocPointers Element build granted capacity = some entries)
    {ops : List (Op Element)} (readable : ∀ op ∈ ops, op.Readable) :
    ∃ rb, run (execute build) (init build granted capacity free) ops = .ok rb ∧
      Stores build capacity free [] rb (fifoAfter capacity ops).dropped
        (fifoAfter capacity ops).items := by
  apply run_simulated_from capacity_pos (BoundedFifo.empty Element capacity)
  · exact Stores.init free capacity_pos allocated
  · exact readable

/--
After every run on a ring buffer whose allocation succeeded, the buffer shows
exactly the bounded FIFO list: its count, the element at every index, and the
tail and head. Pushing `NULL`, and popping from an empty buffer, leave the whole
state as it is.
-/
theorem run_refines_boundedFifo (build : Build) (granted : Bool) (capacity : ℕ) (free : Bool)
    (capacity_pos : 0 < capacity) (entries : List (Option Element))
    (allocated : callocPointers Element build granted capacity = some entries)
    (ops : List (Op Element)) (readable : ∀ op ∈ ops, op.Readable) :
    ∃ rb, run (execute build) (init build granted capacity free) ops = .ok rb ∧
      rb.count = (fifoAfter capacity ops).items.length ∧
      (fifoAfter capacity ops).items.length ≤ capacity ∧
      (∀ index, rb.element build index = .ok (fifoAfter capacity ops).items[index]?) ∧
      rb.tail build = .ok (fifoAfter capacity ops).items.head? ∧
      rb.head build = .ok (fifoAfter capacity ops).items.getLast? ∧
      rb.push build none = .ok rb ∧
      ((fifoAfter capacity ops).items = [] → rb.pop build = .ok rb) := by
  rcases run_simulated free capacity_pos allocated readable with ⟨rb, ran, stores⟩
  rcases stores.represents with ⟨slots, represents⟩
  refine ⟨rb, ran, represents.count_eq, (fifoAfter capacity ops).bounded, represents.element,
    represents.tail, represents.head, rfl, ?_⟩
  intro empty
  apply pop_of_empty
  rw [represents.count_eq, empty, List.length_nil]

/-- Three pushes into a buffer of two slots keep the newest two elements. -/
theorem run_refines_boundedFifo_overflow :
    ∃ rb : RingBuffer ℕ,
      run (execute .x64) (init .x64 true 2 true)
        [.push (some 10), .push (some 20), .pushCopy (some [7, 8]) 2 (fun bytes => bytes.length)] =
          .ok rb ∧
      rb.count = 2 ∧ rb.tail .x64 = .ok (some 20) ∧ rb.head .x64 = .ok (some 2) := by
  rcases run_refines_boundedFifo .x64 true 2 true (by decide) [none, none] (by decide)
      [.push (some 10), .push (some 20), .pushCopy (some [7, 8]) 2 (fun bytes => bytes.length)]
      (by simp [Op.Readable]) with ⟨rb, ran, count_eq, -, -, tail_eq, head_eq, -, -⟩
  exact ⟨rb, ran, count_eq, tail_eq, head_eq⟩

end Lucciefr.RingBuffer
