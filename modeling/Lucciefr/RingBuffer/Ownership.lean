import Lucciefr.RingBuffer.Refinement

/-!
# Ownership of the elements of a ring buffer

A ring buffer with a free function owns the elements pushed to it. The elements
released so far followed by the stored ones are the history of the bounded
list, which is the sequence of all elements pushed; hence elements are released
once each, in push order, and never while they are still stored. Calls of the
free function with `NULL`, which `ringbuffer_set` makes for a vacant slot, are
left out of the count.
-/

namespace Lucciefr.RingBuffer

universe u

variable {Element : Type u} {build : Build} {capacity : ℕ}

/-- The non-`NULL` elements which a run pushes, in order. -/
def pushes (ops : List (Op Element)) : List Element :=
  ops.filterMap Op.pushed

theorem history_apply (fifo : BoundedFifo Element capacity) (op : Op Element) :
    (op.apply fifo).history = fifo.history ++ op.pushed.toList := by
  cases op with
  | push element => cases element <;> simp [Op.apply, Op.pushed]
  | pushCopy buffer size malloc =>
      simp only [Op.apply]
      cases (Op.pushCopy buffer size malloc).pushed <;> simp
  | pop => simp [Op.apply, Op.pushed]
  | clear => simp [Op.apply, Op.pushed]

theorem history_fifoAfter (capacity : ℕ) (ops : List (Op Element)) :
    (fifoAfter capacity ops).history = pushes ops := by
  have general : ∀ fifo : BoundedFifo Element capacity,
      (ops.foldl Op.apply fifo).history = fifo.history ++ pushes ops := by
    induction ops with
    | nil =>
        intro fifo
        simp [pushes]
    | cons op ops ih =>
        intro fifo
        rw [List.foldl_cons, ih, history_apply, List.append_assoc]
        simp only [pushes, List.filterMap_cons]
        cases op.pushed <;> simp
  simpa [fifoAfter] using general (BoundedFifo.empty Element capacity)

theorem Stores.releasedElements_eq {rb : RingBuffer Element} {dropped items : List Element}
    (stores : Stores build capacity true [] rb dropped items) : rb.releasedElements = dropped := by
  simpa using stores.released_eq

/-- `ringbuffer_done` releases what is still stored and gives up the array. -/
theorem Stores.done {rb : RingBuffer Element} {dropped items : List Element}
    (stores : Stores build capacity true [] rb dropped items) :
    ∃ last, rb.done build = .ok last ∧ last.releasedElements = dropped ++ items ∧
      last.count = 0 ∧ last.entries = none := by
  rcases stores.clear with ⟨cleared, cleared_eq, clearedStores⟩
  refine ⟨{ cleared with capacity := 0, entries := none }, ?_, ?_, ?_, rfl⟩
  · simp [RingBuffer.done, cleared_eq]
  · exact clearedStores.releasedElements_eq
  · simpa using clearedStores.count_eq

/--
After every run on a ring buffer with a free function, the elements released are
the first ones pushed, all but as many as are still stored; every slot outside
the stored window is vacant; and clearing the buffer, or finishing it, releases
exactly the rest.
-/
theorem run_releases_in_push_order (build : Build) (granted : Bool) (capacity : ℕ)
    (capacity_pos : 0 < capacity) (entries : List (Option Element))
    (allocated : callocPointers Element build granted capacity = some entries)
    (ops : List (Op Element)) (readable : ∀ op ∈ ops, op.Readable) :
    ∃ rb slots, run (execute build) (init build granted capacity true) ops = .ok rb ∧
      rb.releasedElements = (pushes ops).take ((pushes ops).length - rb.count) ∧
      rb.entries = some slots ∧ slots.length = capacity ∧
      (∀ slot < capacity, (∀ offset < rb.count, circular rb.position capacity offset ≠ slot) →
        slots[slot]? = some none) ∧
      (∃ cleared, rb.clear build = .ok cleared ∧ cleared.releasedElements = pushes ops) ∧
      (∃ finished, rb.done build = .ok finished ∧ finished.releasedElements = pushes ops ∧
        finished.count = 0) := by
  rcases run_simulated true capacity_pos allocated readable with ⟨rb, ran, stores⟩
  rcases stores.represents with ⟨slots, represents⟩
  have length_eq : slots.length = capacity := represents.length_eq.trans stores.capacity_eq
  have everything : (fifoAfter capacity ops).dropped ++ (fifoAfter capacity ops).items =
      pushes ops := history_fifoAfter capacity ops
  refine ⟨rb, slots, ran, ?_, represents.entries_eq, length_eq, ?_, ?_, ?_⟩
  · rw [stores.releasedElements_eq, BoundedFifo.dropped_eq_take, history_fifoAfter,
      stores.count_eq]
  · intro slot slot_lt outside
    apply represents.laid.vacant (by rw [length_eq]; exact slot_lt)
    intro offset offset_lt
    rw [length_eq]
    exact outside offset (by rw [represents.count_eq]; exact offset_lt)
  · rcases stores.clear with ⟨cleared, cleared_eq, clearedStores⟩
    exact ⟨cleared, cleared_eq, by rw [clearedStores.releasedElements_eq, everything]⟩
  · rcases stores.done with ⟨finished, finished_eq, released_eq, count_eq, -⟩
    exact ⟨finished, finished_eq, by rw [released_eq, everything], count_eq⟩

/-- A buffer of one slot releases each element when the next one is pushed. -/
theorem run_releases_in_push_order_overflow :
    ∃ rb : RingBuffer ℕ,
      run (execute .x86) (init .x86 true 1 true)
        [.push (some 10), .push none, .push (some 20), .push (some 30)] = .ok rb ∧
      rb.releasedElements = [10, 20, 30].take (3 - rb.count) ∧
      (∃ finished, rb.done .x86 = .ok finished ∧ finished.releasedElements = [10, 20, 30] ∧
        finished.count = 0) := by
  rcases run_releases_in_push_order .x86 true 1 (by decide) [none] (by decide)
      [.push (some 10), .push none, .push (some 20), .push (some 30)]
      (by simp [Op.Readable]) with ⟨rb, slots, ran, released_eq, -, -, -, -, finished⟩
  exact ⟨rb, ran, released_eq, finished⟩

end Lucciefr.RingBuffer
