import Lucciefr.RingBuffer.Ownership

/-!
# Resizing a ring buffer

`ringbuffer_resize` replaces the array but does not assign the capacity field,
so after resizing to another capacity the field and the length of the array
disagree. `Window` is the weaker invariant which holds of every state a run
with resizes can reach: the stored elements can be read and popped, but nothing
is known about the slots which later pushes will write. From a window, a
resize to the capacity which the field already has restores the full invariant,
and no other resize does.
-/

namespace Lucciefr.RingBuffer

universe u

variable {Element : Type u} {build : Build} {rb : RingBuffer Element}
  {slots : List (Option Element)} {items : List Element}

/-- The operations of a run which may also resize the buffer. -/
inductive Command (Element : Type u) where
  | op (operation : Op Element)
  | resize (newCapacity : ℕ) (granted : Bool)

/-- Execute one operation of a run with resizes. -/
def executeCommand (build : Build) (rb : RingBuffer Element) : Command Element →
    Except Fault (RingBuffer Element)
  | .op op => rb.execute build op
  | .resize newCapacity granted => rb.resize build newCapacity granted

/-- The states reached from `ringbuffer_init` with a positive capacity. -/
def Reachable (build : Build) (rb : RingBuffer Element) : Prop :=
  ∃ granted capacity free commands, 0 < capacity ∧
    run (executeCommand build) (init build granted capacity free) commands = .ok rb

/-- A buffer shows a list: its count is the length, and every index reads the list. -/
def Shows (build : Build) (rb : RingBuffer Element) (items : List Element) : Prop :=
  rb.count = items.length ∧ ∀ index, rb.element build index = .ok items[index]?

/-- Every later run succeeds, shows the bounded list which starts with `items`, and releases
what that list drops. -/
def BehavesAsFifo (build : Build) (rb : RingBuffer Element) (capacity : ℕ)
    (items : List Element) : Prop :=
  ∃ fifo : BoundedFifo Element capacity, fifo.items = items ∧ fifo.dropped = [] ∧
    ∀ ops : List (Op Element), (∀ op ∈ ops, op.Readable) →
      ∃ last, run (execute build) rb ops = .ok last ∧
        last.Shows build (ops.foldl Op.apply fifo).items ∧
        last.releasedElements = rb.releasedElements ++
          (if rb.free then (ops.foldl Op.apply fifo).dropped else [])

/--
What resizing to `newCapacity` should do. If the allocation fails the buffer is
unchanged. Otherwise the newest elements which fit are kept in order, the older
ones are released oldest first, the capacity field and the length of the array
are the new capacity, and from there on the buffer is a bounded FIFO list of
that capacity.
-/
def ResizesCorrectly (build : Build) (rb : RingBuffer Element) (newCapacity : ℕ)
    (granted : Bool) : Prop :=
  match callocPointers Element build granted newCapacity with
  | none => rb.resize build newCapacity granted = .ok rb
  | some _ =>
      ∃ items next slots, rb.Shows build items ∧
        rb.resize build newCapacity granted = .ok next ∧
        next.Shows build (items.drop (items.length - newCapacity)) ∧
        next.freed = rb.freed ++
          (if rb.free then (items.take (items.length - newCapacity)).map some else []) ∧
        next.entries = some slots ∧ slots.length = newCapacity ∧ next.capacity = newCapacity ∧
        next.BehavesAsFifo build newCapacity (items.drop (items.length - newCapacity))

/-- The stored elements can be read and popped. -/
structure Window (build : Build) (rb : RingBuffer Element) (slots : List (Option Element))
    (items : List Element) : Prop where
  entries_eq : rb.entries = some slots
  position_lt : rb.position < rb.capacity
  count_eq : rb.count = items.length
  count_le : rb.count ≤ rb.capacity
  small : 2 * rb.capacity < 2 ^ build.bits
  stored : ∀ offset (inside : offset < items.length),
    slots[circular rb.position rb.capacity offset]? = some (some items[offset])

theorem Represents.window (represents : Represents build rb slots items) :
    Window build rb slots items where
  entries_eq := represents.entries_eq
  position_lt := represents.position_lt
  count_eq := represents.count_eq
  count_le := represents.count_le
  small := represents.small
  stored := by
    intro offset inside
    rw [← represents.length_eq]
    exact represents.laid.getElem?_of_lt offset inside

namespace Window

theorem shows (window : Window build rb slots items) : rb.Shows build items :=
  ⟨window.count_eq, element_eq window.entries_eq window.position_lt window.small window.count_eq
    window.count_le window.stored⟩

theorem stored_set (window : Window build rb slots items) (offset other : ℕ)
    (inside : offset < items.length) (other_lt : other < rb.capacity) (different : offset ≠ other)
    (element : Option Element) :
    (slots.set (circular rb.position rb.capacity other) element)[
      circular rb.position rb.capacity offset]? = some (some items[offset]) := by
  have bound := window.count_le
  rw [window.count_eq] at bound
  rw [List.getElem?_set_ne, window.stored offset inside]
  intro same
  exact different (circular_injective (by omega) other_lt same.symm)

theorem pop {oldest : Element} {rest : List Element}
    (window : Window build rb slots (oldest :: rest)) :
    ∃ next slots', rb.pop build = .ok next ∧ Window build next slots' rest ∧
      next.capacity = rb.capacity ∧ next.free = rb.free ∧
      next.freed = rb.freed ++ rb.released (some oldest) := by
  have bound := window.count_le
  have count_eq := window.count_eq
  simp only [List.length_cons] at count_eq
  have first := window.stored 0 (by simp)
  rw [circular_zero window.position_lt] at first
  have slot_lt : rb.position < slots.length := by
    by_contra outside
    rw [List.getElem?_eq_none (by omega)] at first
    simp at first
  rw [List.getElem?_eq_getElem slot_lt] at first
  have popped := pop_eq window.entries_eq window.position_lt window.small (by omega) bound slot_lt
  refine ⟨_, slots.set rb.position none, popped, ?_, rfl, rfl, ?_⟩
  · refine ⟨rfl, circular_lt window.position_lt (by omega), ?_, ?_, window.small, ?_⟩
    · simp [count_eq]
    · exact Nat.le_trans (Nat.sub_le _ _) bound
    · intro offset inside
      have kept := window.stored_set (offset + 1) 0 (by simpa using inside) (by omega)
        (by omega) none
      rw [circular_zero window.position_lt] at kept
      simpa [circular_advance window.position_lt (show offset < rb.capacity by omega)] using kept
  · have element_eq : slots[rb.position] = some oldest := by simpa using first
    rw [element_eq]

theorem set_of_outside (window : Window build rb slots items) {index slot : ℕ}
    (slot_eq : rb.wrap build index = slot) (below : slot < rb.capacity)
    (outside : ¬slot < slots.length) (element : Option Element) :
    rb.set build index element = .error .outOfBounds := by
  have absent : slots[slot]? = none := List.getElem?_eq_none (by omega)
  simp only [set, slot_eq, freeEntry, wrap_of_lt below]
  by_cases free : rb.free
  · simp [if_pos free, load, window.entries_eq, absent]
  · simp [if_neg free, store, window.entries_eq, outside]

theorem push {element : Element} {next : RingBuffer Element}
    (window : Window build rb slots items) (pushed : rb.push build (some element) = .ok next) :
    ∃ slots' items', Window build next slots' items' := by
  have bound := window.count_le
  have count_eq := window.count_eq
  by_cases room : rb.count < rb.capacity
  · have slot_lt : circular rb.position rb.capacity rb.count < slots.length := by
      by_contra outside
      have faults := window.set_of_outside (wrap_add window.position_lt bound window.small)
        (circular_lt window.position_lt bound) outside (some element)
      simp [RingBuffer.push, room, faults] at pushed
    rw [push_eq_of_room element window.entries_eq window.position_lt window.small room slot_lt]
      at pushed
    simp only [Except.ok.injEq] at pushed
    subst next
    refine ⟨_, items ++ [element], rfl, window.position_lt, ?_, room, window.small, ?_⟩
    · simp [count_eq]
    · intro offset inside
      simp only [List.length_append, List.length_singleton] at inside
      by_cases last : offset = items.length
      · subst last
        simp [← count_eq, slot_lt]
      · have kept := window.stored_set offset rb.count (by omega) room (by omega)
          (some element)
        rw [kept, List.getElem_append_left (by omega)]
  · have slot_lt : rb.position < slots.length := by
      by_contra outside
      have faults := window.set_of_outside (wrap_of_lt window.position_lt) window.position_lt
        outside (some element)
      simp [RingBuffer.push, room, faults] at pushed
    rw [push_eq_of_full element window.entries_eq window.position_lt window.small room slot_lt]
      at pushed
    simp only [Except.ok.injEq] at pushed
    subst next
    have capacity_pos : 0 < rb.capacity := Nat.zero_lt_of_lt window.position_lt
    have position_lt : circular rb.position rb.capacity 1 < rb.capacity :=
      circular_lt window.position_lt capacity_pos
    refine ⟨_, items.drop 1 ++ [element], rfl, position_lt, ?_, bound, window.small, ?_⟩
    · simp only [List.length_append, List.length_drop, List.length_singleton]
      omega
    · intro offset inside
      simp only [List.length_append, List.length_drop, List.length_singleton] at inside
      simp only
      rw [circular_advance window.position_lt (show offset < rb.capacity by omega)]
      by_cases last : offset + 1 = items.length
      · have wrapped : circular rb.position rb.capacity (offset + 1) = rb.position := by
          rw [show offset + 1 = rb.capacity by omega, circular_size]
        rw [wrapped, List.getElem?_set_self slot_lt,
          List.getElem_append_right (by simp only [List.length_drop]; omega)]
        simp
      · have kept := window.stored_set (offset + 1) 0 (by omega) capacity_pos (by omega)
          (some element)
        rw [circular_zero window.position_lt] at kept
        rw [kept, List.getElem_append_left (by simp only [List.length_drop]; omega)]
        simp

end Window

/-- The relation of the popping loop: a window, and the elements released since `start`. -/
structure Popping (build : Build) (start rb : RingBuffer Element) (dropped items : List Element) :
    Prop where
  window : ∃ slots, Window build rb slots items
  capacity_eq : rb.capacity = start.capacity
  free_eq : rb.free = start.free
  freed_eq : rb.freed = start.freed ++ (if start.free then dropped.map some else [])

namespace Popping

variable {start : RingBuffer Element} {dropped : List Element}

theorem refl (window : Window build rb slots items) : Popping build rb rb [] items where
  window := ⟨slots, window⟩
  capacity_eq := rfl
  free_eq := rfl
  freed_eq := by simp

theorem count_eq (popping : Popping build start rb dropped items) :
    rb.count = items.length := by
  rcases popping.window with ⟨slots, window⟩
  exact window.count_eq

theorem pop {oldest : Element} {rest : List Element}
    (popping : Popping build start rb dropped (oldest :: rest)) :
    ∃ next, rb.pop build = .ok next ∧ Popping build start next (dropped ++ [oldest]) rest := by
  rcases popping with ⟨⟨slots, window⟩, capacity_eq, free_eq, freed_eq⟩
  rcases window.pop with ⟨next, slots', popped, nextWindow, capacity_next, free_next, freed_next⟩
  refine ⟨next, popped, ⟨slots', nextWindow⟩, capacity_next.trans capacity_eq,
    free_next.trans free_eq, ?_⟩
  rw [freed_next, freed_eq, released, free_eq]
  cases start.free <;> simp

/-- The loop of `ringbuffer_clear` and of the trimming in `ringbuffer_resize`. -/
theorem popWhileAbove (window : Window build rb slots items) (limit : ℕ) :
    ∃ last, RingBuffer.popWhileAbove build limit rb.count rb = .ok last ∧
      Popping build rb last (items.take (items.length - limit))
        (items.drop (items.length - limit)) := by
  have loop := popWhileAbove_spec (Popping build rb)
    (by
      intro rb' dropped items popping
      exact popping.count_eq)
    (by
      intro rb' dropped oldest rest popping
      exact popping.pop)
    limit (Popping.refl window) window.count_eq.ge
  simpa using loop

end Popping

/-- Copying the elements fills the first slots of the new array. -/
theorem copyEntries_eq (shows : rb.Shows build items) (size : ℕ) (fits : items.length ≤ size)
    (remaining i : ℕ) (position : i + remaining = items.length) :
    rb.copyEntries build remaining i
        ((items.take i).map some ++ List.replicate (size - i) none) =
      .ok (items.map some ++ List.replicate (size - items.length) none) := by
  induction remaining generalizing i with
  | zero =>
      have finished : i = items.length := by omega
      simp [copyEntries, finished]
  | succ remaining ih =>
      have inside : i < items.length := by omega
      have vacancies : List.replicate (size - i) (none : Option Element) =
          none :: List.replicate (size - (i + 1)) none := by
        rw [← List.replicate_succ]
        congr 1
        omega
      have taken : (items.take i).length = i := by
        simp only [List.length_take]
        omega
      have filled : ((items.take i).map some ++ List.replicate (size - i) none).set i
          (some items[i]) =
            (items.take (i + 1)).map some ++ List.replicate (size - (i + 1)) none := by
        rw [List.set_append_right _ _ (by simp), List.length_map, taken, Nat.sub_self,
          vacancies, List.set_cons_zero, List.take_succ_eq_append_getElem inside]
        simp only [List.map_append, List.map_cons, List.map_nil, List.append_assoc,
          List.singleton_append]
      have in_bounds : i < ((items.take i).map some ++ List.replicate (size - i) none).length := by
        simp only [List.length_append, List.length_map, taken, List.length_replicate]
        omega
      simp only [copyEntries, shows.2 i, List.getElem?_eq_getElem inside, ok_bind,
        if_pos in_bounds]
      rw [filled]
      exact ih (i + 1) (by omega)

/-- The state after a successful resize of a window, with the old capacity. -/
theorem resize_eq (window : Window build rb slots items) {newCapacity : ℕ} {granted : Bool}
    (positive : 0 < newCapacity)
    (allocated : callocPointers Element build granted newCapacity =
      some (List.replicate newCapacity none)) :
    ∃ next, rb.resize build newCapacity granted = .ok next ∧
      next.entries = some ((items.drop (items.length - newCapacity)).map some ++
        List.replicate (newCapacity - (items.drop (items.length - newCapacity)).length) none) ∧
      next.position = 0 ∧ next.count = (items.drop (items.length - newCapacity)).length ∧
      next.capacity = rb.capacity ∧ next.free = rb.free ∧
      next.freed = rb.freed ++
        (if rb.free then (items.take (items.length - newCapacity)).map some else []) := by
  rcases Popping.popWhileAbove window newCapacity with ⟨last, last_eq, popping⟩
  rcases popping.window with ⟨slots', lastWindow⟩
  have copied := copyEntries_eq lastWindow.shows newCapacity
    (by simp only [List.length_drop]; omega) last.count 0 (by rw [lastWindow.count_eq]; omega)
  refine ⟨{ last with
      entries := some ((items.drop (items.length - newCapacity)).map some ++
        List.replicate (newCapacity - (items.drop (items.length - newCapacity)).length) none)
      position := 0 }, ?_, rfl, rfl, lastWindow.count_eq, popping.capacity_eq,
    popping.free_eq, popping.freed_eq⟩
  simp only [List.take_zero, List.map_nil, List.nil_append, Nat.sub_zero] at copied
  simp only [resize, gt_iff_lt, if_pos positive, allocated, last_eq, ok_bind, copied]

/-- After a resize the kept elements are a window again, whatever the new capacity. -/
theorem resize_window (window : Window build rb slots items) {newCapacity : ℕ} {granted : Bool}
    {next : RingBuffer Element} (resized : rb.resize build newCapacity granted = .ok next) :
    ∃ slots' items', Window build next slots' items' := by
  by_cases positive : 0 < newCapacity
  · cases allocated : callocPointers Element build granted newCapacity with
    | none =>
        simp only [resize, gt_iff_lt, if_pos positive, allocated, Except.ok.injEq] at resized
        exact ⟨slots, items, resized ▸ window⟩
    | some newEntries =>
        have vacant := callocPointers_eq_replicate allocated
        subst vacant
        rcases resize_eq window positive allocated with ⟨last, last_eq, entries_eq, position_eq,
          count_eq, capacity_eq, -, -⟩
        rw [last_eq, Except.ok.injEq] at resized
        subst next
        have capacity_pos : 0 < rb.capacity := Nat.zero_lt_of_lt window.position_lt
        have bound := window.count_le
        rw [window.count_eq] at bound
        refine ⟨_, _, entries_eq, ?_, count_eq, ?_, ?_, ?_⟩
        · rw [position_eq, capacity_eq]
          exact capacity_pos
        · rw [count_eq, capacity_eq, List.length_drop]
          omega
        · rw [capacity_eq]
          exact window.small
        · intro offset inside
          have kept_lt := inside
          simp only [List.length_drop] at kept_lt
          have slot_eq : circular last.position last.capacity offset = offset := by
            simp only [circular, position_eq, capacity_eq]
            rw [if_pos (by omega), Nat.zero_add]
          rw [slot_eq, List.getElem?_append_left (by simpa using inside),
            List.getElem?_map, List.getElem?_eq_getElem inside]
          rfl
  · simp only [resize, gt_iff_lt, if_neg positive, Except.ok.injEq] at resized
    exact ⟨slots, items, resized ▸ window⟩

/-- What is known of every state which a run with resizes reaches without a fault: the buffer
has capacity zero, as after a failed allocation, or its elements are a window. -/
def Sound (build : Build) (rb : RingBuffer Element) : Prop :=
  (rb.capacity = 0 ∧ rb.count = 0) ∨ ∃ slots items, Window build rb slots items

theorem set_fields {index : ℕ} {element : Option Element} {next : RingBuffer Element}
    (assigned : rb.set build index element = .ok next) :
    next.capacity = rb.capacity ∧ next.count = rb.count := by
  have stored : ∀ {rb next : RingBuffer Element} {index : ℕ} {element : Option Element},
      rb.store index element = .ok next → next.capacity = rb.capacity ∧ next.count = rb.count := by
    intro rb next index element stored
    simp only [store] at stored
    cases entries_eq : rb.entries with
    | none => simp [entries_eq] at stored
    | some slots =>
        simp only [entries_eq] at stored
        split at stored
        · simp only [Except.ok.injEq] at stored
          simp [← stored]
        · simp at stored
  simp only [set] at assigned
  cases freed_eq : rb.freeEntry build (rb.wrap build index) with
  | error fault => simp [freed_eq] at assigned
  | ok middle =>
      simp only [freed_eq, ok_bind] at assigned
      rcases stored assigned with ⟨capacity_eq, count_eq⟩
      simp only [freeEntry] at freed_eq
      split at freed_eq
      · cases loaded : rb.load (rb.wrap build (rb.wrap build index)) with
        | error fault => simp [loaded] at freed_eq
        | ok element =>
            simp only [loaded, ok_bind] at freed_eq
            rcases stored freed_eq with ⟨capacity_eq', count_eq'⟩
            exact ⟨capacity_eq.trans capacity_eq', count_eq.trans count_eq'⟩
      · rcases stored freed_eq with ⟨capacity_eq', count_eq'⟩
        exact ⟨capacity_eq.trans capacity_eq', count_eq.trans count_eq'⟩

namespace Sound

theorem push {next : RingBuffer Element} {element : Option Element} (sound : rb.Sound build)
    (pushed : rb.push build element = .ok next) : next.Sound build := by
  cases element with
  | none =>
      simp only [RingBuffer.push, Except.ok.injEq] at pushed
      exact pushed ▸ sound
  | some element =>
      rcases sound with ⟨capacity_eq, count_eq⟩ | ⟨slots, items, window⟩
      · left
        simp only [RingBuffer.push, capacity_eq, count_eq, lt_irrefl, if_false] at pushed
        cases assigned : rb.set build rb.position (some element) with
        | error fault => simp [assigned] at pushed
        | ok middle =>
            simp only [assigned, ok_bind, Except.ok.injEq] at pushed
            rcases set_fields assigned with ⟨capacity_eq', count_eq'⟩
            rw [← pushed]
            exact ⟨capacity_eq'.trans capacity_eq, count_eq'.trans count_eq⟩
      · exact Or.inr (window.push pushed)

theorem pop {next : RingBuffer Element} (sound : rb.Sound build)
    (popped : rb.pop build = .ok next) : next.Sound build := by
  rcases sound with ⟨capacity_eq, count_eq⟩ | ⟨slots, items, window⟩
  · rw [pop_of_empty count_eq, Except.ok.injEq] at popped
    exact popped ▸ Or.inl ⟨capacity_eq, count_eq⟩
  · cases items with
    | nil =>
        rw [pop_of_empty window.count_eq, Except.ok.injEq] at popped
        exact popped ▸ Or.inr ⟨slots, [], window⟩
    | cons oldest rest =>
        rcases window.pop with ⟨last, slots', last_eq, lastWindow, -, -, -⟩
        rw [last_eq, Except.ok.injEq] at popped
        exact popped ▸ Or.inr ⟨slots', rest, lastWindow⟩

theorem clear {next : RingBuffer Element} (sound : rb.Sound build)
    (cleared : rb.clear build = .ok next) : next.Sound build := by
  rcases sound with ⟨capacity_eq, count_eq⟩ | ⟨slots, items, window⟩
  · simp only [RingBuffer.clear, count_eq, popWhileAbove, gt_iff_lt, lt_irrefl, if_false,
      Except.ok.injEq] at cleared
    exact cleared ▸ Or.inl ⟨capacity_eq, count_eq⟩
  · rcases Popping.popWhileAbove window 0 with ⟨last, last_eq, popping⟩
    rw [RingBuffer.clear, last_eq, Except.ok.injEq] at cleared
    rcases popping.window with ⟨slots', lastWindow⟩
    exact cleared ▸ Or.inr ⟨slots', _, lastWindow⟩

theorem resize {next : RingBuffer Element} {newCapacity : ℕ} {granted : Bool}
    (sound : rb.Sound build) (resized : rb.resize build newCapacity granted = .ok next) :
    next.Sound build := by
  rcases sound with ⟨capacity_eq, count_eq⟩ | ⟨slots, items, window⟩
  · left
    simp only [RingBuffer.resize] at resized
    split at resized
    · cases allocated : callocPointers Element build granted newCapacity with
      | none =>
          simp only [allocated, Except.ok.injEq] at resized
          exact resized ▸ ⟨capacity_eq, count_eq⟩
      | some newEntries =>
          simp only [allocated, count_eq, popWhileAbove, Nat.not_lt_zero, gt_iff_lt, if_false,
            ok_bind, copyEntries, Except.ok.injEq] at resized
          simp [← resized, capacity_eq]
    · simp only [Except.ok.injEq] at resized
      exact resized ▸ ⟨capacity_eq, count_eq⟩
  · exact Or.inr (resize_window window resized)

theorem executeCommand {next : RingBuffer Element} {command : Command Element}
    (sound : rb.Sound build) (executed : rb.executeCommand build command = .ok next) :
    next.Sound build := by
  cases command with
  | resize newCapacity granted => exact sound.resize executed
  | op op =>
      cases op with
      | push element => exact sound.push executed
      | pop => exact sound.pop executed
      | clear => exact sound.clear executed
      | pushCopy buffer size malloc =>
          simp only [RingBuffer.executeCommand, execute, pushCopy] at executed
          cases buffer with
          | none =>
              simp only [Except.ok.injEq] at executed
              exact executed ▸ sound
          | some bytes =>
              simp only at executed
              split at executed
              · simp only [Except.ok.injEq] at executed
                exact executed ▸ sound
              · cases copied : malloc (bytes.take size) with
                | none =>
                    simp only [copied, Except.ok.injEq] at executed
                    exact executed ▸ sound
                | some copy =>
                    simp only [copied] at executed
                    split at executed
                    · exact sound.push executed
                    · simp at executed

end Sound

theorem init_sound {granted : Bool} {capacity : ℕ} {free : Bool} (capacity_pos : 0 < capacity) :
    Sound build (init build granted capacity free : RingBuffer Element) := by
  cases allocated : callocPointers Element build granted capacity with
  | none =>
      left
      simp [init, allocated]
  | some entries =>
      right
      rcases (Stores.init free capacity_pos allocated).represents with
        ⟨slots, represents⟩
      exact ⟨slots, [], represents.window⟩

theorem Reachable.sound (reachable : Reachable build rb) : rb.Sound build := by
  rcases reachable with ⟨granted, capacity, free, commands, capacity_pos, ran⟩
  apply run_invariant (Sound build) _ (init_sound capacity_pos) ran
  intro state command next sound executed
  exact sound.executeCommand executed

/-- A resize never changes the capacity field. -/
theorem resize_capacity {newCapacity : ℕ} {granted : Bool} {next : RingBuffer Element}
    (sound : rb.Sound build) (resized : rb.resize build newCapacity granted = .ok next) :
    next.capacity = rb.capacity := by
  simp only [resize] at resized
  split at resized
  · rename_i positive
    cases allocated : callocPointers Element build granted newCapacity with
    | none =>
        simp only [allocated, Except.ok.injEq] at resized
        rw [resized]
    | some newEntries =>
        rcases sound with ⟨capacity_eq, count_eq⟩ | ⟨slots, items, window⟩
        · simp only [allocated, count_eq, popWhileAbove, Nat.not_lt_zero, gt_iff_lt, if_false,
            ok_bind, copyEntries, Except.ok.injEq] at resized
          simp [← resized]
        · have vacant := callocPointers_eq_replicate allocated
          subst vacant
          rcases resize_eq window positive allocated with ⟨last, last_eq, -, -, -, capacity_eq, -⟩
          simp only [resize, if_pos positive] at last_eq
          rw [last_eq, Except.ok.injEq] at resized
          rw [← resized, capacity_eq]
  · simp only [Except.ok.injEq] at resized
    rw [resized]

/-- Resizing a window to the capacity which the field has restores the full invariant. -/
theorem resize_same_capacity (window : Window build rb slots items) {granted : Bool}
    (allocated : callocPointers Element build granted rb.capacity =
      some (List.replicate rb.capacity none)) :
    ∃ next slots', rb.resize build rb.capacity granted = .ok next ∧
      Represents build next slots' (items.drop (items.length - rb.capacity)) ∧
      slots'.length = rb.capacity ∧ next.capacity = rb.capacity ∧ next.free = rb.free ∧
      next.freed = rb.freed ++
        (if rb.free then (items.take (items.length - rb.capacity)).map some else []) := by
  have capacity_pos : 0 < rb.capacity := Nat.zero_lt_of_lt window.position_lt
  rcases resize_eq window capacity_pos allocated with ⟨next, next_eq, entries_eq, position_eq,
    count_eq, capacity_eq, free_eq, freed_eq⟩
  have fits : (items.drop (items.length - rb.capacity)).length ≤ rb.capacity := by
    simp only [List.length_drop]
    omega
  have length_eq : ((items.drop (items.length - rb.capacity)).map some ++ List.replicate
      (rb.capacity - (items.drop (items.length - rb.capacity)).length) none).length =
        rb.capacity := by
    simp only [List.length_append, List.length_map, List.length_replicate]
    omega
  refine ⟨next, _, next_eq, ?_, length_eq, capacity_eq, free_eq, freed_eq⟩
  exact
    { entries_eq := entries_eq
      length_eq := length_eq.trans capacity_eq.symm
      laid := by
        rw [position_eq]
        exact Laid.map_append_replicate capacity_pos fits
      count_eq := count_eq
      small := by
        rw [capacity_eq]
        exact window.small }

theorem Represents.shows (represents : Represents build rb slots items) :
    rb.Shows build items :=
  ⟨represents.count_eq, represents.element⟩

/-- With the full invariant, later runs are those of the bounded list. -/
theorem Represents.behavesAsFifo (represents : Represents build rb slots items) :
    rb.BehavesAsFifo build rb.capacity items := by
  have bound := represents.count_le
  rw [represents.count_eq] at bound
  refine ⟨⟨[], items, bound⟩, rfl, rfl, ?_⟩
  intro ops readable
  have capacity_pos : 0 < rb.capacity := Nat.zero_lt_of_lt represents.position_lt
  have stores : Stores build rb.capacity rb.free rb.releasedElements rb [] items :=
    ⟨⟨slots, represents⟩, rfl, rfl, by simp⟩
  rcases run_simulated_from capacity_pos ⟨[], items, bound⟩ stores readable with
    ⟨last, ran, lastStores⟩
  rcases lastStores.represents with ⟨slots', lastRepresents⟩
  exact ⟨last, ran, lastRepresents.shows, lastStores.released_eq⟩

/-- The buffers passed to `ringbuffer_push_copy` have the bytes to copy. -/
def Command.Readable : Command Element → Prop
  | .op operation => operation.Readable
  | .resize _ _ => True

/-- A resize which fails its allocation, does nothing, or asks for the given capacity. -/
def Command.KeepsCapacity (build : Build) (capacity : ℕ) : Command Element → Prop
  | .op _ => True
  | .resize newCapacity granted =>
      callocPointers Element build granted newCapacity = none ∨ newCapacity = 0 ∨
        newCapacity = capacity

/-- A run which only resizes to the capacity of the buffer does not fault. -/
theorem run_keepsCapacity {granted : Bool} {capacity : ℕ} (free : Bool)
    {entries : List (Option Element)} (capacity_pos : 0 < capacity)
    (allocated : callocPointers Element build granted capacity = some entries)
    {commands : List (Command Element)} (readable : ∀ command ∈ commands, command.Readable)
    (keeps : ∀ command ∈ commands, command.KeepsCapacity build capacity) :
    ∃ last, run (executeCommand build) (init build granted capacity free) commands = .ok last := by
  -- no list is followed here, only the fact that the state stores some list
  have stepwise : ∀ (rb : RingBuffer Element) (command : Command Element),
      (∃ earlier dropped items, Stores build capacity free earlier rb dropped items) →
      (command.Readable ∧ command.KeepsCapacity build capacity) →
      ∃ next, executeCommand build rb command = .ok next ∧
        ∃ earlier dropped items, Stores build capacity free earlier next dropped items := by
    rintro rb command ⟨earlier, dropped, items, stores⟩ ⟨readable, keeps⟩
    rcases stores.represents with ⟨slots, represents⟩
    cases command with
    | op op =>
        have bound := represents.count_le
        rw [represents.count_eq, stores.capacity_eq] at bound
        rcases execute_simulates capacity_pos ⟨dropped, items, bound⟩ stores readable with
          ⟨next, executed, nextStores⟩
        exact ⟨next, executed, earlier, _, _, nextStores⟩
    | resize newCapacity granted =>
        by_cases positive : 0 < newCapacity
        · cases granted_eq : callocPointers Element build granted newCapacity with
          | none =>
              refine ⟨rb, ?_, earlier, dropped, items, stores⟩
              simp [executeCommand, resize, positive, granted_eq]
          | some newEntries =>
              have same : newCapacity = rb.capacity := by
                rcases keeps with failed | zero | same
                · simp [granted_eq] at failed
                · omega
                · exact same.trans stores.capacity_eq.symm
              subst same
              have vacant := callocPointers_eq_replicate granted_eq
              subst vacant
              rcases resize_same_capacity represents.window granted_eq with
                ⟨next, slots', next_eq, nextRepresents, -, capacity_next, free_next, -⟩
              refine ⟨next, next_eq, next.releasedElements, [], _, ⟨slots', nextRepresents⟩,
                capacity_next.trans stores.capacity_eq, free_next.trans stores.free_eq, ?_⟩
              simp
        · refine ⟨rb, ?_, earlier, dropped, items, stores⟩
          simp [executeCommand, resize, positive]
  have initial : ∃ earlier dropped items,
      Stores build capacity free earlier (init build granted capacity free) dropped items :=
    ⟨[], [], [], Stores.init free capacity_pos allocated⟩
  rcases run_succeeds _ _ stepwise initial
    (fun command commandMem => ⟨readable command commandMem, keeps command commandMem⟩) with
    ⟨last, ran, -⟩
  exact ⟨last, ran⟩

/--
From every reachable state, a resize is correct exactly if its allocation fails
or it asks for the capacity which the field already has; and a run in which all
resizes are of this kind never faults.
-/
theorem resizesCorrectly_iff_keeps_capacity (build : Build) :
    (∀ rb : RingBuffer Element, Reachable build rb → ∀ newCapacity granted, 0 < newCapacity →
      (ResizesCorrectly build rb newCapacity granted ↔
        callocPointers Element build granted newCapacity = none ∨ newCapacity = rb.capacity)) ∧
    (∀ granted capacity free entries, 0 < capacity →
      callocPointers Element build granted capacity = some entries →
      ∀ commands : List (Command Element), (∀ command ∈ commands, command.Readable) →
        (∀ command ∈ commands, command.KeepsCapacity build capacity) →
        ∃ rb, run (executeCommand build) (init build granted capacity free) commands = .ok rb ∧
          Reachable build rb) := by
  constructor
  · intro rb reachable newCapacity granted positive
    simp only [ResizesCorrectly]
    cases allocated : callocPointers Element build granted newCapacity with
    | none => simp [resize, positive, allocated]
    | some newEntries =>
        simp only [reduceCtorEq, false_or]
        constructor
        · rintro ⟨items, next, slots, -, resized, -, -, -, -, capacity_eq, -⟩
          rw [← capacity_eq, resize_capacity reachable.sound resized]
        · intro same
          subst same
          have vacant := callocPointers_eq_replicate allocated
          subst vacant
          rcases reachable.sound with ⟨capacity_eq, -⟩ | ⟨slots, items, window⟩
          · omega
          · rcases resize_same_capacity window allocated with ⟨next, slots', next_eq,
              nextRepresents, length_eq, capacity_eq, -, freed_eq⟩
            have behaves := nextRepresents.behavesAsFifo
            rw [capacity_eq] at behaves
            exact ⟨items, next, slots', window.shows, next_eq, nextRepresents.shows, freed_eq,
              nextRepresents.entries_eq, length_eq, capacity_eq, behaves⟩
  · intro granted capacity free entries capacity_pos allocated commands readable keeps
    rcases run_keepsCapacity free capacity_pos allocated readable keeps with
      ⟨last, ran⟩
    exact ⟨last, ran, granted, capacity, free, commands, capacity_pos, ran⟩

/-- A buffer of two slots resized to its own capacity, after one push. -/
theorem resizesCorrectly_iff_keeps_capacity_two :
    ∃ rb : RingBuffer ℕ,
      run (executeCommand .x64) (init .x64 true 2 true) [.op (.push (some 10))] = .ok rb ∧
      ResizesCorrectly .x64 rb 2 true ∧ ¬ResizesCorrectly .x64 rb 3 true := by
  have exact_when : ∀ rb : RingBuffer ℕ, Reachable .x64 rb → ∀ newCapacity granted,
      0 < newCapacity → (ResizesCorrectly .x64 rb newCapacity granted ↔
        callocPointers ℕ .x64 granted newCapacity = none ∨ newCapacity = rb.capacity) :=
    (resizesCorrectly_iff_keeps_capacity .x64).1
  have allocated : callocPointers ℕ .x64 true 2 = some [none, none] := by decide
  rcases (resizesCorrectly_iff_keeps_capacity .x64).2 true 2 true _ (by decide) allocated
    [.op (.push (some 10))] (by simp [Command.Readable, Op.Readable])
    (by simp [Command.KeepsCapacity]) with ⟨rb, ran, reachable⟩
  have ran_eq : run (executeCommand .x64) (init .x64 true 2 true) [.op (.push (some 10))] =
      .ok ({ entries := some [some 10, none], position := 0, count := 1, capacity := 2,
             free := true, freed := [none] } : RingBuffer ℕ) := by rfl
  have capacity_eq : rb.capacity = 2 := by
    rw [ran_eq, Except.ok.injEq] at ran
    rw [← ran]
  refine ⟨rb, ran, ?_, ?_⟩
  · exact (exact_when rb reachable 2 true (by decide)).mpr (Or.inr capacity_eq.symm)
  · intro correct
    rcases (exact_when rb reachable 3 true (by decide)).mp correct with failed | same
    · simp [callocPointers, Build.sizeofPointer, Build.bits] at failed
    · omega

/--
A fresh buffer of capacity 2 resized to 4 keeps the capacity 2; resized to 1 with
one element stored, the next push writes behind the new array.
-/
theorem resize_keeps_old_capacity :
    (∃ rb : RingBuffer ℕ, Reachable .x64 rb ∧
      (∃ entries, callocPointers ℕ .x64 true 4 = some entries) ∧
      ¬ResizesCorrectly .x64 rb 4 true) ∧
    run (executeCommand .x64) (init .x64 true 2 true : RingBuffer ℕ)
      [.op (.push (some 10)), .resize 1 true, .op (.push (some 20))] = .error .outOfBounds := by
  constructor
  · refine ⟨init .x64 true 2 true, ⟨true, 2, true, [], by decide, rfl⟩, ⟨_, rfl⟩, ?_⟩
    have allocated : callocPointers ℕ .x64 true 4 = some [none, none, none, none] := by rfl
    simp only [ResizesCorrectly, allocated]
    rintro ⟨items, next, slots, -, resized, -, -, -, -, capacity_eq, -⟩
    have resize_eq : (init .x64 true 2 true : RingBuffer ℕ).resize .x64 4 true =
        .ok { entries := some [none, none, none, none], position := 0, count := 0, capacity := 2,
              free := true, freed := [] } := by rfl
    rw [resize_eq, Except.ok.injEq] at resized
    subst next
    simp at capacity_eq
  · rfl

end Lucciefr.RingBuffer
