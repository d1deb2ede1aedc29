import Lucciefr.Base.Circular
import Lucciefr.Base.Fifo
import Lucciefr.RingBuffer.Basic

/-!
# The representation of a list by a ring buffer

One equation for each operation says which slot it writes, how it moves the
position and what it hands to the free function. All relations between a ring
buffer and the list it stores are proved from these equations, so no later
proof unfolds an operation again.

`Represents` is the invariant of a ring buffer whose `capacity` is the length
of its array: the array stores the list cyclically from `position` on, and
every other slot is vacant.
-/

namespace Lucciefr.RingBuffer

universe u

variable {Element : Type u} {build : Build} {rb : RingBuffer Element}
  {slots : List (Option Element)}

theorem callocPointers_eq_replicate {granted : Bool} {count : ℕ}
    {entries : List (Option Element)}
    (allocated : callocPointers Element build granted count = some entries) :
    entries = List.replicate count none := by
  simp only [callocPointers] at allocated
  split at allocated
  · simpa using allocated.symm
  · simp at allocated

/-- An allocated array is so short that adding two of its indices cannot wrap. -/
theorem callocPointers_small {granted : Bool} {count : ℕ} {entries : List (Option Element)}
    (allocated : callocPointers Element build granted count = some entries) :
    2 * count < 2 ^ build.bits := by
  simp only [callocPointers] at allocated
  split at allocated
  · rename_i fits
    have := Nat.mul_le_mul_left count build.four_le_sizeofPointer
    omega
  · simp at allocated

/-- The calls of the free function for one released slot. -/
def released (rb : RingBuffer Element) (element : Option Element) : List (Option Element) :=
  if rb.free then [element] else []

theorem wrap_of_lt {index : ℕ} (index_lt : index < rb.capacity) :
    rb.wrap build index = index := by
  simp only [wrap, ite_eq_right_iff]
  omega

/-- Wrapping `position + offset` gives the slot of the offset. -/
theorem wrap_add {offset : ℕ} (position_lt : rb.position < rb.capacity)
    (offset_le : offset ≤ rb.capacity) (small : 2 * rb.capacity < 2 ^ build.bits) :
    rb.wrap build (build.add rb.position offset) = circular rb.position rb.capacity offset := by
  rw [Build.add_of_lt (by omega)]
  simp only [wrap, circular]
  by_cases wraps : rb.position + offset < rb.capacity
  · rw [if_neg (by omega), if_pos wraps]
  · rw [if_pos (by omega), if_neg wraps, Build.sub_of_le (by omega) (by omega)]

theorem store_eq {index : ℕ} (entries_eq : rb.entries = some slots)
    (index_lt : index < slots.length) (element : Option Element) :
    rb.store index element = .ok { rb with entries := some (slots.set index element) } := by
  simp [store, entries_eq, index_lt]

theorem load_eq {index : ℕ} (entries_eq : rb.entries = some slots)
    (index_lt : index < slots.length) : rb.load index = .ok slots[index] := by
  simp [load, entries_eq, index_lt]

theorem freeEntry_eq (build : Build) (rb : RingBuffer Element) {index : ℕ}
    (entries_eq : rb.entries = some slots)
    (index_lt : index < slots.length) (below : index < rb.capacity) :
    rb.freeEntry build index =
      .ok { rb with
        entries := some (slots.set index none)
        freed := rb.freed ++ rb.released slots[index] } := by
  simp only [freeEntry, wrap_of_lt below, released]
  by_cases free : rb.free
  · simp only [if_pos free, load_eq entries_eq index_lt, ok_bind]
    apply store_eq
    · exact entries_eq
    · exact index_lt
  · simp [if_neg free, store_eq entries_eq index_lt]

theorem set_eq {index slot : ℕ} {element : Option Element} (entries_eq : rb.entries = some slots)
    (slot_eq : rb.wrap build index = slot) (slot_lt : slot < slots.length)
    (below : slot < rb.capacity) :
    rb.set build index element =
      .ok { rb with
        entries := some (slots.set slot element)
        freed := rb.freed ++ rb.released slots[slot] } := by
  simp only [set, slot_eq, freeEntry_eq build rb entries_eq slot_lt below, ok_bind]
  rw [store_eq rfl (by simpa using slot_lt)]
  simp [List.set_set]

theorem incTail_eq (position_lt : rb.position < rb.capacity)
    (small : 2 * rb.capacity < 2 ^ build.bits) :
    rb.incTail build = { rb with position := circular rb.position rb.capacity 1 } := by
  simp only [incTail, circular]
  rw [Build.add_of_lt (by omega)]
  by_cases wraps : rb.position + 1 < rb.capacity
  · rw [if_neg (by omega), if_pos wraps]
  · rw [if_pos (by omega), if_neg wraps]
    congr 1
    omega

theorem push_eq_of_room (element : Element) (entries_eq : rb.entries = some slots)
    (position_lt : rb.position < rb.capacity) (small : 2 * rb.capacity < 2 ^ build.bits)
    (room : rb.count < rb.capacity)
    (slot_lt : circular rb.position rb.capacity rb.count < slots.length) :
    rb.push build (some element) =
      .ok { rb with
        entries := some (slots.set (circular rb.position rb.capacity rb.count) (some element))
        count := rb.count + 1
        freed := rb.freed ++ rb.released slots[circular rb.position rb.capacity rb.count] } := by
  simp only [push, if_pos room,
    set_eq entries_eq (wrap_add position_lt (by omega) small) slot_lt
      (circular_lt position_lt (by omega)), ok_bind]
  rw [Build.add_of_lt (by omega)]

theorem push_eq_of_full (element : Element) (entries_eq : rb.entries = some slots)
    (position_lt : rb.position < rb.capacity) (small : 2 * rb.capacity < 2 ^ build.bits)
    (full : ¬rb.count < rb.capacity) (slot_lt : rb.position < slots.length) :
    rb.push build (some element) =
      .ok { rb with
        entries := some (slots.set rb.position (some element))
        position := circular rb.position rb.capacity 1
        freed := rb.freed ++ rb.released slots[rb.position] } := by
  simp only [push, if_neg full, set_eq entries_eq (wrap_of_lt position_lt) slot_lt position_lt,
    ok_bind]
  apply congrArg Except.ok
  apply incTail_eq
  · exact position_lt
  · exact small

theorem pop_eq (entries_eq : rb.entries = some slots) (position_lt : rb.position < rb.capacity)
    (small : 2 * rb.capacity < 2 ^ build.bits) (nonempty : 0 < rb.count)
    (count_le : rb.count ≤ rb.capacity) (slot_lt : rb.position < slots.length) :
    rb.pop build =
      .ok { rb with
        entries := some (slots.set rb.position none)
        position := circular rb.position rb.capacity 1
        count := rb.count - 1
        freed := rb.freed ++ rb.released slots[rb.position] } := by
  have decremented : build.sub rb.count 1 = rb.count - 1 :=
    Build.sub_of_le (by omega) (by omega)
  have freedEntry := freeEntry_eq build { rb with count := rb.count - 1 } entries_eq slot_lt
    position_lt
  simp only [pop, gt_iff_lt, if_pos nonempty, decremented, freedEntry, ok_bind]
  apply congrArg Except.ok
  apply incTail_eq
  · exact position_lt
  · exact small

theorem pop_of_empty (empty : rb.count = 0) : rb.pop build = .ok rb := by
  simp [pop, empty]

theorem element_eq {items : List Element} (entries_eq : rb.entries = some slots)
    (position_lt : rb.position < rb.capacity) (small : 2 * rb.capacity < 2 ^ build.bits)
    (count_eq : rb.count = items.length) (count_le : rb.count ≤ rb.capacity)
    (stored : ∀ offset (inside : offset < items.length),
      slots[circular rb.position rb.capacity offset]? = some (some items[offset])) (index : ℕ) :
    rb.element build index = .ok items[index]? := by
  simp only [element]
  by_cases inside : index < rb.count
  · have slot_eq : rb.wrap build (build.add index rb.position) =
        circular rb.position rb.capacity index := by
      rw [← wrap_add position_lt (by omega) small, Build.add, Build.add, Nat.add_comm]
    rw [if_pos inside, slot_eq]
    simp only [load, entries_eq, stored index (by omega)]
    rw [List.getElem?_eq_getElem (by omega)]
  · rw [if_neg inside, List.getElem?_eq_none (by omega)]

/--
The loop which pops down to a limit, for any relation `stores` between a ring
buffer and the dropped and stored items which a single pop preserves.
-/
theorem popWhileAbove_spec (stores : RingBuffer Element → List Element → List Element → Prop)
    (count_eq : ∀ {rb dropped items}, stores rb dropped items → rb.count = items.length)
    (popped : ∀ {rb dropped oldest rest}, stores rb dropped (oldest :: rest) →
      ∃ next, rb.pop build = .ok next ∧ stores next (dropped ++ [oldest]) rest)
    (limit : ℕ) {turns : ℕ} {rb : RingBuffer Element} {dropped items : List Element}
    (related : stores rb dropped items) (enough : items.length ≤ turns) :
    ∃ last, popWhileAbove build limit turns rb = .ok last ∧
      stores last (dropped ++ items.take (items.length - limit))
        (items.drop (items.length - limit)) := by
  induction turns generalizing rb dropped items with
  | zero =>
      have empty : items = [] := List.length_eq_zero_iff.mp (by omega)
      subst empty
      refine ⟨rb, ?_, by simpa using related⟩
      simp [popWhileAbove, count_eq related]
  | succ turns ih =>
      simp only [popWhileAbove, count_eq related]
      by_cases above : items.length > limit
      · rw [if_pos above]
        rcases items with _ | ⟨oldest, rest⟩
        · simp at above
        · rcases popped related with ⟨next, popped_eq, nextRelated⟩
          rcases ih nextRelated (by simpa using enough) with ⟨last, last_eq, lastRelated⟩
          refine ⟨last, by rw [popped_eq]; exact last_eq, ?_⟩
          have excess : (oldest :: rest).length - limit = rest.length - limit + 1 := by
            simp only [List.length_cons] at above ⊢
            omega
          rw [excess]
          simpa using lastRelated
      · rw [if_neg above]
        refine ⟨rb, rfl, ?_⟩
        have noExcess : items.length - limit = 0 := by omega
        simpa [noExcess] using related

/-- The invariant of a ring buffer whose capacity is the length of its array. -/
structure Represents (build : Build) (rb : RingBuffer Element) (slots : List (Option Element))
    (items : List Element) : Prop where
  entries_eq : rb.entries = some slots
  length_eq : slots.length = rb.capacity
  laid : Laid slots rb.position items
  count_eq : rb.count = items.length
  small : 2 * rb.capacity < 2 ^ build.bits

namespace Represents

variable {items : List Element}

theorem position_lt (represents : Represents build rb slots items) :
    rb.position < rb.capacity :=
  represents.length_eq ▸ represents.laid.start_lt

theorem count_le (represents : Represents build rb slots items) : rb.count ≤ rb.capacity := by
  rw [represents.count_eq, ← represents.length_eq]
  exact represents.laid.items_le

theorem position_lt_length (represents : Represents build rb slots items) :
    rb.position < slots.length :=
  represents.laid.start_lt

theorem element (represents : Represents build rb slots items) (index : ℕ) :
    rb.element build index = .ok items[index]? := by
  apply element_eq represents.entries_eq represents.position_lt represents.small
    represents.count_eq represents.count_le
  intro offset inside
  rw [← represents.length_eq]
  exact represents.laid.getElem?_of_lt offset inside

theorem tail (represents : Represents build rb slots items) :
    rb.tail build = .ok items.head? := by
  rw [RingBuffer.tail, represents.element, List.head?_eq_getElem?]

/-- In an empty buffer `count - 1` wraps to an index which reads as `NULL`. -/
theorem head (represents : Represents build rb slots items) :
    rb.head build = .ok items.getLast? := by
  rw [RingBuffer.head, represents.element, List.getLast?_eq_getElem?, represents.count_eq]
  have small := represents.small
  have bound := represents.laid.items_le
  rw [represents.length_eq] at bound
  by_cases empty : items.length = 0
  · have items_eq := List.length_eq_zero_iff.mp empty
    simp [items_eq]
  · rw [Build.sub_of_le (by omega) (by omega)]

theorem push_of_room (represents : Represents build rb slots items)
    (room : items.length < rb.capacity) (element : Element) :
    ∃ next slots', rb.push build (some element) = .ok next ∧
      Represents build next slots' (items ++ [element]) ∧
      next.capacity = rb.capacity ∧ next.free = rb.free ∧
      next.freed = rb.freed ++ rb.released none := by
  have slot_lt : circular rb.position rb.capacity rb.count < slots.length := by
    rw [represents.length_eq]
    exact circular_lt represents.position_lt represents.count_le
  have vacant : slots[circular rb.position rb.capacity rb.count] = none := by
    have stored := represents.laid.stored items.length (by rw [represents.length_eq]; exact room)
    rw [represents.length_eq, ← represents.count_eq] at stored
    rw [List.getElem?_eq_getElem slot_lt] at stored
    simpa [represents.count_eq] using stored
  have pushed := push_eq_of_room element represents.entries_eq represents.position_lt
    represents.small (by rw [represents.count_eq]; exact room) slot_lt
  refine ⟨_, slots.set (circular rb.position rb.capacity rb.count) (some element), pushed,
    ?_, rfl, rfl, by rw [vacant]⟩
  have appended := represents.laid.append (by rw [represents.length_eq]; exact room) element
  rw [represents.length_eq, ← represents.count_eq] at appended
  exact
    { entries_eq := rfl
      length_eq := by simpa using represents.length_eq
      laid := appended
      count_eq := by simp [represents.count_eq]
      small := represents.small }

/-- The oldest element is stored at the present position. -/
theorem oldest_slot {oldest : Element} {rest : List Element}
    (represents : Represents build rb slots (oldest :: rest)) :
    slots[rb.position]? = some (some oldest) := by
  have stored := represents.laid.getElem?_of_lt 0 (by simp)
  rw [circular_zero represents.laid.start_lt] at stored
  simpa using stored

theorem push_of_full {oldest : Element} {rest : List Element}
    (represents : Represents build rb slots (oldest :: rest))
    (full : (oldest :: rest).length = rb.capacity) (element : Element) :
    ∃ next slots', rb.push build (some element) = .ok next ∧
      Represents build next slots' (rest ++ [element]) ∧
      next.capacity = rb.capacity ∧ next.free = rb.free ∧
      next.freed = rb.freed ++ rb.released (some oldest) := by
  have slot_lt := represents.position_lt_length
  have first : slots[rb.position] = some oldest :=
    (List.getElem?_eq_some_iff.mp represents.oldest_slot).2
  have pushed := push_eq_of_full element represents.entries_eq represents.position_lt
    represents.small (by rw [represents.count_eq, full]; omega) represents.position_lt_length
  refine ⟨_, slots.set rb.position (some element), pushed, ?_, rfl, rfl, by rw [first]⟩
  have rotated := represents.laid.rotate
    (by rw [represents.length_eq, ← full, List.length_cons]) element
  rw [represents.length_eq] at rotated
  exact
    { entries_eq := rfl
      length_eq := by simpa using represents.length_eq
      laid := rotated
      count_eq := by simp [represents.count_eq]
      small := represents.small }

theorem pop {oldest : Element} {rest : List Element}
    (represents : Represents build rb slots (oldest :: rest)) :
    ∃ next slots', rb.pop build = .ok next ∧ Represents build next slots' rest ∧
      next.capacity = rb.capacity ∧ next.free = rb.free ∧
      next.freed = rb.freed ++ rb.released (some oldest) := by
  have slot_lt := represents.position_lt_length
  have first : slots[rb.position] = some oldest :=
    (List.getElem?_eq_some_iff.mp represents.oldest_slot).2
  have popped := pop_eq represents.entries_eq represents.position_lt represents.small
    (by rw [represents.count_eq]; simp) represents.count_le represents.position_lt_length
  refine ⟨_, slots.set rb.position none, popped, ?_, rfl, rfl, by rw [first]⟩
  have dropped := represents.laid.tail
  rw [represents.length_eq] at dropped
  exact
    { entries_eq := rfl
      length_eq := by simpa using represents.length_eq
      laid := dropped
      count_eq := by simp [represents.count_eq]
      small := represents.small }

end Represents

end Lucciefr.RingBuffer
