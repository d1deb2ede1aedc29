import Mathlib.Data.List.Basic

/-!
# Lists laid out in a cyclic array

A cyclic array of `size` slots stores a list from some start slot onwards and
continues at slot zero when it runs past the end. `circular` is the slot of an
offset, computed with one conditional subtraction, and `Laid` says that the
array stores exactly the list: the first slots from the start hold its elements
and all other slots are vacant. Since vacancy is part of the relation, writing
into the slot after the last element never overwrites anything.
-/

namespace Lucciefr

universe u

/-- The slot `offset` places after `start` in a cyclic array of `size` slots. -/
def circular (start size offset : ℕ) : ℕ :=
  if start + offset < size then start + offset else start + offset - size

theorem circular_lt {start size offset : ℕ} (start_lt : start < size) (offset_le : offset ≤ size) :
    circular start size offset < size := by
  unfold circular
  split <;> omega

theorem circular_zero {start size : ℕ} (start_lt : start < size) :
    circular start size 0 = start := by
  simp [circular, start_lt]

theorem circular_injective {start size left right : ℕ} (left_lt : left < size)
    (right_lt : right < size)
    (same : circular start size left = circular start size right) : left = right := by
  unfold circular at same
  split at same <;> split at same <;> omega

theorem circular_surjective {start size slot : ℕ} (start_lt : start < size)
    (slot_lt : slot < size) : ∃ offset < size, circular start size offset = slot := by
  by_cases after : start ≤ slot
  · refine ⟨slot - start, by omega, ?_⟩
    unfold circular
    split <;> omega
  · refine ⟨slot + size - start, by omega, ?_⟩
    unfold circular
    split <;> omega

theorem circular_advance {start size offset : ℕ} (start_lt : start < size)
    (offset_lt : offset < size) :
    circular (circular start size 1) size offset = circular start size (offset + 1) := by
  unfold circular
  split <;> split <;> split <;> omega

theorem circular_size (start size : ℕ) : circular start size size = start := by
  unfold circular
  split <;> omega

variable {α : Type u}

/-- The array `slots` stores exactly `items`, from slot `start` onwards. -/
structure Laid (slots : List (Option α)) (start : ℕ) (items : List α) : Prop where
  start_lt : start < slots.length
  items_le : items.length ≤ slots.length
  stored : ∀ offset < slots.length, slots[circular start slots.length offset]? = some items[offset]?

namespace Laid

variable {slots : List (Option α)} {start : ℕ} {items : List α} {item : α}

theorem replicate_none {size start : ℕ} (start_lt : start < size) :
    Laid (List.replicate size (none : Option α)) start [] where
  start_lt := by simpa using start_lt
  items_le := by simp
  stored := by
    intro offset offset_lt
    simp only [List.length_replicate] at offset_lt ⊢
    simp [circular_lt start_lt (Nat.le_of_lt offset_lt)]

/-- An array which starts with the items and is vacant after them stores the items from
slot zero. -/
theorem map_append_replicate {size : ℕ} (size_pos : 0 < size) (items_le : items.length ≤ size) :
    Laid (items.map some ++ List.replicate (size - items.length) none) 0 items where
  start_lt := by
    simp only [List.length_append, List.length_map, List.length_replicate]
    omega
  items_le := by simp
  stored := by
    intro offset offset_lt
    simp only [List.length_append, List.length_map, List.length_replicate] at offset_lt ⊢
    have slot_eq : circular 0 (items.length + (size - items.length)) offset = offset := by
      simp only [circular]
      rw [if_pos (by omega)]
      omega
    rw [slot_eq]
    by_cases inside : offset < items.length
    · rw [List.getElem?_append_left (by simpa using inside)]
      simp [inside]
    · rw [List.getElem?_append_right (by simpa using inside)]
      simp only [List.length_map]
      rw [List.getElem?_replicate_of_lt (by omega), List.getElem?_eq_none (by omega)]

theorem getElem?_of_lt (laid : Laid slots start items) (offset : ℕ)
    (offset_lt : offset < items.length) :
    slots[circular start slots.length offset]? = some (some items[offset]) := by
  rw [laid.stored offset (by have := laid.items_le; omega)]
  simp [offset_lt]

theorem vacant (laid : Laid slots start items) {slot : ℕ} (slot_lt : slot < slots.length)
    (outside : ∀ offset < items.length, circular start slots.length offset ≠ slot) :
    slots[slot]? = some none := by
  rcases circular_surjective laid.start_lt slot_lt with ⟨offset, offset_lt, rfl⟩
  have beyond : items.length ≤ offset := by
    by_contra inside
    exact outside offset (by omega) rfl
  rw [laid.stored offset offset_lt]
  simp [beyond]

/-- Writing into the slot after the last element appends to the stored list. -/
theorem append (laid : Laid slots start items) (room : items.length < slots.length) (item : α) :
    Laid (slots.set (circular start slots.length items.length) (some item)) start
      (items ++ [item]) where
  start_lt := by simpa using laid.start_lt
  items_le := by
    simp only [List.length_append, List.length_singleton, List.length_set]
    omega
  stored := by
    intro offset offset_lt
    simp only [List.length_set] at offset_lt ⊢
    by_cases last : offset = items.length
    · subst last
      simp [circular_lt laid.start_lt (Nat.le_of_lt offset_lt)]
    · have other : circular start slots.length items.length ≠
          circular start slots.length offset := by
        intro same
        exact last (circular_injective room offset_lt same).symm
      rw [List.getElem?_set_ne other, laid.stored offset offset_lt]
      by_cases inside : offset < items.length
      · simp [inside, List.getElem?_append_left inside]
      · have beyond : (items ++ [item]).length ≤ offset := by
          rw [List.length_append, List.length_singleton]
          omega
        rw [List.getElem?_eq_none (Nat.not_lt.mp inside), List.getElem?_eq_none beyond]

/-- Vacating the first slot and advancing the start drops the first element. -/
theorem tail (laid : Laid slots start (item :: items)) :
    Laid (slots.set start none) (circular start slots.length 1) items where
  start_lt := by
    have := laid.start_lt
    simpa using circular_lt laid.start_lt (by omega : 1 ≤ slots.length)
  items_le := by
    have := laid.items_le
    simp only [List.length_cons] at this
    simp
    omega
  stored := by
    intro offset offset_lt
    simp only [List.length_set] at offset_lt ⊢
    rw [circular_advance laid.start_lt offset_lt]
    have bound := laid.items_le
    simp only [List.length_cons] at bound
    by_cases wrapped : offset + 1 = slots.length
    · rw [wrapped, circular_size, List.getElem?_set_self laid.start_lt]
      simp [show items.length ≤ offset by omega]
    · have other : start ≠ circular start slots.length (offset + 1) := by
        intro same
        have := circular_injective (Nat.zero_lt_of_lt laid.start_lt)
          (by omega) ((circular_zero laid.start_lt).trans same)
        omega
      rw [List.getElem?_set_ne other, laid.stored (offset + 1) (by omega)]
      simp

/-- In a full array, overwriting the first slot and advancing the start drops
the first element and appends the new one. -/
theorem rotate (laid : Laid slots start (item :: items))
    (full : items.length + 1 = slots.length) (newest : α) :
    Laid (slots.set start (some newest)) (circular start slots.length 1) (items ++ [newest]) := by
  have appended := laid.tail.append (by simp; omega) newest
  have slot_eq : circular (circular start slots.length 1) slots.length items.length = start := by
    rw [circular_advance laid.start_lt (by omega), full, circular_size]
  simpa [slot_eq] using appended

end Laid

end Lucciefr
