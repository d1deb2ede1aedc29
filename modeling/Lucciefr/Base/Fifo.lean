import Mathlib.Data.List.Basic

/-!
# Bounded first-in first-out lists

The purpose of a ring buffer, without its array: a list of at most `capacity`
items together with the history of the items it has dropped. Pushing keeps the
newest `capacity` items and drops the older ones; nothing is ever dropped out
of order, so the dropped items followed by the stored ones are exactly the
items pushed, in the order they were pushed.
-/

namespace Lucciefr

universe u

/-- A list of at most `capacity` items, with the items dropped from it so far. -/
structure BoundedFifo (α : Type u) (capacity : ℕ) where
  /-- The items dropped so far, oldest first. -/
  dropped : List α
  /-- The stored items, oldest first. -/
  items : List α
  /-- The bound is part of the value. -/
  bounded : items.length ≤ capacity

namespace BoundedFifo

variable {α : Type u} {capacity : ℕ}

@[ext]
theorem ext {left right : BoundedFifo α capacity} (dropped : left.dropped = right.dropped)
    (items : left.items = right.items) : left = right := by
  cases left
  cases right
  simp_all

/-- Nothing stored and nothing dropped. -/
def empty (α : Type u) (capacity : ℕ) : BoundedFifo α capacity where
  dropped := []
  items := []
  bounded := by simp

/-- Keep the newest `capacity` items of `items`, dropping the older ones. -/
def keepNewest (dropped items : List α) (capacity : ℕ) : BoundedFifo α capacity where
  dropped := dropped ++ items.take (items.length - capacity)
  items := items.drop (items.length - capacity)
  bounded := by simp; omega

/-- Append an item; if that exceeds the capacity, the oldest item is dropped. -/
def push (fifo : BoundedFifo α capacity) (item : α) : BoundedFifo α capacity :=
  keepNewest fifo.dropped (fifo.items ++ [item]) capacity

/-- Drop the oldest item. -/
def pop (fifo : BoundedFifo α capacity) : BoundedFifo α capacity where
  dropped := fifo.dropped ++ fifo.items.take 1
  items := fifo.items.drop 1
  bounded := by have := fifo.bounded; simp; omega

/-- Drop all items. -/
def clear (fifo : BoundedFifo α capacity) : BoundedFifo α capacity where
  dropped := fifo.dropped ++ fifo.items
  items := []
  bounded := by simp

/-- Change the capacity, dropping the oldest items which no longer fit. -/
def resize (fifo : BoundedFifo α capacity) (newCapacity : ℕ) : BoundedFifo α newCapacity :=
  keepNewest fifo.dropped fifo.items newCapacity

@[simp]
theorem empty_items : (empty α capacity).items = [] := rfl

@[simp]
theorem empty_dropped : (empty α capacity).dropped = [] := rfl

theorem push_of_room {fifo : BoundedFifo α capacity} (room : fifo.items.length < capacity)
    (item : α) :
    (fifo.push item).items = fifo.items ++ [item] ∧ (fifo.push item).dropped = fifo.dropped := by
  have noExcess : (fifo.items ++ [item]).length - capacity = 0 := by
    simp only [List.length_append, List.length_singleton]
    omega
  simp only [push, keepNewest, noExcess]
  simp

theorem push_of_full {fifo : BoundedFifo α capacity} {oldest : α} {rest : List α}
    (items_eq : fifo.items = oldest :: rest) (full : fifo.items.length = capacity) (item : α) :
    (fifo.push item).items = rest ++ [item] ∧
      (fifo.push item).dropped = fifo.dropped ++ [oldest] := by
  have oneExcess : (fifo.items ++ [item]).length - capacity = 1 := by
    simp only [List.length_append, List.length_singleton]
    omega
  simp only [push, keepNewest, oneExcess]
  simp [items_eq]

theorem pop_of_nil {fifo : BoundedFifo α capacity} (items_eq : fifo.items = []) :
    fifo.pop = fifo := by
  ext1 <;> simp [pop, items_eq]

theorem pop_of_cons {fifo : BoundedFifo α capacity} {oldest : α} {rest : List α}
    (items_eq : fifo.items = oldest :: rest) :
    fifo.pop.items = rest ∧ fifo.pop.dropped = fifo.dropped ++ [oldest] := by
  simp [pop, items_eq]

/-- The dropped items followed by the stored ones: everything pushed so far. -/
def history (fifo : BoundedFifo α capacity) : List α :=
  fifo.dropped ++ fifo.items

@[simp]
theorem history_empty : (empty α capacity).history = [] := rfl

@[simp]
theorem history_keepNewest (dropped items : List α) (capacity : ℕ) :
    (keepNewest dropped items capacity).history = dropped ++ items := by
  simp [history, keepNewest]

@[simp]
theorem history_push (fifo : BoundedFifo α capacity) (item : α) :
    (fifo.push item).history = fifo.history ++ [item] := by
  have kept := history_keepNewest fifo.dropped (fifo.items ++ [item]) capacity
  simpa [push, history] using kept

@[simp]
theorem history_pop (fifo : BoundedFifo α capacity) : fifo.pop.history = fifo.history := by
  simp only [history, pop, List.append_assoc, List.take_append_drop]

@[simp]
theorem history_clear (fifo : BoundedFifo α capacity) : fifo.clear.history = fifo.history := by
  simp [history, clear]

/-- What was dropped is the part of the history which is no longer stored. -/
theorem dropped_eq_take (fifo : BoundedFifo α capacity) :
    fifo.dropped = fifo.history.take (fifo.history.length - fifo.items.length) := by
  simp [history]

end BoundedFifo

end Lucciefr
