import Mathlib.Data.List.Basic

/-!
# Occurrences of a pattern

Where a pattern occurs in a text whose elements are compared by a key, and the first of
these places. A search goes through the text from the left: a place where the pattern does
not occur is passed by `Leftmost.cons`.
-/

namespace Lucciefr

universe u v

variable {α : Type u} {β : Type v}

/-- The whole pattern is found in the text from this index on. -/
def OccursAt (key : α → β) (text pattern : List α) (index : ℕ) : Prop :=
  index + pattern.length ≤ text.length ∧
    ∀ k < pattern.length, text[index + k]?.map key = pattern[k]?.map key

/-- The first index at which the pattern occurs, if there is one. -/
def Leftmost (key : α → β) (text pattern : List α) : Option ℕ → Prop
  | some index => OccursAt key text pattern index ∧
      ∀ earlier < index, ¬OccursAt key text pattern earlier
  | none => ∀ index, ¬OccursAt key text pattern index

variable {key : α → β} {text pattern : List α} {first head : α} {index : ℕ}

theorem occursAt_nil (inside : index ≤ text.length) : OccursAt key text [] index :=
  ⟨inside, fun k below => absurd below (Nat.not_lt_zero k)⟩

theorem not_occursAt_of_nil : ¬OccursAt key [] (head :: pattern) index := by
  rintro ⟨bound, -⟩
  simp only [List.length_nil, List.length_cons] at bound
  omega

theorem occursAt_cons_zero :
    OccursAt key (first :: text) (head :: pattern) 0 ↔
      key first = key head ∧ OccursAt key text pattern 0 := by
  constructor
  · rintro ⟨bound, same⟩
    have here := same 0 (Nat.succ_pos _)
    simp only [Nat.add_zero, List.getElem?_cons_zero, Option.map_some, Option.some.injEq] at here
    refine ⟨here, by simpa using bound, fun k below => ?_⟩
    have there := same (k + 1) (Nat.succ_lt_succ below)
    rw [Nat.zero_add, List.getElem?_cons_succ, List.getElem?_cons_succ] at there
    rw [Nat.zero_add]
    exact there
  · rintro ⟨here, bound, same⟩
    refine ⟨by simpa using bound, fun k below => ?_⟩
    cases k with
    | zero => simp [here]
    | succ k =>
        have there := same k (Nat.lt_of_succ_lt_succ below)
        rw [Nat.zero_add] at there
        rw [Nat.zero_add, List.getElem?_cons_succ, List.getElem?_cons_succ]
        exact there

theorem occursAt_cons_succ :
    OccursAt key (first :: text) pattern (index + 1) ↔ OccursAt key text pattern index := by
  have shift : ∀ k, (first :: text)[index + 1 + k]? = text[index + k]? := by
    intro k
    rw [Nat.add_right_comm, List.getElem?_cons_succ]
  simp only [OccursAt, shift, List.length_cons]
  constructor
  · rintro ⟨bound, same⟩
    exact ⟨by omega, same⟩
  · rintro ⟨bound, same⟩
    exact ⟨by omega, same⟩

theorem leftmost_zero (here : OccursAt key text pattern 0) :
    Leftmost key text pattern (some 0) :=
  ⟨here, fun earlier below => absurd below (Nat.not_lt_zero earlier)⟩

theorem leftmost_nil : Leftmost key [] (head :: pattern) none :=
  fun _ => not_occursAt_of_nil

/-- The search goes on behind an element where the pattern does not occur. -/
theorem Leftmost.cons {result : Option ℕ} (leftmost : Leftmost key text pattern result)
    (elsewhere : ¬OccursAt key (first :: text) pattern 0) :
    Leftmost key (first :: text) pattern (result.map (· + 1)) := by
  cases result with
  | none =>
      intro index
      cases index with
      | zero => exact elsewhere
      | succ index =>
          rw [occursAt_cons_succ]
          exact leftmost index
  | some found =>
      refine ⟨occursAt_cons_succ.mpr leftmost.1, fun earlier below => ?_⟩
      cases earlier with
      | zero => exact elsewhere
      | succ earlier =>
          rw [occursAt_cons_succ]
          exact leftmost.2 earlier (Nat.lt_of_succ_lt_succ below)

end Lucciefr
