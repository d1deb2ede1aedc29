import Mathlib.Data.List.Basic
import Lucciefr.Base.Fault

/-!
# Loops with a stride

The loop `for (index = 0; index < length; index += step)`, and what such a loop does
with the elements of a list. An index does not wrap: an array takes at most half of the
address space, and the index which ends the loop is either the step itself or less than
twice the length of the array.
-/

namespace Lucciefr

universe u v w

section Elements

variable {α : Type w} {step skip : ℕ} {first second items : List α} {item : α}

/-- The elements after the next `skip` ones, at this distance from each other. -/
def everyFrom (step : ℕ) : (skip : ℕ) → List α → List α
  | _, [] => []
  | 0, item :: rest => item :: everyFrom step (step - 1) rest
  | skip + 1, _ :: rest => everyFrom step skip rest

/-- The elements at the multiples of `step`. -/
def every (step : ℕ) (items : List α) : List α :=
  everyFrom step 0 items

theorem everyFrom_eq_drop : everyFrom step skip items = every step (items.drop skip) := by
  induction items generalizing skip with
  | nil =>
      rw [List.drop_nil]
      cases skip <;> rfl
  | cons item rest ih =>
      cases skip with
      | zero => rfl
      | succ skip =>
          rw [everyFrom, ih, List.drop_succ_cons]

@[simp]
theorem every_nil : every step ([] : List α) = [] := rfl

theorem every_cons (positive : 0 < step) {rest : List α} :
    every step (item :: rest) = item :: every step ((item :: rest).drop step) := by
  rcases step with _ | step
  · cases positive
  · rw [every, everyFrom, everyFrom_eq_drop, Nat.add_sub_cancel, List.drop_succ_cons]

/-- A list whose length is a multiple does not shift the elements behind it. -/
theorem every_append (positive : 0 < step) (divides : step ∣ first.length) :
    every step (first ++ second) = every step first ++ every step second := by
  rcases divides with ⟨count, length_eq⟩
  induction count generalizing first with
  | zero =>
      rw [List.length_eq_zero_iff.mp length_eq, List.nil_append, every_nil, List.nil_append]
  | succ count ih =>
      rw [Nat.mul_succ] at length_eq
      rcases first with _ | ⟨item, rest⟩
      · rw [List.length_nil] at length_eq
        omega
      · have inside : step ≤ (item :: rest).length := by omega
        have shorter : ((item :: rest).drop step).length = step * count := by
          rw [List.length_drop, length_eq, Nat.add_sub_cancel]
        have split : (item :: (rest ++ second)).drop step = (item :: rest).drop step ++ second := by
          rw [← List.cons_append, List.drop_append_of_le_length inside]
        rw [List.cons_append, every_cons positive, every_cons positive, split, ih shorter,
          List.cons_append]

theorem mem_every (positive : 0 < step) (itemMem : item ∈ every step items) :
    ∃ index, step ∣ index ∧ items[index]? = some item := by
  have general : ∀ skip, item ∈ everyFrom step skip items →
      ∃ count, items[skip + step * count]? = some item := by
    clear itemMem
    induction items with
    | nil =>
        intro skip itemMem
        cases skip <;> cases itemMem
    | cons head rest ih =>
        intro skip itemMem
        cases skip with
        | zero =>
            rw [everyFrom, List.mem_cons] at itemMem
            rcases itemMem with rfl | later
            · exact ⟨0, rfl⟩
            · rcases ih _ later with ⟨count, found⟩
              refine ⟨count + 1, ?_⟩
              have position : 0 + step * (count + 1) = step - 1 + step * count + 1 := by
                rw [Nat.mul_succ]
                omega
              rw [position, List.getElem?_cons_succ, found]
        | succ skip =>
            rcases ih _ itemMem with ⟨count, found⟩
            refine ⟨count, ?_⟩
            rw [Nat.add_right_comm, List.getElem?_cons_succ, found]
  rcases general 0 itemMem with ⟨count, found⟩
  exact ⟨step * count, Nat.dvd_mul_right step count, by rwa [Nat.zero_add] at found⟩

theorem every_map {β : Type w} {f : α → β} :
    every step (items.map f) = (every step items).map f := by
  have general : ∀ skip, everyFrom step skip (items.map f) = (everyFrom step skip items).map f := by
    induction items with
    | nil =>
        intro skip
        cases skip <;> rfl
    | cons item rest ih =>
        intro skip
        cases skip with
        | zero => rw [List.map_cons, everyFrom, everyFrom, ih, List.map_cons]
        | succ skip => rw [List.map_cons, everyFrom, everyFrom, ih]
  exact general 0

end Elements

section Loop

variable {ε : Type u} {Local : Type v} {α : Type w} {exhausted : ε} {length step index turns : ℕ}
  {body : ℕ → Local → Except ε Local} {initial held final : Local}

/-- The turns of the loop from this index on. -/
def strideTurns (exhausted : ε) (length step : ℕ) (body : ℕ → Local → Except ε Local) :
    (turns : ℕ) → (index : ℕ) → Local → Except ε Local
  | 0, _, _ => .error exhausted
  | turns + 1, index, held =>
      if index < length then do
        let next ← body index held
        strideTurns exhausted length step body turns (index + step) next
      else
        pure held

/-- `for (index = 0; index < length; index += step)`. A loop which ends is found to be at
its end after `length` turns at the latest. -/
def forStride (exhausted : ε) (length step : ℕ) (body : ℕ → Local → Except ε Local)
    (initial : Local) : Except ε Local :=
  strideTurns exhausted length step body (length + 1) 0 initial

/-- The loop gets to this index. -/
inductive StrideReaches (length step : ℕ) (body : ℕ → Local → Except ε Local) (initial : Local) :
    (index : ℕ) → Local → Prop
  | start : StrideReaches length step body initial 0 initial
  | turn {index held next} (earlier : StrideReaches length step body initial index held)
      (inside : index < length) (turned : body index held = .ok next) :
      StrideReaches length step body initial (index + step) next

theorem strideTurns_reaches (reached : StrideReaches length step body initial index held)
    (ended : strideTurns exhausted length step body turns index held = .ok final) :
    ∃ last, StrideReaches length step body initial last final ∧ length ≤ last := by
  induction turns generalizing index held with
  | zero => cases ended
  | succ turns ih =>
      rw [strideTurns] at ended
      by_cases inside : index < length
      · rw [if_pos inside] at ended
        cases turned : body index held with
        | error failure =>
            rw [turned] at ended
            cases ended
        | ok next =>
            rw [turned] at ended
            exact ih (reached.turn inside turned) ended
      · rw [if_neg inside] at ended
        cases ended
        exact ⟨index, reached, Nat.le_of_not_lt inside⟩

/-- What is left behind by a loop was reached at its end. -/
theorem forStride_reaches (ended : forStride exhausted length step body initial = .ok final) :
    ∃ last, StrideReaches length step body initial last final ∧ length ≤ last :=
  strideTurns_reaches .start ended

/-- What each turn preserves holds after the loop. -/
theorem strideTurns_ok {invariant : ℕ → Local → Prop} (positive : 0 < step)
    (each : ∀ index held, index < length → invariant index held →
      ∃ next, body index held = .ok next ∧ invariant (index + step) next)
    (enough : length - index < turns) (holds : invariant index held) :
    ∃ last final, strideTurns exhausted length step body turns index held = .ok final ∧
      length ≤ last ∧ invariant last final := by
  induction turns generalizing index held with
  | zero => exact absurd enough (Nat.not_lt_zero _)
  | succ turns ih =>
      rw [strideTurns]
      by_cases inside : index < length
      · rcases each index held inside holds with ⟨next, turned, kept⟩
        rw [if_pos inside, turned, ok_bind]
        exact ih (by omega) kept
      · rw [if_neg inside]
        exact ⟨index, held, rfl, Nat.le_of_not_lt inside, holds⟩

theorem forStride_ok (initial : Local) {invariant : ℕ → Local → Prop} (positive : 0 < step)
    (each : ∀ index held, index < length → invariant index held →
      ∃ next, body index held = .ok next ∧ invariant (index + step) next)
    (holds : invariant 0 initial) :
    ∃ last final, forStride exhausted length step body initial = .ok final ∧
      length ≤ last ∧ invariant last final :=
  strideTurns_ok positive each (Nat.lt_succ_self _) holds

/-- A loop over a list visits the elements at the multiples of the step. -/
theorem forStride_foldl (exhausted : ε) (body : ℕ → Local → Except ε Local) (initial : Local)
    (items : List α) (turn : Local → α → Local) (positive : 0 < step)
    (each : ∀ index item held, items[index]? = some item →
      body index held = .ok (turn held item)) :
    forStride exhausted items.length step body initial =
      .ok ((every step items).foldl turn initial) := by
  have advances : ∀ index held, index < items.length →
      (every step (items.drop index)).foldl turn held = (every step items).foldl turn initial →
        ∃ next, body index held = .ok next ∧
          (every step (items.drop (index + step))).foldl turn next =
            (every step items).foldl turn initial := by
    intro index held inside remaining
    refine ⟨_, each index _ held (List.getElem?_eq_getElem inside), ?_⟩
    rw [List.drop_eq_getElem_cons inside, every_cons positive, List.foldl_cons,
      ← List.drop_eq_getElem_cons inside, List.drop_drop] at remaining
    exact remaining
  rcases forStride_ok initial positive advances rfl with
    ⟨last, final, ended, beyond, final_eq⟩
  rw [List.drop_eq_nil_of_le beyond, every_nil, List.foldl_nil] at final_eq
  rw [ended, final_eq]

end Loop

end Lucciefr
