import Lucciefr.Base.Buffer
import Lucciefr.Base.Occurrence

/-!
# Substring search

`strstr_ic` of `core/strutils.c`. A pointer into a string is the rest of the array from
there on, so that the first element is what it points to, and reading through the pointer
behind the last element is out of bounds. What `tolower` does depends on the locale; it is
a parameter. The result is an offset into `haystack`.
-/

namespace Lucciefr.Strutils

variable (tolower : UInt8 → ℤ)

/-- The inner loop of `strstr_ic`, which returns `n`. -/
def compareLoop : (h n : List UInt8) → Except Fault (List UInt8)
  | [], _ => .error .outOfBounds
  | hChar :: h, n =>
      if hChar = 0 then
        .ok n
      else do
        let nChar ← readAt n 0
        if nChar = 0 then
          pure n
        else if tolower hChar ≠ tolower nChar then
          pure n
        else
          compareLoop h n.tail

/-- The outer loop of `strstr_ic`. -/
def searchLoop (needle : List UInt8) :
    (haystack : List UInt8) → (offset : ℕ) → Except Fault (Option ℕ)
  | [], _ => .error .outOfBounds
  | char :: rest, offset =>
      if char = 0 then
        .ok none
      else do
        let first ← readAt needle 0
        if tolower char = tolower first then do
          let n ← compareLoop tolower (char :: rest) needle
          let stopped ← readAt n 0
          if stopped = 0 then
            pure (some offset)
          else
            searchLoop needle rest (offset + 1)
        else
          searchLoop needle rest (offset + 1)

/-- `strstr_ic`, where either pointer may be `NULL`. -/
def strstrIc (haystack needle : Option (List UInt8)) : Except Fault (Option ℕ) :=
  match haystack, needle with
  | some haystack, some needle => do
      let first ← readAt needle 0
      if first = 0 then
        pure (some 0)
      else
        searchLoop tolower needle haystack 0
  | _, _ => .ok none

section Lemmas

variable {tolower} {text pattern restText restPattern : List UInt8}

/-- The comparison ends at the end of the pattern if and only if the pattern occurs here. -/
theorem compareLoop_spec (noNul : 0 ∉ text) (noNul' : 0 ∉ pattern) :
    ∃ n last, compareLoop tolower (text ++ 0 :: restText) (pattern ++ 0 :: restPattern) = .ok n ∧
      readAt n 0 = .ok last ∧ (last = 0 ↔ OccursAt tolower text pattern 0) := by
  induction text generalizing pattern with
  | nil =>
      refine ⟨pattern ++ 0 :: restPattern, (pattern ++ 0 :: restPattern).head (by simp),
        by simp [compareLoop], by cases pattern <;> rfl, ?_⟩
      cases pattern with
      | nil => simp [occursAt_nil]
      | cons head pattern =>
          simp only [List.mem_cons, not_or] at noNul'
          simp [not_occursAt_of_nil, Ne.symm noNul'.1]
  | cons char text ih =>
      simp only [List.mem_cons, not_or] at noNul
      rw [List.cons_append, compareLoop, if_neg (Ne.symm noNul.1)]
      cases pattern with
      | nil =>
          refine ⟨0 :: restPattern, 0, ?_, rfl, by simp [occursAt_nil]⟩
          rw [List.nil_append, readAt_of_some List.getElem?_cons_zero, ok_bind, if_pos rfl]
          rfl
      | cons head pattern =>
          simp only [List.mem_cons, not_or] at noNul'
          rw [List.cons_append, readAt_of_some List.getElem?_cons_zero, ok_bind,
            if_neg (Ne.symm noNul'.1), occursAt_cons_zero]
          by_cases same : tolower char = tolower head
          · rw [if_neg (not_not.mpr same), List.tail_cons]
            rcases ih noNul.2 noNul'.2 with ⟨n, last, run, read, stopped⟩
            exact ⟨n, last, run, read, by rw [stopped, and_iff_right same]⟩
          · rw [if_pos same]
            refine ⟨head :: (pattern ++ 0 :: restPattern), head, rfl, rfl, ?_⟩
            constructor
            · intro absurdity
              exact absurd absurdity.symm noNul'.1
            · intro occurs
              exact absurd occurs.1 same

/-- One turn of the search, where the pattern occurs and where it does not. -/
theorem searchLoop_here {char : UInt8} {offset : ℕ} (noNul : 0 ∉ char :: text)
    (noNul' : 0 ∉ pattern) (nonempty : pattern ≠ [])
    (here : OccursAt tolower (char :: text) pattern 0) :
    searchLoop tolower (pattern ++ 0 :: restPattern) (char :: text ++ 0 :: restText) offset =
      .ok (some offset) := by
  cases pattern with
  | nil => exact absurd rfl nonempty
  | cons head pattern =>
      have visible : char ≠ 0 := fun nul => noNul (nul ▸ List.mem_cons_self)
      rcases compareLoop_spec noNul noNul' with
        ⟨n, last, run, read, stopped⟩
      have same : tolower char = tolower head := (occursAt_cons_zero.mp here).1
      rw [List.cons_append, List.cons_append] at run
      rw [List.cons_append, List.cons_append, searchLoop, if_neg visible,
        readAt_of_some List.getElem?_cons_zero, ok_bind, if_pos same, run, ok_bind, read, ok_bind,
        if_pos (stopped.mpr here)]
      rfl

theorem searchLoop_elsewhere {char : UInt8} {offset : ℕ} (noNul : 0 ∉ char :: text)
    (noNul' : 0 ∉ pattern) (nonempty : pattern ≠ [])
    (elsewhere : ¬OccursAt tolower (char :: text) pattern 0) :
    searchLoop tolower (pattern ++ 0 :: restPattern) (char :: text ++ 0 :: restText) offset =
      searchLoop tolower (pattern ++ 0 :: restPattern) (text ++ 0 :: restText)
        (offset + 1) := by
  cases pattern with
  | nil => exact absurd rfl nonempty
  | cons head pattern =>
      have visible : char ≠ 0 := fun nul => noNul (nul ▸ List.mem_cons_self)
      rcases compareLoop_spec noNul noNul' with
        ⟨n, last, run, read, stopped⟩
      rw [List.cons_append, List.cons_append] at run
      rw [List.cons_append, List.cons_append, searchLoop, if_neg visible,
        readAt_of_some List.getElem?_cons_zero, ok_bind]
      split
      · rw [run, ok_bind, read, ok_bind, if_neg (mt stopped.mp elsewhere)]
      · rfl

/-- The search stops at the first occurrence, or at the end of the text. -/
theorem searchLoop_spec (noNul : 0 ∉ text) (noNul' : 0 ∉ pattern) (nonempty : pattern ≠ [])
    (offset : ℕ) :
    ∃ result, Leftmost tolower text pattern result ∧ ∀ restText restPattern,
      searchLoop tolower (pattern ++ 0 :: restPattern) (text ++ 0 :: restText) offset =
        .ok (result.map (offset + ·)) := by
  induction text generalizing offset with
  | nil =>
      cases pattern with
      | nil => exact absurd rfl nonempty
      | cons head pattern => exact ⟨none, leftmost_nil, fun restText restPattern => rfl⟩
  | cons char text ih =>
      by_cases here : OccursAt tolower (char :: text) pattern 0
      · refine ⟨some 0, leftmost_zero here, fun restText restPattern => ?_⟩
        exact searchLoop_here noNul noNul' nonempty here
      · have noNulRest : 0 ∉ text := fun nulMem => noNul (List.mem_cons_of_mem char nulMem)
        rcases ih noNulRest (offset + 1) with ⟨result, leftmost, run⟩
        refine ⟨result.map (· + 1), leftmost.cons here, fun restText restPattern => ?_⟩
        rw [searchLoop_elsewhere noNul noNul' nonempty here, run, Option.map_map]
        congr 2
        funext found
        exact Nat.add_right_comm offset 1 found

/--
For two strings the result is the first place at which the characters of `needle` follow
each other in `haystack`, and nothing behind the NUL of either of them is read.
-/
theorem strstrIc_leftmost (tolower : UInt8 → ℤ) (haystack needle : List UInt8)
    (noNul : 0 ∉ haystack) (noNul' : 0 ∉ needle) :
    ∃ result, (∀ restHaystack restNeedle,
      strstrIc tolower (some (haystack ++ 0 :: restHaystack)) (some (needle ++ 0 :: restNeedle)) =
        .ok result) ∧
      Leftmost tolower haystack needle result ∧ (needle = [] → result = some 0) := by
  cases needle with
  | nil =>
      refine ⟨some 0, fun restHaystack restNeedle => rfl, ?_, fun _ => rfl⟩
      exact leftmost_zero (occursAt_nil (Nat.zero_le _))
  | cons head needle =>
      have visible : head ≠ 0 := fun nul => noNul' (nul ▸ List.mem_cons_self)
      rcases searchLoop_spec noNul noNul' (List.cons_ne_nil head needle) 0 with
        ⟨result, leftmost, run⟩
      refine ⟨result, fun restHaystack restNeedle => ?_, leftmost, fun absurdity => ?_⟩
      · have fromStart : result.map (0 + ·) = result := by
          cases result with
          | none => rfl
          | some found => rw [Option.map_some, Nat.zero_add]
        rw [strstrIc, List.cons_append, readAt_of_some List.getElem?_cons_zero, ok_bind,
          if_neg visible, ← List.cons_append, run, fromStart]
      · exact absurd absurdity (List.cons_ne_nil head needle)

/-- A partial match overlaps the match which is found, at the very end. -/
theorem strstrIc_leftmost_overlap :
    ∃ result, (∀ restHaystack restNeedle,
      strstrIc (fun char => char.toNat) (some ([97, 97, 98] ++ 0 :: restHaystack))
        (some ([97, 98] ++ 0 :: restNeedle)) = .ok result) ∧
      Leftmost (fun char : UInt8 => (char.toNat : ℤ)) [97, 97, 98] [97, 98] result ∧
      (([97, 98] : List UInt8) = [] → result = some 0) :=
  strstrIc_leftmost (fun char => char.toNat) [97, 97, 98] [97, 98] (by decide) (by decide)

end Lemmas

end Lucciefr.Strutils
