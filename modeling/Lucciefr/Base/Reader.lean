import Mathlib.Data.List.Basic

/-!
# Readers

A reader takes a value from the front of its input and returns the rest, or
fails. The rules below are what a format built from readers needs: reading back
a concatenation of encodings, what holds of every value that was read, and how
the position of a reader compares with that of the encoding it is expected to
follow.
-/

namespace Lucciefr

universe u v w

/-- A reader of values at the front of its input. -/
abbrev Reader (Symbol : Type u) (Value : Type v) : Type (max u v) :=
  List Symbol → Option (Value × List Symbol)

variable {Symbol : Type u} {Value : Type v} {Second : Type w}

/-- The next symbols, when there are that many. -/
def readExactly (width : ℕ) : Reader Symbol (List Symbol) := fun input =>
  if input.length < width then none else some (input.take width, input.drop width)

theorem readExactly_append {width : ℕ} {symbols rest : List Symbol}
    (length_eq : symbols.length = width) :
    readExactly width (symbols ++ rest) = some (symbols, rest) := by
  subst length_eq
  simp [readExactly]

theorem readExactly_eq_some {width : ℕ} {input symbols rest : List Symbol} :
    readExactly width input = some (symbols, rest) ↔
      input = symbols ++ rest ∧ symbols.length = width := by
  constructor
  · intro succeeded
    unfold readExactly at succeeded
    split at succeeded
    · contradiction
    · simp only [Option.some.injEq, Prod.mk.injEq] at succeeded
      rcases succeeded with ⟨rfl, rfl⟩
      exact ⟨(List.take_append_drop _ _).symm, by simp; omega⟩
  · rintro ⟨rfl, length_eq⟩
    exact readExactly_append length_eq

/-- One value after the other. -/
def readBoth (first : Reader Symbol Value) (second : Reader Symbol Second) :
    Reader Symbol (Value × Second) := fun input =>
  (first input).bind fun (value, rest) =>
    (second rest).map fun (other, rest) => ((value, other), rest)

/-- A number of values, one after the other. -/
def readMany (read : Reader Symbol Value) : ℕ → Reader Symbol (List Value)
  | 0, input => some ([], input)
  | n + 1, input =>
      (read input).bind fun (value, rest) =>
        (readMany read n rest).map fun (values, rest) => (value :: values, rest)

section Rules

variable {read : Reader Symbol Value} {second : Reader Symbol Second} {input rest : List Symbol}

theorem readBoth_eq_some {value : Value} {other : Second} :
    readBoth read second input = some ((value, other), rest) ↔
      ∃ middle, read input = some (value, middle) ∧ second middle = some (other, rest) := by
  simp [readBoth, Option.bind_eq_some_iff]

theorem readMany_succ_eq_some {n : ℕ} {value : Value} {values : List Value} :
    readMany read (n + 1) input = some (value :: values, rest) ↔
      ∃ middle, read input = some (value, middle) ∧
        readMany read n middle = some (values, rest) := by
  simp [readMany, Option.bind_eq_some_iff]

theorem readMany_of_first {n : ℕ} {value other : Value} {values : List Value} {middle : List Symbol}
    (first : read input = some (value, middle))
    (succeeded : readMany read (n + 1) input = some (other :: values, rest)) :
    other = value ∧ readMany read n middle = some (values, rest) := by
  rcases readMany_succ_eq_some.mp succeeded with ⟨between, own, others⟩
  rw [first, Option.some.injEq, Prod.mk.injEq] at own
  rcases own with ⟨rfl, rfl⟩
  exact ⟨rfl, others⟩

theorem length_of_readMany {n : ℕ} {values : List Value}
    (succeeded : readMany read n input = some (values, rest)) : values.length = n := by
  induction n generalizing input values with
  | zero => simp_all [readMany]
  | succ n ih =>
      cases values with
      | nil => simp [readMany, Option.bind_eq_some_iff] at succeeded
      | cons value values =>
          rcases readMany_succ_eq_some.mp succeeded with ⟨middle, -, others⟩
          simp [ih others]

theorem forall_of_readMany (property : Value → Prop)
    (each : ∀ input value rest, read input = some (value, rest) → property value) {n : ℕ}
    {values : List Value} (succeeded : readMany read n input = some (values, rest)) :
    ∀ value ∈ values, property value := by
  induction n generalizing input values with
  | zero => simp_all [readMany]
  | succ n ih =>
      cases values with
      | nil => simp
      | cons value values =>
          rcases readMany_succ_eq_some.mp succeeded with ⟨middle, first, others⟩
          intro member memberMem
          rcases List.mem_cons.mp memberMem with rfl | later
          · exact each _ _ _ first
          · exact ih others member later

theorem forall_of_readPairs {property : Value → Prop}
    (each : ∀ input value rest, read input = some (value, rest) → property value) {n : ℕ}
    {pairs : List (Value × Value)}
    (succeeded : readMany (readBoth read read) n input = some (pairs, rest)) :
    ∀ pair ∈ pairs, property pair.1 ∧ property pair.2 := by
  apply forall_of_readMany (fun pair => property pair.1 ∧ property pair.2) _ succeeded
  rintro input ⟨value, other⟩ last both
  rcases readBoth_eq_some.mp both with ⟨middle, first, second⟩
  exact ⟨each _ _ _ first, each _ _ _ second⟩

section Weakening

variable {other : Reader Symbol Value} {otherSecond : Reader Symbol Second}

theorem readBoth_weaken {value : Value × Second}
    (first : ∀ input result, read input = some result → other input = some result)
    (then_ : ∀ input result, second input = some result → otherSecond input = some result)
    (succeeded : readBoth read second input = some (value, rest)) :
    readBoth other otherSecond input = some (value, rest) := by
  rcases readBoth_eq_some.mp succeeded with ⟨middle, firstRead, secondRead⟩
  exact readBoth_eq_some.mpr ⟨middle, first _ _ firstRead, then_ _ _ secondRead⟩

/-- A reader which succeeds more often reads at least as many values. -/
theorem readMany_weaken {n : ℕ} {values : List Value}
    (each : ∀ input result, read input = some result → other input = some result)
    (succeeded : readMany read n input = some (values, rest)) :
    readMany other n input = some (values, rest) := by
  induction n generalizing input values with
  | zero => exact succeeded
  | succ n ih =>
      cases values with
      | nil => simp [readMany, Option.bind_eq_some_iff] at succeeded
      | cons value values =>
          rcases readMany_succ_eq_some.mp succeeded with ⟨middle, first, others⟩
          exact readMany_succ_eq_some.mpr ⟨middle, each _ _ first, ih others⟩

end Weakening

theorem readMany_flatMap (rest : List Symbol) {encode : Value → List Symbol} {values : List Value}
    (each : ∀ value ∈ values, ∀ rest, read (encode value ++ rest) = some (value, rest)) :
    readMany read values.length (values.flatMap encode ++ rest) = some (values, rest) := by
  induction values with
  | nil => rfl
  | cons value values ih =>
      have first := each value (by simp) (values.flatMap encode ++ rest)
      have others := ih fun other otherMem => each other (by simp [otherMem])
      rw [List.flatMap_cons, List.append_assoc, List.length_cons]
      exact readMany_succ_eq_some.mpr ⟨_, first, others⟩

/--
Let the input of a reader be related to an encoding of the values that it returns.
If the relation survives each value, it survives all of them.
-/
theorem readMany_follows (related : List Symbol → List Symbol → Prop)
    {encode : Value → List Symbol} {values : List Value}
    (each : ∀ value ∈ values, ∀ input rest tail, related input (encode value ++ tail) →
      read input = some (value, rest) → related rest tail)
    {tail : List Symbol} (initial : related input (values.flatMap encode ++ tail))
    (succeeded : readMany read values.length input = some (values, rest)) :
    related rest tail := by
  induction values generalizing input with
  | nil =>
      simp only [List.length_nil, readMany, Option.some.injEq, Prod.mk.injEq, true_and] at succeeded
      exact succeeded ▸ initial
  | cons value values ih =>
      rw [List.flatMap_cons, List.append_assoc] at initial
      rcases readMany_succ_eq_some.mp succeeded with ⟨middle, first, others⟩
      have next := each value (by simp) input middle _ initial first
      exact ih (fun other otherMem => each other (by simp [otherMem])) next others

/--
Let some values be read back, and let every other value leave symbols in front of the
input which are still there after any further value. If not all values are read back,
these symbols are in front of the rest.
-/
theorem readMany_diverted {encode : Value → List Symbol} {intact : Value → Prop}
    {stray : List Symbol} {values : List Value}
    (kept : ∀ value ∈ values, intact value → ∀ rest,
      read (encode value ++ rest) = some (value, rest))
    (diverted : ∀ value ∈ values, ¬intact value → ∀ rest tail,
      read (encode value ++ tail) = some (value, rest) → rest = stray ++ tail)
    (stays : ∀ value ∈ values, ∀ rest tail,
      read (stray ++ (encode value ++ tail)) = some (value, rest) → rest = stray ++ tail)
    {tail : List Symbol} (broken : ∃ value ∈ values, ¬intact value)
    (succeeded :
      readMany read values.length (values.flatMap encode ++ tail) = some (values, rest)) :
    rest = stray ++ tail := by
  induction values with
  | nil => simp at broken
  | cons value values ih =>
      rw [List.flatMap_cons, List.append_assoc] at succeeded
      rcases readMany_succ_eq_some.mp succeeded with ⟨middle, first, others⟩
      by_cases whole : intact value
      · have same := kept value (by simp) whole (values.flatMap encode ++ tail)
        rw [first, Option.some.injEq, Prod.mk.injEq] at same
        rw [same.2] at others
        apply ih (fun other otherMem => kept other (by simp [otherMem]))
          (fun other otherMem => diverted other (by simp [otherMem]))
          (fun other otherMem => stays other (by simp [otherMem])) _ others
        rcases broken with ⟨other, otherMem, changed⟩
        rcases List.mem_cons.mp otherMem with rfl | later
        · exact absurd whole changed
        · exact ⟨other, later, changed⟩
      · have middle_eq := diverted value (by simp) whole _ _ first
        apply readMany_follows (fun input expected => input = stray ++ expected) _ middle_eq others
        rintro other otherMem input last remaining rfl read_eq
        exact stays other (by simp [otherMem]) _ _ read_eq

end Rules

end Lucciefr
