import Mathlib.Data.List.Basic
import Lucciefr.Base.Buffer

/-!
# Trimming

`rtrim_len` and `ltrim_ofs` of `core/strutils.c`. The first one goes backwards over the
whitespace at the end of a string, the second one forwards over the whitespace at its
beginning; the result of one can be the length for the other.
-/

namespace Lucciefr.Strutils

/-- `NOTWHITE`: neither TAB nor SPACE -/
def notWhite (char : UInt8) : Bool :=
  char ≠ 9 && char ≠ 32

/-- The length which the functions begin with, where `len` is optional. -/
def trimLength (s : List UInt8) (len : Option ℕ) : Except Fault ℤ :=
  match len with
  | some len => .ok (toInt len)
  | none => do
      let text ← readString s
      pure (toInt text.length)

/-- The loop of `rtrim_len`, with `n` before it is decremented. -/
def rtrimLoop (s : List UInt8) : (n : ℕ) → Except Fault ℕ
  | 0 => .ok 0
  | n + 1 => do
      let char ← readAt s n
      if notWhite char then
        pure (n + 1)
      else
        rtrimLoop s n

/-- `rtrim_len` -/
def rtrimLen (s : List UInt8) (len : Option ℕ) : Except Fault ℤ := do
  let n ← trimLength s len
  if n = -2 ^ 31 then
    .error .signedOverflow -- INT_MIN is decremented
  else if n < 0 then
    pure n
  else do
    let r ← rtrimLoop s n.toNat
    pure r

/-- The loop of `ltrim_ofs`, with the number of characters which are left. -/
def ltrimLoop (s : List UInt8) : (left : ℕ) → (result : ℕ) → Except Fault ℕ
  | 0, result => .ok result
  | left + 1, result => do
      let char ← readAt s result
      if notWhite char then
        pure result
      else
        ltrimLoop s left (result + 1)

/-- `ltrim_ofs` -/
def ltrimOfs (s : List UInt8) (len : Option ℕ) : Except Fault ℤ := do
  let n ← trimLength s len
  let result ← ltrimLoop s n.toNat 0
  pure result

/-- The characters which are trimmed: as many as given, or those before the NUL. -/
def TrimInput (s : List UInt8) : (len : Option ℕ) → (text : List UInt8) → Prop
  | some len, text => len ≤ s.length ∧ text = s.take len
  | none, text => 0 ∉ text ∧ ∃ rest, s = text ++ 0 :: rest

/-- Everything outside of these bounds is whitespace, and no more can be trimmed. -/
structure Trimmed (text : List UInt8) (o r : ℕ) : Prop where
  ordered : o ≤ r
  inside : r ≤ text.length
  outside : ∀ i char, text[i]? = some char → i < o ∨ r ≤ i → notWhite char = false
  maximal : o < r → (∃ char, text[o]? = some char ∧ notWhite char = true) ∧
    ∃ char, text[r - 1]? = some char ∧ notWhite char = true
  empty : o = r → ∀ char ∈ text, notWhite char = false

section Lemmas

variable {s text : List UInt8} {len : Option ℕ} {n left result : ℕ}

/-- The loop stops behind the last character which is no whitespace. -/
theorem rtrimLoop_spec (inside : n ≤ s.length) :
    ∃ r ≤ n, rtrimLoop s n = .ok r ∧
      (∀ i char, s[i]? = some char → r ≤ i → i < n → notWhite char = false) ∧
      (0 < r → ∃ char, s[r - 1]? = some char ∧ notWhite char = true) := by
  induction n with
  | zero => exact ⟨0, le_refl 0, rfl, fun i char _ _ last => by omega, fun absurdity => by omega⟩
  | succ n ih =>
      have present : s[n]? = some s[n] := List.getElem?_eq_getElem inside
      rw [rtrimLoop, readAt_of_some present, ok_bind]
      cases white : notWhite s[n] with
      | true =>
          refine ⟨n + 1, le_refl _, rfl, fun i char _ first last => by omega, fun _ => ?_⟩
          exact ⟨s[n], present, white⟩
      | false =>
          rcases ih (Nat.le_of_succ_le inside) with ⟨r, bound, run, behind, last⟩
          refine ⟨r, Nat.le_succ_of_le bound, run, ?_, last⟩
          intro i char charAt first below
          by_cases here : i = n
          · subst here
            rw [present, Option.some.injEq] at charAt
            rw [← charAt, white]
          · exact behind i char charAt first (by omega)

/-- The loop stops at the first character which is no whitespace. -/
theorem ltrimLoop_spec (inside : result + left ≤ s.length) :
    ∃ o, result ≤ o ∧ o ≤ result + left ∧ ltrimLoop s left result = .ok o ∧
      (∀ i char, s[i]? = some char → result ≤ i → i < o → notWhite char = false) ∧
      (o < result + left → ∃ char, s[o]? = some char ∧ notWhite char = true) := by
  induction left generalizing result with
  | zero =>
      exact ⟨result, le_refl _, le_refl _, rfl, fun i char _ first last => by omega,
        fun absurdity => by omega⟩
  | succ left ih =>
      have here : result < s.length := by omega
      have present : s[result]? = some s[result] := List.getElem?_eq_getElem here
      rw [ltrimLoop, readAt_of_some present, ok_bind]
      cases white : notWhite s[result] with
      | true =>
          refine ⟨result, le_refl _, by omega, rfl, fun i char _ first last => by omega,
            fun _ => ⟨s[result], present, white⟩⟩
      | false =>
          have remaining : result + 1 + left ≤ s.length := by omega
          rcases ih remaining with ⟨o, lower, upper, run, before, stopped⟩
          refine ⟨o, by omega, by omega, run, ?_, fun below => stopped (by omega)⟩
          intro i char charAt first below
          by_cases here : i = result
          · subst here
            rw [present, Option.some.injEq] at charAt
            rw [← charAt, white]
          · exact before i char charAt (by omega) below

theorem ltrimLoop_of_first {o : ℕ} {char : UInt8} (fits : left ≤ s.length) (inside : o < left)
    (before : ∀ i char, s[i]? = some char → i < o → notWhite char = false)
    (stopAt : s[o]? = some char) (visible : notWhite char = true) :
    ltrimLoop s left 0 = .ok o := by
  have fits' : 0 + left ≤ s.length := by omega
  rcases ltrimLoop_spec fits' with ⟨o', -, -, ran, before', first'⟩
  have same : o' = o := by
    apply Nat.le_antisymm
    · by_contra later
      rw [before' o char stopAt (Nat.zero_le o) (not_le.mp later)] at visible
      exact Bool.false_ne_true visible
    · by_contra later
      rcases first' (by omega) with ⟨other, otherAt, otherVisible⟩
      rw [before o' other otherAt (not_le.mp later)] at otherVisible
      exact Bool.false_ne_true otherVisible
  rw [ran, same]

theorem TrimInput.begins (input : TrimInput s len text) : text <+: s := by
  cases len with
  | some len =>
      rw [input.2]
      exact List.take_prefix len s
  | none =>
      rcases input with ⟨-, rest, rfl⟩
      exact List.prefix_append _ _

theorem trimLength_eq (input : TrimInput s len text) (small : text.length < 2 ^ 31) :
    trimLength s len = .ok (text.length : ℤ) := by
  cases len with
  | some len =>
      rcases input with ⟨inside, rfl⟩
      rw [List.length_take_of_le inside] at small ⊢
      rw [trimLength, toInt_of_lt small]
  | none =>
      rcases input with ⟨noNul, rest, rfl⟩
      rw [trimLength, readString_of_append noNul, ok_bind, toInt_of_lt small]
      rfl

theorem rtrimLen_eq {r : ℕ} (input : TrimInput s len text) (small : text.length < 2 ^ 31)
    (run : rtrimLoop s text.length = .ok r) : rtrimLen s len = .ok (r : ℤ) := by
  rw [rtrimLen, trimLength_eq input small, ok_bind, if_neg (by omega), if_neg (by omega),
    Int.toNat_natCast, run]
  rfl

theorem ltrimOfs_eq {o : ℕ} (input : TrimInput s len text) (small : text.length < 2 ^ 31)
    (run : ltrimLoop s text.length 0 = .ok o) : ltrimOfs s len = .ok (o : ℤ) := by
  rw [ltrimOfs, trimLength_eq input small, ok_bind, Int.toNat_natCast, run]
  rfl

/-- What remains is trimmed, if both loops have stopped. -/
theorem trimmed_of_stopped {o r : ℕ} (isPrefix : text <+: s) (ordered : o ≤ r)
    (inside : r ≤ text.length)
    (behind : ∀ i char, s[i]? = some char → r ≤ i → i < text.length → notWhite char = false)
    (last : 0 < r → ∃ char, s[r - 1]? = some char ∧ notWhite char = true)
    (before : ∀ i char, s[i]? = some char → i < o → notWhite char = false)
    (first : o < r → ∃ char, s[o]? = some char ∧ notWhite char = true) : Trimmed text o r := by
  rcases isPrefix with ⟨rest, rfl⟩
  have outside : ∀ i char, text[i]? = some char → i < o ∨ r ≤ i → notWhite char = false := by
    intro i char present beyond
    have below := (List.getElem?_eq_some_iff.mp present).1
    have inWhole : (text ++ rest)[i]? = some char := by
      rw [List.getElem?_append_left below, present]
    rcases beyond with left | right
    · exact before i char inWhole left
    · exact behind i char inWhole right below
  refine ⟨ordered, inside, outside, fun shorter => ⟨?_, ?_⟩, fun same char charMem => ?_⟩
  · rcases first shorter with ⟨char, present, visible⟩
    rw [List.getElem?_append_left (by omega)] at present
    exact ⟨char, present, visible⟩
  · rcases last (by omega) with ⟨char, present, visible⟩
    rw [List.getElem?_append_left (by omega)] at present
    exact ⟨char, present, visible⟩
  · rcases List.mem_iff_getElem?.mp charMem with ⟨i, present⟩
    exact outside i char present (by omega)

/--
Trimming removes all whitespace at both ends and nothing else, in either order if there is
another character.
-/
theorem trimmed_of_input (s text : List UInt8) (len : Option ℕ) (input : TrimInput s len text)
    (small : text.length < 2 ^ 31) :
    ∃ o r : ℕ, rtrimLen s len = .ok (r : ℤ) ∧ ltrimOfs s (some r) = .ok (o : ℤ) ∧
      Trimmed text o r ∧
      ((∃ char ∈ text, notWhite char = true) → ltrimOfs s len = .ok (o : ℤ)) := by
  have fits := input.begins.length_le
  rcases rtrimLoop_spec fits with ⟨r, inside, ranRight, behind, last⟩
  have fitsLeft : 0 + r ≤ s.length := by omega
  rcases ltrimLoop_spec fitsLeft with ⟨o, -, ordered, ranLeft, before, first⟩
  rw [Nat.zero_add] at ordered first
  have shortened : TrimInput s (some r) (s.take r) := ⟨by omega, rfl⟩
  have length_eq : (s.take r).length = r := List.length_take_of_le (by omega)
  have ranLeft' : ltrimLoop s (s.take r).length 0 = .ok o := by rw [length_eq, ranLeft]
  have trimmed := trimmed_of_stopped input.begins ordered inside behind last
    (fun i char present below => before i char present (Nat.zero_le i) below) first
  refine ⟨o, r, rtrimLen_eq input small ranRight,
    ltrimOfs_eq shortened (by omega) ranLeft', trimmed, ?_⟩
  rintro ⟨char, charMem, visible⟩
  have shorter : o < r := by
    by_contra notShorter
    rw [trimmed.empty (Nat.le_antisymm ordered (not_lt.mp notShorter)) char charMem] at visible
    exact Bool.false_ne_true visible
  rcases first shorter with ⟨stop, stopAt, stopVisible⟩
  apply ltrimOfs_eq input small
  exact ltrimLoop_of_first fits (shorter.trans_le inside)
    (fun i char present below => before i char present (Nat.zero_le i) below) stopAt stopVisible

theorem trimmed_of_input_embedded :
    TrimInput [32, 9, 0, 97, 32, 32] (some 5) [32, 9, 0, 97, 32] ∧
      ∃ o r : ℕ, rtrimLen [32, 9, 0, 97, 32, 32] (some 5) = .ok (r : ℤ) ∧
        ltrimOfs [32, 9, 0, 97, 32, 32] (some r) = .ok (o : ℤ) ∧
        Trimmed [32, 9, 0, 97, 32] o r ∧
        ((∃ char ∈ ([32, 9, 0, 97, 32] : List UInt8), notWhite char = true) →
          ltrimOfs [32, 9, 0, 97, 32, 32] (some 5) = .ok (o : ℤ)) := by
  have input : TrimInput [32, 9, 0, 97, 32, 32] (some 5) [32, 9, 0, 97, 32] := ⟨by decide, rfl⟩
  exact ⟨input, trimmed_of_input _ _ _ input (by decide)⟩

end Lemmas

end Lucciefr.Strutils
