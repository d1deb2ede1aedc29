import Mathlib.Data.Int.Basic
import Mathlib.Data.List.Basic
import Lucciefr.Base.Retry

/-!
# Formatted strings

`vformatmsg_len` of `core/strutils.c`, which prints to a buffer and tries again with a
larger one until the output fits. The implementations of `vsnprintf` do not agree on
what is returned for an output which does not; whatever is negative is taken for that.
-/

namespace Lucciefr.Strutils

/-- `INT_MAX` -/
def intMax : ℤ := 2147483647

/-- `x + y`, of two variables of type `int` which are not negative. -/
def addInt (x y : ℤ) : Except Fault ℤ :=
  if x + y ≤ intMax then .ok (x + y) else .error .signedOverflow

/-- The memory which can be allocated, with what is found in a new block. -/
abbrev Memory := (size : ℕ) → Option (ℕ → UInt8)

/-- `realloc` -/
def realloc (memory : Memory) (block : Option (List UInt8)) (size : ℕ) : Option (List UInt8) :=
  (memory size).map fun fresh =>
    (List.range size).map fun index => ((block.getD [])[index]?).getD (fresh index)

/-- A call of `vsnprintf` with a format string and its arguments, as a function of the
buffer: the result, and what is in the buffer. -/
abbrev Vsnprintf := List UInt8 → ℤ × List UInt8

/-- Write to the first bytes of a block. -/
def overwrite (block text : List UInt8) : List UInt8 :=
  (text ++ block.drop text.length).take block.length

/-- What `vsnprintf` does with an output which does not fit together with a NUL. -/
inductive Convention where
  /-- The length of the output is returned. -/
  | fullLength
  /-- A negative value is returned. -/
  | truncation
  /-- A negative value is returned if the output itself does not fit; there is no NUL. -/
  | unterminated
deriving DecidableEq

/-- What is returned for such an output, and what is written. -/
def Convention.truncated (convention : Convention) (output block : List UInt8) :
    ℤ × List UInt8 :=
  match convention with
  | fullLength => (output.length, overwrite block (output.take (block.length - 1) ++ [0]))
  | truncation => (-1, overwrite block (output.take (block.length - 1) ++ [0]))
  | unterminated =>
      (if output.length = block.length then output.length else -1, overwrite block output)

/-- `vsnprintf` with this output. -/
def Convention.vsnprintf (convention : Convention) (output block : List UInt8) :
    ℤ × List UInt8 :=
  if output.length < block.length then
    (output.length, overwrite block (output ++ [0]))
  else
    convention.truncated output block

/-- `DEFAULT_FORMATMSG_SIZE` -/
def defaultFormatmsgSize : ℤ := 512

/-- The local variables of `vformatmsg_len`, with the string behind `msg`. -/
structure FormatLoop where
  msg : Option (List UInt8)
  size : ℤ
  used : ℤ

/-- The second half of the loop body, with the result of `vsnprintf` and the buffer. -/
def afterPrint (size used : ℤ) (block : List UInt8) : Except Fault FormatLoop := do
  let size ← (if used < 0 then addInt size defaultFormatmsgSize else pure size)
  if used ≥ size then do
    let size ← addInt used 1
    pure ⟨some block, size, -1⟩
  else
    pure ⟨some block, size, used⟩

/-- The body of the loop of `vformatmsg_len`. -/
def formatTurn (memory : Memory) (vsnprintf : Vsnprintf) (held : FormatLoop) :
    Except Fault FormatLoop :=
  match realloc memory held.msg held.size.toNat with
  | none => .error .nullPointer
  | some block => afterPrint held.size (vsnprintf block).1 (vsnprintf block).2

/-- What `vformatmsg_len` returns, and stores. -/
structure Formatted where
  used : ℤ
  msg : Option (List UInt8)

/-- `vformatmsg_len`, where `requested` tells whether `msg` is not `NULL`. -/
def vformatmsgLen (memory : Memory) (vsnprintf : Vsnprintf) (turns : ℕ) (requested : Bool) :
    Except Fault Formatted :=
  if !requested then
    .ok ⟨0, none⟩
  else do
    let last ← doWhile .divergence (fun held => decide (held.used < 0))
      (formatTurn memory vsnprintf) turns ⟨none, defaultFormatmsgSize, 0⟩
    pure ⟨last.used, last.msg⟩

/-- `vformatmsg`, and `formatmsg` -/
def vformatmsg (memory : Memory) (vsnprintf : Vsnprintf) (turns : ℕ) :
    Except Fault (Option (List UInt8)) := do
  let formatted ← vformatmsgLen memory vsnprintf turns true
  pure formatted.msg

section Lemmas

variable {memory : Memory} {convention : Convention} {vsnprintf : Vsnprintf}
  {output block : List UInt8} {held : FormatLoop} {size turns : ℕ}

theorem length_realloc {old : Option (List UInt8)}
    (granted : realloc memory old size = some block) : block.length = size := by
  rw [realloc, Option.map_eq_some_iff] at granted
  rcases granted with ⟨fresh, -, rfl⟩
  simp

theorem realloc_isSome {old : Option (List UInt8)} (plenty : (memory size).isSome) :
    ∃ block, realloc memory old size = some block ∧ block.length = size := by
  rcases Option.isSome_iff_exists.mp plenty with ⟨fresh, fresh_eq⟩
  have granted : realloc memory old size = some ((List.range size).map fun index =>
      ((old.getD [])[index]?).getD (fresh index)) := by
    rw [realloc, fresh_eq, Option.map_some]
  exact ⟨_, granted, length_realloc granted⟩

/-- An output which fits is printed with its NUL. -/
theorem vsnprintf_of_lt (fits : output.length < block.length) :
    ∃ rest, convention.vsnprintf output block =
      ((output.length : ℤ), output ++ 0 :: rest) := by
  have whole : overwrite block (output ++ [0]) =
      output ++ 0 :: block.drop (output.length + 1) := by
    rw [overwrite, List.take_of_length_le]
    · simp
    · simp only [List.length_append, List.length_drop, List.length_singleton]
      omega
  rw [Convention.vsnprintf, if_pos fits, whole]
  exact ⟨_, rfl⟩

/-- For one which does not fit, the result is either negative or not below the size. -/
theorem vsnprintf_of_ge (exceeds : block.length ≤ output.length) :
    (convention.vsnprintf output block).1 = -1 ∨
      (convention.vsnprintf output block).1 = output.length := by
  rw [Convention.vsnprintf, if_neg (by omega)]
  cases convention with
  | fullLength => exact Or.inr rfl
  | truncation => exact Or.inl rfl
  | unterminated =>
      rw [Convention.truncated]
      by_cases same : output.length = block.length
      · rw [if_pos same]
        exact Or.inr rfl
      · rw [if_neg same]
        exact Or.inl rfl

theorem afterPrint_of_neg {size used : ℤ} (negative : used < 0) (positive : 0 ≤ size)
    (small : size + defaultFormatmsgSize ≤ intMax) :
    afterPrint size used block = .ok ⟨some block, size + defaultFormatmsgSize, used⟩ := by
  have larger : ¬used ≥ size + defaultFormatmsgSize := by
    rw [defaultFormatmsgSize]
    omega
  rw [afterPrint, if_pos negative, addInt, if_pos small, ok_bind, if_neg larger]
  rfl

theorem afterPrint_of_ge {size used : ℤ} (positive : 0 ≤ used) (exceeds : size ≤ used)
    (small : used + 1 ≤ intMax) :
    afterPrint size used block = .ok ⟨some block, used + 1, -1⟩ := by
  rw [afterPrint, if_neg (by omega)]
  change (if used ≥ size then _ else _) = _
  rw [if_pos exceeds, addInt, if_pos small]
  rfl

theorem afterPrint_of_lt {size used : ℤ} (positive : 0 ≤ used) (fits : used < size) :
    afterPrint size used block = .ok ⟨some block, size, used⟩ := by
  rw [afterPrint, if_neg (by omega)]
  change (if used ≥ size then _ else _) = _
  rw [if_neg (by omega)]
  rfl

/-- What is known before a turn, when the output has to be printed. -/
structure Growing (output : List UInt8) (held : FormatLoop) : Prop where
  positive : 0 < held.size
  bounded : held.size ≤ output.length + defaultFormatmsgSize

/-- One turn either prints the output, or gets closer to its length. -/
theorem formatTurn_cases (plenty : ∀ size, (memory size).isSome)
    (small : (output.length : ℤ) ≤ intMax - 1024) (growing : Growing output held) :
    ∃ next, formatTurn memory (convention.vsnprintf output) held = .ok next ∧
      (decide (next.used < 0) = true → Growing output next ∧
        (output.length + 1 - next.size).toNat < (output.length + 1 - held.size).toNat) ∧
      (decide (next.used < 0) = false → next.used = output.length ∧
        ∃ rest, next.msg = some (output ++ 0 :: rest)) := by
  rcases growing with ⟨positive, bounded⟩
  rcases realloc_isSome (plenty _) with
    ⟨block, granted, length_eq⟩
  rw [defaultFormatmsgSize] at bounded
  rw [intMax] at small
  have turned : formatTurn memory (convention.vsnprintf output) held = afterPrint held.size
      (convention.vsnprintf output block).1 (convention.vsnprintf output block).2 := by
    rw [formatTurn, granted]
  rcases lt_or_ge output.length block.length with fits | exceeds
  · rcases vsnprintf_of_lt fits with ⟨rest, printed⟩
    rw [printed, afterPrint_of_lt (by omega) (by omega)] at turned
    refine ⟨_, turned, ?_, fun _ => ⟨rfl, rest, rfl⟩⟩
    intro again
    have negative := of_decide_eq_true again
    simp only at negative
    omega
  · rcases vsnprintf_of_ge exceeds with negative | required
    · have grown : held.size + defaultFormatmsgSize ≤ intMax := by
        rw [defaultFormatmsgSize, intMax]
        omega
      rw [negative, afterPrint_of_neg (by decide) (by omega) grown] at turned
      refine ⟨_, turned, fun _ => ⟨⟨?_, ?_⟩, ?_⟩, nofun⟩
      · simp only [defaultFormatmsgSize]
        omega
      · simp only [defaultFormatmsgSize]
        omega
      · simp only [defaultFormatmsgSize]
        omega
    · have grown : (output.length : ℤ) + 1 ≤ intMax := by
        rw [intMax]
        omega
      rw [required, afterPrint_of_ge (by omega) (by omega) grown] at turned
      refine ⟨_, turned, fun _ => ⟨⟨?_, ?_⟩, ?_⟩, nofun⟩
      · simp only
        omega
      · simp only [defaultFormatmsgSize]
        omega
      · simp only
        omega

/--
For every convention the loop ends, with the length of the output, and with a block
which holds the output and a NUL.
-/
theorem vformatmsgLen_delivers (memory : Memory) (convention : Convention) (output : List UInt8)
    (plenty : ∀ size, (memory size).isSome) (small : (output.length : ℤ) ≤ intMax - 1024) :
    ∀ turns > output.length, ∃ rest,
      vformatmsgLen memory (convention.vsnprintf output) turns true =
        .ok ⟨output.length, some (output ++ 0 :: rest)⟩ := by
  intro turns enough
  have start : Growing output ⟨none, defaultFormatmsgSize, 0⟩ := by
    constructor
    · decide
    · simp only [defaultFormatmsgSize]
      omega
  have measured : (output.length + 1 - defaultFormatmsgSize : ℤ).toNat < turns := by
    rw [defaultFormatmsgSize]
    omega
  rcases doWhile_returns (Growing output) (fun held => (output.length + 1 - held.size : ℤ).toNat)
      (fun held growing => formatTurn_cases plenty small growing) measured start with
    ⟨⟨msg, size, used⟩, ran, used_eq, rest, msg_eq⟩
  refine ⟨rest, ?_⟩
  rw [vformatmsgLen, ran]
  simp only at used_eq msg_eq
  rw [used_eq, msg_eq]
  rfl

/-- An output of exactly the default size. -/
theorem vformatmsgLen_delivers_512 :
    let output := List.replicate 512 65
    ∀ turns > output.length, ∃ rest,
      vformatmsgLen (fun _ => some fun _ => 170) (Convention.unterminated.vsnprintf output) turns
        true = .ok ⟨output.length, some (output ++ 0 :: rest)⟩ := by
  intro output
  have small : (output.length : ℤ) ≤ intMax - 1024 := by
    rw [List.length_replicate]
    decide
  exact vformatmsgLen_delivers (fun _ => some fun _ => 170) .unterminated output (fun _ => rfl)
    small

/-- After a conversion error the loop goes on. -/
theorem formatTurn_again (failing : ∀ block, (vsnprintf block).1 < 0) {next : FormatLoop}
    (turned : formatTurn memory vsnprintf held = .ok next) : next.used < 0 := by
  rw [formatTurn] at turned
  split at turned
  · cases turned
  · rename_i block granted
    have negative := failing block
    generalize (vsnprintf block).1 = used at turned negative
    rw [afterPrint, if_pos negative] at turned
    cases enlarged : addInt held.size defaultFormatmsgSize with
    | error fault =>
        rw [enlarged] at turned
        cases turned
    | ok size =>
        rw [enlarged, ok_bind] at turned
        split at turned
        · cases required : addInt used 1 with
          | error fault =>
              rw [required] at turned
              cases turned
          | ok size =>
              rw [required] at turned
              cases turned
              exact (by decide : (-1 : ℤ) < 0)
        · cases turned
          exact negative

theorem vformatmsgLen_never_returns (failing : ∀ block, (vsnprintf block).1 < 0)
    {formatted : Formatted} : vformatmsgLen memory vsnprintf turns true ≠ .ok formatted := by
  intro returned
  rw [vformatmsgLen] at returned
  cases ran : doWhile .divergence (fun held => decide (held.used < 0))
    (formatTurn memory vsnprintf) turns ⟨none, defaultFormatmsgSize, 0⟩ with
  | error fault =>
      rw [ran] at returned
      cases returned
  | ok last =>
      apply doWhile_never_returns (fun _ => True) _ trivial ran
      intro held next _ turned
      exact ⟨decide_eq_true (formatTurn_again failing turned), trivial⟩

theorem vformatmsg_never_returns (failing : ∀ block, (vsnprintf block).1 < 0)
    {text : Option (List UInt8)} : vformatmsg memory vsnprintf turns ≠ .ok text := by
  intro returned
  rw [vformatmsg] at returned
  cases ran : vformatmsgLen memory vsnprintf turns true with
  | error fault =>
      rw [ran] at returned
      cases returned
  | ok formatted => exact vformatmsgLen_never_returns failing ran

/--
When `vsnprintf` always fails, only a call without a result pointer returns, and
`vformatmsg` never does.
-/
theorem vformatmsgLen_returns_iff (memory : Memory) (vsnprintf : Vsnprintf) (requested : Bool)
    (failing : ∀ block, (vsnprintf block).1 < 0) :
    ((∃ turns formatted, vformatmsgLen memory vsnprintf turns requested = .ok formatted) ↔
      requested = false) ∧
    ∀ turns text, vformatmsg memory vsnprintf turns ≠ .ok text := by
  refine ⟨⟨?_, ?_⟩, fun turns text => vformatmsg_never_returns failing⟩
  · rintro ⟨turns, formatted, returned⟩
    cases requested with
    | false => rfl
    | true => exact absurd returned (vformatmsgLen_never_returns failing)
  · rintro rfl
    exact ⟨0, _, rfl⟩

end Lemmas

theorem vformatmsgLen_returns_iff_minusOne :
    ((∃ turns formatted, vformatmsgLen (fun _ => some fun _ => 0) (fun block => (-1, block)) turns
      true = .ok formatted) ↔ true = false) ∧
    ∀ turns text, vformatmsg (fun _ => some fun _ => 0) (fun block => (-1, block)) turns ≠
      .ok text := by
  exact vformatmsgLen_returns_iff (fun _ => some fun _ => 0) (fun block => (-1, block)) true
    (fun _ => (by decide : (-1 : ℤ) < 0))

/-- Every call of `vsnprintf` returns -1, and `realloc` always succeeds. -/
theorem not_vformatmsgLen_returns :
    ¬∃ turns formatted, vformatmsgLen (fun _ => some fun _ => 0) (fun block => (-1, block)) turns
      true = .ok formatted := by
  rintro ⟨turns, formatted, returned⟩
  exact vformatmsgLen_never_returns (fun _ => (by decide : (-1 : ℤ) < 0)) returned

end Lucciefr.Strutils
