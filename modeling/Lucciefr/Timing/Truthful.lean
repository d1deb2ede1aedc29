import Mathlib.Tactic.FieldSimp
import Mathlib.Tactic.NormNum
import Lucciefr.Timing.Format

/-!
# The time which is printed

The string which `format_timestamp` makes is read as a point in time again, and compared
with the timestamp. The two differ by half a millisecond at most, unless the fractional
part is rounded up to a whole second: that second is lost.
-/

namespace Lucciefr.Timing

open Symbols (characters)

/-- Read a number which consists of digits only. -/
def readNumber (text : List UInt8) : Option ℕ :=
  if !text.isEmpty && text.all fun char => decide (IsDigit char) then
    some (readDecimal text)
  else
    none

/-- Read the number in front of a separator, with what is behind it. -/
def readField (separator : UInt8) (text : List UInt8) : Option (ℕ × List UInt8) := do
  let value ← readNumber (text.takeWhile (· ≠ separator))
  match text.dropWhile (· ≠ separator) with
  | [] => none
  | _ :: rest => some (value, rest)

/-- The seconds since the beginning of 1970. -/
def secondsOf (date : Date) (hour min sec : ℕ) : ℤ :=
  86400 * date.number + 3600 * hour + 60 * min + sec

/-- The point in time which a string like `1970-01-01 00:02:03.450` denotes. -/
def readTime (text : List UInt8) : Option ℚ := do
  let (year, text) ← readField 45 text
  let (month, text) ← readField 45 text
  let (day, text) ← readField 32 text
  let (hour, text) ← readField 58 text
  let (min, text) ← readField 58 text
  let (sec, text) ← readField 46 text
  let decimals ← readNumber text
  pure (secondsOf ⟨year, month - 1, day⟩ hour min sec + decimals / 10 ^ text.length)

/-- The format of a full timestamp. -/
def stampFormat : List UInt8 :=
  characters "%Y-%m-%d %H:%M:%S.qqq"

/-- The time denoted by the formatted timestamp. -/
def Denotes (library : CLibrary) (msecs : Vector UInt8 6) (buffer : List UInt8) (len : ℕ)
    (timestamp denoted : ℚ) : Prop :=
  ∃ result block, formatTimestamp library msecs buffer len stampFormat timestamp false =
    .ok (result, block) ∧ readTime (cString block) = some denoted

section Reading

variable {text rest : List UInt8} {separator : UInt8}

theorem readNumber_of_digits (nonempty : text ≠ []) (digits : ∀ char ∈ text, IsDigit char) :
    readNumber text = some (readDecimal text) := by
  have present : text.isEmpty = false := List.isEmpty_eq_false_iff.mpr nonempty
  have all_digits : (text.all fun char => decide (IsDigit char)) = true :=
    List.all_eq_true.mpr fun char charMem => decide_eq_true (digits char charMem)
  rw [readNumber, present, all_digits]
  rfl

/-- A number is read up to a separator which is no digit. -/
theorem readField_append (nonempty : text ≠ []) (digits : ∀ char ∈ text, IsDigit char)
    (different : ¬IsDigit separator) :
    readField separator (text ++ separator :: rest) = some (readDecimal text, rest) := by
  have passed : ∀ char ∈ text, decide (char ≠ separator) = true := by
    intro char charMem
    refine decide_eq_true fun same => different ?_
    rw [← same]
    exact digits char charMem
  have taken : (text ++ separator :: rest).takeWhile (· ≠ separator) = text := by
    rw [List.takeWhile_append_of_pos passed, List.takeWhile_cons_of_neg (by simp), List.append_nil]
  have dropped : (text ++ separator :: rest).dropWhile (· ≠ separator) = separator :: rest := by
    rw [List.dropWhile_append_of_pos passed, List.dropWhile_cons_of_neg (by simp)]
  simp only [readField, taken, dropped, readNumber_of_digits nonempty digits]
  rfl

end Reading

section Printing

variable {library : CLibrary} {tm : Tm} {t : ℤ}

/-- The date and the time of day as they are printed. -/
def stamp (year : ℕ) (tm : Tm) : List UInt8 :=
  decimal year ++ 45 :: (padded 2 (tm.tmMon + 1) ++ 45 :: (padded 2 tm.tmMday ++ 32 ::
    (padded 2 tm.tmHour ++ 58 :: (padded 2 tm.tmMin ++ 58 :: padded 2 tm.tmSec))))

theorem expand_stampFormat (library : CLibrary) {year : ℕ} (year_eq : tm.tmYear + 1900 = year) :
    expand library tm stampFormat = stamp year tm ++ [46, 113, 113, 113] := by
  have format_eq : stampFormat = [37, 89, 45, 37, 109, 45, 37, 100, 32, 37, 72, 58, 37, 77, 58,
      37, 83, 46, 113, 113, 113] := by decide
  have notNegative : ¬(year : ℤ) < 0 := by omega
  rw [format_eq]
  simp [expand, convert, stamp, signed, year_eq, notNegative]

theorem mem_stamp {year : ℕ} {char : UInt8} (charMem : char ∈ stamp year tm) :
    IsDigit char ∨ char = 45 ∨ char = 32 ∨ char = 58 := by
  simp only [stamp, List.mem_append, List.mem_cons] at charMem
  rcases charMem with digit | rfl | digit | rfl | digit | rfl | digit | rfl | digit | rfl | digit
  · exact Or.inl (isDigit_of_mem_decimal digit)
  · exact Or.inr (Or.inl rfl)
  · exact Or.inl (isDigit_of_mem_padded digit)
  · exact Or.inr (Or.inl rfl)
  · exact Or.inl (isDigit_of_mem_padded digit)
  · exact Or.inr (Or.inr (Or.inl rfl))
  · exact Or.inl (isDigit_of_mem_padded digit)
  · exact Or.inr (Or.inr (Or.inr rfl))
  · exact Or.inl (isDigit_of_mem_padded digit)
  · exact Or.inr (Or.inr (Or.inr rfl))
  · exact Or.inl (isDigit_of_mem_padded digit)

theorem notMem_stamp {year : ℕ} {char : UInt8} (noDigit : ¬IsDigit char)
    (noSeparator : char ≠ 45 ∧ char ≠ 32 ∧ char ≠ 58) : char ∉ stamp year tm := by
  intro charMem
  rcases mem_stamp charMem with digit | rfl | rfl | rfl
  · exact noDigit digit
  · exact noSeparator.1 rfl
  · exact noSeparator.2.1 rfl
  · exact noSeparator.2.2 rfl

/-- The fields are read as they were printed. -/
theorem readTime_stamp (year millis : ℕ) (small : millis < 1000) :
    readTime (stamp year tm ++ 46 :: padded 3 millis) =
      some (secondsOf ⟨year, tm.tmMon, tm.tmMday⟩ tm.tmHour tm.tmMin tm.tmSec +
        (millis : ℚ) / 1000) := by
  have width : (padded 3 millis).length = 3 := length_padded (by decide) small
  have digits : ∀ number, ∀ char ∈ padded 2 number, IsDigit char :=
    fun number char charMem => isDigit_of_mem_padded charMem
  have dash : ¬IsDigit 45 := by decide
  have space : ¬IsDigit 32 := by decide
  have colon : ¬IsDigit 58 := by decide
  have dot : ¬IsDigit 46 := by decide
  simp only [readTime, stamp, List.append_assoc, List.cons_append, Option.bind_eq_bind,
    readField_append decimal_ne_nil (fun char => isDigit_of_mem_decimal) dash,
    readField_append padded_ne_nil (digits _) dash, readField_append padded_ne_nil (digits _) space,
    readField_append padded_ne_nil (digits _) colon, readField_append padded_ne_nil (digits _) dot,
    readNumber_of_digits padded_ne_nil (fun char => isDigit_of_mem_padded), Option.bind_some,
    readDecimal_decimal, readDecimal_padded, width, Nat.add_sub_cancel]
  norm_num

theorem strstr_append {first : UInt8} {needle front rest : List UInt8}
    (absent : first ∉ front) :
    strstr (first :: needle) (front ++ (first :: needle ++ rest)) = some front.length := by
  induction front with
  | nil =>
      have begins : (first :: needle).isPrefixOf (first :: (needle ++ rest)) = true :=
        List.isPrefixOf_iff_prefix.mpr (List.prefix_append (first :: needle) rest)
      rw [List.nil_append, List.cons_append, strstr, if_pos begins]
      rfl
  | cons char front ih =>
      rw [List.mem_cons, not_or] at absent
      have differs : ¬(first :: needle).isPrefixOf (char :: (front ++ (first :: needle ++ rest))) =
          true := by
        rw [List.isPrefixOf_iff_prefix, List.cons_prefix_cons]
        exact fun both => absent.1 both.1
      rw [List.cons_append, strstr, if_neg differs, ih absent.2]
      rfl

end Printing

section Milliseconds

variable {x : ℚ}

/-- The fractional part in milliseconds, where a whole second is possible. -/
def milliseconds (x : ℚ) : ℕ :=
  (roundHalfEven (1000 * Int.fract x)).toNat

theorem milliseconds_cast (x : ℚ) :
    (milliseconds x : ℚ) = roundHalfEven (1000 * Int.fract x) := by
  have positive := Int.fract_nonneg x
  have floor_nonneg : 0 ≤ ⌊1000 * Int.fract x⌋ := Int.floor_nonneg.mpr (by linarith)
  have lower := floor_le_roundHalfEven (1000 * Int.fract x)
  have same : (milliseconds x : ℤ) = roundHalfEven (1000 * Int.fract x) := by
    rw [milliseconds]
    omega
  exact_mod_cast congrArg (Int.cast : ℤ → ℚ) same

theorem milliseconds_le (x : ℚ) : milliseconds x ≤ 1000 := by
  have below := Int.fract_lt_one x
  have upper := roundHalfEven_le_floor_add_one (1000 * Int.fract x)
  have floor_lt : ⌊1000 * Int.fract x⌋ < 1000 := by
    rw [Int.floor_lt]
    push_cast
    linarith
  rw [milliseconds]
  omega

/-- The whole second is reached in the last half of a millisecond. -/
theorem milliseconds_lt_iff (x : ℚ) : milliseconds x < 1000 ↔ Int.fract x < 9995 / 10000 := by
  have nearest := roundHalfEven_le_iff (x := (1000 * Int.fract x)) (n := 999) (by decide)
  have same : milliseconds x < 1000 ↔ roundHalfEven (1000 * Int.fract x) ≤ 999 := by
    rw [milliseconds]
    omega
  rw [same, nearest]
  push_cast
  constructor <;> intro bound <;> linarith

end Milliseconds

section Printed

variable {library : CLibrary} {msecs : Vector UInt8 6} {buffer : List UInt8} {len : ℕ} {t : ℚ}

/-- The output of `strftime` fits together with a NUL. -/
def HasRoom (library : CLibrary) (buffer : List UInt8) (len : ℕ) (timestamp : ℚ) : Prop :=
  (expand library (gmtime (truncate timestamp)) stampFormat).length < len ∧ len ≤ buffer.length

/-- The truncated second and the milliseconds which are printed behind it. -/
def printedTime (t : ℚ) : ℚ :=
  ⌊t⌋ + (milliseconds t % 1000 : ℕ) / 1000

theorem truncate_of_nonneg (nonneg : 0 ≤ t) : truncate t = ⌊t⌋ :=
  if_pos nonneg

theorem fixed3_fmodOne (nonneg : 0 ≤ t) :
    fixed3 (fmodOne t) = UInt8.ofNat (48 + milliseconds t / 1000) ::
      46 :: padded 3 (milliseconds t % 1000) := by
  have fract_eq : fmodOne t = Int.fract t := by rw [fmodOne, truncate_of_nonneg nonneg, Int.fract]
  have bound := milliseconds_le t
  have positive := Int.fract_nonneg t
  rw [fixed3, fract_eq, abs_of_nonneg positive, ← milliseconds, if_neg (not_lt.mpr positive),
    decimal_of_lt (by omega)]
  rfl

/-- The year, as it is printed. -/
def printedYear (t : ℚ) : ℕ :=
  (civil (⌊t⌋ / 86400)).year.toNat

theorem printedYear_eq (nonneg : 0 ≤ t) : (gmtime ⌊t⌋).tmYear + 1900 = printedYear t := by
  have days : 0 ≤ ⌊t⌋ / 86400 := Int.ediv_nonneg (Int.floor_nonneg.mpr nonneg) (by decide)
  have later := civil_year_ge days
  simp only [gmtime, printedYear]
  omega

/-- The fields of `gmtime` denote the time which they were computed for. -/
theorem secondsOf_gmtime (nonneg : 0 ≤ t) :
    secondsOf ⟨printedYear t, (gmtime ⌊t⌋).tmMon, (gmtime ⌊t⌋).tmMday⟩ (gmtime ⌊t⌋).tmHour
      (gmtime ⌊t⌋).tmMin (gmtime ⌊t⌋).tmSec = ⌊t⌋ := by
  have year_eq := printedYear_eq nonneg
  have date_eq : (⟨printedYear t, (gmtime ⌊t⌋).tmMon, (gmtime ⌊t⌋).tmMday⟩ : Date) =
      civil (⌊t⌋ / 86400) := by
    rw [← year_eq]
    simp only [gmtime, sub_add_cancel]
  rw [secondsOf, date_eq, number_civil]
  simp only [gmtime]
  omega

theorem strftime_of_lt {format output : List UInt8} {tm : Tm}
    (output_eq : expand library tm format = output) (fits : output.length < len)
    (room : len ≤ buffer.length) :
    strftime library buffer len format tm =
      .ok (output.length, output ++ 0 :: buffer.drop (output ++ [0]).length) := by
  have enough : (output ++ [0]).length ≤ buffer.length := by
    rw [List.length_append, List.length_singleton]
    omega
  rw [strftime, output_eq]
  simp only [fits, if_true, writeBytes_of_le enough, ok_bind, List.append_assoc,
    List.singleton_append]
  rfl

theorem snprintf_fixed3 (msecs : Vector UInt8 6) (nonneg : 0 ≤ t) :
    ∃ digit rest, snprintf msecs.toList 6 (fixed3 (fmodOne t)) =
      .ok (digit :: (46 :: padded 3 (milliseconds t % 1000) ++ 0 :: rest)) := by
  have width : (padded 3 (milliseconds t % 1000)).length = 3 :=
    length_padded (by decide) (Nat.mod_lt _ (by decide))
  have fits : (fixed3 (fmodOne t)).length < 6 := by
    rw [fixed3_fmodOne nonneg, List.length_cons, List.length_cons, width]
    decide
  rcases snprintf_of_lt _ msecs.length_toList.ge fits with ⟨rest, printed⟩
  rw [fixed3_fmodOne nonneg] at printed ⊢
  exact ⟨_, rest, printed⟩

/-- The milliseconds are put over the placeholder, behind the date and the time of day. -/
theorem formatTimestamp_stamp (nonneg : 0 ≤ t) (room : HasRoom library buffer len t) :
    ∃ result rest, formatTimestamp library msecs buffer len stampFormat t false =
      .ok (result, stamp (printedYear t) (gmtime ⌊t⌋) ++
        (46 :: padded 3 (milliseconds t % 1000)) ++ 0 :: rest) := by
  have output_eq := expand_stampFormat library (printedYear_eq nonneg)
  have room' := room
  rw [HasRoom, truncate_of_nonneg nonneg, output_eq] at room'
  have visible : ∀ char, ¬IsDigit char → char ≠ 45 ∧ char ≠ 32 ∧ char ≠ 58 →
      char ∉ stamp (printedYear t) (gmtime ⌊t⌋) :=
    fun char noDigit noSeparator => notMem_stamp noDigit noSeparator
  generalize stamp (printedYear t) (gmtime ⌊t⌋) = front at output_eq room room' visible ⊢
  have noNul : 0 ∉ front ++ [46, 113, 113, 113] := by
    rw [List.mem_append, not_or]
    exact ⟨visible 0 (by decide) (by decide), by decide⟩
  have found : strstr (characters ".qqq") (front ++ [46, 113, 113, 113]) = some front.length := by
    have needle_eq : characters ".qqq" = [46, 113, 113, 113] := by decide
    rw [needle_eq]
    exact strstr_append (visible 46 (by decide) (by decide))
  rcases snprintf_fixed3 msecs nonneg with ⟨digit, behind, printed⟩
  have noNul' : 0 ∉ 46 :: padded 3 (milliseconds t % 1000) := by
    rw [List.mem_cons, not_or]
    exact ⟨by decide, fun nulMem => absurd (isDigit_of_mem_padded nulMem) (by decide)⟩
  have read : readString (46 :: padded 3 (milliseconds t % 1000) ++ 0 :: behind) =
      .ok (46 :: padded 3 (milliseconds t % 1000)) := readString_of_append noNul'
  have length_eq : (46 :: padded 3 (milliseconds t % 1000)).length = 4 :=
    congrArg Nat.succ (length_padded (by decide) (Nat.mod_lt _ (by decide)))
  generalize 46 :: padded 3 (milliseconds t % 1000) = decimals at printed read length_eq ⊢
  have copied : ∀ rest, through (strncpy · decimals 4) (front ++ [46, 113, 113, 113] ++ 0 :: rest)
      front.length = .ok (front ++ decimals ++ 0 :: rest) := by
    intro rest
    rw [List.append_assoc, List.append_assoc, ← length_eq]
    exact through_append (strncpy_append length_eq.symm)
  simp only [formatTimestamp, truncate_of_nonneg nonneg, Bool.false_eq_true, if_false,
    strftime_of_lt output_eq room'.1 room'.2, ok_bind, readString_of_append noNul, found, printed,
    List.drop_succ_cons, List.drop_zero, read, copied]
  exact ⟨_, _, rfl⟩

theorem denotes_printedTime (msecs : Vector UInt8 6) (nonneg : 0 ≤ t)
    (room : HasRoom library buffer len t) :
    Denotes library msecs buffer len t (printedTime t) := by
  rcases formatTimestamp_stamp nonneg room with ⟨result, rest, printed⟩
  have dot : (46 : UInt8) ≠ 0 := by decide
  have noNul : 0 ∉ stamp (printedYear t) (gmtime ⌊t⌋) ++
      (46 :: padded 3 (milliseconds t % 1000)) := by
    simp only [List.mem_append, List.mem_cons, not_or]
    refine ⟨notMem_stamp (by decide) (by decide), dot.symm, fun nulMem => ?_⟩
    exact absurd (isDigit_of_mem_padded nulMem) (by decide)
  refine ⟨result, _, printed, ?_⟩
  rw [cString_append_zero noNul, readTime_stamp _ _ (Nat.mod_lt _ (by decide)),
    secondsOf_gmtime nonneg, printedTime]

theorem Denotes.unique {first second : ℚ} (one : Denotes library msecs buffer len t first)
    (other : Denotes library msecs buffer len t second) : first = second := by
  rcases one with ⟨result, block, printed, read⟩
  rcases other with ⟨result', block', printed', read'⟩
  rw [printed, Except.ok.injEq, Prod.mk.injEq] at printed'
  rw [← printed'.2, read, Option.some.injEq] at read'
  exact read'

/-- The printed time is close to the timestamp as long as no second is lost. -/
theorem abs_printedTime_sub_le_iff (t : ℚ) :
    |printedTime t - t| ≤ 1 / 1000 ↔ milliseconds t < 1000 := by
  have parts := Int.floor_add_fract t
  by_cases kept : milliseconds t < 1000
  · have error := abs_le.mp (abs_roundHalfEven_sub_le (1000 * Int.fract t))
    rw [printedTime, Nat.mod_eq_of_lt kept, abs_le]
    rw [← milliseconds_cast] at error
    refine iff_of_true ⟨?_, ?_⟩ kept <;> linarith
  · have bound := milliseconds_le t
    have whole : milliseconds t = 1000 := by omega
    have lost := mt (milliseconds_lt_iff t).mpr kept
    rw [printedTime, whole, Nat.mod_self, abs_le]
    refine iff_of_false (fun close => lost ?_) (lt_irrefl 1000)
    push_cast at close
    linarith [close.1]

/-- Without a lost second a later timestamp is not printed as an earlier time. -/
theorem printedTime_mono {t₁ t₂ : ℚ} (ordered : t₁ ≤ t₂) (kept₁ : milliseconds t₁ < 1000)
    (kept₂ : milliseconds t₂ < 1000) : printedTime t₁ ≤ printedTime t₂ := by
  rw [printedTime, printedTime, Nat.mod_eq_of_lt kept₁, Nat.mod_eq_of_lt kept₂]
  rcases (Int.floor_le_floor ordered).lt_or_eq with earlier | same
  · have step : ((⌊t₁⌋ + 1 : ℤ) : ℚ) ≤ ⌊t₂⌋ := by exact_mod_cast earlier
    have below : (milliseconds t₁ : ℚ) < 1000 := by exact_mod_cast kept₁
    have nonneg : (0 : ℚ) ≤ milliseconds t₂ := Nat.cast_nonneg _
    push_cast at step
    linarith
  · have left := Int.floor_add_fract t₁
    have right := Int.floor_add_fract t₂
    have floors : (⌊t₁⌋ : ℚ) = ⌊t₂⌋ := by exact_mod_cast same
    have fracts : 1000 * Int.fract t₁ ≤ 1000 * Int.fract t₂ := by linarith
    have rounded : (milliseconds t₁ : ℚ) ≤ milliseconds t₂ := by
      exact_mod_cast Int.toNat_le_toNat (roundHalfEven_mono fracts)
    linarith

/--
The printed times are within one millisecond of the timestamps, and in their order, if and
only if no fractional part gets as far as 0.9995 seconds.
-/
theorem truthful_iff (library : CLibrary) (msecs : Vector UInt8 6) (buffer : List UInt8) (len : ℕ)
    (t₁ t₂ : ℚ) (nonneg₁ : 0 ≤ t₁) (nonneg₂ : 0 ≤ t₂) (room₁ : HasRoom library buffer len t₁)
    (room₂ : HasRoom library buffer len t₂) :
    (∃ d₁ d₂, Denotes library msecs buffer len t₁ d₁ ∧ Denotes library msecs buffer len t₂ d₂ ∧
      |d₁ - t₁| ≤ 1 / 1000 ∧ |d₂ - t₂| ≤ 1 / 1000 ∧ (t₁ ≤ t₂ → d₁ ≤ d₂)) ↔
    Int.fract t₁ < 9995 / 10000 ∧ Int.fract t₂ < 9995 / 10000 := by
  have denotes₁ := denotes_printedTime msecs nonneg₁ room₁
  have denotes₂ := denotes_printedTime msecs nonneg₂ room₂
  rw [← milliseconds_lt_iff, ← milliseconds_lt_iff]
  constructor
  · rintro ⟨d₁, d₂, printed₁, printed₂, close₁, close₂, -⟩
    rw [printed₁.unique denotes₁] at close₁
    rw [printed₂.unique denotes₂] at close₂
    exact ⟨(abs_printedTime_sub_le_iff t₁).mp close₁, (abs_printedTime_sub_le_iff t₂).mp close₂⟩
  · rintro ⟨kept₁, kept₂⟩
    exact ⟨_, _, denotes₁, denotes₂, (abs_printedTime_sub_le_iff t₁).mpr kept₁,
      (abs_printedTime_sub_le_iff t₂).mpr kept₂,
      fun ordered => printedTime_mono ordered kept₁ kept₂⟩

end Printed

/-- A library whose local time is UTC, and which knows no other conversion. -/
def utcLibrary : CLibrary where
  localtime := gmtime
  conversion _ _ := []
  unspecified buffer := buffer

theorem truthful_iff_tests :
    (0 ≤ (2469 / 20 : ℚ) ∧ HasRoom utcLibrary (List.replicate 40 7) 40 (2469 / 20) ∧
      HasRoom utcLibrary (List.replicate 40 7) 40 1467400000) ∧
    ((∃ d₁ d₂, Denotes utcLibrary (Vector.replicate 6 7) (List.replicate 40 7) 40 (2469 / 20) d₁ ∧
        Denotes utcLibrary (Vector.replicate 6 7) (List.replicate 40 7) 40 1467400000 d₂ ∧
        |d₁ - 2469 / 20| ≤ 1 / 1000 ∧ |d₂ - 1467400000| ≤ 1 / 1000 ∧
        ((2469 / 20 : ℚ) ≤ 1467400000 → d₁ ≤ d₂)) ↔
      Int.fract (2469 / 20 : ℚ) < 9995 / 10000 ∧ Int.fract (1467400000 : ℚ) < 9995 / 10000) := by
  have room₁ : HasRoom utcLibrary (List.replicate 40 7) 40 (2469 / 20) := by
    unfold HasRoom
    decide +kernel
  have room₂ : HasRoom utcLibrary (List.replicate 40 7) 40 1467400000 := by
    unfold HasRoom
    decide +kernel
  exact ⟨⟨by norm_num, room₁, room₂⟩, truthful_iff utcLibrary (Vector.replicate 6 7)
    (List.replicate 40 7) 40 (2469 / 20) 1467400000 (by norm_num) (by norm_num) room₁ room₂⟩

/-- The timestamp 0.9996 is printed as `1970-01-01 00:00:00.000`. -/
theorem not_truthful_lost :
    ¬(∀ t₁ t₂ : ℚ, 0 ≤ t₁ → 0 ≤ t₂ → HasRoom utcLibrary (List.replicate 40 7) 40 t₁ →
      HasRoom utcLibrary (List.replicate 40 7) 40 t₂ → ∃ d₁ d₂,
        Denotes utcLibrary (Vector.replicate 6 7) (List.replicate 40 7) 40 t₁ d₁ ∧
        Denotes utcLibrary (Vector.replicate 6 7) (List.replicate 40 7) 40 t₂ d₂ ∧
        |d₁ - t₁| ≤ 1 / 1000 ∧ |d₂ - t₂| ≤ 1 / 1000 ∧ (t₁ ≤ t₂ → d₁ ≤ d₂)) ∧
    Denotes utcLibrary (Vector.replicate 6 7) (List.replicate 40 7) 40 (9996 / 10000) 0 := by
  have nonneg : (0 : ℚ) ≤ 9996 / 10000 := by norm_num
  have room : HasRoom utcLibrary (List.replicate 40 7) 40 (9996 / 10000) := by
    unfold HasRoom
    decide +kernel
  have floor_eq : ⌊(9996 / 10000 : ℚ)⌋ = 0 := by norm_num
  have printed : printedTime (9996 / 10000) = 0 := by
    have lost : milliseconds (9996 / 10000) = 1000 := by decide +kernel
    rw [printedTime, floor_eq, lost]
    norm_num
  have denotes := denotes_printedTime (Vector.replicate 6 7) nonneg room
  rw [printed] at denotes
  refine ⟨fun truthful => ?_, denotes⟩
  rcases truthful _ _ nonneg nonneg room room with ⟨d, -, denoted, -, close, -⟩
  rw [denoted.unique denotes] at close
  norm_num [abs_le] at close

end Lucciefr.Timing
