import Lucciefr.Base.Buffer
import Lucciefr.Base.Calendar
import Lucciefr.Base.Decimal
import Lucciefr.Base.Rounding
import Lucciefr.Symbols.Basic

/-!
# Formatted timestamps

`format_timestamp` of `core/timing.c`. The whole seconds are those of the truncated
timestamp and are printed by `strftime`; the milliseconds come from the fractional part,
which is rounded on its own, and are put in the place of `.qqq`. A timestamp is a rational
number, and `time_t` is not bounded.
-/

namespace Lucciefr.Timing

open Symbols (characters)

/-- `struct tm`, as far as it is printed here. -/
structure Tm where
  tmYear : ℤ -- since 1900
  tmMon : ℕ -- since January
  tmMday : ℕ
  tmHour : ℕ
  tmMin : ℕ
  tmSec : ℕ
deriving DecidableEq

/-- `gmtime` -/
def gmtime (t : ℤ) : Tm :=
  let date := civil (t / 86400)
  let second := (t % 86400).toNat
  ⟨date.year - 1900, date.month, date.day, second / 3600, second / 60 % 60, second % 60⟩

/-- What depends on the environment: the local time, the other conversions of `strftime`, and
what it leaves in a buffer which is too small. -/
structure CLibrary where
  localtime : (t : ℤ) → Tm
  conversion : (specifier : UInt8) → Tm → List UInt8
  unspecified : (buffer : List UInt8) → List UInt8

/-- A number with its sign. -/
def signed (n : ℤ) : List UInt8 :=
  if n < 0 then 45 :: decimal n.natAbs else decimal n.natAbs

/-- A conversion of `strftime`. -/
def convert (library : CLibrary) (tm : Tm) (specifier : UInt8) : List UInt8 :=
  if specifier = 89 then signed (tm.tmYear + 1900) -- %Y
  else if specifier = 109 then padded 2 (tm.tmMon + 1) -- %m
  else if specifier = 100 then padded 2 tm.tmMday -- %d
  else if specifier = 72 then padded 2 tm.tmHour -- %H
  else if specifier = 77 then padded 2 tm.tmMin -- %M
  else if specifier = 83 then padded 2 tm.tmSec -- %S
  else library.conversion specifier tm

/-- The output of `strftime`. -/
def expand (library : CLibrary) (tm : Tm) : (format : List UInt8) → List UInt8
  | [] => []
  | [char] => [char]
  | char :: specifier :: format =>
      if char = 37 then
        convert library tm specifier ++ expand library tm format
      else
        char :: expand library tm (specifier :: format)

/-- `strftime` -/
def strftime (library : CLibrary) (buffer : List UInt8) (len : ℕ) (format : List UInt8)
    (tm : Tm) : Except Fault (ℕ × List UInt8) :=
  let output := expand library tm format
  if output.length < len then do
    let buffer ← writeBytes buffer (output ++ [0])
    pure (output.length, buffer)
  else
    .ok (0, library.unspecified buffer)

/-- `strstr`, with an offset as the result. -/
def strstr (needle : List UInt8) : (text : List UInt8) → Option ℕ
  | [] => if needle = [] then some 0 else none
  | char :: text =>
      if needle.isPrefixOf (char :: text) then some 0 else (strstr needle text).map (· + 1)

/-- The conversion to `time_t`. -/
def truncate (x : ℚ) : ℤ :=
  if 0 ≤ x then ⌊x⌋ else ⌈x⌉

/-- `fmod(x, 1.)` -/
def fmodOne (x : ℚ) : ℚ :=
  x - truncate x

/-- `%.3f` -/
def fixed3 (x : ℚ) : List UInt8 :=
  let thousandths := (roundHalfEven (1000 * |x|)).toNat
  (if x < 0 then [45] else []) ++ decimal (thousandths / 1000) ++
    46 :: padded 3 (thousandths % 1000)

/-- `format_timestamp`, with what the array `msecs` holds at the beginning. -/
def formatTimestamp (library : CLibrary) (msecs : Vector UInt8 6) (buffer : List UInt8) (len : ℕ)
    (format : List UInt8) (timestamp : ℚ) (isLocal : Bool) : Except Fault (ℕ × List UInt8) := do
  let t := truncate timestamp
  let tm := if isLocal then library.localtime t else gmtime t
  let (result, buffer) ← strftime library buffer len format tm
  let text ← readString buffer
  match strstr (characters ".qqq") text with
  | none => pure (result, buffer)
  | some qfmt => do
      let msecs ← snprintf msecs.toList 6 (fixed3 (fmodOne timestamp))
      let decimals ← readString (msecs.drop 1)
      let buffer ← through (strncpy · decimals 4) buffer qfmt
      pure (result, buffer)

end Lucciefr.Timing
