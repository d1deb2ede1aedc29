import Lucciefr.Base.Buffer
import Lucciefr.Base.Hex
import Lucciefr.Base.Retry
import Lucciefr.Base.Stride

/-!
# The hex dump

`hexdump` of `core/utils.c`, which prints the bytes of a buffer in rows of sixteen. The two
arrays for the columns of a row are on the stack and not initialized; they are filled
through the cursors `p` and `c`. Whatever the arrays hold before, the rows are the bytes.
-/

namespace Lucciefr.Utils

/-- `ISPRINT`, for the characters which are neither a control character nor DEL -/
def isprint (char : UInt8) : Bool :=
  char ≥ 32 && char ≠ 127

/-- The local variables of the inner loop, where the cursors are offsets. -/
structure Columns where
  i : ℕ
  hex : List UInt8
  p : ℕ
  txt : List UInt8
  c : ℕ

/-- The body of the inner loop, with the increment which its condition begins with. -/
def columnTurn (addr : List UInt8) (held : Columns) : Except Fault Columns := do
  let value ← readAt addr held.i
  let hex ← through (writeBytes · (hexByte value ++ [32, 0])) held.hex held.p
  let txt ← through (writeBytes · [if isprint value then value else 46]) held.txt held.c
  pure ⟨held.i + 1, hex, held.p + 3, txt, held.c + 1⟩

/-- The condition of the inner loop, after the increment. -/
def columnAgain (len : ℕ) (held : Columns) : Bool :=
  held.i % 16 ≠ 0 && held.i < len

/-- The arguments of `log_info("hexdump", "0x%08X [%04X] %-48s- %s", addr + n, n, hex, txt)`. -/
structure Row where
  address : ℕ
  n : ℕ
  hex : List UInt8
  txt : List UInt8
deriving DecidableEq

/-- The arrays `hex` and `txt`, and the rows which are logged. -/
structure Dump where
  hex : List UInt8
  txt : List UInt8
  rows : List Row

/-- The body of the outer loop. At least every sixteenth increment ends the inner one. -/
def rowTurn (address : ℕ) (addr : List UInt8) (len : ℕ) (n : ℕ) (held : Dump) :
    Except Fault Dump := do
  let last ← doWhile .divergence (columnAgain len) (columnTurn addr) 16
    ⟨n, held.hex, 0, held.txt, 0⟩
  let txt ← through (writeBytes · [0]) last.txt last.c
  let hexText ← readString last.hex
  let txtText ← readString txt
  pure ⟨last.hex, txt, held.rows ++ [⟨address + n, n, hexText, txtText⟩]⟩

/-- `hexdump`, with what the two arrays hold at the beginning. -/
def hexdump (address : ℕ) (addr : List UInt8) (len : ℕ) (hex : Vector UInt8 49)
    (txt : Vector UInt8 17) : Except Fault (List Row) := do
  let dump ← forStride .divergence len 16 (rowTurn address addr len) ⟨hex.toList, txt.toList, []⟩
  pure dump.rows

/-- The hexadecimal column of some bytes. -/
def hexColumn (chunk : List UInt8) : List UInt8 :=
  chunk.flatMap fun byte => hexByte byte ++ [32]

/-- The text column of some bytes. -/
def txtColumn (chunk : List UInt8) : List UInt8 :=
  chunk.map fun byte => if isprint byte then byte else 46

/-- The bytes of the row at this offset. -/
def rowBytes (bytes : List UInt8) (n : ℕ) : List UInt8 :=
  (bytes.drop n).take 16

/-- Read the hexadecimal columns of all rows, one behind the other. -/
def readRows : List Row → Option (List UInt8)
  | [] => some []
  | row :: rows => do
      let chunk ← readHex 32 row.hex
      let bytes ← readRows rows
      pure (chunk ++ bytes)

/-- The rows at the multiples of sixteen, each with its bytes. -/
structure Lossless (address : ℕ) (bytes : List UInt8) (rows : List Row) : Prop where
  offsets : rows.map Row.n = (List.range ((bytes.length + 15) / 16)).map (16 * ·)
  columns : ∀ row ∈ rows, row.address = address + row.n ∧
    readHex 32 row.hex = some (rowBytes bytes row.n) ∧ row.txt = txtColumn (rowBytes bytes row.n)
  whole : readRows rows = some bytes

section Columns

variable {bytes chunk : List UInt8} {n k : ℕ} {byte char : UInt8}

theorem length_hexColumn (chunk : List UInt8) : (hexColumn chunk).length = 3 * chunk.length := by
  induction chunk with
  | nil => rfl
  | cons byte chunk ih =>
      rw [hexColumn, List.flatMap_cons, List.length_append, ← hexColumn, ih, List.length_cons,
        List.length_append]
      simp only [hexByte, List.length_cons, List.length_nil]
      ring

theorem hexColumn_ne_zero (charMem : char ∈ hexColumn chunk) : char ≠ 0 := by
  rcases List.mem_flatMap.mp charMem with ⟨byte, -, inCell⟩
  rcases List.mem_append.mp inCell with digit | separator
  · exact hexByte_ne_zero digit
  · rw [List.mem_singleton.mp separator]
    decide

theorem txtColumn_ne_zero (charMem : char ∈ txtColumn chunk) : char ≠ 0 := by
  rcases List.mem_map.mp charMem with ⟨byte, -, rfl⟩
  split
  · rename_i visible
    rintro rfl
    exact absurd visible (by decide)
  · decide

/-- The columns are filled with the first `k` bytes of the row. -/
structure Filled (bytes : List UInt8) (n k : ℕ) (held : Columns) : Prop where
  i_eq : held.i = n + k
  p_eq : held.p = 3 * k
  c_eq : held.c = k
  hex : ∃ hexRest, held.hex = hexColumn ((bytes.drop n).take k) ++ hexRest ∧
    hexRest.length = 49 - 3 * k ∧ (0 < k → hexRest.head? = some 0)
  txt : ∃ txtRest, held.txt = txtColumn ((bytes.drop n).take k) ++ txtRest ∧
    txtRest.length = 17 - k

theorem take_drop_succ (present : bytes[n + k]? = some byte) :
    (bytes.drop n).take (k + 1) = (bytes.drop n).take k ++ [byte] := by
  rw [List.take_add_one, List.getElem?_drop, present, Option.toList_some]

theorem length_take_drop (inside : n + k ≤ bytes.length) :
    ((bytes.drop n).take k).length = k := by
  rw [List.length_take, List.length_drop]
  omega

/-- One turn writes the next byte to both columns, and the NUL behind the first one. -/
theorem columnTurn_filled {held : Columns} (rest : List UInt8) (filled : Filled bytes n k held)
    (small : k < 16) (inside : n + k < bytes.length) :
    ∃ next, columnTurn (bytes ++ rest) held = .ok next ∧ Filled bytes n (k + 1) next := by
  rcases filled with ⟨i_eq, p_eq, c_eq, ⟨hexRest, hex_eq, hexLength, -⟩, txtRest, txt_eq, txtLength⟩
  have present : bytes[n + k]? = some bytes[n + k] := List.getElem?_eq_getElem inside
  have read : readAt (bytes ++ rest) held.i = .ok bytes[n + k] := by
    rw [i_eq]
    exact readAt_of_some (by rw [List.getElem?_append_left inside, present])
  have chunkLength := length_take_drop inside.le
  have hexCursor : held.p = (hexColumn ((bytes.drop n).take k)).length := by
    rw [length_hexColumn, chunkLength, p_eq]
  have txtCursor : held.c = (txtColumn ((bytes.drop n).take k)).length := by
    rw [txtColumn, List.length_map, chunkLength, c_eq]
  have cellLength : (hexByte bytes[n + k] ++ [32, 0]).length = 4 := rfl
  have wroteHex : through (writeBytes · (hexByte bytes[n + k] ++ [32, 0])) held.hex held.p =
      .ok (hexColumn ((bytes.drop n).take k) ++
        (hexByte bytes[n + k] ++ [32, 0] ++ hexRest.drop 4)) := by
    rw [hex_eq]
    exact through_writeBytes hexCursor (by omega)
  have wroteTxt : through (writeBytes · [if isprint bytes[n + k] then bytes[n + k] else 46])
      held.txt held.c = .ok (txtColumn ((bytes.drop n).take k) ++
        ([if isprint bytes[n + k] then bytes[n + k] else 46] ++ txtRest.drop 1)) := by
    rw [txt_eq]
    exact through_writeBytes txtCursor (by rw [List.length_singleton]; omega)
  refine ⟨_, by rw [columnTurn, read, ok_bind, wroteHex, ok_bind, wroteTxt, ok_bind]; rfl, ?_⟩
  constructor
  · rw [i_eq, Nat.add_assoc]
  · rw [p_eq, Nat.mul_succ]
  · rw [c_eq]
  · refine ⟨0 :: hexRest.drop 4, ?_, ?_, fun _ => rfl⟩
    · rw [take_drop_succ present]
      simp [hexColumn]
    · rw [List.length_cons, List.length_drop]
      omega
  · refine ⟨txtRest.drop 1, ?_, ?_⟩
    · rw [take_drop_succ present]
      simp [txtColumn]
    · rw [List.length_drop]
      omega

end Columns

section Rows

variable {address n : ℕ} {bytes : List UInt8} {held : Dump}

/-- The row at this offset. -/
def rowAt (address : ℕ) (bytes : List UInt8) (n : ℕ) : Row :=
  ⟨address + n, n, hexColumn (rowBytes bytes n), txtColumn (rowBytes bytes n)⟩

theorem length_rowBytes : (rowBytes bytes n).length = min 16 (bytes.length - n) := by
  rw [rowBytes, List.length_take, List.length_drop]

theorem take_length_rowBytes :
    (bytes.drop n).take (rowBytes bytes n).length = rowBytes bytes n := by
  rw [rowBytes, List.length_take, ← List.take_take, List.take_length]

/-- The loop goes on as long as there is another byte in the row. -/
theorem columnAgain_iff {columns : Columns} {k : ℕ} (aligned : 16 ∣ n)
    (filled : Filled bytes n k columns) (positive : 0 < k) (inRow : k ≤ (rowBytes bytes n).length) :
    columnAgain bytes.length columns = true ↔ k < (rowBytes bytes n).length := by
  have i_eq := filled.i_eq
  rw [length_rowBytes] at inRow ⊢
  rw [columnAgain, Bool.and_eq_true, decide_eq_true_eq, decide_eq_true_eq, i_eq]
  omega

/-- The inner loop ends behind the last byte of the row. -/
theorem columnLoop_filled {columns : Columns} (rest : List UInt8) (aligned : 16 ∣ n)
    (inside : n < bytes.length) (filled : Filled bytes n 0 columns) :
    ∃ last, doWhile .divergence (columnAgain bytes.length) (columnTurn (bytes ++ rest)) 16 columns =
      .ok last ∧ Filled bytes n (rowBytes bytes n).length last := by
  have length_eq : (rowBytes bytes n).length = min 16 (bytes.length - n) := length_rowBytes
  have turn : ∀ columns, (∃ k, k < (rowBytes bytes n).length ∧ Filled bytes n k columns) →
      ∃ next, columnTurn (bytes ++ rest) columns = .ok next ∧
        (columnAgain bytes.length next = true →
          (∃ k, k < (rowBytes bytes n).length ∧ Filled bytes n k next) ∧
            n + 15 - next.i < n + 15 - columns.i) ∧
        (columnAgain bytes.length next = false →
          Filled bytes n (rowBytes bytes n).length next) := by
    rintro columns ⟨k, below, filled⟩
    rcases columnTurn_filled rest filled (by omega) (by omega) with ⟨next, turned, filled'⟩
    have again_iff := columnAgain_iff aligned filled' (Nat.succ_pos k) below
    have here := filled.i_eq
    have there := filled'.i_eq
    refine ⟨next, turned, fun going => ?_, fun ended => ?_⟩
    · have more := again_iff.mp going
      exact ⟨⟨k + 1, more, filled'⟩, by omega⟩
    · have full : k + 1 = (rowBytes bytes n).length := by
        rw [ended] at again_iff
        exact Nat.le_antisymm below (not_lt.mp fun more => Bool.false_ne_true (again_iff.mpr more))
      rw [← full]
      exact filled'
  have here := filled.i_eq
  exact doWhile_returns
    (fun columns => ∃ k, k < (rowBytes bytes n).length ∧ Filled bytes n k columns)
    (fun columns => n + 15 - columns.i) turn (by omega) ⟨0, by omega, filled⟩

theorem rowTurn_eq (address : ℕ) (rest : List UInt8) (aligned : 16 ∣ n)
    (inside : n < bytes.length) (hexLength : held.hex.length = 49)
    (txtLength : held.txt.length = 17) :
    ∃ next, rowTurn address (bytes ++ rest) bytes.length n held = .ok next ∧
      next.hex.length = 49 ∧ next.txt.length = 17 ∧
      next.rows = held.rows ++ [rowAt address bytes n] := by
  have start : Filled bytes n 0 ⟨n, held.hex, 0, held.txt, 0⟩ :=
    ⟨rfl, rfl, rfl, ⟨held.hex, rfl, hexLength, fun absurdity => by omega⟩, held.txt, rfl, txtLength⟩
  have size_eq : (rowBytes bytes n).length = min 16 (bytes.length - n) := length_rowBytes
  rcases columnLoop_filled rest aligned inside start with ⟨last, ended, filled⟩
  rcases filled with ⟨-, -, c_eq, ⟨hexRest, hex_eq, hexRestLength, terminated⟩,
    txtRest, txt_eq, txtRestLength⟩
  rw [take_length_rowBytes] at hex_eq txt_eq
  have hexEnd : ∃ behind, hexRest = 0 :: behind := by
    have nonempty := terminated (by omega)
    cases hexRest with
    | nil => cases nonempty
    | cons head behind => exact ⟨behind, by rw [Option.some.inj nonempty]⟩
  rcases hexEnd with ⟨behind, rfl⟩
  have txtCursor : last.c = (txtColumn (rowBytes bytes n)).length := by
    rw [c_eq, txtColumn, List.length_map]
  have wrote : through (writeBytes · [0]) last.txt last.c =
      .ok (txtColumn (rowBytes bytes n) ++ 0 :: txtRest.drop 1) := by
    rw [txt_eq]
    exact through_writeBytes txtCursor (by rw [List.length_singleton]; omega)
  have hexRead : readString last.hex = .ok (hexColumn (rowBytes bytes n)) := by
    rw [hex_eq]
    exact readString_of_append fun nulMem => hexColumn_ne_zero nulMem rfl
  have txtRead : readString (txtColumn (rowBytes bytes n) ++ 0 :: txtRest.drop 1) =
      .ok (txtColumn (rowBytes bytes n)) :=
    readString_of_append fun nulMem => txtColumn_ne_zero nulMem rfl
  refine ⟨⟨last.hex, txtColumn (rowBytes bytes n) ++ 0 :: txtRest.drop 1,
    held.rows ++ [rowAt address bytes n]⟩, ?_, ?_, ?_, rfl⟩
  · rw [rowTurn, ended, ok_bind, wrote, ok_bind, hexRead, ok_bind, txtRead, ok_bind]
    rfl
  · rw [hex_eq, List.length_append, length_hexColumn, hexRestLength]
    omega
  · rw [List.length_append, txtColumn, List.length_map, List.length_cons, List.length_drop]
    omega

theorem hexdump_eq (rest : List UInt8) (hex : Vector UInt8 49) (txt : Vector UInt8 17) :
    hexdump address (bytes ++ rest) bytes.length hex txt =
      .ok ((List.range ((bytes.length + 15) / 16)).map fun k => rowAt address bytes (16 * k)) := by
  have each : ∀ n held, n < bytes.length →
      (16 ∣ n ∧ n < bytes.length + 16 ∧ held.hex.length = 49 ∧ held.txt.length = 17 ∧
        held.rows = (List.range (n / 16)).map fun k => rowAt address bytes (16 * k)) →
      ∃ next, rowTurn address (bytes ++ rest) bytes.length n held = .ok next ∧
        16 ∣ n + 16 ∧ n + 16 < bytes.length + 16 ∧ next.hex.length = 49 ∧ next.txt.length = 17 ∧
        next.rows = (List.range ((n + 16) / 16)).map fun k => rowAt address bytes (16 * k) := by
    rintro n held inside ⟨aligned, -, hexLength, txtLength, rows_eq⟩
    rcases rowTurn_eq address rest aligned inside hexLength txtLength with
      ⟨next, turned, hexLength', txtLength', rows_eq'⟩
    refine ⟨next, turned, by omega, by omega, hexLength', txtLength', ?_⟩
    rw [rows_eq', rows_eq, Nat.add_div_right n (by decide), List.range_succ, List.map_append,
      List.map_singleton, Nat.mul_div_cancel' aligned]
  have start : (16 ∣ 0 ∧ 0 < bytes.length + 16 ∧ hex.toList.length = 49 ∧ txt.toList.length = 17 ∧
      ([] : List Row) = (List.range (0 / 16)).map fun k => rowAt address bytes (16 * k)) :=
    ⟨Nat.dvd_zero 16, by omega, hex.length_toList, txt.length_toList, rfl⟩
  rcases forStride_ok ⟨hex.toList, txt.toList, []⟩ (by decide) each start with
    ⟨last, dump, ended, beyond, aligned, bound, -, -, rows_eq⟩
  have count : last / 16 = (bytes.length + 15) / 16 := by omega
  rw [hexdump, ended, ok_bind, rows_eq, count]
  rfl

theorem readRows_append {first second : List Row} {chunk behind : List UInt8}
    (read : readRows first = some chunk) (readBehind : readRows second = some behind) :
    readRows (first ++ second) = some (chunk ++ behind) := by
  induction first generalizing chunk with
  | nil =>
      cases read
      exact readBehind
  | cons row first ih =>
      simp only [readRows, Option.bind_eq_bind, Option.bind_eq_some_iff] at read
      rcases read with ⟨own, ownRead, others, othersRead, whole⟩
      cases whole
      rw [List.cons_append, readRows, ownRead, ih othersRead, List.append_assoc]
      rfl

theorem readRows_map (count : ℕ) :
    readRows ((List.range count).map fun k => rowAt address bytes (16 * k)) =
      some (bytes.take (16 * count)) := by
  induction count with
  | zero => rfl
  | succ count ih =>
      have last : readRows [rowAt address bytes (16 * count)] =
          some (rowBytes bytes (16 * count)) := by
        rw [readRows, rowAt, hexColumn, readHex_flatMap, readRows]
        exact congrArg some (List.append_nil _)
      rw [List.range_succ, List.map_append, List.map_singleton, readRows_append ih last, rowBytes,
        ← List.take_add, Nat.mul_succ]

/--
The rows contain all bytes in order, whatever the two arrays hold before and whatever is
behind the bytes. Nothing is read there, and nothing is written outside of the arrays.
-/
theorem hexdump_lossless (address : ℕ) (bytes : List UInt8) :
    ∃ rows, (∀ rest hex txt, hexdump address (bytes ++ rest) bytes.length hex txt = .ok rows) ∧
      Lossless address bytes rows := by
  refine ⟨_, fun rest hex txt => hexdump_eq rest hex txt, ?_, ?_, ?_⟩
  · rw [List.map_map]
    rfl
  · intro row rowMem
    rcases List.mem_map.mp rowMem with ⟨k, -, rfl⟩
    exact ⟨rfl, readHex_flatMap, rfl⟩
  · rw [readRows_map, List.take_of_length_le (by omega)]

end Rows

end Lucciefr.Utils
