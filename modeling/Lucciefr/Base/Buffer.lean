import Lucciefr.Base.CString
import Lucciefr.Base.Fault

/-!
# Character arrays

The functions of the C library which write strings to an array of a known size, and the
reading of a string from one. Every access outside of the array is a fault: what is
written has to fit, and a string which is read has to end within the array.
-/

namespace Lucciefr

/-- Read an element of an array. -/
def readAt {α : Type} (array : List α) (index : ℕ) : Except Fault α :=
  match array[index]? with
  | some element => .ok element
  | none => .error .outOfBounds

/-- Write to the first bytes of an array. -/
def writeBytes (array bytes : List UInt8) : Except Fault (List UInt8) :=
  if bytes.length ≤ array.length then
    .ok (bytes ++ array.drop bytes.length)
  else
    .error .outOfBounds

/-- Write through a pointer into an array. -/
def through (write : List UInt8 → Except Fault (List UInt8)) (array : List UInt8) (offset : ℕ) :
    Except Fault (List UInt8) :=
  if offset ≤ array.length then do
    let written ← write (array.drop offset)
    pure (array.take offset ++ written)
  else
    .error .outOfBounds

/-- Read the string at the beginning of an array. -/
def readString (array : List UInt8) : Except Fault (List UInt8) :=
  if 0 ∈ array then .ok (cString array) else .error .outOfBounds

/-- `strncpy`, which pads a short string with NULs, and does not end a long one. -/
def strncpy (array text : List UInt8) (n : ℕ) : Except Fault (List UInt8) :=
  writeBytes array (text.take n ++ List.replicate (n - text.length) 0)

/-- `snprintf` with this output. -/
def snprintf (array : List UInt8) (size : ℕ) (output : List UInt8) : Except Fault (List UInt8) :=
  if size = 0 then .ok array else writeBytes array (output.take (size - 1) ++ [0])

variable {array text : List UInt8} {size : ℕ}

theorem readAt_of_some {α : Type} {elements : List α} {index : ℕ} {element : α}
    (present : elements[index]? = some element) : readAt elements index = .ok element := by
  rw [readAt, present]

theorem writeBytes_of_le {bytes : List UInt8} (fits : bytes.length ≤ array.length) :
    writeBytes array bytes = .ok (bytes ++ array.drop bytes.length) :=
  if_pos fits

theorem writeBytes_append {bytes rest : List UInt8} (same : array.length = bytes.length) :
    writeBytes (array ++ rest) bytes = .ok (bytes ++ rest) := by
  have enough : bytes.length ≤ (array ++ rest).length := by
    rw [List.length_append]
    omega
  rw [writeBytes_of_le enough, List.drop_left' same]

theorem through_append {write : List UInt8 → Except Fault (List UInt8)}
    {front back written : List UInt8} (wrote : write back = .ok written) :
    through write (front ++ back) front.length = .ok (front ++ written) := by
  rw [through, if_pos (by simp), List.drop_left, wrote, ok_bind, List.take_left]
  rfl

/-- What is written through a pointer behind the front of an array. -/
theorem through_writeBytes {bytes front back : List UInt8} {offset : ℕ}
    (cursor : offset = front.length) (fits : bytes.length ≤ back.length) :
    through (writeBytes · bytes) (front ++ back) offset =
      .ok (front ++ (bytes ++ back.drop bytes.length)) := by
  rw [cursor]
  exact through_append (writeBytes_of_le fits)

theorem readString_of_append {rest : List UInt8} (noNul : 0 ∉ text) :
    readString (text ++ 0 :: rest) = .ok text := by
  rw [readString, if_pos (by simp), cString_append_zero noNul]

theorem readString_of_notMem (unterminated : 0 ∉ array) :
    readString array = .error .outOfBounds := by
  rw [readString, if_neg unterminated]

/-- The characters of a string without its NUL are copied over as many others. -/
theorem strncpy_append {rest : List UInt8} (same : array.length = text.length) :
    strncpy (array ++ rest) text text.length = .ok (text ++ rest) := by
  rw [strncpy, List.take_length, Nat.sub_self, List.replicate_zero, List.append_nil,
    writeBytes_append same]

/-- A string which is shorter than the array is copied together with its end. -/
theorem strncpy_of_lt (fits : text.length < array.length) :
    ∃ rest, strncpy array text array.length = .ok (text ++ 0 :: rest) ∧
      (text ++ 0 :: rest).length = array.length := by
  have padding : List.replicate (array.length - text.length) (0 : UInt8) =
      0 :: List.replicate (array.length - text.length - 1) 0 := by
    rw [← List.replicate_succ]
    congr 1
    omega
  have size_eq : (text ++ 0 :: List.replicate (array.length - text.length - 1) (0 : UInt8)).length =
      array.length := by
    simp only [List.length_append, List.length_cons, List.length_replicate]
    omega
  refine ⟨_, ?_, size_eq⟩
  rw [strncpy, List.take_of_length_le fits.le, padding, writeBytes, if_pos size_eq.le, size_eq,
    List.drop_length, List.append_nil]

/-- Of a longer one the first characters are copied. -/
theorem strncpy_of_ge (exceeds : array.length ≤ text.length) :
    strncpy array text array.length = .ok (text.take array.length) := by
  have none_left : array.length - text.length = 0 := by omega
  have size_eq : (text.take array.length).length = array.length := by
    rw [List.length_take]
    omega
  rw [strncpy, none_left, List.replicate_zero, List.append_nil, writeBytes, if_pos size_eq.le,
    size_eq, List.drop_length, List.append_nil]

/-- An array of the given size is large enough. -/
theorem snprintf_of_le (output : List UInt8) (room : size ≤ array.length) :
    ∃ written, snprintf array size output = .ok written := by
  rw [snprintf]
  split
  · exact ⟨_, rfl⟩
  · have fits : (output.take (size - 1) ++ [0]).length ≤ array.length := by
      rw [List.length_append, List.length_take, List.length_singleton]
      omega
    rw [writeBytes, if_pos fits]
    exact ⟨_, rfl⟩

theorem snprintf_of_lt (array : List UInt8) {output : List UInt8} (room : size ≤ array.length)
    (fits : output.length < size) :
    ∃ rest, snprintf array size output = .ok (output ++ 0 :: rest) := by
  have whole : output.take (size - 1) = output := List.take_of_length_le (by omega)
  have enough : (output ++ [0]).length ≤ array.length := by
    rw [List.length_append, List.length_singleton]
    omega
  rw [snprintf, if_neg (by omega), whole, writeBytes, if_pos enough, List.append_assoc]
  exact ⟨_, rfl⟩

end Lucciefr
