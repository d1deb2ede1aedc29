import Lucciefr.Base.BigEndian
import Lucciefr.Base.Reader
import Lucciefr.Msgpack.Object

/-!
# Unpacking MessagePack objects

The model of `msgpack/unpack_template.h` and of `msgpack_unpack`. A turn of the
main loop reads one token, a header together with the bytes which belong to it,
and pushes the result to the innermost open container. Open containers are kept
on a stack of fixed size. The trail lengths, which C derives from the low bits
of a header, are written out.

The result is the object which `msgpack_unpack` stores; `none` means that it
stores nothing, because the data is incomplete or invalid, or that the object
refers to memory behind the buffer.
-/

namespace Lucciefr.Msgpack

/-- `MSGPACK_EMBED_STACK_SIZE` -/
def embedStackSize : ℕ := 32

/-- What one turn of the main loop reads. -/
inductive Token where
  | value (object : Object)
  | array (n : ℕ)
  | map (n : ℕ)

/-- `_msgpack_load16`, `_msgpack_load32` and `_msgpack_load64` to signed integers. -/
def loadSigned (bytes : List UInt8) : ℤ :=
  if 2 * ofBigEndian bytes < 256 ^ bytes.length then
    ofBigEndian bytes
  else
    ofBigEndian bytes - 256 ^ bytes.length

/-- `template_callback_uint8` to `template_callback_uint64` -/
def callbackUint (d : ℕ) : Object :=
  .positiveInteger (UInt64.ofNat d)

/-- `template_callback_int8` to `template_callback_int64` -/
def callbackInt (d : ℤ) : Object :=
  if d ≥ 0 then .positiveInteger (UInt64.ofNat d.toNat) else .negativeInteger (Int64.ofInt d)

/-- The conversion of `template_callback_float`, on bit patterns. -/
def floatToDouble (bits : ℕ) : UInt64 :=
  let sign := bits / 2 ^ 31
  let exponent := bits / 2 ^ 23 % 2 ^ 8
  let fraction := bits % 2 ^ 23
  if exponent = 0xff then
    -- infinities, and NaN with the quiet bit set
    UInt64.ofNat (sign * 2 ^ 63 + 0x7ff * 2 ^ 52 +
      if fraction = 0 then 0 else 2 ^ 51 + fraction % 2 ^ 22 * 2 ^ 29)
  else if exponent = 0 then
    if fraction = 0 then
      UInt64.ofNat (sign * 2 ^ 63)
    else
      -- subnormal numbers are normal as a double
      UInt64.ofNat (sign * 2 ^ 63 + (Nat.log2 fraction + 874) * 2 ^ 52 +
        (fraction * 2 ^ (52 - Nat.log2 fraction) - 2 ^ 52))
  else
    UInt64.ofNat (sign * 2 ^ 63 + (exponent + 896) * 2 ^ 52 + fraction * 2 ^ 29)

/-- `template_callback_ext`, where `p` are the bytes up to the end of the buffer. -/
def callbackExt (p : List UInt8) (l : UInt32) : Option Object :=
  match p with
  | [] => none
  | type :: body =>
      if body.length < (l - 1).toNat then none
      else some (.ext type.toInt8 (body.take (l - 1).toNat))

/-- A number in a trail of fixed length. -/
def readNumber (width : ℕ) (callback : List UInt8 → Object) : Reader UInt8 Token := fun input =>
  (readExactly width input).map fun (n, rest) => (.value (callback n), rest)

/-- `MSGPACK_ACS_STR_VALUE` and `MSGPACK_ACS_BIN_VALUE` -/
def readValue (callback : List UInt8 → Object) (trail : ℕ) : Reader UInt8 Token := fun input =>
  (readExactly trail input).map fun (n, rest) => (.value (callback n), rest)

/-- A string or binary with a size field. -/
def readSized (width : ℕ) (callback : List UInt8 → Object) : Reader UInt8 Token := fun input =>
  (readExactly width input).bind fun (n, rest) => readValue callback (ofBigEndian n) rest

/-- `MSGPACK_ACS_EXT_VALUE`, where `n` is the field in front of the input. With a
trail of 0, the extension is taken to start at this field. -/
def readExtValue (n : List UInt8) (trail : UInt32) : Reader UInt8 Token := fun input =>
  if trail = 0 then
    (callbackExt (n ++ input) trail).map fun object => (.value object, input)
  else if input.length < trail.toNat then
    none
  else
    (callbackExt input trail).map fun object => (.value object, input.drop trail.toNat)

/-- An extension with a size field, of which the type is no part. -/
def readExt (width : ℕ) : Reader UInt8 Token := fun input =>
  (readExactly width input).bind fun (n, rest) =>
    readExtValue n (UInt32.ofNat (ofBigEndian n) + 1) rest

/-- A container with a size field. -/
def readContainer (width : ℕ) (start : ℕ → Token) : Reader UInt8 Token := fun input =>
  (readExactly width input).map fun (n, rest) => (start (ofBigEndian n), rest)

/-- The headers from `0xc0` to `0xdf`. -/
def readVariable (head : UInt8) : Reader UInt8 Token := fun rest =>
  match head with
  | 0xc0 => some (.value .nil, rest)
  | 0xc2 => some (.value (.boolean false), rest)
  | 0xc3 => some (.value (.boolean true), rest)
  | 0xc4 => readSized 1 .bin rest
  | 0xc5 => readSized 2 .bin rest
  | 0xc6 => readSized 4 .bin rest
  | 0xc7 => readExt 1 rest
  | 0xc8 => readExt 2 rest
  | 0xc9 => readExt 4 rest
  | 0xca => readNumber 4 (fun n => .float (floatToDouble (ofBigEndian n))) rest
  | 0xcb => readNumber 8 (fun n => .float (UInt64.ofNat (ofBigEndian n))) rest
  | 0xcc => readNumber 1 (fun n => callbackUint (ofBigEndian n)) rest
  | 0xcd => readNumber 2 (fun n => callbackUint (ofBigEndian n)) rest
  | 0xce => readNumber 4 (fun n => callbackUint (ofBigEndian n)) rest
  | 0xcf => readNumber 8 (fun n => callbackUint (ofBigEndian n)) rest
  | 0xd0 => readNumber 1 (fun n => callbackInt (loadSigned n)) rest
  | 0xd1 => readNumber 2 (fun n => callbackInt (loadSigned n)) rest
  | 0xd2 => readNumber 4 (fun n => callbackInt (loadSigned n)) rest
  | 0xd3 => readNumber 8 (fun n => callbackInt (loadSigned n)) rest
  | 0xd4 => readExtValue [] 2 rest
  | 0xd5 => readExtValue [] 3 rest
  | 0xd6 => readExtValue [] 5 rest
  | 0xd7 => readExtValue [] 9 rest
  | 0xd8 => readExtValue [] 17 rest
  | 0xd9 => readSized 1 .str rest
  | 0xda => readSized 2 .str rest
  | 0xdb => readSized 4 .str rest
  | 0xdc => readContainer 2 .array rest
  | 0xdd => readContainer 4 .array rest
  | 0xde => readContainer 2 .map rest
  | 0xdf => readContainer 4 .map rest
  | _ => none

/-- The state `MSGPACK_CS_HEADER`, and the states which follow until the next header. -/
def readToken : Reader UInt8 Token
  | [] => none
  | head :: rest =>
      if head ≤ 0x7f then
        some (.value (callbackUint head.toNat), rest)
      else if 0xe0 ≤ head then
        some (.value (callbackInt (loadSigned [head])), rest)
      else if 0xc0 ≤ head then
        readVariable head rest
      else if 0xa0 ≤ head then
        readValue .str (head &&& 0x1f).toNat rest
      else if 0x90 ≤ head then
        some (.array (head &&& 0x0f).toNat, rest)
      else
        some (.map (head &&& 0x0f).toNat, rest)

/-- `template_stack`: an open container, what it contains so far, and how much is missing. -/
inductive Frame where
  | arrayItem (count : ℕ) (items : List Object)
  | mapKey (count : ℕ) (pairs : List (Object × Object))
  | mapValue (count : ℕ) (pairs : List (Object × Object)) (mapKey : Object)

/-- Where the main loop goes from `_push`: to `_finish` or to `_header_again`. -/
inductive Pushed where
  | finish (object : Object)
  | headerAgain (stack : List Frame)

/-- `_push`, with the innermost container in front. -/
def push (object : Object) : List Frame → Pushed
  | [] => .finish object
  | .arrayItem count items :: stack =>
      if count - 1 = 0 then
        push (.array (items ++ [object])) stack
      else
        .headerAgain (.arrayItem (count - 1) (items ++ [object]) :: stack)
  | .mapKey count pairs :: stack => .headerAgain (.mapValue count pairs object :: stack)
  | .mapValue count pairs mapKey :: stack =>
      if count - 1 = 0 then
        push (.map (pairs ++ [(mapKey, object)])) stack
      else
        .headerAgain (.mapKey (count - 1) (pairs ++ [(mapKey, object)]) :: stack)

/-- What happens to a token: a value is pushed, a container is started. -/
def pushToken (stack : List Frame) : Token → Option Pushed
  | .value object => some (push object stack)
  | .array n =>
      if stack.length ≥ embedStackSize then none
      else if n = 0 then some (push (.array []) stack)
      else some (.headerAgain (.arrayItem n [] :: stack))
  | .map n =>
      if stack.length ≥ embedStackSize then none
      else if n = 0 then some (push (.map []) stack)
      else some (.headerAgain (.mapKey n [] :: stack))

/-- `template_execute`. Each turn consumes a byte, so that the length of the data
bounds the number of turns. -/
def templateExecute : (turns : ℕ) → List Frame → (data : List UInt8) → Option Object
  | 0, _, _ => none
  | turns + 1, stack, data =>
      (readToken data).bind fun (token, rest) =>
        (pushToken stack token).bind fun pushed =>
          match pushed with
          | .finish object => some object
          | .headerAgain stack => templateExecute turns stack rest

/-- `msgpack_unpack` -/
def msgpackUnpack (data : List UInt8) : Option Object :=
  templateExecute data.length [] data

end Lucciefr.Msgpack
