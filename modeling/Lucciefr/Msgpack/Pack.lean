import Lucciefr.Base.BigEndian
import Lucciefr.Msgpack.Object

/-!
# Packing MessagePack objects

The model of `msgpack/pack_template.h` and of `msgpack_pack_object`. Each
function returns the bytes which it appends to the buffer; growing the buffer
is assumed to succeed.
-/

namespace Lucciefr.Msgpack

/-- `msgpack_pack_nil` -/
def packNil : List UInt8 := [0xc0]

/-- `msgpack_pack_true` -/
def packTrue : List UInt8 := [0xc3]

/-- `msgpack_pack_false` -/
def packFalse : List UInt8 := [0xc2]

/-- `msgpack_pack_uint32` -/
def packUint32 (d : UInt32) : List UInt8 :=
  if d.toNat < 2 ^ 8 then
    if d.toNat < 2 ^ 7 then
      [UInt8.ofNat d.toNat]
    else
      [0xcc, UInt8.ofNat d.toNat]
  else if d.toNat < 2 ^ 16 then
    0xcd :: bigEndian 2 d.toNat
  else
    0xce :: bigEndian 4 d.toNat

/-- `msgpack_pack_uint64` -/
def packUint64 (d : UInt64) : List UInt8 :=
  if d.toNat < 2 ^ 8 then
    if d.toNat < 2 ^ 7 then
      [UInt8.ofNat d.toNat]
    else
      [0xcc, UInt8.ofNat d.toNat]
  else if d.toNat < 2 ^ 16 then
    0xcd :: bigEndian 2 d.toNat
  else if d.toNat < 2 ^ 32 then
    0xce :: bigEndian 4 d.toNat
  else
    0xcf :: bigEndian 8 d.toNat

/-- The lowest `width` bytes of a signed integer. -/
def storeSigned (width : ℕ) (d : ℤ) : List UInt8 :=
  bigEndian width (d % 256 ^ width).toNat

/-- `msgpack_pack_int`, for the 32-bit `int` of the target platforms. -/
def packInt (d : Int32) : List UInt8 :=
  if d.toInt < -2 ^ 5 then
    if d.toInt < -2 ^ 15 then
      0xd2 :: storeSigned 4 d.toInt
    else if d.toInt < -2 ^ 7 then
      0xd1 :: storeSigned 2 d.toInt
    else
      0xd0 :: storeSigned 1 d.toInt
  else if d.toInt < 2 ^ 7 then
    storeSigned 1 d.toInt
  else if d.toInt < 2 ^ 8 then
    0xcc :: storeSigned 1 d.toInt
  else if d.toInt < 2 ^ 16 then
    0xcd :: storeSigned 2 d.toInt
  else
    0xce :: storeSigned 4 d.toInt

/-- `msgpack_pack_int64` -/
def packInt64 (d : Int64) : List UInt8 :=
  if d.toInt < -2 ^ 5 then
    if d.toInt < -2 ^ 15 then
      if d.toInt < -2 ^ 31 then
        0xd3 :: storeSigned 8 d.toInt
      else
        0xd2 :: storeSigned 4 d.toInt
    else if d.toInt < -2 ^ 7 then
      0xd1 :: storeSigned 2 d.toInt
    else
      0xd0 :: storeSigned 1 d.toInt
  else if d.toInt < 2 ^ 7 then
    storeSigned 1 d.toInt
  else if d.toInt < 2 ^ 16 then
    if d.toInt < 2 ^ 8 then
      0xcc :: storeSigned 1 d.toInt
    else
      0xcd :: storeSigned 2 d.toInt
  else if d.toInt < 2 ^ 32 then
    0xce :: storeSigned 4 d.toInt
  else
    0xcf :: storeSigned 8 d.toInt

/-- `msgpack_pack_double`, of the bit pattern of the number. -/
def packDouble (bits : UInt64) : List UInt8 :=
  0xcb :: bigEndian 8 bits.toNat

/-- `msgpack_pack_array` -/
def packArray (n : ℕ) : List UInt8 :=
  if n < 16 then
    [0x90 ||| UInt8.ofNat n]
  else if n < 65536 then
    0xdc :: bigEndian 2 n
  else
    0xdd :: bigEndian 4 n

/-- `msgpack_pack_map` -/
def packMap (n : ℕ) : List UInt8 :=
  if n < 16 then
    [0x80 ||| UInt8.ofNat n]
  else if n < 65536 then
    0xde :: bigEndian 2 n
  else
    0xdf :: bigEndian 4 n

/-- `msgpack_pack_str` -/
def packStr (l : ℕ) : List UInt8 :=
  if l < 32 then
    [0xa0 ||| UInt8.ofNat l]
  else if l < 256 then
    [0xd9, UInt8.ofNat l]
  else if l < 65536 then
    0xda :: bigEndian 2 l
  else
    0xdb :: bigEndian 4 l

/-- `msgpack_pack_bin` -/
def packBin (l : ℕ) : List UInt8 :=
  if l < 256 then
    [0xc4, UInt8.ofNat l]
  else if l < 65536 then
    0xc5 :: bigEndian 2 l
  else
    0xc6 :: bigEndian 4 l

/-- `msgpack_pack_ext` -/
def packExt (l : ℕ) (type : Int8) : List UInt8 :=
  if l = 1 then
    [0xd4, type.toUInt8]
  else if l = 2 then
    [0xd5, type.toUInt8]
  else if l = 4 then
    [0xd6, type.toUInt8]
  else if l = 8 then
    [0xd7, type.toUInt8]
  else if l = 16 then
    [0xd8, type.toUInt8]
  else if l < 256 then
    [0xc7, UInt8.ofNat l, type.toUInt8]
  else if l < 65536 then
    0xc8 :: bigEndian 2 l ++ [type.toUInt8]
  else
    0xc9 :: bigEndian 4 l ++ [type.toUInt8]

mutual

/-- `msgpack_pack_object` -/
def packObject : Object → List UInt8
  | .nil => packNil
  | .boolean value => if value then packTrue else packFalse
  | .positiveInteger u64 => packUint64 u64
  | .negativeInteger i64 => packInt64 i64
  | .float f64 => packDouble f64
  | .str bytes => packStr bytes.length ++ bytes
  | .bin bytes => packBin bytes.length ++ bytes
  | .ext type bytes => packExt bytes.length type ++ bytes
  | .array items => packArray items.length ++ packItems items
  | .map pairs => packMap pairs.length ++ packPairs pairs

/-- The loop of `msgpack_pack_object` over the items of an array. -/
def packItems : List Object → List UInt8
  | [] => []
  | item :: items => packObject item ++ packItems items

/-- The loop of `msgpack_pack_object` over the pairs of a map. -/
def packPairs : List (Object × Object) → List UInt8
  | [] => []
  | (key, val) :: pairs => packObject key ++ packObject val ++ packPairs pairs

end

end Lucciefr.Msgpack
