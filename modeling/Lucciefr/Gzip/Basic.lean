import Lucciefr.Base.BigEndian
import Lucciefr.Base.CString
import Lucciefr.Base.Decoder
import Lucciefr.Base.Fault
import Lucciefr.Platform

/-!
# Embedded resources

The model of the functions which unpack an embedded resource: the gzip functions of
`core/utils.c`, the growing output buffer of `core/tinfl.c`, and the two functions of
`core/symbols.c` which pass the unpacked resource on to Lua.

The decompressor `tinfl_decompress` and the allocator are parameters. A resource is the
list of its bytes, so that its length is not an argument of its own. Offsets into a
block in memory do not wrap.
-/

namespace Lucciefr.Gzip

/-- `tinfl_status` -/
inductive TinflStatus where
  | badParam
  | adler32Mismatch
  | failed
  | done
  | needsMoreInput
  | hasMoreOutput
deriving DecidableEq, Repr

/-- The number of an enumerator of `tinfl_status`. -/
def TinflStatus.number : TinflStatus → ℤ
  | badParam => -3
  | adler32Mismatch => -2
  | failed => -1
  | done => 0
  | needsMoreInput => 1
  | hasMoreOutput => 2

/-- `TINFL_FLAG_HAS_MORE_INPUT` -/
def flagHasMoreInput : BitVec 32 := 2

/-- `TINFL_FLAG_USING_NON_WRAPPING_OUTPUT_BUF` -/
def flagNonWrapping : BitVec 32 := 4

/-- `tinfl_init` and `tinfl_decompress`. A call gets the input which is left, the output
buffer up to where it continues, and the room from there on. -/
structure Tinfl (Decompressor : Type) where
  init : Decompressor
  decompress : Decompressor → (inBuf outBuf : List UInt8) → (outBufSize : ℕ) →
    (decompFlags : BitVec 32) → DecoderCall Decompressor UInt8 TinflStatus

/-- The decompressor with fixed flags. -/
def Tinfl.decoder {Decompressor : Type} (tinfl : Tinfl Decompressor) (flags : BitVec 32) :
    Decoder Decompressor UInt8 TinflStatus where
  init := tinfl.init
  call := fun decomp inBuf outBuf outBufSize =>
    tinfl.decompress decomp inBuf outBuf outBufSize flags
  done := .done
  more := .hasMoreOutput

/-- Which sizes `realloc` grants. No block takes half of the address space. -/
structure Allocator (build : Build) where
  grants : ℕ → Bool
  lt_half : ∀ size, grants size → size < 2 ^ (build.bits - 1)

/-- A block of which the first `size` bytes were written. -/
structure HeapBlock where
  bytes : List UInt8
  size : ℕ
deriving DecidableEq, Repr

/-- The variables of `tinfl_decompress_mem_to_heap`. -/
structure MemToHeap (Decompressor : Type) where
  decomp : Decompressor
  /-- What was written to the buffer, `none` for a `NULL` pointer. -/
  pBuf : Option (List UInt8)
  srcBufOfs : ℕ
  outBufCapacity : ℕ
  pOutLen : ℕ

variable {Decompressor : Type} {build : Build}

/-- The variables before the first turn. -/
def MemToHeap.initial (tinfl : Tinfl Decompressor) : MemToHeap Decompressor :=
  { decomp := tinfl.init, pBuf := none, srcBufOfs := 0, outBufCapacity := 0, pOutLen := 0 }

/-- The capacity after this one. -/
def newOutBufCapacity (build : Build) (outBufCapacity : ℕ) : ℕ :=
  if outBufCapacity * 2 % 2 ^ build.bits < 128 then 128
  else outBufCapacity * 2 % 2 ^ build.bits

/-- The loop of `tinfl_decompress_mem_to_heap`. -/
def memToHeapFrom (tinfl : Tinfl Decompressor) (allocator : Allocator build)
    (pSrcBuf : List UInt8) (flags : BitVec 32) :
    (turns : ℕ) → MemToHeap Decompressor → Except Fault (Option HeapBlock)
  | 0, _ => .error .divergence
  | turns + 1, loop =>
      let call := tinfl.decompress loop.decomp (pSrcBuf.drop loop.srcBufOfs) (loop.pBuf.getD [])
        (loop.outBufCapacity - loop.pOutLen) (flags &&& ~~~flagHasMoreInput ||| flagNonWrapping)
      if call.status.number < 0 ∨ call.status = .needsMoreInput then
        .ok none
      else
        let pBuf := loop.pBuf.map (· ++ call.output)
        let pOutLen := loop.pOutLen + call.output.length
        if call.status = .done then
          .ok (pBuf.map fun bytes => ⟨bytes, pOutLen⟩)
        else
          let capacity := newOutBufCapacity build loop.outBufCapacity
          if allocator.grants capacity then
            memToHeapFrom tinfl allocator pSrcBuf flags turns
              { decomp := call.state
                pBuf := some (pBuf.getD [])
                srcBufOfs := loop.srcBufOfs + call.consumed
                outBufCapacity := capacity
                pOutLen := pOutLen }
          else
            .ok none

/-- `tinfl_decompress_mem_to_heap`, where `none` is a `NULL` result and a length of 0.
The word size bounds how often the capacity can be doubled. -/
def tinflDecompressMemToHeap (tinfl : Tinfl Decompressor) (allocator : Allocator build)
    (pSrcBuf : List UInt8) (flags : BitVec 32) : Except Fault (Option HeapBlock) :=
  memToHeapFrom tinfl allocator pSrcBuf flags build.bits (.initial tinfl)

/-- `data[index]`, as a `char`. -/
def charAt (data : List UInt8) (index : ℕ) : Except Fault Int8 :=
  match data[index]? with
  | some char => .ok char.toInt8
  | none => .error .outOfBounds

/-- `is_gzipped` -/
def isGzipped (data : Option (List UInt8)) : Except Fault Bool :=
  match data with
  | none => .ok false
  | some data => do
      if (← charAt data 0) = 31 then
        .ok ((← charAt data 1) = -117)
      else
        .ok false

/-- `strlen(data + offset)`, for a string which ends inside the block. -/
def strlenAt (data : List UInt8) (offset : ℕ) : Except Fault ℕ :=
  if 0 ∈ data.drop offset then .ok (strlen (data.drop offset)) else .error .outOfBounds

/-- The errors of `gzip_decompress`, with the numbers in their messages. -/
inductive GzipError where
  /-- `data at %p has no gzip signature!` -/
  | noSignature
  /-- `suspicious compression method (expected 8, got %d)` -/
  | compressionMethod (method : Int8)
  /-- `unsupported header flags 0x%.2X` -/
  | headerFlags (flags : Int8)
  /-- `invalid length %d for original filename` -/
  | filenameLength (lenName : ℤ)
  /-- `gzip decompression FAILED!` -/
  | failed
deriving DecidableEq, Repr

/-- The offset to the actual start of compressed data. -/
def dataOffset (data : List UInt8) (flags : Int8) : Except Fault (Except GzipError ℕ) :=
  if flags &&& 0x08 ≠ 0 then do
    let lenName := toInt (← strlenAt data 10)
    if lenName ≤ 0 then
      .ok (.error (.filenameLength lenName))
    else if lenName = 2 ^ 31 - 1 then
      .error .signedOverflow
    else
      .ok (.ok (10 + (lenName + 1).toNat))
  else
    .ok (.ok 10)

/-- `gzip_decompress`, where an error stands for a `NULL` result and a size of 0. -/
def gzipDecompress (tinfl : Tinfl Decompressor) (allocator : Allocator build)
    (data : Option (List UInt8)) : Except Fault (Except GzipError HeapBlock) := do
  if !(← isGzipped data) then
    .ok (.error .noSignature)
  else
    let data := data.getD []
    let method ← charAt data 2
    if method ≠ 8 then
      .ok (.error (.compressionMethod method))
    else
      let flags ← charAt data 3
      if flags &&& ~~~0x09 ≠ 0 then
        .ok (.error (.headerFlags flags))
      else
        match ← dataOffset data flags with
        | .error error => .ok (.error error)
        | .ok offset =>
            if data.length < offset then
              .error .outOfBounds -- the difference of the lengths wraps
            else
              match ← tinflDecompressMemToHeap tinfl allocator (data.drop offset) 0 with
              | some result => .ok (.ok result)
              | none => .ok (.error .failed)

/-- What a C function leaves to Lua. -/
inductive LuaResult where
  | nothing
  /-- `lua_pushlstring` -/
  | string (bytes : List UInt8)
  /-- `luaL_loadbuffer` -/
  | chunk (buffer chunkname : List UInt8)
  /-- `dll_getBinarySymbol_C(): decompression of gzipped resource FAILED` -/
  | symbolError
  /-- `load_decompressed_buffer(%s): decompression of gzipped resource FAILED` -/
  | bufferError (name : List UInt8)
deriving DecidableEq, Repr

/-- The first `len` bytes of a buffer which is passed to Lua. -/
def HeapBlock.read (block : HeapBlock) : Except Fault (List UInt8) :=
  if block.size ≤ block.bytes.length then .ok (block.bytes.take block.size)
  else .error .outOfBounds

/-- `dll_getBinarySymbol_C`, after `getBinarySymbol` returned `data`. -/
def dllGetBinarySymbolC (tinfl : Tinfl Decompressor) (allocator : Allocator build)
    (data : Option (List UInt8)) : Except Fault LuaResult :=
  match data with
  | none => .ok .nothing
  | some data => do
      if !(← isGzipped data) then
        .ok (.string data)
      else
        match ← gzipDecompress tinfl allocator data with
        | .ok decompressed => .ok (.string (← decompressed.read))
        | .error _ => .ok .symbolError

/-- `strip_pwd`, with the result of `get_dll_dir`. -/
def stripPwd (pwd pathname : List UInt8) : List UInt8 :=
  if pwd <+: pathname then pathname.drop pwd.length else pathname

/-- `load_decompressed_buffer`; `pathMax` is the size of the buffer for the chunk name. -/
def loadDecompressedBuffer (tinfl : Tinfl Decompressor) (allocator : Allocator build)
    (pathMax : ℕ) (pwd : List UInt8) (data : List UInt8) (name : List UInt8) :
    Except Fault LuaResult := do
  let chunkname := (61 :: stripPwd pwd name).take (pathMax - 1)
  if !(← isGzipped data) then
    .ok (.chunk data chunkname)
  else
    match ← gzipDecompress tinfl allocator data with
    | .ok decompressed => .ok (.chunk (← decompressed.read) chunkname)
    | .error _ => .ok (.bufferError name)

/-- An original file name, which is neither empty nor contains a NUL. -/
structure FileName where
  bytes : List UInt8
  nonempty : bytes ≠ []
  noNul : 0 ∉ bytes

/-- A gzip member with the FTEXT and FNAME flags. -/
structure Member where
  text : Bool
  modified : UInt32
  extraFlags : UInt8
  system : UInt8
  name : Option FileName
  deflated : List UInt8
  crc : UInt32
  size : UInt32

namespace Member

/-- Four bytes, the lowest one first. -/
def littleEndian (value : UInt32) : List UInt8 :=
  (bigEndian 4 value.toNat).reverse

/-- The flags of the header. -/
def flags (member : Member) : UInt8 :=
  (if member.text then 0x01 else 0) ||| (if member.name.isSome then 0x08 else 0)

/-- The optional fields of the header. -/
def nameField (member : Member) : List UInt8 :=
  match member.name with
  | none => []
  | some name => name.bytes ++ [0]

/-- The compressed data and the trailer. -/
def body (member : Member) : List UInt8 :=
  member.deflated ++ littleEndian member.crc ++ littleEndian member.size

/-- The file. -/
def bytes (member : Member) : List UInt8 :=
  [0x1f, 0x8b, 8, member.flags] ++ littleEndian member.modified ++
    [member.extraFlags, member.system] ++ member.nameField ++ member.body

end Member

end Lucciefr.Gzip
