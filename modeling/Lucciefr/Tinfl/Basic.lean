import Mathlib.Logic.Function.Basic
import Mathlib.Data.Int.Basic
import Lucciefr.Base.Buffer
import Lucciefr.Base.Effect
import Lucciefr.Base.Retry
import Lucciefr.Gzip.Basic

/-!
# The inflate decompressor

The model of `tinfl_decompress` in `core/tinfl.c`, as the functions of the program call
it: the input is complete (`TINFL_FLAG_HAS_MORE_INPUT` is clear), and the output buffer
holds the whole output (`TINFL_FLAG_USING_NON_WRAPPING_OUTPUT_BUF` is set). Then the
coroutine is only left when the output buffer is full, when it fails and when it is done.

The bit buffer is as wide as a register of the target. The members of the decompressor
which are written before they are read in each call are local variables of the model:
`m_zhdr0`, `m_zhdr1`, `m_type`, `m_num_extra`, `m_table_sizes` and `m_raw_header`. Of an
array which is filled from its beginning the model keeps the part that was written.
-/

namespace Lucciefr.Tinfl

open Gzip (TinflStatus)

/-- Write an element of an array. -/
def writeAt {α : Type} (array : List α) (index : ℕ) (value : α) : Except Fault (List α) :=
  if index < array.length then .ok (array.set index value) else .error .outOfBounds

section Input

/-- `MZ_READ_LE16` and `MZ_READ_LE32` -/
def littleEndian : List UInt8 → ℕ
  | [] => 0
  | byte :: bytes => byte.toNat ||| littleEndian bytes <<< 8

/-- The bit buffer, and the input from `pIn_buf_cur` to `pIn_buf_end`. -/
structure Input where
  bitBuf : ℕ
  numBits : ℕ
  inBuf : List UInt8

namespace Input

/-- `TINFL_GET_BYTE` -/
def getByte (input : Input) : ℕ × Input :=
  match input.inBuf with
  | [] => (0, input)
  | byte :: rest => (byte.toNat, { input with inBuf := rest })

/-- `bit_buf |= ((tinfl_bit_buf_t)value) << num_bits; num_bits += count` -/
def pushBits (build : Build) (value count : ℕ) (input : Input) : Input :=
  { input with
    bitBuf := input.bitBuf ||| (value <<< input.numBits) % 2 ^ build.bits
    numBits := input.numBits + count }

/-- Read another byte into the bit buffer. -/
def pushByte (build : Build) (input : Input) : Input :=
  input.getByte.2.pushBits build input.getByte.1 8

/-- `TINFL_NEED_BITS` -/
def needBits (build : Build) (n : ℕ) (input : Input) : Except Fault Input :=
  doWhile .divergence (fun input => input.numBits < n) (fun input => .ok (input.pushByte build))
    (n + 1) input

/-- `bit_buf >>= n; num_bits -= n` -/
def dropBits (n : ℕ) (input : Input) : Input :=
  { input with bitBuf := input.bitBuf >>> n, numBits := input.numBits - n }

/-- `if (num_bits < n) { TINFL_NEED_BITS(..., n); }` -/
def fillBits (build : Build) (n : ℕ) (input : Input) : Except Fault Input :=
  if input.numBits < n then input.needBits build n else .ok input

/-- `TINFL_SKIP_BITS` -/
def skipBits (build : Build) (n : ℕ) (input : Input) : Except Fault Input := do
  let input ← input.fillBits build n
  pure (input.dropBits n)

/-- `TINFL_GET_BITS` -/
def getBits (build : Build) (n : ℕ) (input : Input) : Except Fault (ℕ × Input) := do
  let input ← input.fillBits build n
  pure (input.bitBuf &&& (1 <<< n - 1), input.dropBits n)

/-- A byte, from the bit buffer unless that is empty. -/
def getRawByte (build : Build) (input : Input) : Except Fault (ℕ × Input) :=
  if input.numBits ≠ 0 then input.getBits build 8 else .ok input.getByte

/-- Read several bytes into the bit buffer. -/
def pushBytes (build : Build) (count : ℕ) (input : Input) : Except Fault Input :=
  if count ≤ input.inBuf.length then
    .ok ({ input with inBuf := input.inBuf.drop count }.pushBits build
      (littleEndian (input.inBuf.take count))
      (8 * count))
  else
    .error .outOfBounds

end Input

end Input

section Tables

/-- `TINFL_FAST_LOOKUP_BITS` -/
def fastLookupBits : ℕ := 10

/-- `TINFL_FAST_LOOKUP_SIZE` -/
def fastLookupSize : ℕ := 1 <<< fastLookupBits

/-- `TINFL_MAX_HUFF_SYMBOLS_0` -/
def maxHuffSymbols0 : ℕ := 288

/-- `TINFL_MAX_HUFF_SYMBOLS_1` -/
def maxHuffSymbols1 : ℕ := 32

/-- `tinfl_huff_table` -/
structure HuffTable where
  codeSize : List ℕ
  lookUp : List ℤ
  tree : List ℤ

/-- `m_tree[index]` -/
def treeAt (tree : List ℤ) (index : ℤ) : Except Fault ℤ :=
  if 0 ≤ index then readAt tree index.toNat else .error .outOfBounds

/-- `m_tree[index] = value` -/
def writeTree (tree : List ℤ) (index value : ℤ) : Except Fault (List ℤ) :=
  if 0 ≤ index then writeAt tree index.toNat value else .error .outOfBounds

namespace HuffTable

/-- `temp = m_tree[~temp + ((bit_buf >> code_len++) & 1)]` -/
def follow (table : HuffTable) (bitBuf : ℕ) (state : ℤ × ℕ) : Except Fault (ℤ × ℕ) := do
  let (temp, codeLen) := state
  let temp ← treeAt table.tree (-temp - 1 + (bitBuf >>> codeLen &&& 1 : ℕ))
  pure (temp, codeLen + 1)

/-- Follow `m_tree` as long as `again` holds. The entries of the table are enough turns. -/
def walk (table : HuffTable) (bitBuf : ℕ) (again : ℕ → Bool) (temp : ℤ) (codeLen : ℕ) :
    Except Fault (ℤ × ℕ) :=
  doWhile .divergence (fun (temp, codeLen) => decide (temp < 0) && again codeLen)
    (table.follow bitBuf) (2 * maxHuffSymbols0) (temp, codeLen)

/-- The entry for the next code, and the number of its bits. -/
def find (table : HuffTable) (bitBuf : ℕ) : Except Fault (ℤ × ℕ) := do
  let temp ← readAt table.lookUp (bitBuf &&& (fastLookupSize - 1))
  if 0 ≤ temp then
    pure (temp, temp.toNat >>> 9)
  else
    table.walk bitBuf (fun _ => true) temp fastLookupBits

/-- The next code is complete in the bit buffer. -/
def finds (table : HuffTable) (input : Input) : Except Fault Bool := do
  let temp ← readAt table.lookUp (input.bitBuf &&& (fastLookupSize - 1))
  if 0 ≤ temp then
    pure (temp.toNat >>> 9 ≠ 0 && temp.toNat >>> 9 ≤ input.numBits)
  else if fastLookupBits < input.numBits then do
    let (temp, _) ← table.walk input.bitBuf (fun codeLen => codeLen + 1 ≤ input.numBits) temp
      fastLookupBits
    pure (0 ≤ temp)
  else
    pure false

/-- `TINFL_HUFF_BITBUF_FILL` -/
def bitbufFill (table : HuffTable) (build : Build) (input : Input) : Except Fault Input := do
  let filled ← doWhile .divergence
    (fun state => !state.1 && decide (state.2.numBits < 15))
    (fun state => do
      if ← table.finds state.2 then pure (true, state.2)
      else pure (false, state.2.pushByte build))
    16 (false, input)
  pure filled.2

/-- Fill the bit buffer for the next code. -/
def fillCode (table : HuffTable) (build : Build) (input : Input) : Except Fault Input :=
  if input.numBits < 15 then
    if input.inBuf.length < 2 then table.bitbufFill build input else input.pushBytes build 2
  else
    .ok input

/-- `TINFL_HUFF_DECODE` -/
def decode (table : HuffTable) (build : Build) (input : Input) : Except Fault (ℕ × Input) := do
  let input ← table.fillCode build input
  let (temp, codeLen) ← table.find input.bitBuf
  -- an entry of m_tree is below 512
  pure (temp.toNat &&& 511, input.dropBits codeLen)

end HuffTable

/-- `total_syms` -/
def countSizes (codeSize : List ℕ) (tableSize : ℕ) : Except Fault (List ℕ) :=
  (List.range tableSize).foldlM (fun totalSyms i => do
    let size ← readAt codeSize i
    let total ← readAt totalSyms size
    writeAt totalSyms size (total + 1)) (List.replicate 16 0)

/-- `used_syms`, `total` and `next_code`. The total of 288 symbols does not wrap. -/
def nextCodes (totalSyms : List ℕ) : Except Fault (ℕ × ℕ × List ℕ) :=
  (List.range 15).foldlM (fun (usedSyms, total, nextCode) i => do
    let syms ← readAt totalSyms (i + 1)
    let total := (total + syms) <<< 1
    let nextCode ← writeAt nextCode (i + 1 + 1) total
    pure (usedSyms + syms, total, nextCode)) (0, 0, List.replicate 17 0)

/-- `for (l = code_size; l > 0; l--, cur_code >>= 1) rev_code = (rev_code << 1) | (cur_code & 1)` -/
def reverseCode : (l : ℕ) → (curCode revCode : ℕ) → ℕ
  | 0, _, revCode => revCode
  | l + 1, curCode, revCode => reverseCode l (curCode >>> 1) (revCode <<< 1 ||| curCode &&& 1)

/-- `while (rev_code < TINFL_FAST_LOOKUP_SIZE) { m_look_up[rev_code] = k; rev_code += step; }` -/
def fillLookUp (k : ℤ) (step : ℕ) : (turns revCode : ℕ) → List ℤ → Except Fault (List ℤ)
  | 0, _, _ => .error .divergence
  | turns + 1, revCode, lookUp =>
      if revCode < fastLookupSize then do
        let lookUp ← writeAt lookUp revCode k
        fillLookUp k step turns (revCode + step) lookUp
      else
        pure lookUp

/-- The variables of the loop which assigns the codes. -/
structure Assignment where
  lookUp : List ℤ
  tree : List ℤ
  nextCode : List ℕ
  treeNext : ℤ

/-- A code which takes more than `code_size` of the fast lookup: one turn for each of the
bits between. -/
def deepen : (turns : ℕ) → (treeCur : ℤ) → (revCode : ℕ) → Assignment →
    Except Fault (ℤ × ℕ × Assignment)
  | 0, treeCur, revCode, tables => pure (treeCur, revCode, tables)
  | turns + 1, treeCur, revCode, tables => do
      let revCode := revCode >>> 1
      let treeCur := treeCur - (revCode &&& 1 : ℕ)
      let entry ← treeAt tables.tree (-treeCur - 1)
      if entry = 0 then do
        let tree ← writeTree tables.tree (-treeCur - 1) tables.treeNext
        deepen turns tables.treeNext revCode
          { tables with tree := tree, treeNext := tables.treeNext - 2 }
      else
        deepen turns entry revCode tables

/-- The node to which the fast lookup leads for a long code. -/
def firstNode (revCode : ℕ) (tables : Assignment) : Except Fault (ℤ × Assignment) := do
  let entry ← readAt tables.lookUp (revCode &&& (fastLookupSize - 1))
  if entry = 0 then do
    let lookUp ← writeAt tables.lookUp (revCode &&& (fastLookupSize - 1)) tables.treeNext
    pure (tables.treeNext, { tables with lookUp := lookUp, treeNext := tables.treeNext - 2 })
  else
    pure (entry, tables)

/-- Enter a code which is longer than `TINFL_FAST_LOOKUP_BITS`. -/
def insertLong (symIndex codeSize revCode : ℕ) (tables : Assignment) :
    Except Fault Assignment := do
  let (treeCur, tables) ← firstNode revCode tables
  let (treeCur, revCode, tables) ←
    deepen (codeSize - (fastLookupBits + 1)) treeCur (revCode >>> (fastLookupBits - 1)) tables
  let treeCur := treeCur - (revCode >>> 1 &&& 1 : ℕ)
  let tree ← writeTree tables.tree (-treeCur - 1) symIndex
  pure { tables with tree := tree }

/-- The body of the loop over `sym_index`. -/
def assignCode (codeSize : List ℕ) (tables : Assignment) (symIndex : ℕ) :
    Except Fault Assignment := do
  let size ← readAt codeSize symIndex
  if size = 0 then
    pure tables
  else do
    let curCode ← readAt tables.nextCode size
    let nextCode ← writeAt tables.nextCode size (curCode + 1)
    let tables := { tables with nextCode := nextCode }
    let revCode := reverseCode size curCode 0
    if size ≤ fastLookupBits then do
      let lookUp ← fillLookUp (size <<< 9 ||| symIndex : ℕ) (1 <<< size) (fastLookupSize + 1)
        revCode tables.lookUp
      pure { tables with lookUp := lookUp }
    else
      insertLong symIndex size revCode tables

/-- A turn of the loop over `m_type`, which builds a table from its code sizes. There is no
table if the sizes do not make up a code. -/
def HuffTable.build (table : HuffTable) (tableSize : ℕ) : Except Fault (Option HuffTable) := do
  let totalSyms ← countSizes table.codeSize tableSize
  let (usedSyms, total, nextCode) ← nextCodes totalSyms
  if 65536 ≠ total ∧ 1 < usedSyms then
    pure none
  else do
    let tables ← (List.range tableSize).foldlM (assignCode table.codeSize)
      { lookUp := List.replicate fastLookupSize 0
        tree := List.replicate (maxHuffSymbols0 * 2) 0
        nextCode := nextCode
        treeNext := -1 }
    pure (some { table with lookUp := tables.lookUp, tree := tables.tree })

end Tables

/-- `s_length_base` -/
def lengthBases : List ℕ :=
  [3, 4, 5, 6, 7, 8, 9, 10, 11, 13, 15, 17, 19, 23, 27, 31, 35, 43, 51, 59, 67, 83, 99, 115, 131,
    163, 195, 227, 258, 0, 0]

/-- `s_length_extra` -/
def lengthExtras : List ℕ :=
  [0, 0, 0, 0, 0, 0, 0, 0, 1, 1, 1, 1, 2, 2, 2, 2, 3, 3, 3, 3, 4, 4, 4, 4, 5, 5, 5, 5, 0, 0, 0]

/-- `s_dist_base` -/
def distBases : List ℕ :=
  [1, 2, 3, 4, 5, 7, 9, 13, 17, 25, 33, 49, 65, 97, 129, 193, 257, 385, 513, 769, 1025, 1537, 2049,
    3073, 4097, 6145, 8193, 12289, 16385, 24577, 0, 0]

/-- `s_dist_extra`, whose initializer leaves the last elements 0 -/
def distExtras : List ℕ :=
  [0, 0, 0, 0, 1, 1, 2, 2, 3, 3, 4, 4, 5, 5, 6, 6, 7, 7, 8, 8, 9, 9, 10, 10, 11, 11, 12, 12, 13,
    13, 0, 0]

/-- `s_length_dezigzag` -/
def lengthDezigzag : List ℕ :=
  [16, 17, 18, 0, 8, 7, 9, 6, 10, 5, 11, 4, 12, 3, 13, 2, 14, 1, 15]

/-- `s_min_table_sizes` -/
def minTableSizes : List ℕ :=
  [257, 1, 4]

/-- The members of the decompressor which `tinfl_decompress` uses in place. -/
structure Registers where
  state : ℕ
  dist : ℕ
  counter : ℕ
  distFromOutBufStart : ℕ
  final : ℕ
  tables : Fin 3 → HuffTable
  /-- What was written to `m_len_codes`. -/
  lenCodes : List ℕ
  zAdler32 : ℕ
  checkAdler32 : ℕ

/-- `tinfl_decompressor` -/
structure Decompressor extends Registers where
  numBits : ℕ
  bitBuf : ℕ

/-- `tinfl_init` -/
def Decompressor.init (r : Decompressor) : Decompressor :=
  { r with state := 0 }

/-- The state of `tinfl_decompress`. -/
structure Machine extends Registers where
  input : Input
  /-- The output buffer up to `pOut_buf_cur`. -/
  outBuf : List UInt8

/-- What does not change during a call. -/
structure Setting where
  build : Build
  /-- `MINIZ_USE_UNALIGNED_LOADS_AND_STORES` -/
  unaligned : Bool
  /-- `TINFL_FLAG_PARSE_ZLIB_HEADER` -/
  parseZlibHeader : Bool
  /-- The offset of `pOut_buf_end`. -/
  outEnd : ℕ

/-- How a call ends. -/
inductive Stop where
  | status (status : TinflStatus)
  | fault (fault : Fault)

abbrev Inflate := EStateM Stop Machine

/-- `TINFL_CR_RETURN` -/
def crReturn {α : Type} (stateIndex : ℕ) (result : TinflStatus) : Inflate α := do
  modify fun r => { r with state := stateIndex }
  throw (.status result)

/-- An operation which may be undefined. -/
def checked {α : Type} (result : Except Fault α) : Inflate α :=
  match result with
  | .ok value => pure value
  | .error fault => throw (.fault fault)

/-- An operation on the input. -/
def onInput {α : Type} (operation : Input → Except Fault (α × Input)) : Inflate α := do
  let (value, input) ← checked (operation (← get).input)
  modify fun r => { r with input := input }
  pure value

section Output

variable (setting : Setting)

/-- `*pOut_buf_cur++ = byte` -/
def putByte (byte : UInt8) : Inflate Unit := do
  if (← get).outBuf.length < setting.outEnd then
    modify fun r => { r with outBuf := r.outBuf ++ [byte] }
  else
    throw (.fault .outOfBounds)

/-- `while (pOut_buf_cur >= pOut_buf_end)` -/
def needRoom (stateIndex : ℕ) : Inflate Unit := do
  if setting.outEnd ≤ (← get).outBuf.length then
    crReturn stateIndex .hasMoreOutput

/-- Copy a byte of the output. What lies behind `pOut_buf_cur` was not written. -/
def copyByte (src : ℕ) : Inflate Unit := do
  let byte ← checked (readAt (← get).outBuf src)
  putByte setting byte

/-- Copy bytes one by one. -/
def copyBytes : (count src : ℕ) → Inflate Unit
  | 0, _ => pure ()
  | count + 1, src => do
      copyByte setting src
      copyBytes count (src + 1)

/-- Copy a `mz_uint32`. -/
def copyWord (src : ℕ) : Inflate Unit := do
  let first ← checked (readAt (← get).outBuf src)
  let second ← checked (readAt (← get).outBuf (src + 1))
  let third ← checked (readAt (← get).outBuf (src + 2))
  let fourth ← checked (readAt (← get).outBuf (src + 3))
  putByte setting first
  putByte setting second
  putByte setting third
  putByte setting fourth

/-- `do { ... } while ((pSrc += 8) < pSrc_end)`, for as many turns. -/
def copyWords : (turns src : ℕ) → Inflate Unit
  | 0, _ => pure ()
  | turns + 1, src => do
      copyWord setting src
      copyWord setting (src + 4)
      copyWords turns (src + 8)

/-- `do { ... } while ((int)(counter -= 3) > 2)`, and what is left after it. -/
def copyThrees : (turns src : ℕ) → (counter : ℤ) → Inflate Unit
  | 0, _, _ => throw (.fault .divergence)
  | turns + 1, src, counter => do
      copyBytes setting 3 src
      if 2 < counter - 3 then
        copyThrees turns (src + 3) (counter - 3)
      else
        copyBytes setting (counter - 3).toNat (src + 3)

/-- A byte of a match which does not fit. -/
def putMatchByte : Inflate Unit := do
  needRoom setting 53
  let r ← get
  copyByte setting (r.distFromOutBufStart - r.dist)
  modify fun r => { r with distFromOutBufStart := r.distFromOutBufStart + 1 }

/-- `while (counter--)` -/
def putMatch : Inflate Unit := do
  loop (.fault .divergence) (do
    if (← get).counter = 0 then
      pure (some ())
    else
      modify fun r => { r with counter := r.counter - 1 }
      putMatchByte setting
      pure none) ((← get).counter + 1)

/-- Copy `counter` bytes from `dist` bytes back. -/
def copyMatch : Inflate Unit := do
  modify fun r => { r with distFromOutBufStart := r.outBuf.length }
  let r ← get
  if r.distFromOutBufStart < r.dist then
    crReturn 37 .failed
  else
    let src := r.distFromOutBufStart - r.dist
    if setting.outEnd < max r.outBuf.length src + r.counter then
      putMatch setting
    else if setting.unaligned ∧ 9 ≤ r.counter ∧ r.counter ≤ r.dist then do
      copyWords setting (r.counter / 8) src
      if r.counter % 8 < 3 then
        copyBytes setting (r.counter % 8) (src + 8 * (r.counter / 8))
      else
        copyThrees setting (r.counter % 8 + 1) (src + 8 * (r.counter / 8)) (r.counter % 8 : ℕ)
    else
      copyThrees setting (r.counter + 1) src r.counter

end Output

section Blocks

variable (setting : Setting)

/-- `TINFL_GET_BITS` -/
def getBits (n : ℕ) : Inflate ℕ :=
  onInput (·.getBits setting.build n)

/-- `TINFL_HUFF_DECODE`, with one of the tables. -/
def huffDecode (table : Fin 3) : Inflate ℕ := do
  let r ← get
  onInput ((r.tables table).decode setting.build)

/-- The length of a stored block, and its complement. -/
def storedHeader : Inflate Unit := do
  onInput fun input => do pure ((), ← input.skipBits setting.build (input.numBits &&& 7))
  let first ← onInput (·.getRawByte setting.build)
  let second ← onInput (·.getRawByte setting.build)
  let third ← onInput (·.getRawByte setting.build)
  let fourth ← onInput (·.getRawByte setting.build)
  modify fun r => { r with counter := first ||| second <<< 8 }
  if first ||| second <<< 8 ≠ 0xFFFF ^^^ (third ||| fourth <<< 8) then
    crReturn 39 .failed

/-- Write the byte which was read from the bit buffer. -/
def putStoredByte : Inflate Unit := do
  needRoom setting 52
  putByte setting (.ofNat (← get).dist)
  modify fun r => { r with counter := r.counter - 1 }

/-- `while ((counter) && (num_bits))` -/
def storedBits : Inflate Unit := do
  loop (.fault .divergence) (do
    let r ← get
    if r.counter ≠ 0 ∧ r.input.numBits ≠ 0 then
      let dist ← getBits setting 8
      modify fun r => { r with dist := dist }
      putStoredByte setting
      pure none
    else
      pure (some ())) ((← get).counter + 1)

/-- `while (counter)` -/
def storedBytes : Inflate Unit := do
  loop (.fault .divergence) (do
    if (← get).counter = 0 then
      pure (some ())
    else
      needRoom setting 9
      let r ← get
      if r.input.inBuf = [] then
        crReturn 40 .failed
      else
        let n := min (min (setting.outEnd - r.outBuf.length) r.input.inBuf.length) r.counter
        modify fun r =>
          { r with
            input := { r.input with inBuf := r.input.inBuf.drop n }
            outBuf := r.outBuf ++ r.input.inBuf.take n
            counter := r.counter - n }
        pure none) ((← get).counter + 1)

/-- Build the table of this type, for as many symbols. -/
def buildTable (type : Fin 3) (tableSize : ℕ) : Inflate Unit := do
  let r ← get
  match ← checked ((r.tables type).build tableSize) with
  | some table => modify fun r => { r with tables := Function.update r.tables type table }
  | none => crReturn 35 .failed

/-- Change the code sizes of a table. -/
def setCodeSize (type : Fin 3) (change : List ℕ → List ℕ) : Inflate Unit :=
  modify fun r =>
    { r with
      tables := Function.update r.tables type
        { r.tables type with codeSize := change (r.tables type).codeSize } }

/-- The tables of a block with fixed codes. -/
def fixedTables : Inflate Unit := do
  setCodeSize 1 fun codeSize => List.replicate 32 5 ++ codeSize.drop 32
  setCodeSize 0 fun _ => List.replicate 144 8 ++ List.replicate 112 9 ++ List.replicate 24 7 ++
    List.replicate 8 8
  buildTable 1 32
  buildTable 0 288

/-- Read the sizes for the codes of the code sizes. -/
def readSizeCodes : (count symbol : ℕ) → Inflate Unit
  | 0, _ => pure ()
  | count + 1, counter => do
      let s ← getBits setting 3
      let symbol ← checked (readAt lengthDezigzag counter)
      let codeSize ← checked (writeAt ((← get).tables 2).codeSize symbol s)
      setCodeSize 2 fun _ => codeSize
      readSizeCodes count (counter + 1)

/-- A turn of the loop which reads the code sizes. -/
def readSizes (total : ℕ) : Inflate (Option Unit) := do
  if (← get).lenCodes.length < total then
    let dist ← huffDecode setting 2
    if dist < 16 then
      modify fun r => { r with lenCodes := r.lenCodes ++ [dist] }
    else do
      let lenCodes := (← get).lenCodes
      if dist = 16 ∧ lenCodes = [] then
        crReturn 17 .failed
      else do
        let numExtra ← checked (readAt [2, 3, 7] (dist - 16))
        let s ← getBits setting numExtra
        let s := s + (← checked (readAt [3, 3, 11] (dist - 16)))
        if lenCodes.length + s ≤ maxHuffSymbols0 + maxHuffSymbols1 + 137 then
          modify fun r =>
            { r with
              lenCodes := lenCodes ++
                List.replicate s (if dist = 16 then lenCodes.getLastD 0 else 0) }
        else
          throw (.fault .outOfBounds)
    pure none
  else
    pure (some ())

/-- The tables of a block with dynamic codes. -/
def dynamicTables : Inflate Unit := do
  let literals := (← getBits setting 5) + minTableSizes.getD 0 0
  let distances := (← getBits setting 5) + minTableSizes.getD 1 0
  let sizeCodes := (← getBits setting 4) + minTableSizes.getD 2 0
  setCodeSize 2 fun _ => List.replicate maxHuffSymbols0 0
  readSizeCodes setting sizeCodes 0
  buildTable 2 19
  modify fun r => { r with lenCodes := [] }
  loop (.fault .divergence) (readSizes setting (literals + distances)) (literals + distances + 1)
  let lenCodes := (← get).lenCodes
  if literals + distances ≠ lenCodes.length then
    crReturn 21 .failed
  else do
    setCodeSize 0 fun codeSize => lenCodes.take literals ++ codeSize.drop literals
    setCodeSize 1 fun codeSize =>
      (lenCodes.drop literals).take distances ++ codeSize.drop distances
    buildTable 1 distances
    buildTable 0 literals

/-- Write a literal. -/
def putLiteral : Inflate Unit := do
  needRoom setting 24
  putByte setting (.ofNat (← get).counter)

/-- Take the next code of a literal or a length from the bit buffer. -/
def takeCode : Inflate ℕ := do
  let r ← get
  let (sym2, codeLen) ← checked ((r.tables 0).find r.input.bitBuf)
  modify fun r => { r with input := r.input.dropBits codeLen }
  pure sym2.toNat

/-- Fill the bit buffer for at least one code, and for two on 64 bits. -/
def fillWide : Inflate Unit := do
  let r ← get
  match setting.build with
  | .x64 =>
      if r.input.numBits < 30 then
        onInput fun input => do pure ((), ← input.pushBytes setting.build 4)
  | .x86 =>
      if r.input.numBits < 15 then
        onInput fun input => do pure ((), ← input.pushBytes setting.build 2)

/-- Fill the bit buffer for the second code, on 32 bits. -/
def fillAgain : Inflate Unit :=
  if setting.build = .x86 then fillWide setting else pure ()

/-- A turn of the loop over literals, which ends with another code. -/
def literals : Inflate (Option ℕ) := do
  let r ← get
  if r.input.inBuf.length < 4 ∨ setting.outEnd - r.outBuf.length < 2 then
    let counter ← huffDecode setting 0
    if 256 ≤ counter then
      pure (some counter)
    else
      modify fun r => { r with counter := counter }
      putLiteral setting
      pure none
  else
    fillWide setting
    let counter ← takeCode
    if counter &&& 256 ≠ 0 then
      pure (some counter)
    else
      fillAgain setting
      let sym2 ← takeCode
      putByte setting (.ofNat counter)
      if sym2 &&& 256 ≠ 0 then
        pure (some sym2)
      else
        putByte setting (.ofNat sym2)
        pure none

/-- A base with extra bits. -/
def withExtra (bases extras : List ℕ) (code : ℕ) : Inflate ℕ := do
  let numExtra ← checked (readAt extras code)
  let base ← checked (readAt bases code)
  if numExtra ≠ 0 then
    pure (base + (← getBits setting numExtra))
  else
    pure base

/-- A turn of the loop over the symbols of a block. -/
def symbol : Inflate (Option Unit) := do
  match ← literals setting with
  | none => pure none
  | some counter =>
      let counter := counter &&& 511
      if counter = 256 then
        pure (some ())
      else do
        let counter ← withExtra setting lengthBases lengthExtras (counter - 257)
        let dist ← huffDecode setting 1
        let dist ← withExtra setting distBases distExtras dist
        modify fun r => { r with counter := counter, dist := dist }
        copyMatch setting
        pure none

/-- The symbols of a block. Each turn which is not the last one writes a byte. -/
def symbols : Inflate Unit := do
  loop (.fault .divergence) (symbol setting) (setting.outEnd - (← get).outBuf.length + 1)

/-- `while (!(r->m_final & 1))` -/
def endsHere : Inflate (Option Unit) := do
  if (← get).final &&& 1 = 0 then pure none else pure (some ())

/-- A block. -/
def block : Inflate (Option Unit) := do
  let final ← getBits setting 3
  modify fun r => { r with final := final }
  if final >>> 1 = 0 then do
    storedHeader setting
    storedBits setting
    storedBytes setting
  else if final >>> 1 = 3 then
    crReturn 10 .failed
  else do
    if final >>> 1 = 1 then fixedTables else dynamicTables setting
    symbols setting
  endsHere

/-- The blocks of a stream. The header of each one takes three bits, and a header which was
read behind the end of the input fails. -/
def blocks : Inflate Unit := do
  let input := (← get).input
  loop (.fault .divergence) (block setting) (8 * input.inBuf.length + input.numBits + 2)

/-- The blocks after the one which was continued. -/
def laterBlocks : Inflate Unit := do
  match ← endsHere with
  | some () => pure ()
  | none => blocks setting

/-- The beginning of a stream. -/
def start : Inflate Unit := do
  modify fun r =>
    { r with
      input := { r.input with bitBuf := 0, numBits := 0 }
      dist := 0, counter := 0, zAdler32 := 1, checkAdler32 := 1 }
  if setting.parseZlibHeader then
    let zhdr0 ← onInput fun input => .ok input.getByte
    let zhdr1 ← onInput fun input => .ok input.getByte
    if (zhdr0 * 256 + zhdr1) % 31 ≠ 0 ∨ zhdr1 &&& 32 ≠ 0 ∨ zhdr0 &&& 15 ≠ 8 then
      crReturn 36 .failed

/-- Read the checksum behind a zlib stream. -/
def readAdler32 : (count : ℕ) → Inflate Unit
  | 0 => pure ()
  | count + 1 => do
      let s ← onInput (·.getRawByte setting.build)
      modify fun r => { r with zAdler32 := (r.zAdler32 <<< 8 ||| s) % 2 ^ 32 }
      readAdler32 count

/-- The end of a stream. -/
def finish : Inflate Unit := do
  if setting.parseZlibHeader then
    onInput fun input => do pure ((), ← input.skipBits setting.build (input.numBits &&& 7))
    readAdler32 setting 4
  crReturn 34 .done

/-- The coroutine, from the state in which it was left. -/
def resume (state : ℕ) : Inflate Unit :=
  match state with
  | 0 => do
      start setting
      blocks setting
      finish setting
  | 9 => do
      storedBytes setting
      laterBlocks setting
      finish setting
  | 24 => do
      putLiteral setting
      symbols setting
      laterBlocks setting
      finish setting
  | 52 => do
      putStoredByte setting
      storedBits setting
      storedBytes setting
      laterBlocks setting
      finish setting
  | 53 => do
      putMatchByte setting
      putMatch setting
      symbols setting
      laterBlocks setting
      finish setting
  | 34 => crReturn 34 .done
  | _ => throw (.status .failed) -- a state which fails forever

end Blocks

section Exit

/-- `s1 += byte, s2 += s1` -/
def addByte (sums : ℕ × ℕ) (byte : UInt8) : ℕ × ℕ :=
  let s1 := (sums.1 + byte.toNat) % 2 ^ 32
  (s1, (sums.2 + s1) % 2 ^ 32)

/-- The bytes of a block: eight in each turn, and the rest one by one. -/
def addBlock : (turns : ℕ) → (block : List UInt8) → ℕ × ℕ → ℕ × ℕ
  | 0, block, sums => block.foldl addByte sums
  | turns + 1, block, sums =>
      if 7 < block.length then addBlock turns (block.drop 8) ((block.take 8).foldl addByte sums)
      else block.foldl addByte sums

/-- `while (buf_len)` -/
def addBlocks : (turns blockLen : ℕ) → (ptr : List UInt8) → ℕ × ℕ → Except Fault (ℕ × ℕ)
  | 0, _, _, _ => .error .divergence
  | turns + 1, blockLen, ptr, sums =>
      if ptr = [] then
        .ok sums
      else
        let sums := addBlock blockLen (ptr.take blockLen) sums
        addBlocks turns 5552 (ptr.drop blockLen) (sums.1 % 65521, sums.2 % 65521)

/-- The update of `m_check_adler32`. -/
def updateAdler32 (checkAdler32 : ℕ) (output : List UInt8) : Except Fault ℕ := do
  let (s1, s2) ← addBlocks (output.length + 2) (output.length % 5552) output
    (checkAdler32 &&& 0xffff, checkAdler32 >>> 16)
  pure ((s2 <<< 16 + s1) % 2 ^ 32)

/-- `tinfl_decompress`, up to `common_exit`. -/
def run (setting : Setting) (decomp : Decompressor) (inBuf outBuf : List UInt8) :
    Except Fault (TinflStatus × Machine) :=
  let machine := { decomp with input := ⟨decomp.bitBuf, decomp.numBits, inBuf⟩, outBuf := outBuf }
  match resume setting decomp.state machine with
  | .ok _ r => .ok (.failed, r)
  | .error (.status status) r => .ok (status, r)
  | .error (.fault fault) _ => .error fault

/-- `tinfl_decompress` -/
def tinflDecompress (build : Build) (unaligned : Bool) (decomp : Decompressor)
    (inBuf outBuf : List UInt8) (outBufSize : ℕ) (decompFlags : BitVec 32) :
    Except Fault (DecoderCall Decompressor UInt8 TinflStatus) := do
  let (status, r) ← run ⟨build, unaligned, decompFlags.getLsbD 0, outBuf.length + outBufSize⟩
    decomp inBuf outBuf
  let output := r.outBuf.drop outBuf.length
  let decomp : Decompressor :=
    { r.toRegisters with numBits := r.input.numBits, bitBuf := r.input.bitBuf }
  let consumed := inBuf.length - r.input.inBuf.length
  if (decompFlags.getLsbD 0 ∨ decompFlags.getLsbD 3) ∧ 0 ≤ status.number then
    let checkAdler32 ← updateAdler32 r.checkAdler32 output
    let mismatch := status = .done ∧ decompFlags.getLsbD 0 ∧ checkAdler32 ≠ r.zAdler32
    pure ⟨{ decomp with checkAdler32 := checkAdler32 }, consumed, output,
      if mismatch then .adler32Mismatch else status⟩
  else
    pure ⟨decomp, consumed, output, status⟩

/-- The decompressor of the program. What it does after an undefined operation is unknown. -/
def tinfl (build : Build) (unaligned : Bool) (decomp : Decompressor)
    (undefined : DecoderCall Decompressor UInt8 TinflStatus) : Gzip.Tinfl Decompressor where
  init := decomp.init
  decompress := fun decomp inBuf outBuf outBufSize decompFlags =>
    match tinflDecompress build unaligned decomp inBuf outBuf outBufSize decompFlags with
    | .ok call => call
    | .error _ => undefined

end Exit

end Lucciefr.Tinfl
