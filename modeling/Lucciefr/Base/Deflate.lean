import Lucciefr.Base.CanonicalCode

/-!
# The deflate format

A deflate stream is the encoding of blocks, and its content is what the blocks add to
the history, one after another. The blocks leave nothing of the encoding open: they say
which of several codes for a length is used, how the sizes of the codewords are
transmitted, and which bits are skipped before the bytes of a stored block.
-/

namespace Lucciefr.Deflate

/-- The number of extra bits after a length code. -/
def lengthExtraBits (code : ℕ) : ℕ :=
  if code < 8 ∨ code = 28 then 0 else code / 4 - 1

/-- The shortest length of a length code. -/
def lengthBase (code : ℕ) : ℕ :=
  if code < 8 then code + 3
  else if code = 28 then 258
  else 2 ^ (code / 4 - 1) * (4 + code % 4) + 3

/-- The number of extra bits after a distance code. -/
def distanceExtraBits (code : ℕ) : ℕ :=
  code / 2 - 1

/-- The shortest distance of a distance code. -/
def distanceBase (code : ℕ) : ℕ :=
  if code < 4 then code + 1 else 2 ^ (code / 2 - 1) * (2 + code % 2) + 1

/-- A copy of bytes from the history. -/
structure Copy where
  lengthCode : Fin 29
  lengthExtra : ℕ
  distanceCode : Fin 30
  distanceExtra : ℕ
  lengthExtra_lt : lengthExtra < 2 ^ lengthExtraBits lengthCode
  distanceExtra_lt : distanceExtra < 2 ^ distanceExtraBits distanceCode

namespace Copy

def length (copy : Copy) : ℕ :=
  lengthBase copy.lengthCode + copy.lengthExtra

def distance (copy : Copy) : ℕ :=
  distanceBase copy.distanceCode + copy.distanceExtra

end Copy

/-- Append bytes, each one from the same distance before the end. -/
def repeatFrom (distance : ℕ) : (length : ℕ) → List UInt8 → List UInt8
  | 0, history => history
  | length + 1, history =>
      repeatFrom distance length (history ++ [history.getD (history.length - distance) 0])

inductive Symbol where
  | literal (byte : UInt8)
  | copy (source : Copy)

/-- The codes of a block. -/
structure Codes where
  literals : CanonicalCode 15
  distances : CanonicalCode 15

section Repeat

variable {distance length more : ℕ} {history : List UInt8}

theorem repeatFrom_add :
    repeatFrom distance (length + more) history =
      repeatFrom distance more (repeatFrom distance length history) := by
  induction length generalizing history with
  | zero => rw [Nat.zero_add, repeatFrom]
  | succ length ih => rw [Nat.succ_add, repeatFrom, repeatFrom, ih]

@[simp]
theorem length_repeatFrom :
    (repeatFrom distance length history).length = history.length + length := by
  induction length generalizing history with
  | zero => rfl
  | succ length ih =>
      rw [repeatFrom, ih, List.length_append, List.length_singleton]
      omega

theorem isPrefix_repeatFrom : history <+: repeatFrom distance length history := by
  induction length generalizing history with
  | zero => exact List.prefix_refl _
  | succ length ih => exact (List.prefix_append _ _).trans ih

end Repeat

/-- The symbol which ends a block. -/
def endOfBlock : ℕ := 256

namespace Symbol

/-- The number of a symbol in the first code. -/
def number : Symbol → ℕ
  | literal byte => byte.toNat
  | copy source => 257 + source.lengthCode

/-- The codes have codewords for the symbol. -/
def Coded (codes : Codes) : Symbol → Prop
  | literal byte => codes.literals.Has byte.toNat
  | copy source =>
      codes.literals.Has (257 + source.lengthCode) ∧ codes.distances.Has source.distanceCode

/-- What follows the codeword of the symbol. -/
def argumentBits (codes : Codes) : Symbol → List Bool
  | literal _ => []
  | copy source =>
      lowBits (lengthExtraBits source.lengthCode) source.lengthExtra ++
        codes.distances.codeword source.distanceCode ++
        lowBits (distanceExtraBits source.distanceCode) source.distanceExtra

/-- The encoding of a symbol. -/
def bits (codes : Codes) (symbol : Symbol) : List Bool :=
  codes.literals.codeword symbol.number ++ symbol.argumentBits codes

/-- The history after a symbol. Nothing is copied from before the beginning. -/
def expand (history : List UInt8) : Symbol → Option (List UInt8)
  | literal byte => some (history ++ [byte])
  | copy source =>
      if source.distance ≤ history.length then
        some (repeatFrom source.distance source.length history)
      else none

end Symbol

/-- The encoding of symbols, up to the end of their block. -/
def symbolBits (codes : Codes) (symbols : List Symbol) : List Bool :=
  symbols.flatMap (·.bits codes) ++ codes.literals.codeword endOfBlock

/-- Part of the sizes of codewords. -/
inductive SizeRun where
  | size (count : Fin 16)
  /-- The last size again. -/
  | previous (extra : Fin 4)
  | zeros (extra : Fin 8)
  | manyZeros (extra : Fin 128)

namespace SizeRun

/-- The number of a run in the code for sizes. -/
def number : SizeRun → ℕ
  | size count => count
  | previous _ => 16
  | zeros _ => 17
  | manyZeros _ => 18

/-- What follows the codeword of the run. -/
def argumentBits : SizeRun → List Bool
  | size _ => []
  | previous extra => lowBits 2 extra
  | zeros extra => lowBits 3 extra
  | manyZeros extra => lowBits 7 extra

def bits (code : CanonicalCode 15) (run : SizeRun) : List Bool :=
  code.codeword run.number ++ run.argumentBits

/-- The sizes after the run. -/
def expand (sizes : List ℕ) : SizeRun → Option (List ℕ)
  | size count => some (sizes ++ [count.val])
  | previous extra => sizes.getLast?.map fun last => sizes ++ List.replicate (3 + extra) last
  | zeros extra => some (sizes ++ List.replicate (3 + extra) 0)
  | manyZeros extra => some (sizes ++ List.replicate (11 + extra) 0)

end SizeRun

/-- The order in which the sizes of the code for sizes are transmitted. -/
def transmissionOrder : List ℕ :=
  [16, 17, 18, 0, 8, 7, 9, 6, 10, 5, 11, 4, 12, 3, 13, 2, 14, 1, 15]

/-- The codes of a dynamic block, and how they are transmitted. -/
structure Header extends Codes where
  sizeCode : CanonicalCode 15
  sizeCode_length : sizeCode.sizes.length = 19
  sizeCode_lt : ∀ size ∈ sizeCode.sizes, size < 8
  /-- Less 4, how many sizes of the code for sizes are transmitted. -/
  transmitted : Fin 16
  rest_zero : ∀ symbol ∈ transmissionOrder.drop (transmitted + 4), sizeCode.size symbol = 0
  literals_length : 257 ≤ literals.sizes.length ∧ literals.sizes.length ≤ 288
  distances_length : 1 ≤ distances.sizes.length ∧ distances.sizes.length ≤ 32
  runs : List SizeRun
  runs_coded : ∀ run ∈ runs, sizeCode.Has run.number
  runs_expand : runs.foldlM SizeRun.expand [] = some (literals.sizes ++ distances.sizes)
  end_coded : literals.Has endOfBlock

/-- The encoding of the codes. -/
def Header.bits (header : Header) : List Bool :=
  lowBits 5 (header.literals.sizes.length - 257) ++
    lowBits 5 (header.distances.sizes.length - 1) ++
    lowBits 4 header.transmitted ++
    (transmissionOrder.take (header.transmitted + 4)).flatMap
      (fun symbol => lowBits 3 (header.sizeCode.size symbol)) ++
    header.runs.flatMap (·.bits header.sizeCode)

/-- The codes of a fixed block. -/
def fixedCodes : Codes where
  literals :=
    { sizes := List.replicate 144 8 ++ List.replicate 112 9 ++ List.replicate 24 7 ++
        List.replicate 8 8
      size_le := by decide +kernel
      accepted := .inl (by decide +kernel) }
  distances :=
    { sizes := List.replicate 32 5
      size_le := by decide +kernel
      accepted := .inl (by decide +kernel) }

inductive Block where
  | stored (skipped : ℕ) (bytes : List UInt8) (bytes_lt : bytes.length < 2 ^ 16)
  | fixed (symbols : List Symbol)
  | dynamic (header : Header) (symbols : List Symbol)
      (coded : ∀ symbol ∈ symbols, symbol.Coded header.toCodes)

namespace Block

def type : Block → ℕ
  | stored .. => 0
  | fixed .. => 1
  | dynamic .. => 2

/-- How many bits are skipped before the next byte begins. -/
def padding (offset : ℕ) : ℕ :=
  (8 - offset % 8) % 8

/-- The encoding of a block after its header, which ends at this offset. -/
def bodyBits (offset : ℕ) : Block → List Bool
  | stored skipped bytes _ =>
      lowBits (padding offset) skipped ++ lowBits 16 bytes.length ++
        lowBits 16 (65535 - bytes.length) ++ streamBits bytes
  | fixed symbols => symbolBits fixedCodes symbols
  | dynamic header symbols _ => header.bits ++ symbolBits header.toCodes symbols

/-- The encoding of a block at an offset. -/
def bits (final : Bool) (offset : ℕ) (block : Block) : List Bool :=
  lowBits 3 (final.toNat + 2 * block.type) ++ block.bodyBits (offset + 3)

/-- The history after a block. -/
def expand (history : List UInt8) : Block → Option (List UInt8)
  | stored _ bytes _ => some (history ++ bytes)
  | fixed symbols => symbols.foldlM Symbol.expand history
  | dynamic _ symbols _ => symbols.foldlM Symbol.expand history

end Block

/-- The encoding of blocks, of which the last one is final. -/
def blockBits : (offset : ℕ) → List Block → (last : Block) → List Bool
  | offset, [], last => last.bits true offset
  | offset, block :: blocks, last =>
      block.bits false offset ++ blockBits (offset + (block.bits false offset).length) blocks last

/-- A deflate stream. -/
structure Stream where
  blocks : List Block
  last : Block

namespace Stream

def bits (stream : Stream) : List Bool :=
  blockBits 0 stream.blocks stream.last

/-- The content, unless something is copied from before its beginning. -/
def content (stream : Stream) : Option (List UInt8) :=
  (stream.blocks ++ [stream.last]).foldlM Block.expand []

end Stream

section History

variable {history after : List UInt8}

theorem Symbol.isPrefix_expand {symbol : Symbol} (expanded : symbol.expand history = some after) :
    history <+: after := by
  cases symbol with
  | literal byte =>
      cases expanded
      exact List.prefix_append _ _
  | copy source =>
      rw [Symbol.expand] at expanded
      split at expanded
      · cases expanded
        exact isPrefix_repeatFrom
      · cases expanded

/-- What only adds to the history keeps it, and so does a sequence of such steps. -/
theorem isPrefix_foldlM {α : Type} {step : List UInt8 → α → Option (List UInt8)}
    (adds : ∀ history item after, step history item = some after → history <+: after)
    {items : List α} (expanded : items.foldlM step history = some after) : history <+: after := by
  induction items generalizing history with
  | nil =>
      cases expanded
      exact List.prefix_refl _
  | cons item items ih =>
      rw [List.foldlM_cons] at expanded
      cases first : step history item with
      | none => simp [first] at expanded
      | some middle =>
          rw [first] at expanded
          exact (adds history item middle first).trans (ih expanded)

theorem isPrefix_symbols {symbols : List Symbol}
    (expanded : symbols.foldlM Symbol.expand history = some after) : history <+: after :=
  isPrefix_foldlM (fun _ _ _ => Symbol.isPrefix_expand) expanded

theorem Block.isPrefix_expand {block : Block} (expanded : block.expand history = some after) :
    history <+: after := by
  cases block with
  | stored skipped bytes bytes_lt =>
      cases expanded
      exact List.prefix_append _ _
  | fixed symbols => exact isPrefix_symbols expanded
  | dynamic header symbols coded => exact isPrefix_symbols expanded

theorem isPrefix_blocks {blocks : List Block}
    (expanded : blocks.foldlM Block.expand history = some after) : history <+: after :=
  isPrefix_foldlM (fun _ _ _ => Block.isPrefix_expand) expanded

end History

/-- These bytes begin with a stream of the content. -/
def Encodes (bytes content : List UInt8) : Prop :=
  ∃ stream : Stream, stream.content = some content ∧ stream.bits <+: streamBits bytes

/-- Each content has a stream. -/
theorem exists_stream (content : List UInt8) :
    ∃ stream : Stream, stream.content = some content := by
  have general : ∀ count (content : List UInt8), content.length < 2 ^ 15 * (count + 1) →
      ∀ history, ∃ blocks last,
        (blocks ++ [last]).foldlM Block.expand history = some (history ++ content) := by
    intro count
    induction count with
    | zero =>
        intro content short history
        exact ⟨[], .stored 0 content (by omega), rfl⟩
    | succ count ih =>
        intro content short history
        have first : (content.take (2 ^ 15)).length < 2 ^ 16 := by
          rw [List.length_take]
          omega
        have rest : (content.drop (2 ^ 15)).length < 2 ^ 15 * (count + 1) := by
          rw [List.length_drop]
          omega
        rcases ih _ rest (history ++ content.take (2 ^ 15)) with ⟨blocks, last, expanded⟩
        refine ⟨.stored 0 (content.take (2 ^ 15)) first :: blocks, last, ?_⟩
        rw [List.append_assoc, List.take_append_drop] at expanded
        exact expanded
  rcases general content.length content (by omega) [] with ⟨blocks, last, expanded⟩
  exact ⟨⟨blocks, last⟩, expanded⟩

end Lucciefr.Deflate
