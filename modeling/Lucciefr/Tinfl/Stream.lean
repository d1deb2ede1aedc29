import Lucciefr.Base.Deflate
import Lucciefr.Base.Outcome
import Lucciefr.Tinfl.Huffman

/-!
# Positions in a stream

What the decompressor has still to read and to write, at the places of the coroutine. The
bits which come next are the encoding of the rest of a block, and then of the later blocks;
what these add to the history completes the content of the stream.

The decompressor is left when the output buffer is full. Then the state in which it is left
and its members determine the rest of the content.
-/

namespace Lucciefr.Tinfl

open Deflate

/-- What follows a block, and completes the content: as many blocks are left. -/
inductive Later (content : List UInt8) : (left final offset : ℕ) → List Bool →
    (history : List UInt8) → Prop where
  | ended {final offset : ℕ} (last : final &&& 1 ≠ 0) : Later content 0 final offset [] content
  | blocks {final offset : ℕ} {blocks : List Block} {last : Block} {history : List UInt8}
      (more : final &&& 1 = 0)
      (expanded : (blocks ++ [last]).foldlM Block.expand history = some content) :
      Later content (blocks.length + 1) final offset (blockBits offset blocks last) history

/-- These bits come next, and what follows them completes the history to the content. -/
def Ahead (packed content : List UInt8) (left final : ℕ) (input : Input) (bits : List Bool)
    (history : List UInt8) : Prop :=
  ∃ offset later, input.Reads packed offset (bits ++ later) ∧
    Later content left final (offset + bits.length) later history

/-- The tables of the codes of a block. -/
structure Coding (codes : Codes) (tables : Fin 3 → HuffTable) : Prop where
  literals : (tables 0).Holds codes.literals
  distances : (tables 1).Holds codes.distances
  literals_length : codes.literals.sizes.length ≤ 288
  distances_length : codes.distances.sizes.length ≤ 288
  ended : codes.literals.Has endOfBlock

/-- Symbols of a block come next. -/
def InSymbols (packed content : List UInt8) (left final : ℕ) (tables : Fin 3 → HuffTable)
    (input : Input) (history : List UInt8) : Prop :=
  ∃ codes symbols after, Coding codes tables ∧ (∀ symbol ∈ symbols, symbol.Coded codes) ∧
    symbols.foldlM Symbol.expand history = some after ∧
    Ahead packed content left final input (symbolBits codes symbols) after

/-- Bytes of a stored block come next. -/
def InStored (packed content : List UInt8) (left final count : ℕ) (input : Input)
    (history : List UInt8) : Prop :=
  ∃ bytes, bytes.length = count ∧
    Ahead packed content left final input (streamBits bytes) (history ++ bytes)

/-- The decompressor was left before it wrote the next byte of the content. -/
inductive Suspended (packed content : List UInt8) (r : Machine) : Prop where
  | storedByte {left : ℕ} (byte : UInt8) (count : ℕ) (state : r.state = 52)
      (dist : r.dist = byte.toNat)
      (counter : r.counter = count + 1)
      (stored : InStored packed content left r.final count r.input (r.outBuf ++ [byte]))
  | storedBytes {left : ℕ} (state : r.state = 9) (counter : r.counter ≠ 0)
      (empty : r.input.numBits = 0)
      (stored : InStored packed content left r.final r.counter r.input r.outBuf)
  | literal {left : ℕ} (byte : UInt8) (state : r.state = 24) (counter : r.counter = byte.toNat)
      (symbols : InSymbols packed content left r.final r.tables r.input (r.outBuf ++ [byte]))
  | matchByte {left : ℕ} (state : r.state = 53) (positive : 0 < r.dist)
      (inside : r.dist ≤ r.outBuf.length)
      (source : r.distFromOutBufStart = r.outBuf.length)
      (symbols : InSymbols packed content left r.final r.tables r.input
        (repeatFrom r.dist (r.counter + 1) r.outBuf))

/-- How a call ends which decompresses this content. -/
def Stopped (setting : Setting) (packed content : List UInt8) (stop : Stop) (r : Machine) : Prop :=
  match stop with
  | .status .hasMoreOutput => setting.outEnd = r.outBuf.length ∧ Suspended packed content r
  | .status .done => r.outBuf = content ∧ r.outBuf.length ≤ setting.outEnd ∧ r.state = 34
  | _ => False

variable {setting : Setting} {packed content history after : List UInt8} {left final n value : ℕ}
  {tables : Fin 3 → HuffTable} {input : Input} {bits rest : List Bool} {r : Machine}

theorem Later.isPrefix {offset : ℕ} {bits : List Bool}
    (later : Later content left final offset bits history) :
    history <+: content := by
  cases later with
  | ended _ => exact List.prefix_refl _
  | blocks _ expanded => exact isPrefix_blocks expanded

theorem Ahead.isPrefix (ahead : Ahead packed content left final input bits history) :
    history <+: content := by
  rcases ahead with ⟨offset, later, _, follows⟩
  exact follows.isPrefix

theorem InSymbols.isPrefix (symbols : InSymbols packed content left final tables input history) :
    history <+: content := by
  rcases symbols with ⟨codes, symbols, after, _, _, expanded, ahead⟩
  exact (isPrefix_symbols expanded).trans ahead.isPrefix

theorem InStored.isPrefix {count : ℕ}
    (stored : InStored packed content left final count input history) :
    history <+: content := by
  rcases stored with ⟨bytes, _, ahead⟩
  exact (List.prefix_append _ _).trans ahead.isPrefix

/-- What was written is a proper part of the content. -/
theorem Suspended.isPrefix (suspended : Suspended packed content r) :
    r.outBuf <+: content ∧ r.outBuf.length < content.length := by
  have longer : ∀ {byte : UInt8}, r.outBuf ++ [byte] <+: content →
      r.outBuf <+: content ∧ r.outBuf.length < content.length := by
    intro byte begins
    have length_le := begins.length_le
    rw [List.length_append, List.length_singleton] at length_le
    exact ⟨(List.prefix_append _ _).trans begins, by omega⟩
  cases suspended with
  | storedByte byte count _ _ _ stored => exact longer stored.isPrefix
  | literal byte _ _ symbols => exact longer symbols.isPrefix
  | storedBytes _ counter _ stored =>
      rcases stored with ⟨bytes, length_eq, ahead⟩
      have length_le := ahead.isPrefix.length_le
      rw [List.length_append, length_eq] at length_le
      exact ⟨(List.prefix_append _ _).trans ahead.isPrefix, by omega⟩
  | matchByte _ _ _ _ symbols =>
      have length_le := symbols.isPrefix.length_le
      rw [length_repeatFrom] at length_le
      exact ⟨isPrefix_repeatFrom.trans symbols.isPrefix, by omega⟩

section Input

/-- The bit buffer is filled, which changes nothing of what is read. -/
theorem Ahead.refill {filled : Input} (ahead : Ahead packed content left final input bits after)
    (kept : ∀ packed offset bits, input.Reads packed offset bits →
      filled.Reads packed offset bits) :
    Ahead packed content left final filled bits after := by
  rcases ahead with ⟨offset, later, reads, follows⟩
  exact ⟨offset, later, kept _ _ _ reads, follows⟩

theorem Ahead.split {first : List Bool}
    (ahead : Ahead packed content left final input (first ++ rest) after) :
    ∃ offset later, input.Reads packed offset (first ++ (rest ++ later)) ∧
      Later content left final (offset + first.length + rest.length) later after := by
  rcases ahead with ⟨offset, later, reads, follows⟩
  rw [List.length_append, ← Nat.add_assoc] at follows
  rw [List.append_assoc] at reads
  exact ⟨offset, later, reads, follows⟩

theorem Ahead.getBits (build : Build)
    (ahead : Ahead packed content left final input (lowBits n value ++ rest) after)
    (small : n ≤ 16) (below : value < 2 ^ n) :
    ∃ next, input.getBits build n = .ok (value, next) ∧
      Ahead packed content left final next rest after := by
  rcases ahead.split with ⟨offset, later, reads, follows⟩
  rcases reads.getBits build small below with ⟨next, returned, nextReads⟩
  rw [length_lowBits] at follows
  exact ⟨next, returned, _, later, nextReads, follows⟩

theorem Ahead.decode {code : CanonicalCode 15} {table : HuffTable} {symbol : ℕ} (build : Build)
    (ahead : Ahead packed content left final input (code.codeword symbol ++ rest) after)
    (holds : table.Holds code) (has : code.Has symbol) (few : code.sizes.length ≤ 288) :
    ∃ next, table.decode build input = .ok (symbol, next) ∧
      Ahead packed content left final next rest after := by
  have below := CanonicalCode.lt_length_of_has has
  rcases ahead.split with ⟨offset, later, reads, follows⟩
  rcases holds.decode build has (by omega) few reads with
    ⟨next, returned, nextReads⟩
  rw [CanonicalCode.length_codeword] at follows
  exact ⟨next, returned, _, later, nextReads, follows⟩

end Input

section Machine

/-- A change of the input. -/
theorem onInput_eq {α : Type} {operation : Input → Except Fault (α × Input)} {result : α}
    {next : Input} (returned : operation r.input = .ok (result, next)) :
    onInput operation r = .ok result { r with input := next } := by
  rw [onInput, get_bind, returned]
  rfl

theorem crReturn_eq {α : Type} {stateIndex : ℕ} {result : Gzip.TinflStatus} :
    (crReturn stateIndex result : Inflate α) r =
      .error (.status result) { r with state := stateIndex } := rfl

/-- Where a byte of the content would be written, the decompressor is left if the buffer is
full. -/
theorem needRoom_bind {α : Type} {stateIndex : ℕ} {next : Unit → Inflate α}
    {returns : α → Machine → Prop} (inside : r.outBuf.length ≤ setting.outEnd)
    (suspended : Suspended packed content { r with state := stateIndex })
    (continues : r.outBuf.length < setting.outEnd →
      Ends (next ()) r returns (Stopped setting packed content)) :
    Ends (needRoom setting stateIndex >>= next) r returns (Stopped setting packed content) := by
  rcases Nat.lt_or_ge r.outBuf.length setting.outEnd with room | full
  · apply Ends.bind_of_ok _ (continues room)
    rw [needRoom, get_bind, if_neg (Nat.not_le.mpr room)]
    rfl
  · apply Ends.of_error
    · apply bind_of_error
      rw [needRoom, get_bind, if_pos full, crReturn_eq]
    · exact ⟨Nat.le_antisymm full inside, suspended⟩

end Machine

end Lucciefr.Tinfl
