import Lucciefr.Gzip.RoundTrip
import Lucciefr.Tinfl.Stored
import Lucciefr.Tinfl.Symbols
import Lucciefr.Tinfl.Tables

/-!
# Delivery of the content

A call writes the content of a stream up to its end, or up to the end of the buffer; then
the next call continues. So the decompressor delivers the content of every stream, whatever
room its calls are given.
-/

namespace Lucciefr.Tinfl

open Deflate

variable {setting : Setting} {packed content history after : List UInt8} {left final n : ℕ}
  {input : Input} {bits rest : List Bool} {r : Machine}

section Blocks

/-- As many blocks come next, and complete the content. -/
inductive AtBlock (packed content : List UInt8) (input : Input) (history : List UInt8) :
    ℕ → Prop where
  | intro {offset : ℕ} {blocks : List Block} {last : Block}
      (reads : input.Reads packed offset (blockBits offset blocks last))
      (expanded : (blocks ++ [last]).foldlM Block.expand history = some content) :
      AtBlock packed content input history (blocks.length + 1)

/-- The first of the blocks. -/
theorem AtBlock.next (atBlock : AtBlock packed content input history left) :
    ∃ isFinal offset block later after fewer,
      input.Reads packed offset (Block.bits isFinal offset block ++ later) ∧
      Block.expand history block = some after ∧
      Later content fewer (isFinal.toNat + 2 * block.type)
        (offset + (block.bits isFinal offset).length) later after ∧ fewer < left := by
  rcases atBlock with ⟨reads, expanded⟩
  rename_i offset blocks last
  cases blocks with
  | nil =>
      refine ⟨true, offset, last, [], content, 0, ?_, ?_, .ended ?_, Nat.one_pos⟩
      · rw [List.append_nil]
        exact reads
      · simpa using expanded
      · have odd : (true.toNat + 2 * last.type) &&& (1 <<< 1 - 1) ≠ 0 := by
          rw [and_mask, Bool.toNat_true]
          omega
        exact odd
  | cons block blocks =>
      rw [List.cons_append, List.foldlM_cons] at expanded
      cases first : block.expand history with
      | none => simp [first] at expanded
      | some middle =>
          rw [first] at expanded
          refine ⟨false, offset, block, _, middle, blocks.length + 1, reads, first,
            .blocks ?_ expanded, Nat.lt_succ_self _⟩
          have even : (false.toNat + 2 * block.type) &&& (1 <<< 1 - 1) = 0 := by
            rw [and_mask, Bool.toNat_false]
            omega
          exact even

/-- A block is the last one, or others follow. -/
theorem endsHere_ends {fails : Stop → Machine → Prop}
    (ahead : Ahead packed content left r.final r.input [] r.outBuf) :
    Ends endsHere r
      (fun result reached => reached.outBuf = r.outBuf ∧
        match result with
        | some () => reached.outBuf = content
        | none => AtBlock packed content reached.input reached.outBuf left) fails := by
  rcases ahead with ⟨offset, later, reads, follows⟩
  rw [endsHere]
  apply Ends.get_bind
  generalize completes : r.outBuf = history at follows
  cases follows with
  | ended last =>
      rw [if_neg last]
      exact Ends.of_ok rfl ⟨completes, completes⟩
  | blocks more expanded =>
      rw [if_pos more]
      exact Ends.of_ok rfl ⟨completes, completes ▸ ⟨reads, expanded⟩⟩

theorem type_eq (isFinal : Bool) (block : Block) :
    (isFinal.toNat + 2 * block.type) >>> 1 = block.type := by
  have one_at_most := isFinal.toNat_le
  rw [Nat.shiftRight_eq_div_pow]
  omega

theorem fixed_coded (symbol : Symbol) : symbol.Coded fixedCodes := by
  have literals : ∀ number < 288, fixedCodes.literals.size number ≠ 0 := by decide +kernel
  have distances : ∀ number < 32, fixedCodes.distances.size number ≠ 0 := by decide +kernel
  cases symbol with
  | literal byte => exact literals _ (Nat.lt_trans byte.toNat_lt (by decide))
  | copy source =>
      have lengthCode_lt := source.lengthCode.isLt
      have distanceCode_lt := source.distanceCode.isLt
      exact ⟨literals _ (by omega), distances _ (by omega)⟩

/-- The symbols of a block, after its tables were built. -/
theorem codedSymbols_ends {codes : Codes} {list : List Symbol} (r : Machine)
    (inside : r.outBuf.length ≤ setting.outEnd) (coding : Coding codes r.tables)
    (coded : ∀ symbol ∈ list, symbol.Coded codes)
    (expanded : list.foldlM Symbol.expand r.outBuf = some after)
    (ahead : Ahead packed content left r.final r.input (symbolBits codes list) after) :
    Ends (symbols setting) r
      (fun _ reached => Ahead packed content left reached.final reached.input [] reached.outBuf ∧
        reached.outBuf.length ≤ setting.outEnd)
      (Stopped setting packed content) :=
  symbols_ends inside ⟨codes, list, after, coding, coded, expanded, ahead⟩

/-- A block is written up to its end, or up to the end of the buffer. -/
theorem block_ends (inside : r.outBuf.length ≤ setting.outEnd)
    (atBlock : AtBlock packed content r.input r.outBuf left) :
    Ends (block setting) r
      (fun result reached => reached.outBuf.length ≤ setting.outEnd ∧
        match result with
        | some () => reached.outBuf = content
        | none => ∃ fewer < left, AtBlock packed content reached.input reached.outBuf fewer)
      (Stopped setting packed content) := by
  rcases atBlock.next with
    ⟨isFinal, offset, block, later, after, fewer, reads, expanded, follows, less⟩
  have last : ∀ reached : Machine, reached.outBuf.length ≤ setting.outEnd →
      Ahead packed content fewer reached.final reached.input [] reached.outBuf →
      Ends endsHere reached (fun result reached => reached.outBuf.length ≤ setting.outEnd ∧
        match result with
        | some () => reached.outBuf = content
        | none => ∃ fewer < left, AtBlock packed content reached.input reached.outBuf fewer)
      (Stopped setting packed content) := by
    intro reached within ahead
    apply (endsHere_ends ahead).weaken
    rintro result ended ⟨same, ending⟩
    refine ⟨same ▸ within, ?_⟩
    cases result with
    | some _ => exact ending
    | none => exact ⟨fewer, less, ending⟩
  have small : isFinal.toNat + 2 * block.type < 2 ^ 3 := by
    have one_at_most := isFinal.toNat_le
    cases block <;> simp only [Block.type] <;> omega
  rw [Block.bits, List.length_append, length_lowBits, ← Nat.add_assoc] at follows
  rw [Block.bits, List.append_assoc] at reads
  rcases reads.getBits setting.build (by decide) small with ⟨next, header_read, reads⟩
  rw [Tinfl.block]
  apply Ends.bind_of_ok (onInput_eq header_read)
  apply Ends.modify_bind
  simp only [type_eq]
  cases block with
  | stored skipped bytes bytes_lt =>
      cases expanded
      rw [Block.bodyBits] at reads follows
      simp only [List.append_assoc] at reads
      rcases storedHeader_eq { r with input := next, final := isFinal.toNat + 2 * 0 } setting
        bytes_lt reads with ⟨body, read, reads⟩
      simp only [Block.type, if_true]
      apply Ends.bind_of_ok read
      simp only [List.length_append, length_lowBits, ← Nat.add_assoc] at follows
      apply (storedBits_ends { r with
        input := body, final := isFinal.toNat + 2 * 0, counter := bytes.length } inside
          ⟨bytes, rfl, _, later, reads, follows⟩).bind
      rintro _ middle ⟨empty, within, stored⟩
      apply (storedBytes_ends within empty stored).bind
      rintro _ reached ⟨ahead, within⟩
      exact last reached within ahead
  | fixed symbols =>
      rw [Block.bodyBits] at reads follows
      have ahead : Ahead packed content fewer (isFinal.toNat + 2 * 1) next
          (symbolBits fixedCodes symbols) after := ⟨_, later, reads, follows⟩
      rcases fixedTables_eq { r with input := next, final := isFinal.toNat + 2 * 1 } with
        ⟨tables, tables_eq, coding⟩
      simp only [Block.type, one_ne_zero, if_false, if_true]
      apply Ends.bind_of_ok tables_eq
      apply (codedSymbols_ends { r with
        input := next, final := isFinal.toNat + 2 * 1, tables := tables } inside coding
          (fun symbol _ => fixed_coded symbol) expanded ahead).bind
      rintro _ reached ⟨ahead, within⟩
      exact last reached within ahead
  | dynamic header symbols coded =>
      rw [Block.bodyBits] at reads follows
      have ahead : Ahead packed content fewer (isFinal.toNat + 2 * 2) next
          (header.bits ++ symbolBits header.toCodes symbols) after := ⟨_, later, reads, follows⟩
      simp only [Block.type, OfNat.ofNat_ne_zero, if_false]
      apply (dynamicTables_ends { r with input := next, final := isFinal.toNat + 2 * 2 } header
        ahead).bind
      rintro _ middle ⟨coding, same, ahead⟩
      apply (codedSymbols_ends middle (same ▸ inside) coding coded (same ▸ expanded) ahead).bind
      rintro _ reached ⟨ahead, within⟩
      exact last reached within ahead

theorem length_blockBits {offset : ℕ} {blocks : List Block} {last : Block} :
    3 * (blocks.length + 1) ≤ (blockBits offset blocks last).length := by
  induction blocks generalizing offset with
  | nil => simp [blockBits, Block.bits]
  | cons block blocks ih =>
      rw [blockBits, List.length_append, List.length_cons]
      have first : 3 ≤ (block.bits false offset).length := by simp [Block.bits]
      have others : 3 * (blocks.length + 1) ≤
          (blockBits (offset + (block.bits false offset).length) blocks last).length := ih
      omega

/-- The blocks of a stream are written, up to the end of the buffer. -/
theorem blocks_ends (inside : r.outBuf.length ≤ setting.outEnd)
    (atBlock : AtBlock packed content r.input r.outBuf left) :
    Ends (blocks setting) r
      (fun _ reached => reached.outBuf = content ∧ reached.outBuf.length ≤ setting.outEnd)
      (Stopped setting packed content) := by
  have enough : left < 8 * r.input.inBuf.length + r.input.numBits + 2 := by
    rcases atBlock with ⟨reads, _⟩
    have length_le := reads.begins.length_le
    have blocks_le := length_blockBits.trans length_le
    rw [List.length_append, length_lowBits, length_streamBits] at blocks_le
    omega
  rw [blocks]
  apply Ends.get_bind
  apply Ends.loop (fun left (reached : Machine) => reached.outBuf.length ≤ setting.outEnd ∧
    AtBlock packed content reached.input reached.outBuf left) _ enough ⟨inside, atBlock⟩
  rintro left state ⟨within, atBlock⟩
  apply (block_ends within atBlock).weaken
  intro result reached ended
  cases result with
  | some _ => exact ⟨ended.2, ended.1⟩
  | none =>
      rcases ended with ⟨within, fewer, less, atBlock⟩
      exact ⟨fewer, less, within, atBlock⟩

/-- The end of a stream without a zlib header. -/
theorem finish_ends {returns : Unit → Machine → Prop} (raw : setting.parseZlibHeader = false)
    (completes : r.outBuf = content) (inside : r.outBuf.length ≤ setting.outEnd) :
    Ends (finish setting) r returns (Stopped setting packed content) := by
  rw [finish, raw]
  exact Ends.of_error crReturn_eq ⟨completes, inside, rfl⟩

/-- What follows a block. -/
theorem afterBlock_ends {returns : Unit → Machine → Prop} (raw : setting.parseZlibHeader = false)
    (inside : r.outBuf.length ≤ setting.outEnd)
    (ahead : Ahead packed content left r.final r.input [] r.outBuf) :
    Ends (do laterBlocks setting; finish setting) r returns (Stopped setting packed content) := by
  have later : Ends (laterBlocks setting) r
      (fun _ reached => reached.outBuf = content ∧ reached.outBuf.length ≤ setting.outEnd)
      (Stopped setting packed content) := by
    rw [laterBlocks]
    apply (endsHere_ends ahead).bind
    rintro result reached ⟨same, ending⟩
    have within : reached.outBuf.length ≤ setting.outEnd := same ▸ inside
    cases result with
    | some _ => exact Ends.of_ok rfl ⟨ending, within⟩
    | none => exact blocks_ends within ending
  apply later.bind
  rintro _ reached ⟨completes, within⟩
  exact finish_ends raw completes within

end Blocks

section Calls

/-- A call continues where the last one was left. -/
theorem resume_ends {returns : Unit → Machine → Prop} (raw : setting.parseZlibHeader = false)
    (inside : r.outBuf.length ≤ setting.outEnd) (suspended : Suspended packed content r) :
    Ends (resume setting r.state) r returns (Stopped setting packed content) := by
  cases suspended with
  | storedByte byte count state dist counter stored =>
      rw [state, resume]
      apply (putStoredByte_ends r inside dist counter stored).bind
      rintro _ written ⟨rfl, within, stored⟩
      apply (storedBits_ends written within stored).bind
      rintro _ middle ⟨empty, within, stored⟩
      apply (storedBytes_ends within empty stored).bind
      rintro _ reached ⟨ahead, within⟩
      exact afterBlock_ends raw within ahead
  | storedBytes state counter empty stored =>
      rw [state, resume]
      apply (storedBytes_ends inside (fun _ => empty) stored).bind
      rintro _ reached ⟨ahead, within⟩
      exact afterBlock_ends raw within ahead
  | literal byte state counter symbols =>
      rw [state, resume]
      apply (putLiteral_ends r inside counter symbols).bind
      rintro _ written ⟨symbols, _, within⟩
      apply (symbols_ends within symbols).bind
      rintro _ reached ⟨ahead, within⟩
      exact afterBlock_ends raw within ahead
  | matchByte state positive near source symbols =>
      rw [state, resume]
      apply (putMatchByte_ends r inside positive near source symbols).bind
      rintro _ written ⟨room, rfl⟩
      have length_eq : (repeatFrom r.dist 1 r.outBuf).length = r.outBuf.length + 1 :=
        length_repeatFrom
      rw [Nat.add_comm, repeatFrom_add] at symbols
      apply (putMatch_ends { r with
        outBuf := repeatFrom r.dist 1 r.outBuf
        distFromOutBufStart := r.distFromOutBufStart + 1 }
          (by simp only [length_eq]; omega) positive
          (by simp only [length_eq]; omega) (by simp only [length_eq, source]) symbols).bind
      rintro _ middle ⟨_, within, symbols⟩
      apply (symbols_ends within symbols).bind
      rintro _ reached ⟨ahead, within⟩
      exact afterBlock_ends raw within ahead

/-- The first call begins with the stream. -/
theorem start_ends {returns : Unit → Machine → Prop} (r : Machine)
    (raw : setting.parseZlibHeader = false)
    (empty : r.outBuf = []) (state : r.state = 0) (encodes : Encodes r.input.inBuf content) :
    Ends (resume setting r.state) r returns (Stopped setting r.input.inBuf content) := by
  rcases encodes with ⟨stream, expanded, begins⟩
  rw [state, resume]
  have started : start setting r = .ok () { r with
      input := { r.input with bitBuf := 0, numBits := 0 }
      dist := 0, counter := 0, zAdler32 := 1, checkAdler32 := 1 } := by
    rw [start, bind_of_ok modify_eq_ok, raw]
    rfl
  apply Ends.bind_of_ok started
  have reads : Input.Reads { r.input with bitBuf := 0, numBits := 0 } r.input.inBuf 0
      (blockBits 0 stream.blocks stream.last) :=
    ⟨begins, Nat.one_pos, rfl, List.suffix_refl _⟩
  apply (blocks_ends (by simp only [empty, List.length_nil]; exact Nat.zero_le _)
    (.intro reads (empty ▸ expanded))).bind
  rintro _ reached ⟨completes, within⟩
  exact finish_ends raw completes within

theorem Ahead.anchored (ahead : Ahead packed content left final input bits history) :
    Ahead input.inBuf content left final input bits history := by
  rcases ahead with ⟨offset, later, reads, follows⟩
  exact ⟨offset, later, ⟨reads.begins, reads.below, reads.aligned, List.suffix_refl _⟩, follows⟩

theorem InSymbols.anchored {tables : Fin 3 → HuffTable}
    (symbols : InSymbols packed content left final tables input history) :
    InSymbols input.inBuf content left final tables input history := by
  rcases symbols with ⟨codes, symbols, after, coding, coded, expanded, ahead⟩
  exact ⟨codes, symbols, after, coding, coded, expanded, ahead.anchored⟩

theorem InStored.anchored (stored : InStored packed content left final n input history) :
    InStored input.inBuf content left final n input history := by
  rcases stored with ⟨bytes, length_eq, ahead⟩
  exact ⟨bytes, length_eq, ahead.anchored⟩

/-- What is left of the input stands for the whole of it. -/
theorem Suspended.anchored (suspended : Suspended packed content r) :
    Suspended r.input.inBuf content r := by
  cases suspended with
  | storedByte byte count state dist counter stored =>
      exact .storedByte byte count state dist counter stored.anchored
  | storedBytes state counter empty stored => exact .storedBytes state counter empty stored.anchored
  | literal byte state counter symbols => exact .literal byte state counter symbols.anchored
  | matchByte state positive near source symbols =>
      exact .matchByte state positive near source symbols.anchored

theorem Suspended.suffix (suspended : Suspended packed content r) :
    r.input.inBuf <:+ packed := by
  have ofAhead : ∀ {left final bits history}, Ahead packed content left final r.input bits history →
      r.input.inBuf <:+ packed := by
    rintro left final bits history ⟨_, _, reads, _⟩
    exact reads.left
  cases suspended with
  | storedByte _ _ _ _ _ stored =>
      rcases stored with ⟨_, _, ahead⟩
      exact ofAhead ahead
  | storedBytes _ _ _ stored =>
      rcases stored with ⟨_, _, ahead⟩
      exact ofAhead ahead
  | literal _ _ _ symbols =>
      rcases symbols with ⟨_, _, _, _, _, _, ahead⟩
      exact ofAhead ahead
  | matchByte _ _ _ _ symbols =>
      rcases symbols with ⟨_, _, _, _, _, _, ahead⟩
      exact ofAhead ahead

/-- The decompressor is in its first state, or it was left in the middle of the stream. -/
inductive Resumable (content : List UInt8) (decomp : Decompressor) (inBuf written : List UInt8) :
    Prop where
  | fresh (state : decomp.state = 0) (empty : written = []) (encodes : Encodes inBuf content)
  | suspended (suspended : Suspended inBuf content
      { decomp with input := ⟨decomp.bitBuf, decomp.numBits, inBuf⟩, outBuf := written })

theorem Resumable.isPrefix {decomp : Decompressor} {inBuf written : List UInt8}
    (resumable : Resumable content decomp inBuf written) : written <+: content := by
  cases resumable with
  | fresh _ empty _ =>
      rw [empty]
      exact List.nil_prefix
  | suspended suspended => exact suspended.isPrefix.1

/-- A call which can be resumed ends as it should. -/
theorem run_of_resumable (setting : Setting) {decomp : Decompressor} {inBuf written : List UInt8}
    (raw : setting.parseZlibHeader = false) (inside : written.length ≤ setting.outEnd)
    (resumable : Resumable content decomp inBuf written) :
    ∃ status reached, run setting decomp inBuf written = .ok (status, reached) ∧
      Stopped setting inBuf content (.status status) reached := by
  have ends : Ends (resume setting decomp.state)
      { decomp with input := ⟨decomp.bitBuf, decomp.numBits, inBuf⟩, outBuf := written }
      (fun _ _ => False) (Stopped setting inBuf content) := by
    cases resumable with
    | fresh state empty encodes =>
        exact start_ends
          { decomp with input := ⟨decomp.bitBuf, decomp.numBits, inBuf⟩, outBuf := written } raw
          empty state encodes
    | suspended suspended => exact resume_ends raw inside suspended
  rw [Ends] at ends
  rw [run]
  split at ends
  · exact ends.elim
  · next failure reached ran =>
      simp only [ran]
      cases failure with
      | status status => exact ⟨status, reached, rfl, ends⟩
      | fault fault => exact ends.elim

end Calls

section Decoder

open Gzip (decompFlags)

variable {build : Build} {unaligned : Bool} {decomp first : Decompressor}
  {undefined : DecoderCall Decompressor UInt8 Gzip.TinflStatus} {inBuf written : List UInt8}

theorem tinflDecompress_eq (first : Decompressor) {outBufSize : ℕ} {status : Gzip.TinflStatus}
    {reached : Machine}
    (ran : run ⟨build, unaligned, false, written.length + outBufSize⟩ decomp inBuf written =
      .ok (status, reached)) :
    (tinfl build unaligned first undefined).decompress decomp inBuf written outBufSize
        (decompFlags 0) =
      ⟨{ reached.toRegisters with
          numBits := reached.input.numBits, bitBuf := reached.input.bitBuf },
        inBuf.length - reached.input.inBuf.length, reached.outBuf.drop written.length, status⟩ := by
  have raw : (decompFlags 0).getLsbD 0 = false := by decide
  have unchecked : (decompFlags 0).getLsbD 3 = false := by decide
  simp only [tinfl, tinflDecompress, raw, unchecked, ran, ok_bind]
  rfl

theorem delivers_of_resumable {calls : ℕ} (resumable : Resumable content decomp inBuf written) :
    ((tinfl build unaligned first undefined).decoder (decompFlags 0)).Delivers calls decomp inBuf
      written (content.drop written.length) := by
  induction calls generalizing decomp inBuf written with
  | zero => trivial
  | succ calls ih =>
      intro room
      have length_le := resumable.isPrefix.length_le
      rcases run_of_resumable ⟨build, unaligned, false, written.length + room⟩ rfl
        (Nat.le_add_right _ _) resumable with ⟨status, reached, ran, stopped⟩
      have called : ((tinfl build unaligned first undefined).decoder (decompFlags 0)).call decomp
          inBuf written room = _ := tinflDecompress_eq first ran
      rw [called]
      cases status with
      | done =>
          rcases stopped with ⟨completes, fits, _⟩
          have short : (content.drop written.length).length ≤ room := by
            have enough : content.length ≤ written.length + room := completes ▸ fits
            rw [List.length_drop]
            omega
          refine ⟨?_, ?_⟩
          · rw [List.take_of_length_le short, completes]
          · rw [if_pos short]
            rfl
      | hasMoreOutput =>
          rcases stopped with ⟨full, suspended⟩
          rcases suspended.isPrefix with ⟨begins, shorter⟩
          simp only at full
          have long : ¬(content.drop written.length).length ≤ room := by
            rw [List.length_drop]
            omega
          have outBuf_eq : reached.outBuf = content.take (written.length + room) :=
            full ▸ List.prefix_iff_eq_take.mp begins
          have output_eq : reached.outBuf.drop written.length =
              (content.drop written.length).take room := by
            rw [outBuf_eq, List.drop_take, Nat.add_sub_cancel_left]
          have writtenNext : written ++ (content.drop written.length).take room =
              reached.outBuf := by
            rw [outBuf_eq, List.take_add, ← List.prefix_iff_eq_take.mp resumable.isPrefix]
          have inputNext : inBuf.drop (inBuf.length - reached.input.inBuf.length) =
              reached.input.inBuf := (List.suffix_iff_eq_drop.mp suspended.suffix).symm
          refine ⟨output_eq, ?_⟩
          rw [if_neg long]
          refine ⟨rfl, ?_⟩
          have resumed : Resumable content
              { reached.toRegisters with
                numBits := reached.input.numBits, bitBuf := reached.input.bitBuf }
              reached.input.inBuf reached.outBuf := .suspended suspended.anchored
          have next := ih resumed
          rw [← full, ← List.drop_drop] at next
          simp only [writtenNext, inputNext]
          exact next
      | badParam => exact stopped.elim
      | adler32Mismatch => exact stopped.elim
      | failed => exact stopped.elim
      | needsMoreInput => exact stopped.elim

end Decoder

end Lucciefr.Tinfl
