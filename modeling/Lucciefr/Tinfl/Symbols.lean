import Lucciefr.Tinfl.Copies
import Lucciefr.Tinfl.Stream

/-!
# The symbols of a block

A turn of the loop over the symbols writes at least one byte, or it comes to the end of the
block. Literals are decoded two at a time while there is enough input and output; that needs
no more bits than the bit buffer was filled with.
-/

namespace Lucciefr.Tinfl

open Deflate

variable {setting : Setting} {packed content history after : List UInt8}
  {left final number count : ℕ}
  {tables : Fin 3 → HuffTable} {input filled : Input} {bits rest : List Bool} {r : Machine}

section Matches

/-- The next byte of a match is written, if there is room. -/
theorem putMatchByte_ends (r : Machine) (inside : r.outBuf.length ≤ setting.outEnd)
    (positive : 0 < r.dist)
    (near : r.dist ≤ r.outBuf.length) (source : r.distFromOutBufStart = r.outBuf.length)
    (symbols : InSymbols packed content left r.final r.tables r.input
      (repeatFrom r.dist (r.counter + 1) r.outBuf)) :
    Ends (putMatchByte setting) r
      (fun _ reached => r.outBuf.length < setting.outEnd ∧
        reached = { r with
          outBuf := repeatFrom r.dist 1 r.outBuf
          distFromOutBufStart := r.distFromOutBufStart + 1 })
      (Stopped setting packed content) := by
  apply needRoom_bind inside (.matchByte rfl positive near source symbols)
  intro room
  have behind : Behind r r.dist (r.distFromOutBufStart - r.dist) :=
    ⟨positive, near, by rw [source]⟩
  apply Ends.get_bind
  apply Ends.bind_of_ok (copyByte_eq behind room)
  exact Ends.of_ok rfl ⟨room, rfl⟩

/-- A match before which there is not enough room is written byte by byte. -/
theorem putMatch_ends (r : Machine) (inside : r.outBuf.length ≤ setting.outEnd)
    (positive : 0 < r.dist)
    (near : r.dist ≤ r.outBuf.length) (source : r.distFromOutBufStart = r.outBuf.length)
    (symbols : InSymbols packed content left r.final r.tables r.input
      (repeatFrom r.dist r.counter r.outBuf)) :
    Ends (putMatch setting) r
      (fun _ reached => reached.outBuf.length = r.outBuf.length + r.counter ∧
        reached.outBuf.length ≤ setting.outEnd ∧
        InSymbols packed content left reached.final reached.tables reached.input reached.outBuf)
      (Stopped setting packed content) := by
  rw [putMatch]
  apply Ends.get_bind
  apply Ends.loop (fun count (reached : Machine) => reached.counter = count ∧
    reached.outBuf.length + count = r.outBuf.length + r.counter ∧
    reached.outBuf.length ≤ setting.outEnd ∧ 0 < reached.dist ∧
    reached.dist ≤ reached.outBuf.length ∧
    reached.distFromOutBufStart = reached.outBuf.length ∧
    InSymbols packed content left reached.final reached.tables reached.input
      (repeatFrom reached.dist count reached.outBuf)) _ (Nat.lt_succ_self r.counter)
    ⟨rfl, rfl, inside, positive, near, source, symbols⟩
  rintro count state ⟨rfl, total, inside, positive, near, source, symbols⟩
  apply Ends.get_bind
  cases counter : state.counter with
  | zero =>
      rw [counter] at total symbols
      rw [if_pos rfl]
      exact .of_ok rfl ⟨total, inside, symbols⟩
  | succ count =>
      rw [counter] at total symbols
      rw [if_neg (Nat.succ_ne_zero count)]
      apply Ends.modify_bind
      simp only [counter, Nat.add_sub_cancel]
      apply (putMatchByte_ends { state with counter := count } inside positive near source
        symbols).bind
      rintro _ _ ⟨room, rfl⟩
      simp only at room
      apply Ends.of_ok rfl
      have length_eq : (repeatFrom state.dist 1 state.outBuf).length = state.outBuf.length + 1 :=
        length_repeatFrom
      refine ⟨count, Nat.lt_succ_self count, rfl, ?_, ?_, positive, ?_, ?_, ?_⟩
      · simp only [length_eq]
        omega
      · simp only [length_eq]
        omega
      · simp only [length_eq]
        omega
      · simp only [length_eq, source]
      · simp only
        rw [← repeatFrom_add, Nat.add_comm]
        exact symbols

/-- A match is copied, whether it fits or not. -/
theorem copyMatch_ends (r : Machine) (inside : r.outBuf.length ≤ setting.outEnd)
    (positive : 0 < r.dist)
    (near : r.dist ≤ r.outBuf.length) (some_turn : 3 ≤ r.counter)
    (symbols : InSymbols packed content left r.final r.tables r.input
      (repeatFrom r.dist r.counter r.outBuf)) :
    Ends (copyMatch setting) r
      (fun _ reached => reached.outBuf.length = r.outBuf.length + r.counter ∧
        reached.outBuf.length ≤ setting.outEnd ∧
        InSymbols packed content left reached.final reached.tables reached.input reached.outBuf)
      (Stopped setting packed content) := by
  by_cases fits : r.outBuf.length + r.counter ≤ setting.outEnd
  · apply Ends.of_ok (copyMatch_of_fits positive near some_turn fits)
    refine ⟨length_repeatFrom, ?_, symbols⟩
    simp only [length_repeatFrom]
    exact fits
  · have room : max r.outBuf.length (r.outBuf.length - r.dist) = r.outBuf.length :=
      Nat.max_eq_left (Nat.sub_le _ _)
    rw [copyMatch]
    apply Ends.modify_bind
    apply Ends.get_bind
    rw [if_neg (Nat.not_lt.mpr near)]
    simp only [room]
    rw [if_pos (Nat.not_le.mp fits)]
    exact putMatch_ends { r with distFromOutBufStart := r.outBuf.length } inside positive near
      rfl symbols

end Matches

section Codes

/-- The codeword of a symbol was read, or the one which ends the block. -/
inductive Next (packed content : List UInt8) (left final : ℕ) (tables : Fin 3 → HuffTable)
    (input : Input) (history : List UInt8) : ℕ → Prop where
  | literal (byte : UInt8)
      (symbols : InSymbols packed content left final tables input (history ++ [byte])) :
      Next packed content left final tables input history byte.toNat
  | ended (ahead : Ahead packed content left final input [] history) :
      Next packed content left final tables input history 256
  | copy (source : Copy) (codes : Codes) (symbols : List Symbol) (after : List UInt8)
      (coding : Coding codes tables) (has : codes.distances.Has source.distanceCode)
      (coded : ∀ symbol ∈ symbols, symbol.Coded codes)
      (near : source.distance ≤ history.length)
      (expanded : symbols.foldlM Symbol.expand
        (repeatFrom source.distance source.length history) = some after)
      (ahead : Ahead packed content left final input
        (Symbol.argumentBits codes (.copy source) ++ symbolBits codes symbols) after) :
      Next packed content left final tables input history (257 + source.lengthCode)

/-- Which codeword comes next. -/
theorem InSymbols.next (symbols : InSymbols packed content left final tables input history) :
    ∃ code number rest after, (tables 0).Holds code ∧ code.sizes.length ≤ 288 ∧
      code.Has number ∧ Ahead packed content left final input (code.codeword number ++ rest) after ∧
      ∀ next, Ahead packed content left final next rest after →
        Next packed content left final tables next history number := by
  rcases symbols with ⟨codes, symbols, after, coding, coded, expanded, ahead⟩
  cases symbols with
  | nil =>
      cases expanded
      refine ⟨codes.literals, 256, [], history, coding.literals, coding.literals_length,
        coding.ended, ?_, fun _ => .ended⟩
      rw [List.append_nil]
      exact ahead
  | cons symbol symbols =>
      have here := coded symbol List.mem_cons_self
      have others := fun other otherMem => coded other (List.mem_cons_of_mem symbol otherMem)
      rw [symbolBits, List.flatMap_cons, Symbol.bits, List.append_assoc, List.append_assoc] at ahead
      rw [List.foldlM_cons] at expanded
      cases symbol with
      | literal byte =>
          exact ⟨codes.literals, byte.toNat, _, after, coding.literals, coding.literals_length,
            here, ahead, fun _ later => .literal byte ⟨codes, symbols, after, coding, others,
              expanded, later⟩⟩
      | copy source =>
          rw [Symbol.expand] at expanded
          by_cases near : source.distance ≤ history.length
          · rw [if_pos near] at expanded
            exact ⟨codes.literals, 257 + source.lengthCode, _, after, coding.literals,
              coding.literals_length, here.1, ahead, fun _ later => .copy source codes symbols after
                coding here.2 others near expanded later⟩
          · rw [if_neg near] at expanded
            cases expanded

theorem InSymbols.refill (symbols : InSymbols packed content left final tables input history)
    (kept : ∀ packed offset bits, input.Reads packed offset bits →
      filled.Reads packed offset bits) :
    InSymbols packed content left final tables filled history := by
  rcases symbols with ⟨codes, symbols, after, coding, coded, expanded, ahead⟩
  exact ⟨codes, symbols, after, coding, coded, expanded, ahead.refill kept⟩

/-- Only literals have codes below 256. -/
theorem Next.of_lt (next : Next packed content left final tables input history number)
    (small : number < 256) :
    ∃ byte : UInt8, number = byte.toNat ∧
      InSymbols packed content left final tables input (history ++ [byte]) := by
  cases next with
  | literal byte symbols => exact ⟨byte, rfl, symbols⟩
  | ended _ => omega
  | copy source _ _ _ _ _ _ _ _ _ => omega

theorem and_256_iff (small : number < 512) : number &&& 256 ≠ 0 ↔ 256 ≤ number := by
  revert small
  revert number
  decide +kernel

theorem leafEntry_and_256 {code : CanonicalCode 15} (small : number < 512) :
    (leafEntry code number).toNat &&& 256 ≠ 0 ↔ 256 ≤ number := by
  have masked : (leafEntry code number).toNat &&& 256 = number &&& 256 := by
    calc (leafEntry code number).toNat &&& 256
        = ((leafEntry code number).toNat &&& 511) &&& 256 := by
          rw [Nat.and_assoc]
          rfl
      _ = number &&& 256 := by rw [leafEntry_symbol small]
  rw [masked]
  exact and_256_iff small

theorem ofNat_leafEntry {code : CanonicalCode 15} {byte : UInt8} (same : number = byte.toNat) :
    UInt8.ofNat (leafEntry code number).toNat = byte := by
  have small := byte.toNat_lt
  have symbol : (leafEntry code number).toNat &&& 511 = number := leafEntry_symbol (by omega)
  have mask : (leafEntry code number).toNat &&& 511 = (leafEntry code number).toNat % 2 ^ 9 :=
    and_mask 9 _
  apply UInt8.toNat_inj.mp
  rw [UInt8.toNat_ofNat']
  omega

end Codes

section Literals

/-- A code is taken from the bit buffer. -/
theorem takeCode_eq (r : Machine) {code : CanonicalCode 15} (holds : (r.tables 0).Holds code)
    (has : code.Has number) (small : number < 512)
    (ahead : Ahead packed content left final r.input (code.codeword number ++ rest) after)
    (enough : 15 ≤ r.input.numBits) :
    ∃ next, takeCode r = .ok (leafEntry code number).toNat { r with input := next } ∧
      Ahead packed content left final next rest after ∧ r.input.numBits ≤ next.numBits + 15 ∧
      next.inBuf = r.input.inBuf := by
  have longest := CanonicalCode.size_le_longest has
  rcases ahead.split with ⟨offset, later, reads, follows⟩
  have bits := reads.lowBits_eq (by rw [CanonicalCode.length_codeword]; omega)
  have dropped := reads.dropBits (by rw [CanonicalCode.length_codeword]; omega)
  rw [CanonicalCode.length_codeword] at bits dropped follows
  refine ⟨r.input.dropBits (code.size number), ?_, ⟨_, later, dropped, follows⟩, ?_, rfl⟩
  · rw [takeCode, get_bind, bind_of_ok (checked_eq (holds.find_eq has small bits))]
    rfl
  · rw [Input.numBits_dropBits]
    omega

/-- How many bits the bit buffer is filled with. -/
def wideBits : Build → ℕ
  | .x64 => 30
  | .x86 => 15

theorem fillWide_eq (enough : 4 ≤ r.input.inBuf.length ∨
      setting.build = .x86 ∧ 2 ≤ r.input.inBuf.length) :
    ∃ next, fillWide setting r = .ok () { r with input := next } ∧
      (∀ packed offset bits, r.input.Reads packed offset bits → next.Reads packed offset bits) ∧
      wideBits setting.build ≤ next.numBits ∧
      (setting.build = .x86 → r.input.inBuf.length ≤ next.inBuf.length + 2) := by
  have pushed : ∀ {build : Build} {count : ℕ} {filled : Input},
      r.input.pushBytes build count = .ok filled →
      onInput (fun input => do pure ((), ← input.pushBytes build count)) r =
        .ok () { r with input := filled } := by
    intro build count filled returned
    apply onInput_eq
    rw [returned]
    rfl
  rw [fillWide, get_bind]
  cases build : setting.build with
  | x64 =>
      simp only [build, reduceCtorEq, false_and, or_false] at enough ⊢
      by_cases few : r.input.numBits < 30
      · rcases Input.Reads.exists_pushBytes .x64 r.input 4 enough
          (by simp only [Build.bits]; omega) with
          ⟨next, returned, kept, numBits_eq, _⟩
        rw [if_pos few, pushed returned]
        refine ⟨next, rfl, kept, by simp only [wideBits]; omega, ?_⟩
        intro x86
        cases x86
      · rw [if_neg few]
        refine ⟨r.input, rfl, fun _ _ _ reads => reads, Nat.le_of_not_lt few, ?_⟩
        intro x86
        cases x86
  | x86 =>
      simp only [build, true_and] at enough ⊢
      by_cases few : r.input.numBits < 15
      · rcases Input.Reads.exists_pushBytes .x86 r.input 2 (by omega)
          (by simp only [Build.bits]; omega) with ⟨next, returned, kept, numBits_eq, inBuf_eq⟩
        rw [if_pos few, pushed returned]
        refine ⟨next, rfl, kept, by simp only [wideBits]; omega, fun _ => ?_⟩
        rw [inBuf_eq, List.length_drop]
        omega
      · rw [if_neg few]
        exact ⟨r.input, rfl, fun _ _ _ reads => reads, Nat.le_of_not_lt few,
          fun _ => Nat.le_add_right _ _⟩

/-- There are enough bits for a second code. -/
theorem fillAgain_eq (r : Machine) (wide : setting.build = .x64 → 15 ≤ r.input.numBits)
    (enough : setting.build = .x86 → 2 ≤ r.input.inBuf.length) :
    ∃ next, fillAgain setting r = .ok () { r with input := next } ∧
      (∀ packed offset bits, r.input.Reads packed offset bits → next.Reads packed offset bits) ∧
        15 ≤ next.numBits := by
  rw [fillAgain]
  cases build : setting.build with
  | x64 => exact ⟨r.input, rfl, fun _ _ _ reads => reads, wide build⟩
  | x86 =>
      rcases fillWide_eq (.inr ⟨build, enough build⟩) with ⟨next, filled, kept, bits, _⟩
      rw [build] at bits
      exact ⟨next, filled, kept, bits⟩

/-- What a turn over the symbols leaves. -/
def Continues (setting : Setting) (packed content : List UInt8) (left before : ℕ) (r : Machine) :
    Prop :=
  InSymbols packed content left r.final r.tables r.input r.outBuf ∧ before < r.outBuf.length ∧
    r.outBuf.length ≤ setting.outEnd

/-- A literal is written, if there is room. -/
theorem putLiteral_ends (r : Machine) {byte : UInt8} (inside : r.outBuf.length ≤ setting.outEnd)
    (counter : r.counter = byte.toNat)
    (symbols : InSymbols packed content left r.final r.tables r.input (r.outBuf ++ [byte])) :
    Ends (putLiteral setting) r
      (fun _ reached => Continues setting packed content left r.outBuf.length reached)
      (Stopped setting packed content) := by
  apply needRoom_bind inside (.literal byte rfl counter symbols)
  intro room
  apply Ends.get_bind
  rw [counter, UInt8.ofNat_toNat]
  apply Ends.of_ok (putByte_eq room)
  refine ⟨symbols, ?_, ?_⟩
  · simp
  · simp only [List.length_append, List.length_singleton]
    omega

/-- The codeword of a length, or of the end, was read. -/
def AtCode (setting : Setting) (packed content : List UInt8) (left before counter : ℕ)
    (r : Machine) : Prop :=
  Next packed content left r.final r.tables r.input r.outBuf (counter &&& 511) ∧
    256 ≤ counter &&& 511 ∧
    before ≤ r.outBuf.length ∧ r.outBuf.length ≤ setting.outEnd

theorem and_511_of_lt (small : number < 512) : number &&& 511 = number := by
  have mask : number &&& 511 = number % 2 ^ 9 := and_mask 9 _
  rw [mask]
  exact Nat.mod_eq_of_lt small

/-- A turn of the loop over literals. -/
theorem literals_ends (inside : r.outBuf.length ≤ setting.outEnd)
    (symbols : InSymbols packed content left r.final r.tables r.input r.outBuf) :
    Ends (literals setting) r
      (fun result reached =>
        match result with
        | some counter => AtCode setting packed content left r.outBuf.length counter reached
        | none => Continues setting packed content left r.outBuf.length reached)
      (Stopped setting packed content) := by
  rcases symbols.next with ⟨code, number, rest, after, holds, few, has, ahead, next⟩
  have small : number < 512 := by
    have below := CanonicalCode.lt_length_of_has has
    omega
  rw [literals]
  apply Ends.get_bind
  by_cases slow : r.input.inBuf.length < 4 ∨ setting.outEnd - r.outBuf.length < 2
  · rw [if_pos slow]
    rcases ahead.decode setting.build holds has few with
      ⟨input, decoded, later⟩
    have decoded_eq : huffDecode setting 0 r = .ok number { r with input := input } := by
      rw [huffDecode, get_bind]
      exact onInput_eq decoded
    apply Ends.bind_of_ok decoded_eq
    by_cases large : 256 ≤ number
    · rw [if_pos large]
      apply Ends.of_ok rfl
      have same := and_511_of_lt small
      refine ⟨?_, ?_, Nat.le_refl _, inside⟩
      · rw [same]
        exact next input later
      · rw [same]
        exact large
    · rw [if_neg large]
      rcases (next input later).of_lt (Nat.not_le.mp large) with ⟨byte, same, more⟩
      apply Ends.modify_bind
      apply (putLiteral_ends { r with input := input, counter := number } inside same
        more).bind
      intro _ reached continues
      exact Ends.of_ok rfl continues
  · rw [if_neg slow]
    simp only [not_or, Nat.not_lt] at slow
    rcases fillWide_eq (.inl slow.1) with ⟨filled, fill_eq, kept, bits, left⟩
    have wide : 15 ≤ filled.numBits := by
      refine Nat.le_trans ?_ bits
      cases setting.build <;> decide
    rcases takeCode_eq { r with input := filled } holds has small
      (ahead.refill kept) wide with ⟨input, taken, later, remaining, inBuf_eq⟩
    have symbol : (leafEntry code number).toNat &&& 511 = number := leafEntry_symbol small
    apply Ends.bind_of_ok fill_eq
    apply Ends.bind_of_ok taken
    by_cases large : 256 ≤ number
    · rw [if_pos ((leafEntry_and_256 small).mpr large)]
      apply Ends.of_ok rfl
      refine ⟨?_, ?_, Nat.le_refl _, inside⟩
      · rw [symbol]
        exact next input later
      · rw [symbol]
        exact large
    · rw [if_neg (mt (leafEntry_and_256 small).mp large)]
      rcases (next input later).of_lt (Nat.not_le.mp large) with ⟨byte, same, more⟩
      rcases fillAgain_eq { r with input := input }
          (by
            intro build
            rw [build] at bits
            simp only [wideBits] at bits
            simp only at remaining ⊢
            omega)
          (by
            intro build
            have length_le := left build
            simp only [inBuf_eq]
            omega) with ⟨again, again_eq, keptAgain, enough⟩
      rcases (more.refill keptAgain).next with
        ⟨code', second, rest', after', holds', few', has', ahead', next'⟩
      have small' : second < 512 := by
        have below := CanonicalCode.lt_length_of_has has'
        omega
      rcases takeCode_eq { r with input := again } holds' has' small' ahead' enough
        with ⟨input', taken', later', _, _⟩
      have symbol' : (leafEntry code' second).toNat &&& 511 = second := leafEntry_symbol small'
      apply Ends.bind_of_ok again_eq
      apply Ends.bind_of_ok taken'
      rw [ofNat_leafEntry same]
      apply Ends.bind_of_ok (putByte_eq (by simp only; omega))
      have length_eq : (r.outBuf ++ [byte]).length = r.outBuf.length + 1 := by simp
      by_cases large' : 256 ≤ second
      · rw [if_pos ((leafEntry_and_256 small').mpr large')]
        apply Ends.of_ok rfl
        refine ⟨?_, ?_, ?_, ?_⟩
        · rw [symbol']
          exact next' input' later'
        · rw [symbol']
          exact large'
        · simp only [length_eq]
          omega
        · simp only [length_eq]
          omega
      · rw [if_neg (mt (leafEntry_and_256 small').mp large')]
        rcases (next' input' later').of_lt (Nat.not_le.mp large') with ⟨byte', same', more'⟩
        rw [ofNat_leafEntry same']
        apply Ends.bind_of_ok (putByte_eq (by simp only [length_eq]; omega))
        apply Ends.of_ok rfl
        refine ⟨more', ?_, ?_⟩
        · simp only [List.length_append, List.length_singleton]
          omega
        · simp only [List.length_append, List.length_singleton]
          omega

end Literals

section Loop

/-- The tables of the source are the ones of the format. -/
theorem lengths_eq (code : Fin 29) :
    lengthExtras[code.val]? = some (lengthExtraBits code) ∧
      lengthBases[code.val]? = some (lengthBase code) := by
  revert code
  decide

theorem distances_eq (code : Fin 30) :
    distExtras[code.val]? = some (distanceExtraBits code) ∧
      distBases[code.val]? = some (distanceBase code) := by
  revert code
  decide

theorem three_le_length (source : Copy) : 3 ≤ source.length := by
  have base : ∀ code : Fin 29, 3 ≤ lengthBase code := by decide
  exact Nat.le_trans (base source.lengthCode) (Nat.le_add_right _ _)

theorem distance_pos (source : Copy) : 0 < source.distance := by
  have base : ∀ code : Fin 30, 0 < distanceBase code := by decide
  exact Nat.lt_of_lt_of_le (base source.distanceCode) (Nat.le_add_right _ _)

theorem withExtra_eq (r : Machine) {bases extras : List ℕ} {code base extraBits extra : ℕ}
    (tables : extras[code]? = some extraBits ∧ bases[code]? = some base)
    (ahead : Ahead packed content left final r.input (lowBits extraBits extra ++ rest) after)
    (small : extraBits ≤ 16) (below : extra < 2 ^ extraBits) :
    ∃ next, withExtra setting bases extras code r = .ok (base + extra) { r with input := next } ∧
      Ahead packed content left final next rest after := by
  rw [withExtra, bind_of_ok (checked_eq (readAt_of_some tables.1)),
    bind_of_ok (checked_eq (readAt_of_some tables.2))]
  by_cases some_bits : extraBits = 0
  · subst some_bits
    have none_left : extra = 0 := by simpa using below
    rw [if_neg (not_not.mpr rfl), none_left]
    exact ⟨r.input, rfl, ahead⟩
  · rcases ahead.getBits setting.build small below with
      ⟨next, returned, later⟩
    rw [if_pos some_bits, getBits, bind_of_ok (onInput_eq returned)]
    exact ⟨next, rfl, later⟩

/-- A turn of the loop over symbols. -/
theorem symbol_ends (inside : r.outBuf.length ≤ setting.outEnd)
    (symbols : InSymbols packed content left r.final r.tables r.input r.outBuf) :
    Ends (symbol setting) r
      (fun result reached =>
        match result with
        | some () => Ahead packed content left reached.final reached.input [] reached.outBuf ∧
            reached.outBuf.length ≤ setting.outEnd
        | none => Continues setting packed content left r.outBuf.length reached)
      (Stopped setting packed content) := by
  rw [symbol]
  apply (literals_ends inside symbols).bind
  intro result reached code
  cases result with
  | none => exact Ends.of_ok rfl code
  | some counter =>
      rcases code with ⟨next, large, before, within⟩
      simp only
      generalize counter &&& 511 = number at next large ⊢
      cases next with
      | literal byte _ =>
          have below := byte.toNat_lt
          omega
      | ended ahead =>
          rw [if_pos rfl]
          exact Ends.of_ok rfl ⟨ahead, within⟩
      | copy source codes symbols after coding has coded near expanded ahead =>
          have lengthCode_lt := source.lengthCode.isLt
          have distanceCode_lt := source.distanceCode.isLt
          have lengthBits : lengthExtraBits source.lengthCode ≤ 16 := by
            simp only [lengthExtraBits]
            split <;> omega
          have distanceBits : distanceExtraBits source.distanceCode ≤ 16 := by
            simp only [distanceExtraBits]
            omega
          rw [if_neg (by omega), Nat.add_sub_cancel_left]
          rw [Symbol.argumentBits, List.append_assoc, List.append_assoc] at ahead
          rcases withExtra_eq reached (lengths_eq source.lengthCode) ahead
            lengthBits source.lengthExtra_lt with ⟨input, length_read, ahead⟩
          rcases ahead.decode setting.build coding.distances has
            coding.distances_length with ⟨input', decoded, ahead⟩
          have decoded_eq : huffDecode setting 1 { reached with input := input } =
              .ok source.distanceCode.val { reached with input := input' } := by
            rw [huffDecode, get_bind]
            exact onInput_eq decoded
          rcases withExtra_eq { reached with input := input' }
            (distances_eq source.distanceCode) ahead distanceBits source.distanceExtra_lt with
            ⟨input'', distance_read, ahead⟩
          apply Ends.bind_of_ok length_read
          apply Ends.bind_of_ok decoded_eq
          apply Ends.bind_of_ok distance_read
          apply Ends.modify_bind
          apply (copyMatch_ends
            { reached with input := input'', counter := source.length, dist := source.distance }
            within (distance_pos source) near (three_le_length source)
            ⟨codes, symbols, after, coding, coded, expanded, ahead⟩).bind
          rintro _ last ⟨length_eq, lastWithin, more⟩
          have positive := three_le_length source
          apply Ends.of_ok rfl
          refine ⟨more, ?_, lastWithin⟩
          simp only at length_eq
          omega

/-- The symbols of a block are written up to its end, or up to the end of the buffer. -/
theorem symbols_ends (inside : r.outBuf.length ≤ setting.outEnd)
    (inSymbols : InSymbols packed content left r.final r.tables r.input r.outBuf) :
    Ends (symbols setting) r
      (fun _ reached => Ahead packed content left reached.final reached.input [] reached.outBuf ∧
        reached.outBuf.length ≤ setting.outEnd)
      (Stopped setting packed content) := by
  rw [symbols]
  apply Ends.get_bind
  apply Ends.loop (fun room (reached : Machine) => setting.outEnd - reached.outBuf.length = room ∧
    reached.outBuf.length ≤ setting.outEnd ∧
    InSymbols packed content left reached.final reached.tables reached.input reached.outBuf) _
    (Nat.lt_succ_self _) ⟨rfl, inside, inSymbols⟩
  rintro room state ⟨rfl, within, more⟩
  apply (symbol_ends within more).weaken
  intro result reached ended
  cases result with
  | some _ => exact ended
  | none =>
      rcases ended with ⟨continues, longer, fits⟩
      exact ⟨setting.outEnd - reached.outBuf.length, by omega, rfl, fits, continues⟩

end Loop

end Lucciefr.Tinfl
