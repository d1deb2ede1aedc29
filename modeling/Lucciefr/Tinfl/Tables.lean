import Lucciefr.Tinfl.Copies
import Lucciefr.Tinfl.Stream

/-!
# Tables of a block

The tables are built from the sizes of the codewords, which are fixed or come before the
symbols of the block: the sizes of a first code, which then encodes the sizes of the other
two as runs.
-/

namespace Lucciefr.Tinfl

open Deflate

variable {setting : Setting} {packed content after : List UInt8} {left final n value : ℕ}
  {bits rest : List Bool} {r : Machine}

section Build

variable {code : CanonicalCode 15} {codes : Codes}

/-- A table is built, if its sizes begin with the ones of a code. -/
theorem buildTable_eq (r : Machine) (type : Fin 3)
    (begins : code.sizes <+: (r.tables type).codeSize) (few : code.sizes.length ≤ 288) :
    ∃ built, buildTable type code.sizes.length r =
        .ok () { r with tables := Function.update r.tables type built } ∧ built.Holds code := by
  rcases build_of_code code begins.length_le (List.prefix_iff_eq_take.mp begins) few with
    ⟨built, built_eq, _, holds⟩
  refine ⟨built, ?_, holds⟩
  rw [buildTable, get_bind, bind_of_ok (checked_eq built_eq)]
  rfl

theorem setCodeSize_eq (type : Fin 3) (change : List ℕ → List ℕ) :
    setCodeSize type change r =
      .ok () { r with
        tables := Function.update r.tables type
          { r.tables type with codeSize := change (r.tables type).codeSize } } := rfl

/-- The tables for both codes of a block. -/
theorem buildTables_eq (codes : Codes) (r : Machine)
    (literals : codes.literals.sizes <+: (r.tables 0).codeSize)
    (distances : codes.distances.sizes <+: (r.tables 1).codeSize)
    (literals_length : codes.literals.sizes.length ≤ 288)
    (distances_length : codes.distances.sizes.length ≤ 288)
    (ended : codes.literals.Has endOfBlock) :
    ∃ tables, (do
        buildTable 1 codes.distances.sizes.length
        buildTable 0 codes.literals.sizes.length) r = .ok () { r with tables := tables } ∧
      Coding codes tables := by
  rcases buildTable_eq r 1 distances distances_length with ⟨second, second_eq, distancesHold⟩
  have kept : Function.update r.tables 1 second 0 = r.tables 0 := by simp
  rcases buildTable_eq { r with tables := Function.update r.tables 1 second } 0 (kept ▸ literals)
      literals_length with
    ⟨first, first_eq, literalsHold⟩
  refine ⟨_, (bind_of_ok second_eq).trans first_eq, ?_, ?_, literals_length, distances_length,
    ended⟩
  · simpa using literalsHold
  · simpa using distancesHold

theorem fixedTables_eq (r : Machine) :
    ∃ tables, fixedTables r = .ok () { r with tables := tables } ∧ Coding fixedCodes tables := by
  have literals_length : fixedCodes.literals.sizes.length = 288 := by decide +kernel
  have distances_length : fixedCodes.distances.sizes.length = 32 := by decide +kernel
  have ended : fixedCodes.literals.Has endOfBlock := by
    change fixedCodes.literals.size endOfBlock ≠ 0
    decide +kernel
  have built := fun r => buildTables_eq fixedCodes r
  rw [literals_length, distances_length] at built
  rw [fixedTables, bind_of_ok (setCodeSize_eq _ _), bind_of_ok (setCodeSize_eq _ _)]
  apply built _ _ _ (Nat.le_refl 288) (by decide) ended
  · exact List.prefix_refl _
  · exact List.prefix_append (List.replicate 32 5) _

end Build

section SizeCodes

theorem getBits_eq (r : Machine) (setting : Setting)
    (ahead : Ahead packed content left final r.input (lowBits n value ++ rest) after)
    (small : n ≤ 16) (below : value < 2 ^ n) :
    ∃ next, getBits setting n r = .ok value { r with input := next } ∧
      Ahead packed content left final next rest after := by
  rcases ahead.getBits setting.build small below with ⟨next, read, ahead⟩
  exact ⟨next, onInput_eq read, ahead⟩

variable {code : CanonicalCode 15} {count counter : ℕ} {symbols : List ℕ}

/-- The sizes of these symbols are written. -/
def scatter (code : CanonicalCode 15) (symbols codeSize : List ℕ) : List ℕ :=
  symbols.foldl (fun codeSize symbol => codeSize.set symbol (code.size symbol)) codeSize

@[simp]
theorem length_scatter (codeSize : List ℕ) :
    (scatter code symbols codeSize).length = codeSize.length := by
  induction symbols generalizing codeSize with
  | nil => rfl
  | cons symbol symbols ih =>
      rw [scatter, List.foldl_cons]
      exact (ih _).trans List.length_set

theorem getElem?_scatter (codeSize : List ℕ) {symbol : ℕ} (inside : symbol < codeSize.length) :
    (scatter code symbols codeSize)[symbol]? =
      if symbol ∈ symbols then some (code.size symbol) else codeSize[symbol]? := by
  induction symbols generalizing codeSize with
  | nil => rfl
  | cons first symbols ih =>
      have later := ih (codeSize.set first (code.size first)) (by rwa [List.length_set])
      rw [scatter, List.foldl_cons]
      rw [scatter] at later
      rw [later]
      by_cases same : symbol = first
      · subst same
        simp [inside]
      · have others : ¬first = symbol := fun equal => same equal.symm
        simp [same, others]

/-- The sizes for the codes of the code sizes are read in the order of the format. -/
theorem readSizeCodes_eq (counter : ℕ) (r : Machine) (code_lt : ∀ symbol, code.size symbol < 8)
    (inside : counter + count ≤ 19) (long : 19 ≤ (r.tables 2).codeSize.length)
    (ahead : Ahead packed content left final r.input
      (((transmissionOrder.drop counter).take count).flatMap
        (fun symbol => lowBits 3 (code.size symbol)) ++ rest) after) :
    ∃ next, readSizeCodes setting count counter r =
        .ok () { r with
          input := next
          tables := Function.update r.tables 2 { r.tables 2 with
            codeSize := scatter code ((transmissionOrder.drop counter).take count)
              (r.tables 2).codeSize } } ∧
      Ahead packed content left final next rest after := by
  induction count generalizing counter r with
  | zero =>
      refine ⟨r.input, ?_, ahead⟩
      rw [readSizeCodes, List.take_zero, scatter, List.foldl_nil, Function.update_eq_self]
      rfl
  | succ count ih =>
      have known : counter < transmissionOrder.length := by
        change counter < 19
        omega
      have read : readAt lengthDezigzag counter = .ok transmissionOrder[counter] :=
        readAt_of_some (List.getElem?_eq_getElem known)
      have symbol_lt : transmissionOrder[counter] < 19 :=
        (by decide : ∀ symbol ∈ transmissionOrder, symbol < 19) _ (List.getElem_mem known)
      rw [List.drop_eq_getElem_cons known, List.take_succ_cons, List.flatMap_cons,
        List.append_assoc] at ahead
      rcases getBits_eq r setting ahead (by decide) (code_lt _) with ⟨input, size_read, ahead⟩
      rcases ih (counter + 1) { r with
          input := input
          tables := Function.update r.tables 2 { r.tables 2 with
            codeSize := (r.tables 2).codeSize.set transmissionOrder[counter]
              (code.size transmissionOrder[counter]) } } (by omega) (by simpa using long) ahead with
        ⟨next, later, ahead⟩
      refine ⟨next, ?_, ahead⟩
      rw [readSizeCodes, bind_of_ok size_read, bind_of_ok (checked_eq read), get_bind,
        bind_of_ok (checked_eq (writeAt_of_lt (by simp only; omega))),
        bind_of_ok (setCodeSize_eq _ _)]
      rw [List.drop_eq_getElem_cons known, List.take_succ_cons, later]
      simp [scatter]

/-- What was not transmitted is zero. -/
theorem isPrefix_scatter (header : Header) :
    header.sizeCode.sizes <+: scatter header.sizeCode
      (transmissionOrder.take (header.transmitted + 4)) (List.replicate maxHuffSymbols0 0) := by
  rw [List.prefix_iff_getElem?]
  intro symbol inside
  have symbol_lt : symbol < 19 := header.sizeCode_length ▸ inside
  have size_eq : header.sizeCode.sizes[symbol] = header.sizeCode.size symbol := by
    rw [CanonicalCode.size, List.getD_eq_getElem?_getD, List.getElem?_eq_getElem inside]
    rfl
  rw [getElem?_scatter _ (by rw [List.length_replicate]; exact Nat.lt_trans symbol_lt (by decide)),
    size_eq]
  split
  · rfl
  · next unread =>
      have among : symbol ∈ transmissionOrder :=
        (by decide : ∀ symbol < 19, symbol ∈ transmissionOrder) symbol symbol_lt
      rw [← List.take_append_drop (header.transmitted + 4) transmissionOrder, List.mem_append]
        at among
      rw [header.rest_zero symbol (among.resolve_left unread), List.getElem?_replicate,
        if_pos (Nat.lt_trans symbol_lt (by decide))]

end SizeCodes

section Runs

variable {code : CanonicalCode 15} {run : SizeRun} {runs : List SizeRun} {sizes longer : List ℕ}
  {total : ℕ}

theorem length_lt_expand (expanded : run.expand sizes = some longer) :
    sizes.length < longer.length := by
  cases run with
  | size count =>
      cases expanded
      simp
  | previous extra =>
      rw [SizeRun.expand, Option.map_eq_some_iff] at expanded
      rcases expanded with ⟨last, _, rfl⟩
      simp
  | zeros extra =>
      cases expanded
      simp
  | manyZeros extra =>
      cases expanded
      simp

theorem length_add_le (expanded : runs.foldlM SizeRun.expand sizes = some longer) :
    sizes.length + runs.length ≤ longer.length := by
  induction runs generalizing sizes with
  | nil =>
      cases expanded
      exact Nat.le_refl _
  | cons run runs ih =>
      rw [List.foldlM_cons] at expanded
      cases first : run.expand sizes with
      | none => simp [first] at expanded
      | some middle =>
          rw [first] at expanded
          have shorter := length_lt_expand first
          have others := ih expanded
          rw [List.length_cons]
          omega

theorem huffDecode_eq (r : Machine) (type : Fin 3) {symbol : ℕ}
    (ahead : Ahead packed content left final r.input (code.codeword symbol ++ rest) after)
    (holds : (r.tables type).Holds code) (has : code.Has symbol) (few : code.sizes.length ≤ 288) :
    ∃ next, huffDecode setting type r = .ok symbol { r with input := next } ∧
      Ahead packed content left final next rest after := by
  rcases ahead.decode setting.build holds has few with ⟨next, decoded, ahead⟩
  refine ⟨next, ?_, ahead⟩
  rw [huffDecode, get_bind]
  exact onInput_eq decoded

/-- The runs which take extra bits add as many sizes. -/
theorem readSizes_repeat (r : Machine) {number extraBits extra base : ℕ}
    (more : r.lenCodes.length < total)
    (numbered : number = 16 ∧ r.lenCodes ≠ [] ∨ 16 < number)
    (extraBits_eq : readAt [2, 3, 7] (number - 16) = .ok extraBits)
    (base_eq : readAt [3, 3, 11] (number - 16) = .ok base)
    (small : extraBits ≤ 16) (below : extra < 2 ^ extraBits)
    (fits : r.lenCodes.length + (base + extra) ≤ 457)
    (holds : (r.tables 2).Holds code) (has : code.Has number) (few : code.sizes.length ≤ 288)
    (ahead : Ahead packed content left final r.input
      (code.codeword number ++ (lowBits extraBits extra ++ rest)) after) :
    ∃ next, readSizes setting total r =
        .ok none { r with
          input := next
          lenCodes := r.lenCodes ++
            List.replicate (base + extra) (if number = 16 then r.lenCodes.getLastD 0 else 0) } ∧
      Ahead packed content left final next rest after := by
  rcases huffDecode_eq r 2 ahead holds has few with ⟨middle, decoded, ahead⟩
  rcases getBits_eq { r with input := middle } setting ahead small below with ⟨next, read, ahead⟩
  have large : ¬number < 16 := by omega
  have previous : ¬(number = 16 ∧ r.lenCodes = []) := by
    rintro ⟨same, empty⟩
    rcases numbered with ⟨_, some_size⟩ | larger
    · exact some_size empty
    · omega
  refine ⟨next, ?_, ahead⟩
  rw [readSizes, get_bind, if_pos more, bind_of_ok decoded, if_neg large, get_bind,
    if_neg previous, bind_of_ok (checked_eq extraBits_eq), bind_of_ok read,
    bind_of_ok (checked_eq base_eq), if_pos (by rw [Nat.add_comm extra]; exact fits),
    Nat.add_comm extra]
  rfl

/-- A turn of the loop reads a run. -/
theorem readSizes_eq (r : Machine) (expanded : run.expand r.lenCodes = some longer)
    (fits : longer.length ≤ total) (total_le : total ≤ 457)
    (holds : (r.tables 2).Holds code) (has : code.Has run.number) (few : code.sizes.length ≤ 288)
    (ahead : Ahead packed content left final r.input (run.bits code ++ rest) after) :
    ∃ next, readSizes setting total r = .ok none { r with input := next, lenCodes := longer } ∧
      Ahead packed content left final next rest after := by
  have shorter := length_lt_expand expanded
  rw [SizeRun.bits, List.append_assoc] at ahead
  cases run with
  | size count =>
      cases expanded
      rcases huffDecode_eq r 2 ahead holds has few with ⟨next, decoded, ahead⟩
      refine ⟨next, ?_, ahead⟩
      rw [readSizes, get_bind, if_pos (by omega), bind_of_ok decoded,
        if_pos (by exact count.isLt)]
      rfl
  | previous extra =>
      rw [SizeRun.expand, Option.map_eq_some_iff] at expanded
      rcases expanded with ⟨last, last_eq, rfl⟩
      have some_size : r.lenCodes ≠ [] := by
        rintro empty
        rw [empty] at last_eq
        cases last_eq
      rw [List.length_append, List.length_replicate] at fits
      have last_eq' : r.lenCodes.getLastD 0 = last := by
        rw [List.getLastD_eq_getLast?, last_eq]
        rfl
      rw [← last_eq']
      exact readSizes_repeat r (by omega) (.inl ⟨rfl, some_size⟩) rfl rfl (by decide) extra.isLt
        (by omega) holds has few ahead
  | zeros extra =>
      cases expanded
      rw [List.length_append, List.length_replicate] at fits
      exact readSizes_repeat r (by omega) (.inr (show 16 < 17 by decide)) rfl rfl (by decide)
        extra.isLt (by omega) holds has few ahead
  | manyZeros extra =>
      cases expanded
      rw [List.length_append, List.length_replicate] at fits
      exact readSizes_repeat r (by omega) (.inr (show 16 < 18 by decide)) rfl rfl (by decide)
        extra.isLt (by omega) holds has few ahead

/-- The loop reads all runs. -/
theorem readAllSizes_eq (r : Machine) (turns : ℕ) (enough : runs.length < turns)
    (expanded : runs.foldlM SizeRun.expand r.lenCodes = some sizes)
    (sizes_le : sizes.length ≤ 457) (holds : (r.tables 2).Holds code)
    (coded : ∀ run ∈ runs, code.Has run.number) (few : code.sizes.length ≤ 288)
    (ahead : Ahead packed content left final r.input (runs.flatMap (·.bits code) ++ rest) after) :
    ∃ next, loop (.fault .divergence) (readSizes setting sizes.length) turns r =
        .ok () { r with input := next, lenCodes := sizes } ∧
      Ahead packed content left final next rest after := by
  induction runs generalizing r turns with
  | nil =>
      cases expanded
      rcases Nat.exists_eq_add_one.mpr (Nat.zero_lt_of_lt enough) with ⟨turns, rfl⟩
      refine ⟨r.input, loop_of_some ?_, ahead⟩
      rw [readSizes, get_bind, if_neg (Nat.lt_irrefl _)]
      rfl
  | cons run runs ih =>
      rcases Nat.exists_eq_add_one.mpr (Nat.zero_lt_of_lt enough) with ⟨turns, rfl⟩
      rw [List.foldlM_cons] at expanded
      cases first : run.expand r.lenCodes with
      | none => simp [first] at expanded
      | some middle =>
          rw [first] at expanded
          have fits := length_add_le expanded
          rw [List.flatMap_cons, List.append_assoc] at ahead
          rcases readSizes_eq r first (Nat.le_trans (Nat.le_add_right _ _) fits) sizes_le holds
            (coded run List.mem_cons_self) few ahead with ⟨input, turn, ahead⟩
          rcases ih { r with input := input, lenCodes := middle } turns
            (by simp at enough; omega) expanded holds
            (fun other otherMem => coded other (List.mem_cons_of_mem run otherMem)) ahead with
            ⟨next, later, ahead⟩
          refine ⟨next, ?_, ahead⟩
          rw [loop_of_none turn]
          exact later

end Runs

/-- The tables of a block with dynamic codes are built from its header. -/
theorem dynamicTables_ends {fails : Stop → Machine → Prop} (r : Machine) (header : Header)
    (ahead : Ahead packed content left r.final r.input (header.bits ++ rest) after) :
    Ends (dynamicTables setting) r
      (fun _ reached => Coding header.toCodes reached.tables ∧ reached.outBuf = r.outBuf ∧
        Ahead packed content left reached.final reached.input rest after) fails := by
  rcases header.literals_length with ⟨literals_ge, literals_le⟩
  rcases header.distances_length with ⟨distances_ge, distances_le⟩
  have transmitted_lt := header.transmitted.isLt
  have size_lt : ∀ symbol, header.sizeCode.size symbol < 8 := by
    intro symbol
    by_cases has : header.sizeCode.Has symbol
    · exact header.sizeCode_lt _ (List.mem_of_getElem? (CanonicalCode.getElem?_of_has has))
    · have none_left : header.sizeCode.size symbol = 0 := not_not.mp has
      omega
  simp only [Header.bits, List.append_assoc] at ahead
  rcases getBits_eq r setting ahead (by decide) (by omega) with ⟨input₁, literals_read, ahead⟩
  rcases getBits_eq { r with input := input₁ } setting ahead (by decide) (by omega) with
    ⟨input₂, distances_read, ahead⟩
  rcases getBits_eq { r with input := input₂ } setting ahead (by decide) (by omega) with
    ⟨input₃, transmitted_read, ahead⟩
  rw [dynamicTables]
  apply Ends.bind_of_ok literals_read
  apply Ends.bind_of_ok distances_read
  apply Ends.bind_of_ok transmitted_read
  have literals_eq : header.literals.sizes.length - 257 + minTableSizes.getD 0 0 =
      header.literals.sizes.length := Nat.sub_add_cancel literals_ge
  have distances_eq : header.distances.sizes.length - 1 + minTableSizes.getD 1 0 =
      header.distances.sizes.length := Nat.sub_add_cancel distances_ge
  have sizes_eq : header.literals.sizes.length + header.distances.sizes.length =
      (header.literals.sizes ++ header.distances.sizes).length := List.length_append.symm
  rw [literals_eq, distances_eq]
  apply Ends.bind_of_ok (setCodeSize_eq _ _)
  -- the first code
  rcases readSizeCodes_eq 0 { r with
      input := input₃
      tables := Function.update r.tables 2
        { r.tables 2 with codeSize := List.replicate maxHuffSymbols0 0 } } size_lt (by omega)
      (by simp only [Function.update_self, List.length_replicate]; decide) ahead with
    ⟨input₄, sizes_read, ahead⟩
  apply Ends.bind_of_ok sizes_read
  simp only [Function.update_self, Function.update_idem, List.drop_zero]
  rcases buildTable_eq { r with
      input := input₄
      tables := Function.update r.tables 2 { r.tables 2 with
        codeSize := scatter header.sizeCode (transmissionOrder.take (header.transmitted + 4))
          (List.replicate maxHuffSymbols0 0) } } 2
      (by simp only [Function.update_self]; exact isPrefix_scatter header)
      (by rw [header.sizeCode_length]; decide) with
    ⟨built, built_eq, holds⟩
  rw [header.sizeCode_length] at built_eq
  apply Ends.bind_of_ok built_eq
  apply Ends.modify_bind
  -- the sizes of the other codes
  have enough : header.runs.length <
      header.literals.sizes.length + header.distances.sizes.length + 1 := by
    have runs_le := length_add_le header.runs_expand
    simp at runs_le
    omega
  rcases readAllSizes_eq { r with
      input := input₄
      tables := Function.update r.tables 2 built
      lenCodes := [] } (header.literals.sizes.length + header.distances.sizes.length + 1) enough
      header.runs_expand (by rw [List.length_append]; omega)
      (by simp only [Function.update_self]; exact holds) header.runs_coded
      (by rw [header.sizeCode_length]; decide) ahead with
    ⟨input₅, all_read, ahead⟩
  rw [← sizes_eq] at all_read
  simp only [Function.update_idem]
  apply Ends.bind_of_ok all_read
  apply Ends.get_bind
  simp only [← sizes_eq, ne_eq, not_true_eq_false, if_false, List.take_left', List.drop_left',
    List.take_length]
  apply Ends.bind_of_ok (setCodeSize_eq _ _)
  apply Ends.bind_of_ok (setCodeSize_eq _ _)
  rcases buildTables_eq _ { r with
      input := input₅
      lenCodes := header.literals.sizes ++ header.distances.sizes
      tables := Function.update (Function.update (Function.update r.tables 2 built) 0
          { Function.update r.tables 2 built 0 with
            codeSize := header.literals.sizes ++
              (Function.update r.tables 2 built 0).codeSize.drop header.literals.sizes.length }) 1
          { Function.update r.tables 2 built 1 with
            codeSize := header.distances.sizes ++
              (Function.update r.tables 2 built 1).codeSize.drop header.distances.sizes.length } }
      (by simp) (by simp) literals_le (by omega) header.end_coded with
    ⟨tables, tables_eq, coding⟩
  exact Ends.of_ok tables_eq ⟨coding, rfl, ahead⟩

end Lucciefr.Tinfl
