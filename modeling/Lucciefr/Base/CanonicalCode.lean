import Mathlib.Data.List.Perm.Subperm
import Mathlib.Data.List.Nodup
import Mathlib.Data.Nat.Find
import Mathlib.Tactic.Choose
import Lucciefr.Base.Bits

/-!
# Canonical prefix codes

A prefix code which is given by the sizes of its codewords. Codewords of one size are
consecutive numbers, in the order of their symbols, and the codewords of a size come
after all extensions of the shorter ones. The first bit of a codeword is the highest
bit of its number.

A code is accepted if it is complete, so that each sequence of bits begins with a
codeword, or has at most one codeword.
-/

namespace Lucciefr

section Sizes

variable {sizes : List ℕ} {size longest : ℕ}

/-- The number of the first codeword of each size. -/
def firstCode (sizes : List ℕ) : (size : ℕ) → ℕ
  | 0 => 0
  | 1 => 0
  | size + 2 => (firstCode sizes (size + 1) + sizes.count (size + 1)) * 2

/-- How many of the longest words begin with a codeword. -/
def weight (longest : ℕ) (sizes : List ℕ) : ℕ :=
  (sizes.map fun size => if size = 0 then 0 else 2 ^ (longest - size)).sum

theorem weight_cons {first : ℕ} : weight longest (first :: sizes) =
    (if first = 0 then 0 else 2 ^ (longest - first)) + weight longest sizes := by
  simp [weight]

/-- How many words of a size begin with a codeword which is not longer. -/
private def weightUpTo (size : ℕ) (sizes : List ℕ) : ℕ :=
  (sizes.map fun other => if other = 0 ∨ size < other then 0 else 2 ^ (size + 1 - other)).sum

private theorem weightUpTo_succ :
    weightUpTo (size + 1) sizes = (weightUpTo size sizes + sizes.count (size + 1)) * 2 := by
  induction sizes with
  | nil => rfl
  | cons first sizes ih =>
      simp only [weightUpTo, List.map_cons, List.sum_cons] at ih ⊢
      rw [ih, List.count_cons]
      have step : (if first = 0 ∨ size + 1 < first then 0 else 2 ^ (size + 1 + 1 - first)) =
          (if first = 0 ∨ size < first then 0 else 2 ^ (size + 1 - first)) * 2 +
            (if first = size + 1 then 1 else 0) * 2 := by
        rcases Nat.lt_trichotomy first (size + 1) with shorter | rfl | longer
        · have power : 2 ^ (size + 1 + 1 - first) = 2 ^ (size + 1 - first) * 2 := by
            rw [← Nat.pow_succ]
            congr 1
            omega
          rw [power]
          split <;> split <;> split <;> omega
        · simp
        · split <;> split <;> split <;> omega
      rw [step]
      simp only [beq_iff_eq]
      omega

private theorem firstCode_eq : firstCode sizes (size + 1) = weightUpTo size sizes := by
  induction size with
  | zero =>
      induction sizes with
      | nil => rfl
      | cons first sizes ih =>
          rw [weightUpTo, List.map_cons, List.sum_cons]
          rw [firstCode] at ih ⊢
          rw [weightUpTo] at ih
          rw [← ih, if_pos (by omega)]
  | succ size ih => rw [firstCode, ih, weightUpTo_succ]

theorem firstCode_longest (size_le : ∀ size ∈ sizes, size ≤ longest) :
    firstCode sizes (longest + 1) = weight longest sizes * 2 := by
  rw [firstCode_eq]
  induction sizes with
  | nil => rfl
  | cons first sizes ih =>
      have shorter := size_le first List.mem_cons_self
      have later := ih fun size sizeMem => size_le size (List.mem_cons_of_mem _ sizeMem)
      rw [weightUpTo] at later
      rw [weight_cons, weightUpTo, List.map_cons, List.sum_cons, later, Nat.add_mul]
      congr 1
      have power : 2 ^ (longest + 1 - first) = 2 ^ (longest - first) * 2 := by
        rw [← Nat.pow_succ]
        congr 1
        omega
      rw [power]
      split <;> split <;> omega

theorem firstCode_add (sizes : List ℕ) (size more : ℕ) :
    (firstCode sizes (size + 1) + sizes.count (size + 1)) * 2 ^ (more + 1) ≤
      firstCode sizes (size + 1 + (more + 1)) := by
  induction more with
  | zero => exact Nat.le_refl _
  | succ more ih =>
      calc (firstCode sizes (size + 1) + sizes.count (size + 1)) * 2 ^ (more + 1 + 1)
          = (firstCode sizes (size + 1) + sizes.count (size + 1)) * 2 ^ (more + 1) * 2 := by
            rw [Nat.pow_succ, Nat.mul_assoc]
        _ ≤ firstCode sizes (size + 1 + (more + 1)) * 2 := Nat.mul_le_mul_right _ ih
        _ ≤ firstCode sizes (size + 1 + (more + 1 + 1)) := by
            change _ ≤ (firstCode sizes (size + 1 + more + 1) + _) * 2
            exact Nat.mul_le_mul_right _ (Nat.le_add_right _ _)

theorem firstCode_add_count_le (size_le : ∀ size ∈ sizes, size ≤ longest)
    (weight_le : weight longest sizes ≤ 2 ^ longest) (inside : size < longest) :
    firstCode sizes (size + 1) + sizes.count (size + 1) ≤ 2 ^ (size + 1) := by
  rcases Nat.exists_eq_add_of_lt inside with ⟨more, rfl⟩
  have extended := firstCode_add sizes size more
  have last := firstCode_longest size_le
  have total : (firstCode sizes (size + 1) + sizes.count (size + 1)) * 2 ^ (more + 1) ≤
      2 ^ (size + 1) * 2 ^ (more + 1) := by
    calc (firstCode sizes (size + 1) + sizes.count (size + 1)) * 2 ^ (more + 1)
        ≤ firstCode sizes (size + 1 + (more + 1)) := extended
      _ = weight (size + more + 1) sizes * 2 := by
          rw [← last]
          congr 1
          omega
      _ ≤ 2 ^ (size + more + 1) * 2 := Nat.mul_le_mul_right _ weight_le
      _ = 2 ^ (size + 1) * 2 ^ (more + 1) := by
          rw [← Nat.pow_succ, ← Nat.pow_add]
          congr 1
          omega
  exact Nat.le_of_mul_le_mul_right total (Nat.two_pow_pos _)

/-- The symbols of one size are numbered consecutively. -/
theorem exists_rank {rank : ℕ} (below : rank < sizes.count size) :
    ∃ symbol, sizes[symbol]? = some size ∧ (sizes.take symbol).count size = rank := by
  induction sizes generalizing rank with
  | nil => simp at below
  | cons first sizes ih =>
      rw [List.count_cons] at below
      by_cases here : first = size
      · cases rank with
        | zero => exact ⟨0, by simp [here], rfl⟩
        | succ rank =>
            simp only [here, beq_self_eq_true, if_true] at below
            rcases ih (Nat.lt_of_succ_lt_succ below) with ⟨symbol, found, counted⟩
            exact ⟨symbol + 1, by simpa using found, by simp [here, counted]⟩
      · rw [if_neg (by simpa using here), Nat.add_zero] at below
        rcases ih below with ⟨symbol, found, counted⟩
        exact ⟨symbol + 1, by simpa using found, by simp [here, counted]⟩

theorem rank_lt {symbol : ℕ} (found : sizes[symbol]? = some size) :
    (sizes.take symbol).count size < sizes.count size := by
  have split : sizes = sizes.take symbol ++ size :: sizes.drop (symbol + 1) := by
    rw [List.getElem?_eq_some_iff] at found
    rcases found with ⟨inside, here⟩
    rw [← here, List.getElem_cons_drop inside, List.take_append_drop]
  calc (sizes.take symbol).count size
      < (sizes.take symbol).count size + (size :: sizes.drop (symbol + 1)).count size := by simp
    _ = sizes.count size := by rw [← List.count_append, ← split]

theorem rank_strictMono {symbol later : ℕ} (found : sizes[symbol]? = some size)
    (order : symbol < later) :
    (sizes.take symbol).count size < (sizes.take later).count size := by
  have inside : (sizes.take later)[symbol]? = some size := by
    rw [List.getElem?_take_of_lt order, found]
  have ranked := rank_lt inside
  rwa [List.take_take, Nat.min_eq_left (Nat.le_of_lt order)] at ranked

end Sizes

/-- The sizes of the codewords, 0 for a symbol without one. -/
structure CanonicalCode (longest : ℕ) where
  sizes : List ℕ
  size_le : ∀ size ∈ sizes, size ≤ longest
  accepted : weight longest sizes = 2 ^ longest ∨ sizes.countP (· ≠ 0) ≤ 1

namespace CanonicalCode

variable {longest : ℕ} {code : CanonicalCode longest} {symbol other : ℕ}

/-- The size of a codeword. -/
def size (code : CanonicalCode longest) (symbol : ℕ) : ℕ :=
  code.sizes.getD symbol 0

/-- The symbol has a codeword. -/
def Has (code : CanonicalCode longest) (symbol : ℕ) : Prop :=
  code.size symbol ≠ 0

/-- The codeword as a number. -/
def number (code : CanonicalCode longest) (symbol : ℕ) : ℕ :=
  firstCode code.sizes (code.size symbol) +
    (code.sizes.take symbol).count (code.size symbol)

/-- The codeword. -/
def codeword (code : CanonicalCode longest) (symbol : ℕ) : List Bool :=
  (lowBits (code.size symbol) (code.number symbol)).reverse

@[simp]
theorem length_codeword : (code.codeword symbol).length = code.size symbol := by
  simp [codeword]

theorem getElem?_of_has (has : code.Has symbol) :
    code.sizes[symbol]? = some (code.size symbol) := by
  rw [Has, size, List.getD_eq_getElem?_getD] at has
  rw [size, List.getD_eq_getElem?_getD]
  cases found : code.sizes[symbol]? with
  | none => simp [found] at has
  | some size => rfl

theorem size_pos (has : code.Has symbol) : 0 < code.size symbol :=
  Nat.pos_of_ne_zero has

theorem size_le_longest (has : code.Has symbol) : code.size symbol ≤ longest :=
  code.size_le _ (List.mem_of_getElem? (getElem?_of_has has))

theorem weight_le (code : CanonicalCode longest) : weight longest code.sizes ≤ 2 ^ longest := by
  rcases code.accepted with complete | single
  · exact complete.le
  · have general : ∀ sizes : List ℕ, weight longest sizes ≤
        sizes.countP (· ≠ 0) * 2 ^ longest := by
      intro sizes
      induction sizes with
      | nil => exact Nat.zero_le _
      | cons first sizes ih =>
          rw [weight_cons, List.countP_cons, Nat.add_mul, Nat.add_comm]
          apply Nat.add_le_add ih
          by_cases unused : first = 0
          · simp [unused]
          · simp only [unused, if_false, ne_eq, not_false_eq_true, decide_true, if_true,
              Nat.one_mul]
            exact Nat.pow_le_pow_right (by decide) (Nat.sub_le _ _)
    calc weight longest code.sizes ≤ code.sizes.countP (· ≠ 0) * 2 ^ longest := general _
      _ ≤ 1 * 2 ^ longest := Nat.mul_le_mul_right _ single
      _ = 2 ^ longest := Nat.one_mul _

theorem number_lt_next (has : code.Has symbol) :
    code.number symbol < firstCode code.sizes (code.size symbol) +
      code.sizes.count (code.size symbol) :=
  Nat.add_lt_add_left (rank_lt (getElem?_of_has has)) _

theorem number_lt (has : code.Has symbol) : code.number symbol < 2 ^ code.size symbol := by
  have below := number_lt_next has
  have positive := size_pos has
  have longer := size_le_longest has
  rcases Nat.exists_eq_succ_of_ne_zero positive.ne' with ⟨size, size_eq⟩
  rw [size_eq] at below longer ⊢
  exact Nat.lt_of_lt_of_le below (firstCode_add_count_le code.size_le code.weight_le longer)

/-- The first bits of a word are its highest ones. -/
theorem reverse_lowBits_add (size more value : ℕ) :
    (lowBits (more + size) value).reverse =
      (lowBits size (value >>> more)).reverse ++ (lowBits more value).reverse := by
  rw [lowBits_add, List.reverse_append]

theorem codeword_isPrefix_iff {more value : ℕ} (has : code.Has symbol)
    (below : value < 2 ^ (more + code.size symbol)) :
    code.codeword symbol <+: (lowBits (more + code.size symbol) value).reverse ↔
      value >>> more = code.number symbol := by
  have shifted : value >>> more < 2 ^ code.size symbol := by
    have narrower := shiftRight_lt more below
    rwa [Nat.add_sub_cancel_left] at narrower
  rw [reverse_lowBits_add, codeword]
  constructor
  · intro begins
    have same := List.prefix_of_prefix_length_le begins (List.prefix_append _ _) (by simp)
    have words := List.reverse_inj.mp (same.eq_of_length (by simp))
    have residues := mod_eq_of_lowBits words
    rw [Nat.mod_eq_of_lt (number_lt has), Nat.mod_eq_of_lt shifted] at residues
    exact residues.symm
  · intro same
    rw [same]
    exact List.prefix_append _ _

/-- No codeword begins with the codeword of another symbol. -/
theorem eq_of_isPrefix (has : code.Has symbol) (otherHas : code.Has other)
    (begins : code.codeword symbol <+: code.codeword other) : symbol = other := by
  have shorter : code.size symbol ≤ code.size other := by simpa using begins.length_le
  rcases Nat.exists_eq_add_of_le' shorter with ⟨more, size_eq⟩
  have below := number_lt otherHas
  have word : code.codeword other = (lowBits (code.size other) (code.number other)).reverse := rfl
  rw [size_eq] at below word
  rw [word, codeword_isPrefix_iff has below] at begins
  cases more with
  | zero =>
      have same_size : code.size other = code.size symbol := by omega
      rw [Nat.shiftRight_zero, number, number, same_size, Nat.add_left_cancel_iff] at begins
      rcases Nat.lt_trichotomy symbol other with before | same | after
      · have order := rank_strictMono (getElem?_of_has has) before
        omega
      · exact same
      · have order := rank_strictMono (same_size ▸ getElem?_of_has otherHas) after
        omega
  | succ more =>
      exfalso
      have next := number_lt_next has
      have positive := size_pos has
      rcases Nat.exists_eq_succ_of_ne_zero positive.ne' with ⟨size, eq_succ⟩
      have extended := firstCode_add code.sizes size more
      have first : firstCode code.sizes (size + 1 + (more + 1)) ≤ code.number other := by
        rw [number, size_eq, eq_succ, Nat.add_comm (more + 1)]
        exact Nat.le_add_right _ _
      rw [eq_succ, ← begins, Nat.shiftRight_eq_div_pow,
        Nat.div_lt_iff_lt_mul (Nat.two_pow_pos _)] at next
      exact Nat.lt_irrefl _ (Nat.lt_of_lt_of_le next (Nat.le_trans extended first))

/-- Whatever the bits are, they begin with a codeword of a complete code. -/
theorem exists_codeword_isPrefix {code : CanonicalCode (longest + 1)}
    (complete : weight (longest + 1) code.sizes = 2 ^ (longest + 1)) {bits : List Bool}
    (enough : bits.length = longest + 1) :
    ∃ symbol, code.Has symbol ∧ code.codeword symbol <+: bits := by
  rcases exists_lowBits bits.reverse with ⟨value, below, read⟩
  rw [List.length_reverse, enough] at below read
  have word : bits = (lowBits (longest + 1) value).reverse := by
    rw [read, List.reverse_reverse]
  have bounded : ∃ size ≤ longest, value >>> (longest - size) <
      firstCode code.sizes (size + 1) + code.sizes.count (size + 1) := by
    refine ⟨longest, Nat.le_refl _, ?_⟩
    have last := firstCode_longest code.size_le
    rw [complete, firstCode, Nat.mul_left_inj (by decide)] at last
    rwa [Nat.sub_self, Nat.shiftRight_zero, last]
  have least := Nat.find_spec bounded
  have before := fun {size} (smaller : size < Nat.find bounded) => Nat.find_min bounded smaller
  generalize Nat.find bounded = size at least before
  rcases least with ⟨inside, next⟩
  have first : firstCode code.sizes (size + 1) ≤ value >>> (longest - size) := by
    cases size with
    | zero => exact Nat.zero_le _
    | succ size =>
        have longer := before (Nat.lt_succ_self size)
        simp only [Nat.le_of_succ_le inside, true_and, Nat.not_lt] at longer
        have doubled : value >>> (longest - size) * 2 ≤ value >>> (longest - (size + 1)) := by
          have shift : longest - size = longest - (size + 1) + 1 := by omega
          rw [shift, Nat.shiftRight_succ]
          exact Nat.div_mul_le_self _ _
        exact Nat.le_trans (Nat.mul_le_mul_right 2 longer) doubled
  have rank_lt_count : value >>> (longest - size) - firstCode code.sizes (size + 1) <
      code.sizes.count (size + 1) := by omega
  rcases exists_rank rank_lt_count with ⟨symbol, found, counted⟩
  have size_eq : code.size symbol = size + 1 := by
    rw [CanonicalCode.size, List.getD_eq_getElem?_getD, found, Option.getD_some]
  have has : code.Has symbol := by
    rw [Has, size_eq]
    exact Nat.succ_ne_zero size
  have length_eq : longest + 1 = longest - size + code.size symbol := by omega
  rw [length_eq] at below
  have split : bits = (lowBits (longest - size + code.size symbol) value).reverse := by
    rw [word, ← length_eq]
  refine ⟨symbol, has, ?_⟩
  rw [split, codeword_isPrefix_iff has below, number, size_eq, counted]
  omega

section Inner

/-- A proper beginning of a codeword. -/
def Inner (code : CanonicalCode longest) (path : List Bool) : Prop :=
  ∃ symbol, code.Has symbol ∧ path <+: code.codeword symbol ∧ path.length < code.size symbol

theorem Inner.length_lt {path : List Bool} (inner : code.Inner path) : path.length < longest := by
  rcases inner with ⟨symbol, has, _, shorter⟩
  exact Nat.lt_of_lt_of_le shorter (size_le_longest has)

/-- No codeword ends before an inner path does. -/
theorem Inner.not_isPrefix {path : List Bool} (inner : code.Inner path) (has : code.Has symbol) :
    ¬code.codeword symbol <+: path := by
  rcases inner with ⟨longer, longerHas, begins, shorter⟩
  intro within
  have same := eq_of_isPrefix has longerHas (within.trans begins)
  have length_le := within.length_le
  rw [length_codeword, same] at length_le
  omega

/-- A codeword which an inner path and one more bit begin with. -/
theorem Inner.eq_of_isPrefix_append {path more : List Bool} {bit : Bool}
    (inner : code.Inner path) (has : code.Has symbol)
    (begins : code.codeword symbol <+: path ++ bit :: more) :
    ∃ rest, rest <+: more ∧ code.codeword symbol = path ++ bit :: rest := by
  rcases List.prefix_or_prefix_of_prefix begins (List.prefix_append path (bit :: more)) with
    within | ⟨after, longer⟩
  · exact absurd within (inner.not_isPrefix has)
  · rw [← longer, List.prefix_append_right_inj] at begins
    cases after with
    | nil =>
        rw [List.append_nil] at longer
        exact absurd (longer ▸ List.prefix_refl path) (inner.not_isPrefix has)
    | cons other rest =>
        rcases List.cons_prefix_cons.mp begins with ⟨rfl, within⟩
        exact ⟨rest, within, longer.symm⟩

private theorem eq_of_marked {first second : List Bool} {count more : ℕ}
    (same : List.replicate count false ++ true :: first =
      List.replicate more false ++ true :: second) : first = second := by
  induction count generalizing more with
  | zero =>
      cases more with
      | zero => simpa using same
      | succ more => simp [List.replicate_succ] at same
  | succ count ih =>
      cases more with
      | zero => simp [List.replicate_succ] at same
      | succ more =>
          have shorter : List.replicate count false ++ true :: first =
              List.replicate more false ++ true :: second := by
            simpa [List.replicate_succ] using same
          exact ih shorter

/-- A complete code has a codeword right behind each inner path. -/
theorem Inner.exists_successor {code : CanonicalCode (longest + 1)} {path : List Bool}
    (inner : code.Inner path) (complete : weight (longest + 1) code.sizes = 2 ^ (longest + 1)) :
    ∃ symbol, code.Has symbol ∧
      ∃ count, code.codeword symbol = path ++ true :: List.replicate count false := by
  have shorter := inner.length_lt
  have enough : (path ++ true :: List.replicate (longest - path.length) false).length =
      longest + 1 := by
    simp only [List.length_append, List.length_cons, List.length_replicate]
    omega
  rcases exists_codeword_isPrefix complete enough with ⟨symbol, has, begins⟩
  rcases inner.eq_of_isPrefix_append has begins with ⟨rest, within, same⟩
  refine ⟨symbol, has, rest.length, ?_⟩
  rw [same, List.eq_replicate_of_mem fun bit bitMem =>
    List.eq_of_mem_replicate (within.subset bitMem), List.length_replicate]

theorem lt_length_of_has (has : code.Has symbol) : symbol < code.sizes.length :=
  (List.getElem?_eq_some_iff.mp (getElem?_of_has has)).1

theorem eq_of_single (single : code.sizes.countP (· ≠ 0) ≤ 1) (has : code.Has symbol)
    (otherHas : code.Has other) : symbol = other := by
  have general : ∀ {first second : ℕ}, code.Has first → code.Has second → ¬first < second := by
    intro first second firstHas secondHas order
    have split := List.take_append_drop second code.sizes
    have before : 0 < (code.sizes.take second).countP (· ≠ 0) := by
      apply List.countP_pos_iff.mpr
      refine ⟨code.size first, List.mem_of_getElem? (i := first) ?_, by simpa [Has] using firstHas⟩
      rw [List.getElem?_take_of_lt order, getElem?_of_has firstHas]
    have after : 0 < (code.sizes.drop second).countP (· ≠ 0) := by
      apply List.countP_pos_iff.mpr
      refine ⟨code.size second, List.mem_of_getElem? (i := 0) ?_, by simpa [Has] using secondHas⟩
      rw [List.getElem?_drop, Nat.add_zero, getElem?_of_has secondHas]
    have total : (code.sizes.take second).countP (· ≠ 0) +
        (code.sizes.drop second).countP (· ≠ 0) = code.sizes.countP (· ≠ 0) := by
      rw [← List.countP_append, split]
    omega
  exact Nat.le_antisymm (Nat.not_lt.mp (general otherHas has))
    (Nat.not_lt.mp (general has otherHas))

/-- How many inner paths there are. -/
theorem length_inner_le {code : CanonicalCode (longest + 1)} {paths : List (List Bool)}
    (nodup : paths.Nodup) (inner : ∀ path ∈ paths, code.Inner path) :
    paths.length ≤ max code.sizes.length (longest + 1) := by
  have embeds : ∀ {bound : ℕ} (label : List Bool → ℕ), (∀ path ∈ paths, label path < bound) →
      (∀ path ∈ paths, ∀ other ∈ paths, label path = label other → path = other) →
      paths.length ≤ bound := by
    intro bound label below injective
    have labels := List.Nodup.map_on injective nodup
    have inside : paths.map label ⊆ List.range bound := by
      intro symbol symbolMem
      rcases List.mem_map.mp symbolMem with ⟨path, pathMem, rfl⟩
      exact List.mem_range.mpr (below path pathMem)
    simpa using (List.subperm_of_subset labels inside).length_le
  rcases code.accepted with complete | single
  · have successors : ∀ path ∈ paths, ∃ symbol, code.Has symbol ∧
        ∃ count, code.codeword symbol = path ++ true :: List.replicate count false :=
      fun path pathMem => (inner path pathMem).exists_successor complete
    choose! label labels using successors
    apply Nat.le_trans _ (Nat.le_max_left _ _)
    apply embeds label
    · exact fun path pathMem => lt_length_of_has (labels path pathMem).1
    · intro path pathMem other otherMem same
      rcases (labels path pathMem).2 with ⟨count, word⟩
      rcases (labels other otherMem).2 with ⟨more, otherWord⟩
      rw [same, otherWord] at word
      have reversed := congrArg List.reverse word
      simp only [List.reverse_append, List.reverse_cons, List.reverse_replicate,
        List.append_assoc, List.singleton_append] at reversed
      exact (List.reverse_inj.mp (eq_of_marked reversed)).symm
  · apply Nat.le_trans _ (Nat.le_max_right _ _)
    apply embeds List.length
    · exact fun path pathMem => (inner path pathMem).length_lt
    · intro path pathMem other otherMem same
      rcases inner path pathMem with ⟨symbol, has, begins, _⟩
      rcases inner other otherMem with ⟨second, secondHas, otherBegins, _⟩
      rw [eq_of_single single secondHas has] at otherBegins
      exact (List.prefix_of_prefix_length_le begins otherBegins same.le).eq_of_length same

end Inner

end CanonicalCode

end Lucciefr
