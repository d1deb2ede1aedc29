import Lucciefr.Tinfl.Counting

/-!
# The assignment of codes

What the loop over the symbols of a code makes of the tables. The fast lookup has one
entry for each sequence of ten bits, and each node of the tree has two entries, for the
paths which are one bit longer. An entry leads to the node of its path, or to the symbol
whose codeword the path begins with, or it is empty.

The nodes are allocated when they are first needed, so that their numbers depend on the
order of the symbols. They are inner paths of the code, each of them once, which is why
the tree is large enough.
-/

namespace Lucciefr.Tinfl

variable {code : CanonicalCode 15} {known reached symbol index : ℕ} {nodes : List (List Bool)}
  {path other : List Bool} {bit : Bool} {entry : ℤ} {tables : Assignment}

theorem fastLookupSize_eq : fastLookupSize = 1024 := rfl

/-- The entry for a symbol. -/
def leafEntry (code : CanonicalCode 15) (symbol : ℕ) : ℤ :=
  if code.size symbol ≤ 10 then (code.size symbol <<< 9 ||| symbol : ℕ) else symbol

/-- What an entry for a path says. -/
inductive Slot (code : CanonicalCode 15) (known : ℕ) (nodes : List (List Bool)) :
    List Bool → ℤ → Prop where
  | node {path : List Bool} {index : ℕ} (found : nodes[index]? = some path) :
      Slot code known nodes path (-(2 * index + 1))
  | leaf {path : List Bool} {symbol : ℕ} (before : symbol < known) (has : code.Has symbol)
      (begins : code.codeword symbol <+: path) : Slot code known nodes path (leafEntry code symbol)
  | empty {path : List Bool} (notMem : path ∉ nodes)
      (unused : ∀ symbol < known, code.Has symbol → ¬code.codeword symbol <+: path) :
      Slot code known nodes path 0

/-- A proper beginning of the codeword of one of the first symbols. -/
def InnerBelow (code : CanonicalCode 15) (reached : ℕ) (path : List Bool) : Prop :=
  ∃ symbol < reached, code.Has symbol ∧ path <+: code.codeword symbol ∧
    path.length < code.size symbol

theorem InnerBelow.inner (inner : InnerBelow code reached path) : code.Inner path := by
  rcases inner with ⟨symbol, _, has, begins, shorter⟩
  exact ⟨symbol, has, begins, shorter⟩

theorem InnerBelow.mono {later : ℕ} (inner : InnerBelow code reached path)
    (order : reached ≤ later) : InnerBelow code later path := by
  rcases inner with ⟨symbol, before, rest⟩
  exact ⟨symbol, Nat.lt_of_lt_of_le before order, rest⟩

/-- The nodes when the codes of the known symbols were entered. -/
structure Shape (code : CanonicalCode 15) (known reached : ℕ) (nodes : List (List Bool)) :
    Prop where
  nodup : nodes.Nodup
  long : ∀ path ∈ nodes, 10 ≤ path.length
  inner : ∀ path ∈ nodes, InnerBelow code reached path
  parent : ∀ path bit, path ++ [bit] ∈ nodes → 10 ≤ path.length → path ∈ nodes
  closed : ∀ symbol < known, code.Has symbol → ∀ path, path <+: code.codeword symbol →
    10 ≤ path.length → path.length < code.size symbol → path ∈ nodes

/-- The tables hold these nodes. -/
structure Trie (code : CanonicalCode 15) (known reached : ℕ) (nodes : List (List Bool))
    (tables : Assignment) : Prop extends Shape code known reached nodes where
  lookUp_length : tables.lookUp.length = 1024
  tree_length : tables.tree.length = 576
  treeNext_eq : tables.treeNext = -(2 * nodes.length + 1)
  lookUp : ∀ index < 1024, ∃ entry, tables.lookUp[index]? = some entry ∧
    Slot code known nodes (lowBits 10 index) entry
  tree : ∀ index path bit, nodes[index]? = some path →
    ∃ entry, tables.tree[2 * index + bit.toNat]? = some entry ∧
      Slot code known nodes (path ++ [bit]) entry
  unused : ∀ index, 2 * nodes.length ≤ index → index < 576 → tables.tree[index]? = some 0

theorem Shape.initial : Shape code 0 0 [] where
  nodup := List.nodup_nil
  long := nofun
  inner := nofun
  parent := nofun
  closed := nofun

theorem Shape.length_le (shape : Shape code known reached nodes)
    (few : code.sizes.length ≤ 288) : nodes.length ≤ 288 := by
  have bound := CanonicalCode.length_inner_le shape.nodup fun path pathMem =>
    (shape.inner path pathMem).inner
  omega

namespace Slot

/-- The entry for a path which is not taken by another symbol stays as it is. -/
theorem step (slot : Slot code known nodes path entry)
    (apart : code.Has known → ¬code.codeword known <+: path) :
    Slot code (known + 1) nodes path entry := by
  cases slot with
  | node found => exact .node found
  | leaf before has begins => exact .leaf (Nat.lt_succ_of_lt before) has begins
  | empty notMem unused =>
      apply empty notMem
      intro symbol before has
      rcases Nat.lt_succ_iff_lt_or_eq.mp before with earlier | rfl
      · exact unused symbol earlier has
      · exact apart has

/-- A new node does not change the entries for other paths. -/
theorem add (slot : Slot code known nodes other entry) (different : other ≠ path) :
    Slot code known (nodes ++ [path]) other entry := by
  cases slot with
  | node found =>
      apply node
      rw [List.getElem?_append_left (List.getElem?_eq_some_iff.mp found).1, found]
  | leaf before has begins => exact .leaf before has begins
  | empty notMem unused =>
      apply empty _ unused
      simp [notMem, different]

theorem new : Slot code known (nodes ++ [path]) path (-(2 * nodes.length + 1)) := by
  apply node
  simp

/-- The entry for an inner path leads to its node, if there is one. -/
theorem of_inner (slot : Slot code known nodes path entry) (inner : code.Inner path) :
    (∃ index : ℕ, nodes[index]? = some path ∧ entry = -(2 * index + 1)) ∨
      path ∉ nodes ∧ entry = 0 := by
  cases slot with
  | node found => exact .inl ⟨_, found, rfl⟩
  | leaf _ has begins => exact absurd begins (inner.not_isPrefix has)
  | empty notMem _ => exact .inr ⟨notMem, rfl⟩

end Slot

namespace Shape

/-- The codewords of the known symbols do not end right behind a new node. -/
theorem slot_fresh (shape : Shape code known reached nodes) (notMem : path ∉ nodes)
    (long : 10 ≤ path.length) (inner : code.Inner path) :
    Slot code known (nodes ++ [path]) (path ++ [bit]) 0 := by
  apply Slot.empty
  · intro pathMem
    rcases List.mem_append.mp pathMem with old | new
    · exact notMem (shape.parent path bit old long)
    · have same := List.mem_singleton.mp new
      simp at same
  · intro symbol before has begins
    rcases inner.eq_of_isPrefix_append has begins with ⟨rest, within, same⟩
    apply notMem
    apply shape.closed symbol before has path _ long
    · rw [← CanonicalCode.length_codeword, same]
      simp
    · rw [same]
      exact List.prefix_append _ _

theorem add (shape : Shape code known reached nodes) (notMem : path ∉ nodes)
    (long : 10 ≤ path.length) (inner : InnerBelow code reached path)
    (above : ∀ front bit, path = front ++ [bit] → 10 ≤ front.length → front ∈ nodes) :
    Shape code known reached (nodes ++ [path]) where
  nodup := by
    rw [List.nodup_append]
    refine ⟨shape.nodup, List.nodup_singleton path, ?_⟩
    intro other otherMem last lastMem same
    rw [List.mem_singleton.mp lastMem] at same
    exact notMem (same ▸ otherMem)
  long := by
    intro other otherMem
    rcases List.mem_append.mp otherMem with old | new
    · exact shape.long other old
    · rw [List.mem_singleton.mp new]
      exact long
  inner := by
    intro other otherMem
    rcases List.mem_append.mp otherMem with old | new
    · exact shape.inner other old
    · rw [List.mem_singleton.mp new]
      exact inner
  parent := by
    intro other bit otherMem otherLong
    apply List.mem_append_left
    rcases List.mem_append.mp otherMem with old | new
    · exact shape.parent other bit old otherLong
    · exact above other bit (List.mem_singleton.mp new).symm otherLong
  closed := by
    intro symbol before has other begins otherLong shorter
    exact List.mem_append_left _ (shape.closed symbol before has other begins otherLong shorter)

end Shape

/-- Each entry of the tree is the one for a single path. -/
theorem Shape.same_place_iff (bit : Bool) {front : List Bool} {second : ℕ} (last : Bool)
    (shape : Shape code known reached nodes) (node : nodes[index]? = some path)
    (otherNode : nodes[second]? = some front) :
    2 * index + bit.toNat = 2 * second + last.toNat ↔ front ++ [last] = path ++ [bit] := by
  constructor
  · intro places
    have bit_lt := Bool.toNat_lt bit
    have last_lt := Bool.toNat_lt last
    have indices : index = second := by omega
    have bits : bit.toNat = last.toNat := by omega
    rw [← indices, node] at otherNode
    cases otherNode
    rw [bit_eq_of_toNat bits]
  · intro same
    rcases List.append_inj' same rfl with ⟨rfl, bits⟩
    cases bits
    have before := (List.getElem?_eq_some_iff.mp node).1
    rw [(List.getElem?_inj before shape.nodup).mp (node.trans otherNode.symm)]

namespace Shape

theorem reach {later : ℕ} (shape : Shape code known reached nodes) (order : reached ≤ later) :
    Shape code known later nodes :=
  { shape with inner := fun path pathMem => (shape.inner path pathMem).mono order }

/-- All inner paths of the next symbol have nodes. -/
theorem step (shape : Shape code known reached nodes)
    (closed : code.Has known → ∀ path, path <+: code.codeword known → 10 ≤ path.length →
      path.length < code.size known → path ∈ nodes) : Shape code (known + 1) reached nodes :=
  { shape with
    closed := by
      intro symbol before has
      rcases Nat.lt_succ_iff_lt_or_eq.mp before with earlier | rfl
      · exact shape.closed symbol earlier has
      · exact closed has }

end Shape

namespace Trie

theorem initial {nextCode : List ℕ} :
    Trie code 0 0 []
      { lookUp := List.replicate fastLookupSize 0
        tree := List.replicate (maxHuffSymbols0 * 2) 0
        nextCode := nextCode
        treeNext := -1 } where
  toShape := .initial
  lookUp_length := List.length_replicate
  tree_length := List.length_replicate
  treeNext_eq := rfl
  lookUp := by
    intro index inside
    refine ⟨0, ?_, .empty nofun nofun⟩
    rw [List.getElem?_replicate]
    exact if_pos inside
  tree := nofun
  unused := by
    intro index _ inside
    rw [List.getElem?_replicate]
    exact if_pos inside

/-- A symbol without a codeword changes nothing. -/
theorem skip (trie : Trie code known known nodes tables) (unused : ¬code.Has known) :
    Trie code (known + 1) (known + 1) nodes tables where
  toShape := (trie.step fun has => absurd has unused).reach (Nat.le_succ known)
  lookUp_length := trie.lookUp_length
  tree_length := trie.tree_length
  treeNext_eq := trie.treeNext_eq
  lookUp := by
    intro index inside
    rcases trie.lookUp index inside with ⟨entry, found, slot⟩
    exact ⟨entry, found, slot.step fun has => absurd has unused⟩
  tree := by
    intro index path bit node
    rcases trie.tree index path bit node with ⟨entry, found, slot⟩
    exact ⟨entry, found, slot.step fun has => absurd has unused⟩
  unused := trie.unused

/-- A short code is entered wherever a path begins with it. -/
theorem enterShort {lookUp : List ℤ} (trie : Trie code known known nodes tables)
    (has : code.Has known) (short : code.size known ≤ 10) (length_eq : lookUp.length = 1024)
    (filled : ∀ index < 1024, lookUp[index]? =
      if code.codeword known <+: lowBits 10 index then some (leafEntry code known)
      else tables.lookUp[index]?) :
    Trie code (known + 1) (known + 1) nodes { tables with lookUp := lookUp } where
  toShape := by
    apply (trie.step _).reach (Nat.le_succ known)
    intro _ path _ long shorter
    omega
  lookUp_length := length_eq
  tree_length := trie.tree_length
  treeNext_eq := trie.treeNext_eq
  lookUp := by
    intro index inside
    by_cases begins : code.codeword known <+: lowBits 10 index
    · refine ⟨_, ?_, .leaf (Nat.lt_succ_self known) has begins⟩
      rw [filled index inside, if_pos begins]
    · rcases trie.lookUp index inside with ⟨entry, found, slot⟩
      refine ⟨entry, ?_, slot.step fun _ => begins⟩
      rw [filled index inside, if_neg begins, found]
  tree := by
    intro index path bit node
    rcases trie.tree index path bit node with ⟨entry, found, slot⟩
    refine ⟨entry, found, slot.step fun _ begins => ?_⟩
    have pathMem := List.mem_of_getElem? node
    apply (trie.inner path pathMem).inner.not_isPrefix has
    apply List.prefix_of_prefix_length_le begins (List.prefix_append _ _)
    rw [CanonicalCode.length_codeword]
    exact Nat.le_trans short (trie.long path pathMem)
  unused := trie.unused

/-- A node is allocated, and the entry for its path leads to it. -/
theorem addNode {lookUp tree : List ℤ} (trie : Trie code known reached nodes tables)
    (few : code.sizes.length ≤ 288) (shape : Shape code known reached (nodes ++ [path]))
    (lookUp_length : lookUp.length = 1024) (tree_length : tree.length = 576)
    (lookUp_eq : ∀ index < 1024, lookUp[index]? =
      if lowBits 10 index = path then some tables.treeNext else tables.lookUp[index]?)
    (tree_eq : ∀ index other bit, nodes[index]? = some other → tree[2 * index + bit.toNat]? =
      if other ++ [bit] = path then some tables.treeNext
      else tables.tree[2 * index + bit.toNat]?)
    (unused : ∀ index, 2 * nodes.length ≤ index → tree[index]? = tables.tree[index]?) :
    Trie code known reached (nodes ++ [path])
      { tables with lookUp := lookUp, tree := tree, treeNext := tables.treeNext - 2 } where
  toShape := shape
  lookUp_length := lookUp_length
  tree_length := tree_length
  treeNext_eq := by
    simp only [trie.treeNext_eq, List.length_append, List.length_singleton]
    omega
  lookUp := by
    intro index inside
    simp only [lookUp_eq index inside]
    by_cases here : lowBits 10 index = path
    · rw [if_pos here, trie.treeNext_eq, here]
      exact ⟨_, rfl, .new⟩
    · rcases trie.lookUp index inside with ⟨entry, found, slot⟩
      rw [if_neg here]
      exact ⟨entry, found, slot.add here⟩
  tree := by
    intro index other bit node
    rcases Nat.lt_or_ge index nodes.length with before | after
    · rw [List.getElem?_append_left before] at node
      simp only [tree_eq index other bit node]
      by_cases here : other ++ [bit] = path
      · rw [if_pos here, trie.treeNext_eq, here]
        exact ⟨_, rfl, .new⟩
      · rcases trie.tree index other bit node with ⟨entry, found, slot⟩
        rw [if_neg here]
        exact ⟨entry, found, slot.add here⟩
    · -- the new node is empty
      have bound := shape.length_le few
      have bit_lt := Bool.toNat_lt bit
      rw [List.length_append, List.length_singleton] at bound
      rw [List.getElem?_append_right after, List.getElem?_singleton] at node
      split at node
      · cases node
        have pathMem : path ∈ nodes ++ [path] := by simp
        have notMem : path ∉ nodes := by
          have nodup := shape.nodup
          rw [List.nodup_append] at nodup
          exact fun old => nodup.2.2 path old path (List.mem_singleton_self path) rfl
        refine ⟨0, ?_, trie.slot_fresh notMem (shape.long path pathMem)
          (shape.inner path pathMem).inner⟩
        rw [unused _ (by omega)]
        exact trie.unused _ (by omega) (by omega)
      · cases node
  unused := by
    intro index above below
    rw [List.length_append, List.length_singleton] at above
    rw [unused index (by omega)]
    exact trie.unused index (by omega) below

/-- A node for the first ten bits of a long code. -/
theorem addFirst (trie : Trie code known reached nodes tables) (few : code.sizes.length ≤ 288)
    (inside : index < 1024) (inner : InnerBelow code reached (lowBits 10 index))
    (notMem : lowBits 10 index ∉ nodes) :
    Trie code known reached (nodes ++ [lowBits 10 index])
      { tables with
        lookUp := tables.lookUp.set index tables.treeNext
        treeNext := tables.treeNext - 2 } := by
  apply trie.addNode few
  · apply trie.add notMem (by simp) inner
    intro front bit same long
    have lengths := congrArg List.length same
    simp only [length_lowBits, List.length_append, List.length_singleton] at lengths
    omega
  · rw [List.length_set, trie.lookUp_length]
  · exact trie.tree_length
  · intro other otherInside
    rw [List.getElem?_set, trie.lookUp_length, if_pos inside]
    by_cases same : index = other
    · rw [if_pos same, if_pos (by rw [same])]
    · rw [if_neg same, if_neg]
      intro paths
      have residues := mod_eq_of_lowBits paths
      omega
  · intro other path bit node
    rw [if_neg]
    intro paths
    have long := trie.long path (List.mem_of_getElem? node)
    have lengths := congrArg List.length paths
    simp only [length_lowBits, List.length_append, List.length_singleton] at lengths
    omega
  · exact fun _ _ => rfl

/-- A node for one more bit. -/
theorem addNext (trie : Trie code known reached nodes tables) (few : code.sizes.length ≤ 288)
    (node : nodes[index]? = some path) (inner : InnerBelow code reached (path ++ [bit]))
    (notMem : path ++ [bit] ∉ nodes) :
    Trie code known reached (nodes ++ [path ++ [bit]])
      { tables with
        tree := tables.tree.set (2 * index + bit.toNat) tables.treeNext
        treeNext := tables.treeNext - 2 } := by
  have long := trie.long path (List.mem_of_getElem? node)
  have before := (List.getElem?_eq_some_iff.mp node).1
  have bit_lt := Bool.toNat_lt bit
  apply trie.addNode few
  · apply trie.add notMem (by simp; omega) inner
    intro front last same _
    rw [(List.append_inj' same rfl).1] at node
    exact List.mem_of_getElem? node
  · exact trie.lookUp_length
  · rw [List.length_set, trie.tree_length]
  · intro other _
    rw [if_neg]
    intro paths
    have lengths := congrArg List.length paths
    simp only [length_lowBits, List.length_append, List.length_singleton] at lengths
    omega
  · intro other front last otherNode
    have bound := trie.toShape.length_le few
    have places := Shape.same_place_iff bit last trie.toShape node otherNode
    have inside : 2 * index + bit.toNat < 576 := by omega
    rw [List.getElem?_set, trie.tree_length, if_pos inside]
    exact if_congr places rfl rfl
  · intro other above
    rw [List.getElem?_set_ne (by omega)]

/-- The last bit of a long code leads to its symbol. -/
theorem enterLong (trie : Trie code known (known + 1) nodes tables)
    (few : code.sizes.length ≤ 288) (has : code.Has known)
    (word : code.codeword known = path ++ [bit]) (long : 10 < code.size known)
    (node : nodes[index]? = some path)
    (closed : ∀ path, path <+: code.codeword known → 10 ≤ path.length →
      path.length < code.size known → path ∈ nodes) :
    Trie code (known + 1) (known + 1) nodes
      { tables with tree := tables.tree.set (2 * index + bit.toNat) known } where
  toShape := trie.step fun _ => closed
  lookUp_length := trie.lookUp_length
  tree_length := by rw [List.length_set, trie.tree_length]
  treeNext_eq := trie.treeNext_eq
  lookUp := by
    intro other inside
    rcases trie.lookUp other inside with ⟨entry, found, slot⟩
    refine ⟨entry, found, slot.step fun _ begins => ?_⟩
    have shorter := begins.length_le
    rw [CanonicalCode.length_codeword, length_lowBits] at shorter
    omega
  tree := by
    intro other front last otherNode
    have before := (List.getElem?_eq_some_iff.mp node).1
    have bit_lt := Bool.toNat_lt bit
    have bound := trie.toShape.length_le few
    have places := Shape.same_place_iff bit last trie.toShape node otherNode
    have inside : 2 * index + bit.toNat < 576 := by omega
    rw [List.getElem?_set, trie.tree_length, if_pos inside]
    by_cases same : front ++ [last] = path ++ [bit]
    · rw [if_pos (places.mpr same), same]
      refine ⟨known, rfl, ?_⟩
      have leaf : Slot code (known + 1) nodes (code.codeword known) (leafEntry code known) :=
        .leaf (Nat.lt_succ_self known) has (List.prefix_refl _)
      rwa [leafEntry, if_neg (Nat.not_le.mpr long), word] at leaf
    · rw [if_neg fun place => same (places.mp place)]
      rcases trie.tree other front last otherNode with ⟨entry, found, slot⟩
      refine ⟨entry, found, slot.step fun _ begins => ?_⟩
      have inner := (trie.inner front (List.mem_of_getElem? otherNode)).inner
      rcases inner.eq_of_isPrefix_append has begins with ⟨rest, within, split⟩
      rw [List.prefix_nil.mp within, word] at split
      exact same split.symm
  unused := by
    intro other above below
    have before := (List.getElem?_eq_some_iff.mp node).1
    have bit_lt := Bool.toNat_lt bit
    rw [List.getElem?_set_ne (by omega)]
    exact trie.unused other above below

end Trie

end Lucciefr.Tinfl
