import Mathlib.Algebra.BigOperators.Group.Finset.Piecewise
import Mathlib.Algebra.Order.Ring.Nat
import Mathlib.Data.List.Perm.Basic
import Lucciefr.Base.Threads
import Lucciefr.Uthash.Basic

/-!
# The chains of the buckets

The bucket order of a table as a family of lists, one for each bucket. An element is filed
under its key and hash, and `Chained` says that the buckets file exactly some elements,
each one in the bucket which its hash selects. Putting a handle in front of its bucket is
the step which adding an element and moving it to the new buckets have in common.
-/

namespace Lucciefr.Uthash

variable {Value : Type}

/-- A key and the hash of it. -/
abbrev Filing := List UInt8 × UInt32

namespace Element

/-- What an element is filed under. -/
def filing (element : Element Value) : Filing :=
  (element.hh.key, element.hh.hashv)

/-- The element as a node in bucket order. -/
def bucketView (element : Element Value) : Node Filing where
  prev := element.hh.hhPrev
  next := element.hh.hhNext
  value := element.filing

end Element

/-- The fields of an element which are not links. -/
structure Record (Value : Type) where
  tbl : Pointer
  key : List UInt8
  hashv : UInt32
  value : Value

/-- The element as a node in app order. -/
def Element.appView (element : Element Value) : Node (Record Value) where
  prev := element.hh.prev
  next := element.hh.next
  value := ⟨element.hh.tbl, element.hh.key, element.hh.hashv, element.value⟩

open Element

/-- The buckets lead to chains of handles, which file the elements by their hashes. -/
structure Chained (elements : Heap (Element Value)) (buckets : List HashBucket)
    (filings : List (ℕ × Filing)) (chain : ℕ → List (ℕ × Filing)) : Prop where
  represents : ∀ {bkt bucket}, buckets[bkt]? = some bucket →
    Represents (elements.seen bucketView) bucket.hhHead (chain bkt)
  count_eq : ∀ {bkt bucket}, buckets[bkt]? = some bucket → bucket.count = (chain bkt).length
  members : ∀ {bkt entry}, entry ∈ chain bkt ↔
    entry ∈ filings ∧ toBkt entry.2.2 buckets.length = bkt
  distinct : (addresses filings).Nodup

variable {elements next : Heap (Element Value)} {element : Element Value} {hhHead before : Pointer}
  {chained : List (ℕ × Filing)} {filings : List (ℕ × Filing)} {chain : ℕ → List (ℕ × Filing)}
  {buckets : List HashBucket} {bucket : HashBucket} {bkt address turns : ℕ}
  {change : HashHandle → HashHandle} {keyptr : List UInt8}

theorem unsigned_of_lt {value : ℕ} (small : value < 2 ^ 32) : unsigned value = value :=
  Nat.mod_eq_of_lt small

theorem decrement_of_pos {value : ℕ} (positive : 0 < value) (small : value ≤ 2 ^ 32) :
    decrement value = value - 1 := by
  rw [decrement, unsigned]
  omega

theorem cutKey_of_lt (short : keyptr.length < 2 ^ 32) : cutKey keyptr = keyptr := by
  rw [cutKey, unsigned_of_lt short, List.take_length]

theorem toBkt_lt {hashv : UInt32} {numBkts : ℕ} (some_bkt : 0 < numBkts)
    (few_bkts : numBkts ≤ 2 ^ 32) : toBkt hashv numBkts < numBkts := by
  rw [toBkt, decrement_of_pos some_bkt few_bkts]
  apply Nat.lt_of_le_of_lt Nat.and_le_right
  omega

theorem bucketAt_of_some (found : buckets[bkt]? = some bucket) :
    bucketAt buckets bkt = .ok bucket := by
  simp [bucketAt, found]

theorem modifyHandle_of_live (live : elements.cells address = some element) :
    modifyHandle elements (some address) change =
      .ok (elements.adjust (some address) fun element => element.withHandle change) :=
  Heap.modify_of_live live

theorem modifyHandleUnlessNull_of_valid {hhp : Pointer} (valid : elements.Valid hhp) :
    modifyHandleUnlessNull elements hhp change =
      .ok (elements.adjust hhp fun element => element.withHandle change) :=
  Heap.modifyUnlessNull_of_valid valid

/-- The handle is the first one of the bucket now, and only this bucket was written. -/
theorem pushHandle_spec (represents : Represents (elements.seen bucketView) hhHead chained)
    (live : elements.cells address = some element) (outside : address ∉ addresses chained) :
    ∃ next, pushHandle elements hhHead address = .ok next ∧
      Represents (next.seen bucketView) (some address) ((address, element.filing) :: chained) ∧
      next.seen appView = elements.seen appView ∧ next.bound = elements.bound ∧
      ∀ other, other ≠ address → other ∉ addresses chained →
        next.cells other = elements.cells other := by
  have valid : elements.Valid hhHead := by
    apply Heap.valid_of_seen
    rw [represents.head_eq]
    exact represents.linked.valid_first
  have pushed := represents.push (Heap.seen_of_live live) outside
  refine ⟨(elements.adjust (some address) fun element => element.withHandle fun hh =>
      { hh with hhPrev := none, hhNext := hhHead }).adjust hhHead fun element =>
        element.withHandle fun hh => { hh with hhPrev := some address }, ?_, ?_, ?_, rfl, ?_⟩
  · simp only [pushHandle, modifyHandle_of_live live, ok_bind]
    exact modifyHandleUnlessNull_of_valid (valid.adjust _ _)
  · rw [Heap.seen_adjust, Heap.seen_adjust]
    · exact pushed
    · intro cell
      rfl
    · intro cell
      rfl
  · rw [Heap.seen_adjust_of_unseen, Heap.seen_adjust_of_unseen]
    · intro cell
      rfl
    · intro cell
      rfl
  · intro other apart notChained
    have notFirst : hhHead ≠ some other := by
      rw [represents.head_eq]
      exact firstPointer_ne_of_notMem notChained
    rw [Heap.cells_adjust_of_ne notFirst, Heap.cells_adjust_of_ne]
    rintro ⟨rfl⟩
    exact apart rfl

/-- A search in a bucket finds the first handle with the key. -/
theorem findInBktFrom_eq (keyptr : List UInt8) (enough : chained.length ≤ turns)
    (linked : Linked (elements.seen bucketView) before chained none) :
    findInBktFrom elements keyptr turns (firstPointer chained none) =
      .ok ((chained.find? fun entry => entry.2.1 = keyptr).map Prod.fst) := by
  induction chained generalizing before turns with
  | nil => cases turns <;> rfl
  | cons entry rest ih =>
      rcases entry with ⟨address, filing⟩
      rcases Heap.exists_of_seen linked.1 with ⟨element, live, view_eq⟩
      have key_eq : element.hh.key = filing.1 := congrArg (fun node => node.value.1) view_eq
      have next_eq : element.hh.hhNext = firstPointer rest none := congrArg Node.next view_eq
      cases turns with
      | zero => simp at enough
      | succ turns =>
          simp only [firstPointer, findInBktFrom, Heap.load_of_live live, ok_bind, key_eq, next_eq]
          by_cases here : filing.1 = keyptr
          · simp [here]
          · simp only [List.find?_cons, here, decide_false]
            exact ih (Nat.le_of_succ_le_succ enough) linked.2

namespace Chained

theorem apart (chains : Chained elements buckets filings chain) {first second : ℕ}
    (firstMem : address ∈ addresses (chain first))
    (secondMem : address ∈ addresses (chain second)) : first = second := by
  rcases List.mem_map.mp firstMem with ⟨entry, entryMem, rfl⟩
  rcases List.mem_map.mp secondMem with ⟨other, otherMem, same⟩
  have filed := chains.members.mp entryMem
  have otherFiled := chains.members.mp otherMem
  have equal : other = entry :=
    List.inj_on_of_nodup_map chains.distinct otherFiled.1 filed.1 same
  rw [← filed.2, ← otherFiled.2, equal]

theorem notMem_of_fresh (chains : Chained elements buckets filings chain)
    (fresh : address ∉ addresses filings) : address ∉ addresses (chain bkt) := by
  intro chainMem
  rcases List.mem_map.mp chainMem with ⟨entry, entryMem, rfl⟩
  exact fresh (List.mem_map_of_mem (chains.members.mp entryMem).1)

/-- The buckets only depend on the elements which they file. -/
theorem frame (chains : Chained elements buckets filings chain)
    (unchanged : ∀ address ∈ addresses filings,
      (next.seen bucketView).cells address = (elements.seen bucketView).cells address) :
    Chained next buckets filings chain where
  represents := by
    intro bkt bucket found
    apply (chains.represents found).frame
    intro address addressMem
    apply unchanged
    rcases List.mem_map.mp addressMem with ⟨entry, entryMem, rfl⟩
    exact List.mem_map_of_mem (chains.members.mp entryMem).1
  count_eq := chains.count_eq
  members := chains.members
  distinct := chains.distinct

/-- Empty buckets file nothing. -/
theorem zero (elements : Heap (Element Value)) (count : ℕ) :
    Chained elements (List.replicate count .zero) [] fun _ => [] where
  represents := by
    intro bkt bucket found
    rw [List.getElem?_replicate] at found
    split at found
    · simp only [Option.some.injEq] at found
      subst found
      exact Represents.nil _
    · contradiction
  count_eq := by
    intro bkt bucket found
    rw [List.getElem?_replicate] at found
    split at found
    · simp only [Option.some.injEq] at found
      subst found
      rfl
    · contradiction
  members := by simp
  distinct := by simp

/-- A chain holds the filings which select its bucket. -/
theorem perm (chains : Chained elements buckets filings chain)
    (found : buckets[bkt]? = some bucket) :
    (chain bkt).Perm (filings.filter fun entry => toBkt entry.2.2 buckets.length = bkt) := by
  apply (List.perm_ext_iff_of_nodup _ _).mpr
  · intro entry
    simp [chains.members]
  · exact List.Nodup.of_map _ (chains.represents found).distinct
  · exact (List.Nodup.of_map _ chains.distinct).filter _

theorem length_le (chains : Chained elements buckets filings chain)
    (found : buckets[bkt]? = some bucket) : (chain bkt).length ≤ filings.length := by
  rw [(chains.perm found).length_eq]
  exact List.length_filter_le _ _

/-- Another chain for one bucket. -/
theorem set (chains : Chained elements buckets filings chain) {filed : List (ℕ × Filing)}
    (inside : bkt < buckets.length)
    (represents : Represents (next.seen bucketView) bucket.hhHead chained)
    (count_eq : bucket.count = chained.length)
    (unchanged : ∀ other, other ∉ addresses (chain bkt) → other ∈ addresses filings →
      next.cells other = elements.cells other)
    (members : ∀ entry, entry ∈ chained ↔
      entry ∈ filed ∧ toBkt entry.2.2 buckets.length = bkt)
    (others : ∀ entry, toBkt entry.2.2 buckets.length ≠ bkt → (entry ∈ filed ↔ entry ∈ filings))
    (distinct : (addresses filed).Nodup) :
    Chained next (buckets.set bkt bucket) filed (Function.update chain bkt chained) where
  represents := by
    intro other otherBucket found
    by_cases here : bkt = other
    · subst here
      rw [List.getElem?_set_self inside, Option.some.injEq] at found
      subst found
      rw [Function.update_self]
      exact represents
    · rw [List.getElem?_set_ne here] at found
      rw [Function.update_of_ne (Ne.symm here)]
      apply (chains.represents found).frame
      intro address addressMem
      apply Heap.seen_congr
      apply unchanged
      · intro here'
        exact here (chains.apart here' addressMem)
      · rcases List.mem_map.mp addressMem with ⟨entry, entryMem, rfl⟩
        exact List.mem_map_of_mem (chains.members.mp entryMem).1
  count_eq := by
    intro other otherBucket found
    by_cases here : bkt = other
    · subst here
      rw [List.getElem?_set_self inside, Option.some.injEq] at found
      subst found
      rw [Function.update_self]
      exact count_eq
    · rw [List.getElem?_set_ne here] at found
      rw [Function.update_of_ne (Ne.symm here)]
      exact chains.count_eq found
  members := by
    intro other entry
    rw [List.length_set]
    by_cases here : other = bkt
    · subst here
      rw [Function.update_self]
      exact members entry
    · rw [Function.update_of_ne here, chains.members]
      constructor
      · rintro ⟨filingsMem, rfl⟩
        exact ⟨(others entry here).mpr filingsMem, rfl⟩
      · rintro ⟨filedMem, rfl⟩
        exact ⟨(others entry here).mp filedMem, rfl⟩
  distinct := distinct

/-- Filing one more element. -/
theorem push (chains : Chained elements buckets filings chain)
    (live : elements.cells address = some element) (fresh : address ∉ addresses filings)
    (bkt_eq : toBkt element.hh.hashv buckets.length = bkt) (found : buckets[bkt]? = some bucket)
    (small : filings.length + 1 < 2 ^ 32) (expandMult : ℕ) :
    ∃ next, pushHandle elements bucket.hhHead address = .ok next ∧
      Chained next
        (buckets.set bkt
          { hhHead := some address
            count := unsigned (bucket.count + 1)
            expandMult := expandMult })
        (filings ++ [(address, element.filing)])
        (Function.update chain bkt ((address, element.filing) :: chain bkt)) ∧
      next.seen appView = elements.seen appView ∧ next.bound = elements.bound ∧
      ∀ other, other ≠ address → other ∉ addresses filings →
        next.cells other = elements.cells other := by
  rcases pushHandle_spec (chains.represents found) live (chains.notMem_of_fresh fresh) with
    ⟨next, pushed, represents, app_eq, bound_eq, unchanged⟩
  refine ⟨next, pushed, ?_, app_eq, bound_eq, ?_⟩
  · apply chains.set (List.getElem?_eq_some_iff.mp found).1 represents
    · have short := chains.length_le found
      rw [chains.count_eq found, unsigned_of_lt (by omega), List.length_cons]
    · intro other notHere otherMem
      apply unchanged other _ notHere
      rintro rfl
      exact fresh otherMem
    · intro entry
      rw [List.mem_cons, chains.members, List.mem_append, List.mem_singleton]
      constructor
      · rintro (rfl | ⟨filed, selects⟩)
        · exact ⟨Or.inr rfl, bkt_eq⟩
        · exact ⟨Or.inl filed, selects⟩
      · rintro ⟨filed | rfl, selects⟩
        · exact Or.inr ⟨filed, selects⟩
        · exact Or.inl rfl
    · intro entry elsewhere
      rw [List.mem_append, List.mem_singleton]
      constructor
      · rintro (filed | rfl)
        · exact filed
        · exact absurd bkt_eq elsewhere
      · exact Or.inl
    · simp only [addresses, List.map_append, List.map_cons, List.map_nil]
      apply List.nodup_append.mpr
      refine ⟨chains.distinct, by simp, ?_⟩
      rintro other otherMem same sameMem rfl
      simp only [List.mem_singleton] at sameMem
      exact fresh (sameMem ▸ otherMem)
  · intro other apart notFiled
    exact unchanged other apart (chains.notMem_of_fresh notFiled)

end Chained

/-- Every member of a list is in one of the parts which it is divided in. -/
theorem sum_countP_range {α : Type} {list : List α} {count : ℕ} {part : α → ℕ}
    (inside : ∀ member ∈ list, part member < count) :
    ((List.range count).map fun index => list.countP fun member => part member = index).sum =
      list.length := by
  induction list with
  | nil => simp
  | cons member rest ih =>
      have here : ((List.range count).map fun index => if part member = index then 1 else 0).sum =
          1 := by
        have one := Finset.sum_ite_eq (Finset.range count) (part member) fun _ => 1
        rw [if_pos (Finset.mem_range.mpr (inside member (by simp)))] at one
        exact one
      simp only [List.countP_cons, decide_eq_true_eq, List.sum_map_add, here, List.length_cons]
      rw [ih fun other otherMem => inside other (List.mem_cons_of_mem _ otherMem)]

/-- Each element is counted in one bucket. -/
theorem Chained.sum_counts (chains : Chained elements buckets filings chain)
    (some_bkt : 0 < buckets.length) (few_bkts : buckets.length ≤ 2 ^ 32) :
    (buckets.map fun bucket => bucket.count).sum = filings.length := by
  have counts : (buckets.map fun bucket => bucket.count) =
      (List.range buckets.length).map fun bkt =>
        filings.countP fun entry => toBkt entry.2.2 buckets.length = bkt := by
    apply List.ext_getElem?
    intro bkt
    rw [List.getElem?_map, List.getElem?_map]
    cases found : buckets[bkt]? with
    | none =>
        rw [List.getElem?_eq_none (by simpa using found)]
        rfl
    | some bucket =>
        rw [List.getElem?_range (List.getElem?_eq_some_iff.mp found).1, Option.map_some,
          Option.map_some, chains.count_eq found, (chains.perm found).length_eq,
          List.countP_eq_length_filter]
  rw [counts, sum_countP_range]
  intro entry _
  exact toBkt_lt some_bkt few_bkts

end Lucciefr.Uthash
