import Mathlib.Algebra.BigOperators.Ring.List
import Mathlib.Algebra.Order.BigOperators.Group.List
import Mathlib.Algebra.Order.Ring.Nat
import Mathlib.Tactic.Ring
import Lucciefr.Uthash.Expand

/-!
# The bound on the chains

As long as expansion is not inhibited, a chain is no longer than the multiple of the
threshold at which its bucket asks for an expansion. The multipliers sum up to at most the
number of buckets, whatever the hash function is: the items which an expansion leaves
beyond the ideal chain length are not more than the items. So there are at most twenty
items for each bucket, and the ideal chain length of an expansion is at most the threshold.
-/

namespace Lucciefr.Uthash

variable {Value : Type} {build : Build} {elements : Heap (Element Value)}
  {filings : List (ℕ × Filing)} {table next : HashTable} {bucket changed : HashBucket} {bkt : ℕ}

/-- The chain length at which a bucket asks for an expansion, if the product does not wrap. -/
def HashBucket.limit (bucket : HashBucket) : ℕ :=
  (bucket.expandMult + 1) * bktCapacityThresh

/-- No chain exceeds the limit of its bucket, and the limits are bounded together. -/
structure Balanced (table : HashTable) : Prop where
  count_le : ∀ bucket ∈ table.buckets, bucket.count ≤ bucket.limit
  count_lt : ∀ bucket ∈ table.buckets, 0 < bucket.expandMult → bucket.count < bucket.limit
  sum_le : (table.buckets.map fun bucket => bucket.expandMult).sum ≤ table.numBuckets

theorem sum_limits (buckets : List HashBucket) :
    (buckets.map HashBucket.limit).sum =
      (buckets.map fun bucket => bucket.expandMult).sum * bktCapacityThresh +
        buckets.length * bktCapacityThresh := by
  induction buckets with
  | nil => rfl
  | cons bucket rest ih =>
      simp only [List.map_cons, List.sum_cons, List.length_cons, ih, HashBucket.limit]
      ring

namespace Balanced

theorem initial (tail : Pointer) : Balanced (.initial tail) where
  count_le := by
    intro bucket bucketMem
    rw [List.eq_of_mem_replicate bucketMem]
    exact Nat.zero_le _
  count_lt := by
    intro bucket bucketMem multiplied
    rw [List.eq_of_mem_replicate bucketMem] at multiplied
    cases multiplied
  sum_le := by
    rw [HashTable.initial, List.map_replicate, List.sum_replicate]
    exact Nat.zero_le _

/-- There are less than twenty items for each bucket. -/
theorem sum_counts_lt (balanced : Balanced table) (some_bkt : 0 < table.numBuckets)
    (length_eq : table.buckets.length = table.numBuckets) :
    (table.buckets.map fun bucket => bucket.count).sum <
      2 * bktCapacityThresh * table.numBuckets := by
  have limits := sum_limits table.buckets
  have sum_le := balanced.sum_le
  by_cases strict : ∃ bucket ∈ table.buckets, 0 < bucket.expandMult
  · rcases strict with ⟨bucket, bucketMem, multiplied⟩
    have below := List.sum_lt_sum (fun bucket : HashBucket => bucket.count) HashBucket.limit
      balanced.count_le ⟨bucket, bucketMem, balanced.count_lt bucket bucketMem multiplied⟩
    simp only [bktCapacityThresh] at limits ⊢
    omega
  · have plain : (table.buckets.map fun bucket => bucket.expandMult).sum = 0 := by
      apply List.sum_eq_zero
      intro multiplier multiplierMem
      rcases List.mem_map.mp multiplierMem with ⟨bucket, bucketMem, rfl⟩
      by_contra positive
      exact strict ⟨bucket, bucketMem, Nat.pos_of_ne_zero positive⟩
    have below : (table.buckets.map fun bucket => bucket.count).sum ≤
        (table.buckets.map HashBucket.limit).sum := List.sum_le_sum balanced.count_le
    simp only [bktCapacityThresh] at limits ⊢
    omega

/-- Another length for the chain of one bucket. -/
theorem set (balanced : Balanced table) (found : table.buckets[bkt]? = some bucket)
    (same : changed.expandMult = bucket.expandMult)
    (within : changed.count ≤ bucket.count ∨ changed.count < bucket.limit) :
    Balanced (table.setBucket bkt changed) := by
  have bucketMem := List.mem_of_getElem? found
  have limit_eq : changed.limit = bucket.limit := by
    rw [HashBucket.limit, HashBucket.limit, same]
  refine ⟨?_, ?_, ?_⟩
  · intro other otherMem
    rcases List.mem_or_eq_of_mem_set otherMem with old | rfl
    · exact balanced.count_le other old
    · have before := balanced.count_le bucket bucketMem
      omega
  · intro other otherMem multiplied
    rcases List.mem_or_eq_of_mem_set otherMem with old | rfl
    · exact balanced.count_lt other old multiplied
    · have before := balanced.count_lt bucket bucketMem (same ▸ multiplied)
      omega
  · have multipliers : ((table.setBucket bkt changed).buckets.map fun bucket => bucket.expandMult) =
        table.buckets.map fun bucket => bucket.expandMult := by
      rw [HashTable.setBucket, List.map_set, same]
      apply List.ext_getElem?
      intro other
      rw [List.getElem?_set]
      split
      · rename_i here
        subst here
        split
        · simp [found]
        · rename_i outside
          rw [List.getElem?_eq_none (Nat.le_of_not_lt outside)]
      · rfl
    rw [multipliers]
    exact balanced.sum_le

/-- Only the buckets matter. -/
theorem of_same (balanced : Balanced table) (buckets_eq : next.buckets = table.buckets)
    (numBuckets_eq : next.numBuckets = table.numBuckets) : Balanced next where
  count_le := by
    rw [buckets_eq]
    exact balanced.count_le
  count_lt := by
    rw [buckets_eq]
    exact balanced.count_lt
  sum_le := by
    rw [buckets_eq, numBuckets_eq]
    exact balanced.sum_le

end Balanced

/-- The ideal length is the number of items over the number of new buckets, rounded up. -/
theorem idealLength_eq (files : Filed elements table filings) (room : table.CanDouble build)
    (few_items : table.numItems < 2 ^ 32) :
    table.idealLength = table.numItems / (table.numBuckets * 2) +
      if table.numItems % (table.numBuckets * 2) ≠ 0 then 1 else 0 := by
  have some_bkt : 0 < table.numBuckets * 2 := Nat.mul_pos files.numBuckets_pos (by decide)
  have few_bkts : table.numBuckets * 2 ≤ 2 ^ 32 := room.buckets.le
  have doubled : table.numBuckets * 2 = 2 ^ (table.log2NumBuckets + 1) := by
    rw [files.numBuckets_eq, Nat.pow_succ]
  have small : table.numItems / (table.numBuckets * 2) +
      (if table.numItems % (table.numBuckets * 2) ≠ 0 then 1 else 0) < 2 ^ 32 := by
    have quotient : table.numItems / (table.numBuckets * 2) ≤ table.numItems / 2 :=
      Nat.div_le_div_left (by omega) (by decide)
    split <;> omega
  rw [HashTable.idealLength, room.nextNumBuckets_eq, decrement_of_pos some_bkt few_bkts,
    files.nextLog2_eq, Nat.shiftRight_eq_div_pow, ← doubled]
  rw [doubled, Nat.and_two_pow_sub_one_eq_mod, ← doubled]
  exact unsigned_of_lt small

theorem le_idealLength_mul (files : Filed elements table filings) (room : table.CanDouble build)
    (few_items : table.numItems < 2 ^ 32) :
    table.numItems ≤ table.idealLength * (table.numBuckets * 2) := by
  have divided := Nat.div_add_mod table.numItems (table.numBuckets * 2)
  have some_bkt : 0 < table.numBuckets * 2 := Nat.mul_pos files.numBuckets_pos (by decide)
  have below := Nat.mod_lt table.numItems some_bkt
  rw [idealLength_eq files room few_items]
  split
  · rw [Nat.add_mul, Nat.mul_comm (table.numItems / _)]
    omega
  · rw [Nat.add_zero, Nat.mul_comm]
    omega

theorem idealLength_pos (files : Filed elements table filings) (room : table.CanDouble build)
    (few_items : table.numItems < 2 ^ 32) (some_item : 0 < table.numItems) :
    0 < table.idealLength := by
  have covers := le_idealLength_mul files room few_items
  by_contra none
  rw [Nat.eq_zero_of_not_pos none, Nat.zero_mul] at covers
  omega

theorem idealLength_le (files : Filed elements table filings) (room : table.CanDouble build)
    (few_items : table.numItems < 2 ^ 32) {length : ℕ}
    (few : table.numItems ≤ length * (table.numBuckets * 2)) :
    table.idealLength ≤ length := by
  have some_bkt : 0 < table.numBuckets * 2 := Nat.mul_pos files.numBuckets_pos (by decide)
  rw [idealLength_eq files room few_items]
  split
  · rename_i remainder
    rw [Nat.succ_le_iff, Nat.div_lt_iff_lt_mul some_bkt]
    apply Nat.lt_of_le_of_ne few
    intro exactly
    rw [exactly, Nat.mul_mod_left] at remainder
    exact remainder rfl
  · exact Nat.div_le_of_le_mul (by rwa [Nat.mul_comm])

/-- An expansion leaves balanced chains if there were at most twenty items for each bucket. -/
theorem Expanded.balanced (expanded : Expanded table next)
    (files : Filed elements table filings) (room : table.CanDouble build)
    (few_items : table.numItems < 2 ^ 32) (some_item : 0 < table.numItems)
    (few : table.numItems ≤ 2 * bktCapacityThresh * table.numBuckets)
    (counted : (next.buckets.map fun bucket => bucket.count).sum = table.numItems) :
    Balanced next := by
  have ideal_le : table.idealLength ≤ bktCapacityThresh := by
    apply idealLength_le files room few_items
    simp only [bktCapacityThresh] at few ⊢
    omega
  have covers := le_idealLength_mul files room few_items
  have ideal_pos := idealLength_pos files room few_items some_item
  have beyond : ∀ bucket ∈ next.buckets, table.idealLength < bucket.count →
      bucket.count < bucket.limit := by
    intro bucket bucketMem longer
    rw [HashBucket.limit, expanded.expandMult_eq bucket bucketMem, if_pos longer]
    calc bucket.count < (bucket.count / table.idealLength + 1) * table.idealLength := by
          rw [Nat.mul_comm]
          exact Nat.lt_mul_div_succ _ ideal_pos
      _ ≤ (bucket.count / table.idealLength + 1) * bktCapacityThresh :=
          Nat.mul_le_mul_left _ ideal_le
  refine ⟨?_, ?_, ?_⟩
  · intro bucket bucketMem
    by_cases longer : table.idealLength < bucket.count
    · exact Nat.le_of_lt (beyond bucket bucketMem longer)
    · rw [HashBucket.limit, expanded.expandMult_eq bucket bucketMem, if_neg longer]
      omega
  · intro bucket bucketMem multiplied
    apply beyond bucket bucketMem
    by_contra short
    rw [expanded.expandMult_eq bucket bucketMem, if_neg short] at multiplied
    exact Nat.lt_irrefl _ multiplied
  · -- each multiplier takes as many items as the ideal length
    have weighed : ((next.buckets.map fun bucket => bucket.expandMult * table.idealLength).sum) ≤
        (next.buckets.map fun bucket => bucket.count).sum := by
      apply List.sum_le_sum
      intro bucket bucketMem
      rw [expanded.expandMult_eq bucket bucketMem]
      split
      · exact Nat.div_mul_le_self _ _
      · simp
    rw [List.sum_map_mul_right, counted] at weighed
    rw [expanded.numBuckets_eq]
    apply Nat.le_of_mul_le_mul_right _ ideal_pos
    rw [Nat.mul_comm (table.numBuckets * 2)]
    exact Nat.le_trans weighed covers

end Lucciefr.Uthash
