import Mathlib.Data.List.Basic
import Mathlib.Data.List.Nodup

/-!
# Finite maps with an order of traversal

A finite map as the list of its entries, in the order in which a traversal visits
them. Updating the value of a key keeps its position, so that a traversal may update
the entries which it visits. A traversal goes from one key to the next entry and needs
no other state than this key.
-/

namespace Lucciefr

universe u v

structure OrderedMap (Key : Type u) (Val : Type v) where
  entries : List (Key × Val)
  nodup : (entries.map Prod.fst).Nodup

namespace OrderedMap

variable {Key : Type u} {Val : Type v}

def empty (Key : Type u) (Val : Type v) : OrderedMap Key Val where
  entries := []
  nodup := List.nodup_nil

def keys (map : OrderedMap Key Val) : List Key :=
  map.entries.map Prod.fst

theorem mem_keys_of_mem {map : OrderedMap Key Val} {entry : Key × Val}
    (entryMem : entry ∈ map.entries) : entry.1 ∈ map.keys :=
  List.mem_map.mpr ⟨entry, entryMem, rfl⟩

theorem notMem_of_split {map : OrderedMap Key Val} {key : Key} {value : Val}
    {before after : List (Key × Val)}
    (split : map.entries = before ++ (key, value) :: after) :
    ∀ entry ∈ before ++ after, entry.1 ≠ key := by
  have unique := map.nodup
  rw [split, List.map_append, List.map_cons, List.nodup_middle, List.nodup_cons] at unique
  rintro entry entryMem rfl
  apply unique.1
  rw [← List.map_append]
  exact List.mem_map.mpr ⟨entry, entryMem, rfl⟩

variable [DecidableEq Key]

/-- The value of a key. -/
def find (map : OrderedMap Key Val) (key : Key) : Option Val :=
  map.entries.lookup key

/-- Change the value of a key which is there, or add the entry at the end. -/
def insert (map : OrderedMap Key Val) (key : Key) (value : Val) : OrderedMap Key Val where
  entries :=
    if key ∈ map.keys then
      map.entries.map fun entry => if entry.1 = key then (key, value) else entry
    else
      map.entries ++ [(key, value)]
  nodup := by
    split
    · have same : (map.entries.map fun entry => if entry.1 = key then (key, value) else entry).map
          Prod.fst = map.entries.map Prod.fst := by
        rw [List.map_map]
        apply List.map_congr_left
        intro entry _
        by_cases here : entry.1 = key <;> simp [here]
      exact same ▸ map.nodup
    · rename_i fresh
      rw [List.map_append, List.map_singleton, List.nodup_append]
      refine ⟨map.nodup, List.nodup_singleton key, ?_⟩
      intro old oldMem new newMem same
      rw [List.mem_singleton] at newMem
      rw [same, newMem] at oldMem
      exact fresh oldMem

/-- Remove the entry of a key. -/
def erase (map : OrderedMap Key Val) (key : Key) : OrderedMap Key Val where
  entries := map.entries.filter fun entry => entry.1 ≠ key
  nodup := (List.filter_sublist.map Prod.fst).nodup map.nodup

/-- The entry which a traversal visits after this key, or first. There is no answer
for a key which is not in the map. -/
def next (map : OrderedMap Key Val) : Option Key → Option (Option (Key × Val))
  | none => some map.entries.head?
  | some key =>
      if key ∈ map.keys then
        some ((map.entries.dropWhile fun entry => entry.1 ≠ key).tail.head?)
      else
        none

variable {map : OrderedMap Key Val} {key other : Key} {value : Val}

theorem find_eq_some_iff : map.find key = some value ↔ (key, value) ∈ map.entries := by
  rcases map with ⟨entries, nodup⟩
  simp only [find]
  induction entries with
  | nil => simp
  | cons entry entries ih =>
      rcases entry with ⟨first, firstValue⟩
      rw [List.map_cons, List.nodup_cons] at nodup
      by_cases here : key = first
      · subst here
        have absent : (key, value) ∉ entries := fun present =>
          nodup.1 (List.mem_map.mpr ⟨_, present, rfl⟩)
        simp [absent, eq_comm]
      · have later : (key == first) = false := by simpa using here
        rw [List.lookup_cons, later, ih nodup.2]
        simp [here]

theorem find_eq_none_iff : map.find key = none ↔ key ∉ map.keys := by
  rw [Option.eq_none_iff_forall_ne_some]
  simp [keys, find_eq_some_iff]

@[simp]
theorem find_empty : (empty Key Val).find key = none := rfl

@[simp]
theorem find_insert_self : (map.insert key value).find key = some value := by
  rw [find_eq_some_iff, insert]
  split
  · rename_i present
    rcases List.mem_map.mp present with ⟨entry, entryMem, entry_eq⟩
    exact List.mem_map.mpr ⟨entry, entryMem, if_pos entry_eq⟩
  · simp

theorem mem_insert_of_ne (different : other ≠ key) {otherValue : Val} :
    (other, otherValue) ∈ (map.insert key value).entries ↔ (other, otherValue) ∈ map.entries := by
  rw [insert]
  split
  · simp only [List.mem_map]
    constructor
    · rintro ⟨entry, entryMem, entry_eq⟩
      split at entry_eq
      · exact absurd (congrArg Prod.fst entry_eq).symm different
      · exact entry_eq ▸ entryMem
    · intro present
      exact ⟨_, present, if_neg different⟩
  · simp [different]

theorem find_insert_of_ne (different : other ≠ key) :
    (map.insert key value).find other = map.find other := by
  apply Option.ext
  intro otherValue
  simp only [find_eq_some_iff, mem_insert_of_ne different]

@[simp]
theorem find_erase_self : (map.erase key).find key = none := by
  simp [find_eq_none_iff, keys, erase]

theorem find_erase_of_ne (different : other ≠ key) :
    (map.erase key).find other = map.find other := by
  apply Option.ext
  intro otherValue
  simp [find_eq_some_iff, erase, different]

/-- A traversal visits the entries in their order. -/
theorem next_of_split {before after : List (Key × Val)}
    (split : map.entries = before ++ (key, value) :: after) :
    map.next (some key) = some after.head? := by
  have present : key ∈ map.keys := by simp [keys, split]
  have unique := map.nodup
  rw [split, List.map_append, List.map_cons, List.nodup_append] at unique
  have passed : ∀ entry ∈ before, (decide (entry.1 ≠ key)) = true := by
    intro entry entryMem
    have keyMem : entry.1 ∈ before.map Prod.fst := List.mem_map.mpr ⟨entry, entryMem, rfl⟩
    exact decide_eq_true (unique.2.2 entry.1 keyMem key (by simp))
  rw [next, if_pos present, split, List.dropWhile_append_of_pos passed]
  simp

/-- An update keeps the position of the entry. -/
theorem entries_insert_of_split {before after : List (Key × Val)} {old : Val}
    (split : map.entries = before ++ (key, old) :: after) :
    (map.insert key value).entries = before ++ (key, value) :: after := by
  have present : key ∈ map.keys := by simp [keys, split]
  have others := notMem_of_split split
  have same : ∀ part : List (Key × Val), (∀ entry ∈ part, entry ∈ before ++ after) →
      (part.map fun entry => if entry.1 = key then (key, value) else entry) = part := by
    intro part inside
    nth_rewrite 2 [← List.map_id part]
    apply List.map_congr_left
    intro entry entryMem
    exact if_neg (others entry (inside entry entryMem))
  simp only [insert, if_pos present, split, List.map_append, List.map_cons, if_true]
  rw [same before fun entry entryMem => List.mem_append_left _ entryMem,
    same after fun entry entryMem => List.mem_append_right _ entryMem]

theorem entries_insert_of_fresh (fresh : key ∉ map.keys) :
    (map.insert key value).entries = map.entries ++ [(key, value)] := by
  simp only [insert, if_neg fresh]

theorem entries_erase_of_split {before after : List (Key × Val)}
    (split : map.entries = before ++ (key, value) :: after) :
    (map.erase key).entries = before ++ after := by
  have others := notMem_of_split split
  simp only [erase, split]
  rw [List.filter_append, List.filter_cons_of_neg (by simp), ← List.filter_append]
  apply List.filter_eq_self.mpr
  intro entry entryMem
  exact decide_eq_true (others entry entryMem)

theorem entries_erase_of_fresh (fresh : key ∉ map.keys) :
    (map.erase key).entries = map.entries := by
  rw [erase]
  apply List.filter_eq_self.mpr
  intro entry entryMem
  apply decide_eq_true
  rintro rfl
  exact fresh (mem_keys_of_mem entryMem)

theorem notMem_keys_erase : key ∉ (map.erase key).keys := by
  simp [keys, erase]

end OrderedMap

end Lucciefr
