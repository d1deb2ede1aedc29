import Lucciefr.Base.OrderedMap
import Lucciefr.Base.Run
import Lucciefr.Uthash.Deletion

/-!
# Tables refine ordered maps

An application finds, replaces, updates and deletes elements by their keys, counts and
iterates them, and clears the table. Whatever the hash function is, every run of this from
the empty table is free of faults and gives the answers of a map which is ordered by the
time at which the keys were added. There has to be room whenever an element is added: some
hash functions bring the number of buckets to 2^31 with a few hundred elements.
-/

namespace Lucciefr.Uthash

open Element

variable {Value : Type}

/-- What an application does with a table. -/
inductive Command (Value : Type) where
  | find (key : List UInt8)
  | replace (key : List UInt8) (value : Value)
  | update (key : List UInt8) (change : Value → Value)
  | delete (key : List UInt8)
  | count
  | iterate
  | clear

/-- What it learns from the table. -/
inductive Answer (Value : Type) where
  | value (found : Option Value)
  | number (items : ℕ)
  | listing (pairs : List (List UInt8 × Value))
  | cleared
deriving DecidableEq

/-- The value of the element behind a pointer which may be `NULL`. -/
def valueOf (elements : Heap (Element Value)) : (out : Pointer) → Except Fault (Option Value)
  | none => .ok none
  | some out => do
      let element ← elements.load (some out)
      .ok (some element.value)

/-- Execute a command. The application allocates the elements which it adds, and releases
the ones which it deletes or replaces. -/
def execute (build : Build) (hashFcn : List UInt8 → UInt32) (hash : Hash Value) :
    Command Value → Except Fault (Answer Value × Hash Value)
  | .find key => do
      let out ← hashFind hashFcn hash key
      let value ← valueOf hash.elements out
      .ok (.value value, hash)
  | .replace key value => do
      let (add, elements) := hash.elements.alloc { hh := .zero, value := value }
      let (replaced, hash) ← hashReplace build hashFcn { hash with elements := elements } key add
      let value ← valueOf hash.elements replaced
      let elements ← hash.elements.release replaced
      .ok (.value value, { hash with elements := elements })
  | .update key change => do
      let out ← hashFind hashFcn hash key
      let value ← valueOf hash.elements out
      let elements ← hash.elements.modifyUnlessNull out fun element =>
        { element with value := change element.value }
      .ok (.value value, { hash with elements := elements })
  | .delete key => do
      let out ← hashFind hashFcn hash key
      let value ← valueOf hash.elements out
      let hash ← match out with
        | none => .ok hash
        | some delptr => hashDelete hash delptr
      let elements ← hash.elements.release out
      .ok (.value value, { hash with elements := elements })
  | .count => do
      let items ← hashCount hash
      .ok (.number items, hash)
  | .iterate => do
      let pairs ← hashIter hash (fun pairs element => pairs ++ [(element.hh.key, element.value)]) []
      .ok (.listing pairs, hash)
  | .clear => do
      let hash ← hashClear hash
      .ok (.cleared, hash)

/-- What a command does with the map which a table stands for. -/
def Command.apply (map : OrderedMap (List UInt8) Value) : Command Value →
    Answer Value × OrderedMap (List UInt8) Value
  | .find key => (.value (map.find key), map)
  | .replace key value => (.value (map.find key), (map.erase key).insert key value)
  | .update key change =>
      (.value (map.find key),
        match map.find key with
        | none => map
        | some value => map.insert key (change value))
  | .delete key => (.value (map.find key), map.erase key)
  | .count => (.number map.entries.length, map)
  | .iterate => (.listing map.entries, map)
  | .clear => (.cleared, .empty _ _)

/-- Execute a command and keep its answer. -/
def step (build : Build) (hashFcn : List UInt8 → UInt32)
    (state : Hash Value × List (Answer Value)) (command : Command Value) :
    Except Fault (Hash Value × List (Answer Value)) := do
  let (answer, hash) ← execute build hashFcn state.1 command
  .ok (hash, state.2 ++ [answer])

/-- An element may be added if there is room for it and its key is not too long. -/
def Accepts (build : Build) (hash : Hash Value) : Command Value → Prop
  | .replace key _ => key.length < 2 ^ 32 ∧ hash.HasRoom build
  | _ => True

instance (build : Build) (hash : Hash Value) (command : Command Value) :
    Decidable (Accepts build hash command) :=
  match command with
  | .replace key _ => inferInstanceAs (Decidable (key.length < 2 ^ 32 ∧ hash.HasRoom build))
  | .find _ => isTrue trivial
  | .update _ _ => isTrue trivial
  | .delete _ => isTrue trivial
  | .count => isTrue trivial
  | .iterate => isTrue trivial
  | .clear => isTrue trivial

/-- No command of this run from the empty table adds an element without room for it. -/
def RunHasRoom (build : Build) (hashFcn : List UInt8 → UInt32) (commands : List (Command Value)) :
    Prop :=
  RunMeets (step build hashFcn) (fun state => Accepts build state.1) (.empty Value, []) commands

instance (build : Build) (hashFcn : List UInt8 → UInt32) (commands : List (Command Value)) :
    Decidable (RunHasRoom build hashFcn commands) :=
  RunMeets.decidable _ _ _ commands

/-- The same for the map. -/
def specStep (state : OrderedMap (List UInt8) Value × List (Answer Value))
    (command : Command Value) : OrderedMap (List UInt8) Value × List (Answer Value) :=
  ((command.apply state.1).2, state.2 ++ [(command.apply state.1).1])

/-- The key and the value of an element. -/
def pair (entry : ℕ × Record Value) : List UInt8 × Value :=
  (entry.2.key, entry.2.value)

/-- The table has the entries of the map, in their order. -/
def Contains (hashFcn : List UInt8 → UInt32) (hash : Hash Value)
    (map : OrderedMap (List UInt8) Value) : Prop :=
  ∃ entries, Holds hashFcn hash entries ∧ map.entries = entries.map pair

/-- The table has the entries of the map, and both have given the same answers. -/
def Follows (hashFcn : List UInt8 → UInt32) (state : Hash Value × List (Answer Value))
    (spec : OrderedMap (List UInt8) Value × List (Answer Value)) : Prop :=
  Contains hashFcn state.1 spec.1 ∧ state.2 = spec.2

variable {build : Build} {hashFcn : List UInt8 → UInt32} {hash : Hash Value}
  {map : OrderedMap (List UInt8) Value} {entries : List (ℕ × Record Value)} {key : List UInt8}

/-- The entry of a key, with its neighbours in app order. -/
structure Located (hashFcn : List UInt8 → UInt32) (hash : Hash Value)
    (map : OrderedMap (List UInt8) Value) (entries : List (ℕ × Record Value)) (key : List UInt8)
    (out : ℕ) (element : Element Value) (earlier later : List (ℕ × Record Value)) : Prop where
  found : hashFind hashFcn hash key = .ok (some out)
  live : hash.elements.cells out = some element
  entries_eq : entries = earlier ++ (out, element.appView.value) :: later
  map_eq : map.entries = earlier.map pair ++ (key, element.value) :: later.map pair
  find_eq : map.find key = some element.value

/-- A search finds the entry of the map, or nothing if there is none. -/
theorem located_or_absent (holds : Holds hashFcn hash entries)
    (map_eq : map.entries = entries.map pair) (key : List UInt8) :
    (∃ out element earlier later, Located hashFcn hash map entries key out element earlier later) ∨
      hashFind hashFcn hash key = .ok none ∧ key ∉ map.keys ∧ map.find key = none := by
  have keys_eq : map.keys = entries.map fun entry => entry.2.key := by
    rw [OrderedMap.keys, map_eq, List.map_map]
    rfl
  have unique : (entries.map fun entry => entry.2.key).Nodup := by
    rw [← keys_eq]
    exact map.nodup
  have searched := hashFind_eq holds unique key
  cases match_eq : entries.find? fun entry => decide (entry.2.key = key) with
  | none =>
      have absent : key ∉ map.keys := by
        rw [keys_eq]
        intro keyMem
        rcases List.mem_map.mp keyMem with ⟨entry, entryMem, key_eq⟩
        have differs := List.find?_eq_none.mp match_eq entry entryMem
        simp [key_eq] at differs
      rw [match_eq] at searched
      exact Or.inr ⟨searched, absent, OrderedMap.find_eq_none_iff.mpr absent⟩
  | some entry =>
      have key_eq : entry.2.key = key := by simpa using List.find?_some match_eq
      have entryMem := List.mem_of_find?_eq_some match_eq
      rcases holds.exists_live entryMem with ⟨element, live, record_eq⟩
      rcases List.append_of_mem entryMem with ⟨earlier, later, split⟩
      have pair_eq : pair entry = (key, element.value) := by
        rw [pair, key_eq, ← record_eq]
        rfl
      rw [match_eq] at searched
      have mapSplit : map.entries = earlier.map pair ++ (key, element.value) :: later.map pair := by
        rw [map_eq, split, List.map_append, List.map_cons, pair_eq]
      refine Or.inl ⟨entry.1, element, earlier, later, searched, live, ?_, mapSplit, ?_⟩
      · rw [record_eq]
        exact split
      · rw [OrderedMap.find_eq_some_iff, mapSplit]
        simp

variable {out add : ℕ} {element : Element Value} {earlier later : List (ℕ × Record Value)}
  {value : Value} {command : Command Value}

namespace Located

theorem valueOf_eq (located : Located hashFcn hash map entries key out element earlier later) :
    valueOf hash.elements (some out) = .ok (map.find key) := by
  rw [valueOf, Heap.load_of_live located.live, ok_bind, located.find_eq]

theorem outside (located : Located hashFcn hash map entries key out element earlier later)
    (holds : Holds hashFcn hash entries) : out ∉ addresses (earlier ++ later) := by
  have distinct := holds.distinct
  rw [located.entries_eq, addresses, List.map_append, List.map_cons, List.nodup_middle,
    List.nodup_cons, ← List.map_append] at distinct
  exact distinct.1

/-- The element is deleted and can still be read and released. -/
theorem hashDelete_spec (located : Located hashFcn hash map entries key out element earlier later)
    (holds : Holds hashFcn hash entries) :
    ∃ next, hashDelete hash out = .ok next ∧ Holds hashFcn next (earlier ++ later) ∧
      (∀ build, hash.HasRoom build → next.HasRoom build) ∧
      next.elements.cells out = some element ∧
      ∀ other, other ∉ addresses (earlier ++ later) →
        next.elements.cells other = hash.elements.cells other := by
  rcases holds with ⟨-, empty⟩ | ⟨address, table, stores⟩
  · rw [located.entries_eq] at empty
    simp at empty
  · have outside := located.outside (Or.inr ⟨address, table, stores⟩)
    rw [located.entries_eq] at stores
    rcases Uthash.hashDelete_spec stores with ⟨next, deleted, nextHolds, roomy, unchanged⟩
    exact ⟨next, deleted, nextHolds, roomy, (unchanged out outside).trans located.live, unchanged⟩

theorem entries_erase (located : Located hashFcn hash map entries key out element earlier later) :
    (map.erase key).entries = (earlier ++ later).map pair := by
  rw [OrderedMap.entries_erase_of_split located.map_eq, List.map_append]

end Located

theorem find_spec (contains : Contains hashFcn hash map) (key : List UInt8) :
    execute build hashFcn hash (.find key) = .ok (.value (map.find key), hash) := by
  rcases contains with ⟨entries, holds, map_eq⟩
  rcases located_or_absent holds map_eq key with
    ⟨out, element, earlier, later, located⟩ | ⟨searched, -, find_eq⟩
  · simp only [execute, located.found, ok_bind, located.valueOf_eq]
  · simp only [execute, searched, ok_bind, valueOf, find_eq]

theorem delete_spec (contains : Contains hashFcn hash map) (key : List UInt8) :
    ∃ next, execute build hashFcn hash (.delete key) = .ok (.value (map.find key), next) ∧
      Contains hashFcn next (map.erase key) := by
  rcases contains with ⟨entries, holds, map_eq⟩
  rcases located_or_absent holds map_eq key with
    ⟨out, element, earlier, later, located⟩ | ⟨searched, absent, find_eq⟩
  · rcases located.hashDelete_spec holds with ⟨next, deleted, nextHolds, -, live, -⟩
    refine ⟨_, ?_, earlier ++ later, nextHolds.release (located.outside holds),
      located.entries_erase⟩
    simp only [execute, located.found, ok_bind, located.valueOf_eq, deleted,
      Heap.release_of_live live]
  · refine ⟨hash, ?_, entries, holds, ?_⟩
    · simp only [execute, searched, ok_bind, valueOf, find_eq]
      rfl
    · rw [OrderedMap.entries_erase_of_fresh absent]
      exact map_eq

theorem replace_spec (contains : Contains hashFcn hash map) {key : List UInt8} {value : Value}
    (accepts : Accepts build hash (.replace key value)) :
    ∃ next, execute build hashFcn hash (.replace key value) = .ok (.value (map.find key), next) ∧
      Contains hashFcn next ((map.erase key).insert key value) := by
  rcases contains with ⟨entries, holds, map_eq⟩
  rcases accepts with ⟨short, room⟩
  have added : ((map.erase key).insert key value).entries =
      (map.erase key).entries ++ [(key, value)] :=
    OrderedMap.entries_insert_of_fresh OrderedMap.notMem_keys_erase
  simp only [execute, Heap.alloc_fst]
  generalize node_eq : Element.mk HashHandle.zero value = node
  have value_eq : node.value = value := by rw [← node_eq]
  have granted := holds.alloc node
  have grantedRoom := holds.hasRoom_alloc node room
  have addLive : (hash.elements.alloc node).2.cells hash.elements.bound = some node :=
    Heap.cells_alloc_self
  rcases located_or_absent granted map_eq key with
    ⟨out, element, earlier, later, located⟩ | ⟨searched, absent, find_eq⟩
  · rcases located.hashDelete_spec granted with
      ⟨removed, deleted, removedHolds, roomy, live, unchanged⟩
    have addOutside : hash.elements.bound ∉ addresses (earlier ++ later) := by
      intro addMem
      apply holds.fresh
      rw [located.entries_eq]
      simp only [addresses, List.map_append, List.map_cons, List.mem_append, List.mem_cons]
        at addMem ⊢
      rcases addMem with inEarlier | inLater
      · exact Or.inl inEarlier
      · exact Or.inr (Or.inr inLater)
    have apart : out ≠ hash.elements.bound := by
      rintro rfl
      apply holds.fresh
      rw [located.entries_eq]
      simp
    rcases hashAddKeyptr_spec removedHolds ((unchanged _ addOutside).trans addLive) addOutside
      (roomy build grantedRoom) short with ⟨next, address, table, put, stores, nextUnchanged⟩
    have outLive : next.elements.cells out = some element :=
      (nextUnchanged out apart (located.outside granted)).trans live
    have outOutside : out ∉ addresses
        ((earlier ++ later) ++
          [(hash.elements.bound, ⟨some address, key, hashFcn key, node.value⟩)]) := by
      have outside := located.outside granted
      simp only [addresses, List.map_append, List.map_cons, List.map_nil, List.mem_append,
        List.mem_singleton] at outside ⊢
      rintro (old | same)
      · exact outside old
      · exact apart same
    refine ⟨_, ?_, _, Holds.release (Or.inr ⟨address, table, stores⟩) outOutside, ?_⟩
    · have found : valueOf next.elements (some out) = .ok (map.find key) := by
        rw [valueOf, Heap.load_of_live outLive, ok_bind, located.find_eq]
      simp only [hashReplace, located.found, ok_bind, deleted, put, found,
        Heap.release_of_live outLive]
    · rw [added, located.entries_erase, ← value_eq]
      simp [pair]
  · rcases hashAddKeyptr_spec granted addLive holds.fresh grantedRoom short with
      ⟨next, address, table, put, stores, -⟩
    refine ⟨next, ?_, _, Or.inr ⟨address, table, stores⟩, ?_⟩
    · simp only [hashReplace, searched, ok_bind, put, valueOf, find_eq]
      rfl
    · rw [added, OrderedMap.entries_erase_of_fresh absent, map_eq, ← value_eq]
      simp [pair]

theorem update_spec (contains : Contains hashFcn hash map) (key : List UInt8)
    (change : Value → Value) :
    ∃ next, execute build hashFcn hash (.update key change) = .ok (.value (map.find key), next) ∧
      Contains hashFcn next ((Command.update key change).apply map).2 := by
  rcases contains with ⟨entries, holds, map_eq⟩
  rcases located_or_absent holds map_eq key with
    ⟨out, element, earlier, later, located⟩ | ⟨searched, absent, find_eq⟩
  · rcases holds with ⟨-, empty⟩ | ⟨address, table, stores⟩
    · rw [located.entries_eq] at empty
      simp at empty
    · rw [located.entries_eq] at stores
      refine ⟨_, ?_, _, Or.inr ⟨address, table, stores.setValue change⟩, ?_⟩
      · simp only [execute, located.found, ok_bind, located.valueOf_eq, Heap.modifyUnlessNull,
          Heap.modify_of_live located.live]
      · have key_eq : element.hh.key = key := by
          have same := located.map_eq
          rw [map_eq, located.entries_eq, List.map_append, List.map_cons] at same
          exact congrArg Prod.fst (List.cons.inj (List.append_cancel_left same)).1
        simp only [Command.apply, located.find_eq]
        rw [OrderedMap.entries_insert_of_split located.map_eq]
        simp [pair, appView, key_eq]
  · refine ⟨hash, ?_, entries, holds, ?_⟩
    · simp only [execute, searched, ok_bind, valueOf, find_eq]
      rfl
    · simp only [Command.apply, find_eq]
      exact map_eq

theorem count_spec (contains : Contains hashFcn hash map) :
    execute build hashFcn hash .count = .ok (.number map.entries.length, hash) := by
  rcases contains with ⟨entries, holds, map_eq⟩
  rw [map_eq, List.length_map]
  rcases holds with ⟨head_eq, rfl⟩ | ⟨address, table, stores⟩
  · simp [execute, hashCount, head_eq]
  · rcases stores.listed.exists_head with ⟨first, head_eq⟩
    simp only [execute, hashCount, head_eq, stores.listed.table_ok, ok_bind, stores.numItems_eq]

/-- The loop visits the elements in app order. -/
theorem hashIterFrom_eq {State : Type} (body : State → List UInt8 × Value → State)
    {elements : Heap (Element Value)} {before : Pointer} {turns : ℕ}
    (enough : entries.length ≤ turns) (linked : Linked (elements.seen appView) before entries none)
    (state : State) :
    hashIterFrom elements (fun state element => body state (element.hh.key, element.value)) turns
        state (firstPointer entries none) = .ok ((entries.map pair).foldl body state) := by
  induction entries generalizing before turns state with
  | nil => cases turns <;> rfl
  | cons entry rest ih =>
      rcases entry with ⟨address, record⟩
      rcases Heap.exists_of_seen linked.1 with ⟨element, live, view_eq⟩
      have next_eq : element.hh.next = firstPointer rest none := congrArg Node.next view_eq
      have record_eq : element.appView.value = record := congrArg Node.value view_eq
      have pair_eq : (element.hh.key, element.value) = pair (address, record) := by
        rw [pair, ← record_eq]
        rfl
      cases turns with
      | zero => simp at enough
      | succ turns =>
          simp only [firstPointer, hashIterFrom, Heap.load_of_live live, ok_bind, next_eq, pair_eq]
          exact ih (Nat.le_of_succ_le_succ enough) linked.2 _

theorem foldl_append_singleton {Entry : Type} (visited pairs : List Entry) :
    pairs.foldl (fun visited pair => visited ++ [pair]) visited = visited ++ pairs := by
  induction pairs generalizing visited with
  | nil => simp
  | cons pair rest ih => simp [ih]

theorem iterate_spec (contains : Contains hashFcn hash map) :
    execute build hashFcn hash .iterate = .ok (.listing map.entries, hash) := by
  rcases contains with ⟨entries, holds, map_eq⟩
  have visits : hashIter hash
      (fun pairs element => pairs ++ [(element.hh.key, element.value)]) [] = .ok map.entries := by
    rw [map_eq]
    rcases holds with ⟨head_eq, rfl⟩ | ⟨address, table, stores⟩
    · rw [hashIter, head_eq]
      cases hash.elements.bound <;> rfl
    · have represents := stores.listed.represents
      have walked := hashIterFrom_eq (fun pairs pair => pairs ++ [pair]) represents.length_le
        represents.linked []
      rw [foldl_append_singleton, List.nil_append] at walked
      rw [hashIter, represents.head_eq]
      exact walked
  simp only [execute, visits, ok_bind]

theorem clear_spec (contains : Contains hashFcn hash map) :
    ∃ next, execute build hashFcn hash .clear = .ok (.cleared, next) ∧
      Contains hashFcn next (.empty _ _) := by
  rcases contains with ⟨entries, holds, map_eq⟩
  rcases holds with ⟨head_eq, rfl⟩ | ⟨address, table, stores⟩
  · refine ⟨hash, ?_, [], Or.inl ⟨head_eq, rfl⟩, rfl⟩
    simp only [execute, hashClear, head_eq, ok_bind]
  · rcases stores.listed.exists_head with ⟨first, head_eq⟩
    refine ⟨{ hash with tables := hash.tables.discard address, head := none }, ?_, [],
      Or.inl ⟨rfl, rfl⟩, rfl⟩
    simp only [execute, hashClear, head_eq, stores.listed.tbl_ok, ok_bind,
      Heap.release_of_live stores.listed.live]

/-- A command gives the answer of the map, and leaves the table of the changed map. -/
theorem execute_spec (contains : Contains hashFcn hash map) (command : Command Value)
    (accepts : Accepts build hash command) :
    ∃ next, execute build hashFcn hash command = .ok ((command.apply map).1, next) ∧
      Contains hashFcn next (command.apply map).2 := by
  cases command with
  | find key => exact ⟨hash, find_spec contains key, contains⟩
  | replace key value => exact replace_spec contains accepts
  | update key change => exact update_spec contains key change
  | delete key => exact delete_spec contains key
  | count => exact ⟨hash, count_spec contains, contains⟩
  | iterate => exact ⟨hash, iterate_spec contains, contains⟩
  | clear => exact clear_spec contains

theorem contains_empty (hashFcn : List UInt8 → UInt32) :
    Contains hashFcn (.empty Value) (.empty _ _) :=
  ⟨[], Or.inl ⟨rfl, rfl⟩, rfl⟩

theorem step_follows {state : Hash Value × List (Answer Value)}
    {spec : OrderedMap (List UInt8) Value × List (Answer Value)}
    (follows : Follows hashFcn state spec) (accepts : Accepts build state.1 command) :
    ∃ next, step build hashFcn state command = .ok next ∧
      Follows hashFcn next (specStep spec command) := by
  rcases follows with ⟨contains, same⟩
  rcases execute_spec contains command accepts with ⟨next, executed, nextContains⟩
  refine ⟨(next, state.2 ++ [(command.apply spec.1).1]), ?_, nextContains, ?_⟩
  · simp only [step, executed, ok_bind]
  · rw [same]
    rfl

/-- Every run from the empty table in which there is room is free of faults and follows the
map. -/
theorem run_contains {commands : List (Command Value)}
    (room : RunHasRoom build hashFcn commands) :
    ∃ hash : Hash Value, run (step build hashFcn) (.empty Value, []) commands =
        .ok (hash, (commands.foldl specStep (.empty _ _, [])).2) ∧
      Contains hashFcn hash (commands.foldl specStep (.empty _ _, [])).1 := by
  have initial : Follows hashFcn (.empty Value, []) (.empty _ _, []) :=
    ⟨contains_empty hashFcn, rfl⟩
  rcases run_simulates_of_meets specStep (Follows hashFcn) _ (fun _ _ _ => step_follows) initial
    room with ⟨⟨hash, answers⟩, ran, contains, rfl⟩
  exact ⟨hash, ran, contains⟩

/--
Every run of an application from the empty table is free of faults and gives the answers
of the ordered map, whatever the hash function is and however often the buckets are
expanded, as long as there is room for the elements which are added.
-/
theorem run_answers (build : Build) (hashFcn : List UInt8 → UInt32)
    (commands : List (Command Value)) (room : RunHasRoom build hashFcn commands) :
    ∃ hash : Hash Value, run (step build hashFcn) (.empty Value, []) commands =
        .ok (hash, (commands.foldl specStep (.empty _ _, [])).2) ∧
      Contains hashFcn hash (commands.foldl specStep (.empty _ _, [])).1 :=
  run_contains room

/-- A replaced element is the last one, and an updated one keeps its place. -/
theorem run_answers_replaced :
    let commands : List (Command ℕ) := [.replace [97] 1, .replace [98] 2, .replace [97] 3,
      .update [98] (· + 5), .delete [99], .iterate, .delete [98], .count]
    (commands.foldl specStep (.empty _ _, [])).2.drop 4 =
        [.value none, .listing [([98], 7), ([97], 3)], .value (some 7), .number 1] ∧
      ∃ hash : Hash ℕ, run (step .x86 hashJen) (.empty ℕ, []) commands =
          .ok (hash, (commands.foldl specStep (.empty _ _, [])).2) ∧
        Contains hashJen hash (commands.foldl specStep (.empty _ _, [])).1 := by
  intro commands
  exact ⟨by decide +kernel, run_answers .x86 hashJen commands (by decide +kernel)⟩

end Lucciefr.Uthash
