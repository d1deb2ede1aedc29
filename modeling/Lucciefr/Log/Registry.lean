import Lucciefr.LinkedList.Correctness
import Lucciefr.Log.Basic

/-!
# The registered backends

What the backend list of the log system is for, without pointers: the entries
in the order of their registration, each with an identity which is never reused.
The two operations on it are stated by what they do to this order, and the C
functions are shown to perform them. The nodes of the heap are exactly the
registered entries, so that an entry which was removed is a dangling pointer.
-/

namespace Lucciefr.Log

/-- The registered entries, in the order of their registration. -/
structure Registry where
  entries : List (ℕ × Backend)
  fresh : ℕ
  distinct : (addresses entries).Nodup
  below : ∀ address ∈ addresses entries, address < fresh

namespace Registry

/-- No backend was registered yet. -/
def empty : Registry where
  entries := []
  fresh := 0
  distinct := List.nodup_nil
  below := List.forall_mem_nil _

/-- A new entry is added at the end. -/
def register (registry : Registry) (backend : Backend) : Registry where
  entries := registry.entries ++ [(registry.fresh, backend)]
  fresh := registry.fresh + 1
  distinct := by
    have outside : registry.fresh ∉ addresses registry.entries := by
      intro mem
      exact Nat.lt_irrefl _ (registry.below _ mem)
    simp only [addresses, List.map_append, List.map_cons, List.map_nil]
    apply List.nodup_append.mpr
    refine ⟨registry.distinct, by simp, ?_⟩
    rintro address addressMem other otherMem rfl
    simp only [List.mem_singleton] at otherMem
    exact outside (otherMem ▸ addressMem)
  below := by
    intro address addressMem
    simp only [addresses, List.map_append, List.map_cons, List.map_nil, List.mem_append,
      List.mem_singleton] at addressMem
    rcases addressMem with old | rfl
    · exact Nat.lt_succ_of_lt (registry.below _ old)
    · exact Nat.lt_succ_self _

/-- The entry which a removal picks. -/
def matching (registry : Registry) (callback : ℕ) (userptr : Pointer) : Option (ℕ × Backend) :=
  (registry.entries.find? fun entry =>
      entry.2.userptr = userptr && entry.2.callback = callback).or
    (registry.entries.find? fun entry => entry.2.callback = callback)

/-- Remove the entry with this identity. -/
def without (registry : Registry) (address : ℕ) : Registry where
  entries := registry.entries.filter fun entry => entry.1 ≠ address
  fresh := registry.fresh
  distinct := registry.distinct.sublist (List.filter_sublist.map _)
  below := by
    intro other otherMem
    exact registry.below other ((List.filter_sublist.map _).subset otherMem)

/-- The entry which a removal picks is removed. -/
def unregister (registry : Registry) (callback : ℕ) (userptr : Pointer) : Registry :=
  match registry.matching callback userptr with
  | none => registry
  | some entry => registry.without entry.1

/-- The notification of an entry which is about to be removed. -/
def notification (entry : ℕ × Backend) : List Event :=
  match entry.2.notify with
  | none => []
  | some _ => [.notify entry.1 entry.2 .shutdown]

/-- What happens to an entry on its removal. -/
def removal (entry : ℕ × Backend) : List Event :=
  notification entry ++ [.freed entry.1]

variable {registry : Registry} {callback : ℕ} {userptr : Pointer} {entry : ℕ × Backend}
  {earlier later : List (ℕ × Backend)}

theorem without_entries (split : registry.entries = earlier ++ entry :: later) :
    (registry.without entry.1).entries = earlier ++ later := by
  have distinct := registry.distinct
  simp only [split, addresses, List.map_append, List.map_cons] at distinct
  rcases List.nodup_append.mp distinct with ⟨-, withEntry, apart⟩
  have notLater := (List.nodup_cons.mp withEntry).1
  have keepEarlier : earlier.filter (fun other => other.1 ≠ entry.1) = earlier := by
    apply List.filter_eq_self.mpr
    intro other otherMem
    have different := apart other.1 (List.mem_map_of_mem otherMem) entry.1 (by simp)
    simpa using different
  have keepLater : later.filter (fun other => other.1 ≠ entry.1) = later := by
    apply List.filter_eq_self.mpr
    intro other otherMem
    simp only [ne_eq, decide_not, Bool.not_eq_eq_eq_not, Bool.not_true, decide_eq_false_iff_not]
    intro same
    exact notLater (same ▸ List.mem_map_of_mem otherMem)
  simp only [without, split, List.filter_append, List.filter_cons, keepEarlier, keepLater]
  simp

theorem matching_mem (picked : registry.matching callback userptr = some entry) :
    entry ∈ registry.entries ∧ entry.2.callback = callback := by
  simp only [matching, Option.or_eq_some_iff] at picked
  rcases picked with both | ⟨-, callbackOnly⟩
  · have matched := List.find?_some both
    simp only [Bool.and_eq_true, decide_eq_true_eq] at matched
    exact ⟨List.mem_of_find?_eq_some both, matched.2⟩
  · have matched := List.find?_some callbackOnly
    simp only [decide_eq_true_eq] at matched
    exact ⟨List.mem_of_find?_eq_some callbackOnly, matched⟩

end Registry

namespace LogState

variable {Table : Type} {state : LogState Table} {registry : Registry} {callback : ℕ}
  {userptr : Pointer}

/-- The backend list of the state holds exactly the entries of the registry. -/
structure Registered (state : LogState Table) (registry : Registry) : Prop where
  represents : Represents state.entries state.logBackends registry.entries
  only : ∀ address, address ∉ addresses registry.entries → state.entries.cells address = none
  bound_eq : state.entries.bound = registry.fresh

theorem Registered.initial (table : Table) (threshold : LogLevel) :
    (LogState.initial table threshold).Registered Registry.empty where
  represents := Represents.nil _
  only _ _ := rfl
  bound_eq := rfl

theorem Registered.load (registered : state.Registered registry)
    {earlier later : List (ℕ × Backend)} {entry : ℕ × Backend}
    (split : registry.entries = earlier ++ entry :: later) :
    state.entries.load (some entry.1) =
      .ok ⟨lastPointer none earlier, firstPointer later none, entry.2⟩ := by
  have represents := registered.represents
  rw [split] at represents
  exact Heap.load_of_live represents.cell

theorem Registered.load_of_notMem (registered : state.Registered registry) {address : ℕ}
    (outside : address ∉ addresses registry.entries) :
    state.entries.load (some address) = .error .useAfterFree :=
  Heap.load_of_dead (registered.only address outside)

theorem Registered.record (registered : state.Registered registry) (event : Event) :
    { state with events := state.events ++ [event] }.Registered registry :=
  ⟨registered.represents, registered.only, registered.bound_eq⟩

theorem logRegisterBackend_spec (registered : state.Registered registry) (backend : Backend) :
    ∃ entries logBackends,
      state.logRegisterBackend backend =
        .ok { state with entries := entries, logBackends := logBackends } ∧
      { state with entries := entries, logBackends := logBackends }.Registered
        (registry.register backend) := by
  let node : Node Backend := { prev := none, next := none, value := backend }
  have outside : state.entries.bound ∉ addresses registry.entries := registered.represents.fresh
  have allocated : Represents (state.entries.alloc node).2 state.logBackends registry.entries := by
    apply registered.represents.frame
    intro address addressMem
    apply Heap.cells_alloc_of_ne
    rintro rfl
    exact outside addressMem
  rcases listAppend_spec allocated Heap.cells_alloc_self outside with
    ⟨entries, logBackends, appended, represents, bound, elsewhere⟩
  refine ⟨entries, logBackends, ?_, ?_, ?_, ?_⟩
  · simp only [logRegisterBackend, Heap.alloc_fst]
    rw [appended, ok_bind]
  · rw [registered.bound_eq] at represents
    exact represents
  · intro address notRegistered
    simp only [Registry.register, addresses, List.map_append, List.map_cons, List.map_nil,
      List.mem_append, List.mem_singleton, not_or, ← registered.bound_eq] at notRegistered
    rw [elsewhere address notRegistered.2 notRegistered.1,
      Heap.cells_alloc_of_ne notRegistered.2]
    exact registered.only address notRegistered.1
  · rw [bound, Heap.bound_alloc, registered.bound_eq]
    rfl

theorem findBackend_eq (registered : state.Registered registry) :
    state.findBackend callback userptr =
      .ok ((registry.matching callback userptr).map Prod.fst) := by
  simp only [findBackend, listMatch_eq registered.represents, firstMatch, ok_bind,
    Registry.matching]
  cases registry.entries.find? fun entry =>
      decide (entry.2.userptr = userptr) && decide (entry.2.callback = callback) with
  | none => simp
  | some entry => simp

theorem logUnregisterBackend_of_none (registered : state.Registered registry)
    (unmatched : registry.matching callback userptr = none) :
    state.logUnregisterBackend callback userptr = .ok state := by
  simp [logUnregisterBackend, findBackend_eq registered, unmatched]

theorem logBackendNotify_eq (registered : state.Registered registry)
    {earlier later : List (ℕ × Backend)} {entry : ℕ × Backend}
    (split : registry.entries = earlier ++ entry :: later) :
    state.logBackendNotify (some entry.1) .shutdown =
      .ok { state with events := state.events ++ Registry.notification entry } := by
  simp only [logBackendNotify, registered.load split, ok_bind, Registry.notification]
  cases entry.2.notify with
  | none => simp
  | some notify => rfl

/-- A removal notifies the matching entry, unlinks it and releases it. -/
theorem logUnregisterBackend_of_some (registered : state.Registered registry)
    {entry : ℕ × Backend} (matched : registry.matching callback userptr = some entry) :
    ∃ entries logBackends,
      state.logUnregisterBackend callback userptr =
        .ok { state with
          entries := entries
          logBackends := logBackends
          events := state.events ++ Registry.removal entry } ∧
      { state with
        entries := entries
        logBackends := logBackends
        events := state.events ++ Registry.removal entry }.Registered
          (registry.without entry.1) := by
  rcases List.append_of_mem (Registry.matching_mem matched).1 with ⟨earlier, later, split⟩
  have represents := registered.represents
  rw [split] at represents
  rcases listDelete_spec represents with
    ⟨entries, logBackends, deleted, remaining, bound, elsewhere⟩
  have notRemaining : entry.1 ∉ addresses (earlier ++ later) := by
    have distinct := represents.distinct
    simp only [addresses, List.map_append, List.map_cons] at distinct ⊢
    rcases List.nodup_append.mp distinct with ⟨-, withEntry, apart⟩
    intro mem
    rcases List.mem_append.mp mem with inEarlier | inLater
    · exact apart _ inEarlier entry.1 (by simp) rfl
    · exact (List.nodup_cons.mp withEntry).1 inLater
  have live := (elsewhere entry.1 notRemaining).trans represents.cell
  refine ⟨entries.discard entry.1, logBackends, ?_, ?_, ?_, ?_⟩
  · simp only [logUnregisterBackend, findBackend_eq registered, matched, ok_bind, Option.map_some,
      logBackendNotify_eq registered split, deleted, Heap.release_of_live live,
      Registry.removal, List.append_assoc]
  · rw [Registry.without_entries split]
    apply remaining.frame
    rintro address addressMem
    apply Heap.cells_discard_of_ne
    rintro rfl
    exact notRemaining addressMem
  · intro address notRegistered
    rw [Registry.without_entries split] at notRegistered
    by_cases released : address = entry.1
    · subst released
      exact Heap.cells_discard_self
    · have unchanged := (Heap.cells_discard_of_ne released).trans (elsewhere address notRegistered)
      apply unchanged.trans
      apply registered.only
      simp only [split, addresses, List.map_append, List.map_cons, List.mem_append,
        List.mem_cons, not_or] at notRegistered ⊢
      exact ⟨notRegistered.1, released, notRegistered.2⟩
  · exact bound.trans registered.bound_eq

end LogState

end Lucciefr.Log
