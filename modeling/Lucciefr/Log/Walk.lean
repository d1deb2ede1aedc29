import Lucciefr.Log.Registry

/-!
# Walking a registry which is edited

Which entries a traversal of the backend list visits when entries are added and
removed at every turn, in terms of the registry only. A walk in which the current
entry is never removed visits whatever stays registered exactly once: the entries
before the cursor are those visited, no entry from the cursor on was visited yet,
and new entries arrive behind all of them.
-/

namespace Lucciefr.Log

open LogState

namespace Registry

/-- The effect of a call on the registry. -/
def apply (registry : Registry) : BackendCall → Registry
  | .register backend => registry.register backend
  | .unregister callback userptr => registry.unregister callback userptr

/-- The effect of the calls of one callback on the registry. -/
def applyAll (registry : Registry) (calls : List BackendCall) : Registry :=
  calls.foldl apply registry

/-- An edit keeps some of the entries, in their order, and adds newer ones at the end. -/
structure Edited (old new : Registry) (kept added : List (ℕ × Backend)) : Prop where
  entries_eq : new.entries = kept ++ added
  kept_sublist : kept.Sublist old.entries
  added_fresh : ∀ entry ∈ added, old.fresh ≤ entry.1
  fresh_le : old.fresh ≤ new.fresh

theorem edited_apply (registry : Registry) (call : BackendCall) :
    ∃ kept added, Edited registry (registry.apply call) kept added ∧
      ((∀ backend, call ≠ .register backend) → added = []) := by
  cases call with
  | register backend =>
      refine ⟨registry.entries, [(registry.fresh, backend)], ⟨rfl, List.Sublist.refl _, ?_, ?_⟩, ?_⟩
      · intro entry entryMem
        simp only [List.mem_singleton] at entryMem
        simp [entryMem]
      · exact Nat.le_succ _
      · intro noRegister
        exact absurd rfl (noRegister backend)
  | unregister callback userptr =>
      simp only [apply, unregister]
      cases registry.matching callback userptr with
      | none =>
          exact ⟨registry.entries, [], ⟨by simp, List.Sublist.refl _, by simp, Nat.le_refl _⟩,
            fun _ => rfl⟩
      | some entry =>
          exact ⟨_, [], ⟨(List.append_nil _).symm, List.filter_sublist, by simp, Nat.le_refl _⟩,
            fun _ => rfl⟩

theorem edited_applyAll (registry : Registry) (calls : List BackendCall) :
    ∃ kept added, Edited registry (registry.applyAll calls) kept added ∧
      ((∀ backend, .register backend ∉ calls) → added = []) := by
  induction calls generalizing registry with
  | nil =>
      exact ⟨registry.entries, [],
        ⟨(List.append_nil _).symm, List.Sublist.refl _, by simp, Nat.le_refl _⟩, fun _ => rfl⟩
  | cons call calls ih =>
      rcases edited_apply registry call with ⟨kept, added, edited, noneAdded⟩
      rcases ih (registry.apply call) with ⟨keptLater, addedLater, editedLater, noneLater⟩
      have sublist := editedLater.kept_sublist
      rw [edited.entries_eq] at sublist
      rcases List.sublist_append_iff.mp sublist with
        ⟨keptOld, keptAdded, split, oldSublist, addedSublist⟩
      refine ⟨keptOld, keptAdded ++ addedLater, ⟨?_, ?_, ?_, ?_⟩, ?_⟩
      · rw [← List.append_assoc, ← split]
        exact editedLater.entries_eq
      · exact oldSublist.trans edited.kept_sublist
      · intro entry entryMem
        rcases List.mem_append.mp entryMem with new | later
        · exact edited.added_fresh entry (addedSublist.subset new)
        · exact Nat.le_trans edited.fresh_le (editedLater.added_fresh entry later)
      · exact Nat.le_trans edited.fresh_le editedLater.fresh_le
      · intro noRegister
        have first : added = [] := by
          apply noneAdded
          rintro backend rfl
          exact noRegister backend (by simp)
        have later : addedLater = [] := by
          apply noneLater
          intro backend backendMem
          exact noRegister backend (List.mem_cons_of_mem _ backendMem)
        subst first
        simp [later, List.sublist_nil.mp addedSublist]

/-- The entry after the one with the given identity. -/
def successor (address : ℕ) : List (ℕ × Backend) → Pointer
  | [] => none
  | entry :: rest => if entry.1 = address then firstPointer rest none else successor address rest

theorem successor_eq {earlier later : List (ℕ × Backend)} {entry : ℕ × Backend}
    (outside : entry.1 ∉ addresses earlier) :
    successor entry.1 (earlier ++ entry :: later) = firstPointer later none := by
  induction earlier with
  | nil => simp [successor]
  | cons other earlier ih =>
      simp only [addresses, List.map_cons, List.mem_cons, not_or] at outside
      simp only [List.cons_append, successor, if_neg (Ne.symm outside.1)]
      exact ih outside.2

variable {registry : Registry}

/-- The addresses on both sides of an entry are different from its own. -/
theorem apart_of_entries_eq {before pending : List (ℕ × Backend)} {entry : ℕ × Backend}
    (entries_eq : registry.entries = before ++ entry :: pending) :
    entry.1 ∉ addresses before ∧ entry.1 ∉ addresses pending := by
  have distinct := registry.distinct
  simp only [entries_eq, addresses, List.map_append, List.map_cons] at distinct
  rcases List.nodup_append.mp distinct with ⟨-, withEntry, apart⟩
  constructor
  · intro mem
    exact apart _ mem entry.1 (by simp) rfl
  · exact (List.nodup_cons.mp withEntry).1

/-- An entry which stays registered keeps its place among those which are kept. -/
theorem entries_applyAll {before pending : List (ℕ × Backend)} {entry : ℕ × Backend}
    {calls : List BackendCall} (entries_eq : registry.entries = before ++ entry :: pending)
    (stays : entry.1 ∈ addresses (registry.applyAll calls).entries) :
    ∃ keptBefore kept added,
      (registry.applyAll calls).entries = keptBefore ++ entry :: (kept ++ added) ∧
      keptBefore.Sublist before ∧ kept.Sublist pending ∧
      (∀ other ∈ added, registry.fresh ≤ other.1) ∧
      registry.fresh ≤ (registry.applyAll calls).fresh ∧
      ((∀ backend, .register backend ∉ calls) → added = []) := by
  rcases edited_applyAll registry calls with ⟨all, added, edited, noneAdded⟩
  rcases apart_of_entries_eq entries_eq with ⟨notBefore, notPending⟩
  have below : entry.1 < registry.fresh := by
    apply registry.below
    simp [entries_eq]
  have sublist := edited.kept_sublist
  rw [entries_eq] at sublist
  rcases List.sublist_append_iff.mp sublist with
    ⟨keptBefore, keptPending, all_eq, beforeSublist, pendingSublist⟩
  have entryKept : entry.1 ∈ addresses keptPending := by
    rw [edited.entries_eq, all_eq] at stays
    simp only [addresses, List.map_append, List.mem_append] at stays
    rcases stays with (inBefore | inPending) | inAdded
    · exact absurd ((beforeSublist.map _).subset inBefore) notBefore
    · exact inPending
    · rcases List.mem_map.mp inAdded with ⟨other, otherMem, same⟩
      have := edited.added_fresh other otherMem
      omega
  rcases List.sublist_cons_iff.mp pendingSublist with skipped | ⟨kept, rfl, keptSublist⟩
  · exact absurd ((skipped.map _).subset entryKept) notPending
  · refine ⟨keptBefore, kept, added, ?_, beforeSublist, keptSublist, edited.added_fresh,
      edited.fresh_le, noneAdded⟩
    rw [edited.entries_eq, all_eq]
    simp

end Registry

/-- A walk over the registry: the current entry, and the entries visited before it. -/
structure Walk where
  registry : Registry
  cursor : Pointer
  visited : List ℕ

namespace Walk

def start (registry : Registry) : Walk where
  registry := registry
  cursor := firstPointer registry.entries none
  visited := []

/-- Visit the current entry, whose callback makes the given calls. -/
def turn (walk : Walk) (calls : List BackendCall) : Walk :=
  match walk.cursor with
  | none => walk
  | some address =>
      let registry := walk.registry.applyAll calls
      { registry := registry
        cursor := Registry.successor address registry.entries
        visited := walk.visited ++ [address] }

/-- The walk after `turns` turns, with the calls of the callback of each turn. -/
def after (registry : Registry) (script : ℕ → List BackendCall) : (turns : ℕ) → Walk
  | 0 => start registry
  | turns + 1 => (after registry script turns).turn (script turns)

/-- The entries of the registry are those before the cursor, which were all visited,
and those from the cursor on, of which none was. -/
structure Split (walk : Walk) (before pending : List (ℕ × Backend)) : Prop where
  entries_eq : walk.registry.entries = before ++ pending
  cursor_eq : walk.cursor = firstPointer pending none
  before_visited : ∀ address ∈ addresses before, address ∈ walk.visited
  pending_unvisited : ∀ address ∈ addresses pending, address ∉ walk.visited
  visited_nodup : walk.visited.Nodup
  visited_below : ∀ address ∈ walk.visited, address < walk.registry.fresh

theorem Split.start (registry : Registry) : (Walk.start registry).Split [] registry.entries where
  entries_eq := rfl
  cursor_eq := rfl
  before_visited := by simp
  pending_unvisited := by simp [Walk.start]
  visited_nodup := by simp [Walk.start]
  visited_below := by simp [Walk.start]

theorem Split.current_below {walk : Walk} {before pending : List (ℕ × Backend)}
    {entry : ℕ × Backend} (split : walk.Split before (entry :: pending)) :
    entry.1 < walk.registry.fresh := by
  apply walk.registry.below
  simp [split.entries_eq]

/-- An entry which was added later is neither visited nor the current one. -/
theorem Split.fresh_unvisited {walk : Walk} {before pending : List (ℕ × Backend)}
    {entry : ℕ × Backend} {address : ℕ} (split : walk.Split before (entry :: pending))
    (fresh : walk.registry.fresh ≤ address) : address ∉ walk.visited ∧ ¬address = entry.1 := by
  have below := split.current_below
  constructor
  · intro mem
    have := split.visited_below _ mem
    omega
  · omega

/-- One turn, if the current entry stays registered: the pending entries which are kept
stay pending, in their order, and new ones come after them. -/
theorem Split.turn {walk : Walk} {before pending : List (ℕ × Backend)} {entry : ℕ × Backend}
    {calls : List BackendCall} (split : walk.Split before (entry :: pending))
    (stays : entry.1 ∈ addresses (walk.registry.applyAll calls).entries) :
    ∃ before' kept added, (walk.turn calls).Split before' (kept ++ added) ∧
      (walk.turn calls).registry = walk.registry.applyAll calls ∧
      (walk.turn calls).visited = walk.visited ++ [entry.1] ∧
      kept.Sublist pending ∧
      (∀ other ∈ added, walk.registry.fresh ≤ other.1) ∧
      ((∀ backend, .register backend ∉ calls) → added = []) := by
  rcases Registry.entries_applyAll split.entries_eq stays with
    ⟨keptBefore, kept, added, entries_eq, beforeSublist, keptSublist, fresh, fresh_le, noneAdded⟩
  rcases Registry.apart_of_entries_eq split.entries_eq with ⟨notBefore, notPending⟩
  have cursor_eq : walk.cursor = some entry.1 := split.cursor_eq
  have turned : walk.turn calls =
      { registry := walk.registry.applyAll calls
        cursor := Registry.successor entry.1 (walk.registry.applyAll calls).entries
        visited := walk.visited ++ [entry.1] } := by
    simp [Walk.turn, cursor_eq]
  rw [turned]
  refine ⟨keptBefore ++ [entry], kept, added, ⟨?_, ?_, ?_, ?_, ?_, ?_⟩, rfl, rfl, keptSublist,
    fresh, noneAdded⟩
  · simp [entries_eq]
  · simp only [entries_eq]
    exact Registry.successor_eq fun mem => notBefore ((beforeSublist.map _).subset mem)
  · intro address addressMem
    simp only [addresses, List.map_append, List.map_cons, List.map_nil, List.mem_append,
      List.mem_singleton] at addressMem ⊢
    rcases addressMem with old | same
    · exact Or.inl (split.before_visited _ ((beforeSublist.map _).subset old))
    · exact Or.inr same
  · intro address addressMem
    simp only [addresses, List.map_append, List.mem_append, List.mem_singleton, not_or]
      at addressMem ⊢
    rcases addressMem with inKept | inAdded
    · have inPending := (keptSublist.map _).subset inKept
      refine ⟨split.pending_unvisited _ (by simp [inPending]), ?_⟩
      rintro rfl
      exact notPending inPending
    · rcases List.mem_map.mp inAdded with ⟨other, otherMem, rfl⟩
      exact split.fresh_unvisited (fresh other otherMem)
  · apply List.nodup_append.mpr
    refine ⟨split.visited_nodup, by simp, ?_⟩
    rintro address addressMem other otherMem rfl
    simp only [List.mem_singleton] at otherMem
    exact split.pending_unvisited entry.1 (by simp) (otherMem ▸ addressMem)
  · intro address addressMem
    rcases List.mem_append.mp addressMem with old | same
    · exact Nat.lt_of_lt_of_le (split.visited_below _ old) fresh_le
    · simp only [List.mem_singleton] at same
      rw [same]
      exact Nat.lt_of_lt_of_le split.current_below fresh_le

variable {registry : Registry} {script : ℕ → List BackendCall}

/-- No callback removes the entry it is called for. -/
def KeepsCurrent (registry : Registry) (script : ℕ → List BackendCall) : Prop :=
  ∀ turns address, (after registry script turns).cursor = some address →
    address ∈ addresses ((after registry script turns).registry.applyAll (script turns)).entries

theorem turn_of_ended {walk : Walk} (ended : walk.cursor = none) (calls : List BackendCall) :
    walk.turn calls = walk := by
  simp [turn, ended]

theorem after_of_ended {turns : ℕ} (ended : (after registry script turns).cursor = none)
    (more : ℕ) : after registry script (turns + more) = after registry script turns := by
  induction more with
  | zero => rfl
  | succ more ih =>
      rw [← Nat.add_assoc, after, ih]
      exact turn_of_ended ended _

theorem split_after {turns : ℕ}
    (keeps : ∀ earlier < turns, ∀ address, (after registry script earlier).cursor = some address →
      address ∈ addresses
        ((after registry script earlier).registry.applyAll (script earlier)).entries) :
    ∃ before pending, (after registry script turns).Split before pending := by
  induction turns with
  | zero => exact ⟨[], registry.entries, Split.start registry⟩
  | succ turns ih =>
      rcases ih fun earlier earlier_lt => keeps earlier (Nat.lt_succ_of_lt earlier_lt) with
        ⟨before, pending, split⟩
      cases pending with
      | nil =>
          refine ⟨before, [], ?_⟩
          rw [after, turn_of_ended split.cursor_eq]
          exact split
      | cons entry pending =>
          rcases split.turn (keeps turns (Nat.lt_succ_self _) entry.1 split.cursor_eq) with
            ⟨before', kept, added, next, -⟩
          exact ⟨before', kept ++ added, next⟩

/-- Once no callback adds an entry any more, every turn shortens the pending part. -/
theorem terminates (keeps : KeepsCurrent registry script) {quiet : ℕ}
    (noRegister : ∀ turns ≥ quiet, ∀ backend, .register backend ∉ script turns) :
    ∃ turns, (after registry script turns).cursor = none := by
  have countdown : ∀ length turns before pending, quiet ≤ turns → pending.length ≤ length →
      (after registry script turns).Split before pending →
      ∃ turns, (after registry script turns).cursor = none := by
    intro length
    induction length with
    | zero =>
        intro turns before pending _ short split
        have ended : pending = [] := List.length_eq_zero_iff.mp (Nat.le_zero.mp short)
        exact ⟨turns, by rw [split.cursor_eq, ended]; rfl⟩
    | succ length ih =>
        intro turns before pending late short split
        cases pending with
        | nil => exact ⟨turns, split.cursor_eq⟩
        | cons entry pending =>
            rcases split.turn (keeps turns entry.1 split.cursor_eq) with
              ⟨before', kept, added, next, -, -, keptSublist, -, noneAdded⟩
            have none : added = [] := noneAdded (noRegister turns late)
            subst none
            rw [List.append_nil] at next
            have shorter := keptSublist.length_le
            simp only [List.length_cons] at short
            exact ih (turns + 1) before' kept (by omega) (by omega) next
  rcases split_after fun turns _ => keeps turns with
    ⟨before, pending, split⟩
  exact countdown pending.length quiet before pending (Nat.le_refl _) (Nat.le_refl _) split

/-- An entry which is kept keeps a part of what was in front of it in front of it. -/
theorem kept_split {kept nearer farther : List (ℕ × Backend)} {entry : ℕ × Backend}
    (sublist : kept.Sublist (nearer ++ entry :: farther))
    (distinct : (addresses (nearer ++ entry :: farther)).Nodup)
    (stays : entry.1 ∈ addresses kept) :
    ∃ nearer' farther', kept = nearer' ++ entry :: farther' ∧ nearer'.Sublist nearer := by
  simp only [addresses, List.map_append, List.map_cons] at distinct
  rcases List.nodup_append.mp distinct with ⟨-, withEntry, apart⟩
  rcases List.sublist_append_iff.mp sublist with
    ⟨nearer', rest, kept_eq, nearerSublist, restSublist⟩
  rw [kept_eq] at stays
  simp only [addresses, List.map_append, List.mem_append] at stays
  rcases List.sublist_cons_iff.mp restSublist with skipped | ⟨farther', rest_eq, -⟩
  · rcases stays with inNearer | inRest
    · exact absurd rfl (apart _ ((nearerSublist.map _).subset inNearer) entry.1 (by simp))
    · exact absurd ((skipped.map _).subset inRest) (List.nodup_cons.mp withEntry).1
  · exact ⟨nearer', farther', by rw [kept_eq, rest_eq], nearerSublist⟩

/-- An entry which stays registered moves to the front of the pending part. -/
theorem visits (keeps : KeepsCurrent registry script) {address : ℕ}
    (stays : ∀ turns, address ∈ addresses (after registry script turns).registry.entries) :
    ∃ turns, address ∈ (after registry script turns).visited := by
  have approach : ∀ length turns before nearer entry farther, nearer.length ≤ length →
      entry.1 = address → (after registry script turns).Split before (nearer ++ entry :: farther) →
      ∃ turns, address ∈ (after registry script turns).visited := by
    intro length
    induction length with
    | zero =>
        intro turns before nearer entry farther short same split
        have front : nearer = [] := List.length_eq_zero_iff.mp (Nat.le_zero.mp short)
        subst front
        rcases split.turn (keeps turns entry.1 split.cursor_eq) with ⟨-, -, -, -, -, visited, -⟩
        refine ⟨turns + 1, ?_⟩
        rw [after, visited]
        simp [same]
    | succ length ih =>
        intro turns before nearer entry farther short same split
        cases nearer with
        | nil => exact ih turns before [] entry farther (by simp) same split
        | cons current nearer =>
            rcases split.turn (keeps turns current.1 split.cursor_eq) with
              ⟨before', kept, added, next, -, -, keptSublist, addedFresh, -⟩
            by_cases seen : address ∈ ((after registry script turns).turn (script turns)).visited
            · exact ⟨turns + 1, seen⟩
            · have pendingDistinct : (addresses (nearer ++ entry :: farther)).Nodup := by
                have distinct := (after registry script turns).registry.distinct
                simp only [split.entries_eq, addresses, List.map_append, List.cons_append,
                  List.map_cons] at distinct ⊢
                exact (List.nodup_cons.mp (List.nodup_append.mp distinct).2.1).2
              have stillKept : entry.1 ∈ addresses kept := by
                have registered : address ∈ addresses
                    ((after registry script turns).turn (script turns)).registry.entries :=
                  stays (turns + 1)
                simp only [next.entries_eq, addresses, List.map_append, List.mem_append]
                  at registered
                rcases registered with inBefore | inKept | inAdded
                · exact absurd (next.before_visited address inBefore) seen
                · exact same ▸ inKept
                · rcases List.mem_map.mp inAdded with ⟨other, otherMem, other_eq⟩
                  have fresh := addedFresh other otherMem
                  have below := (after registry script turns).registry.below address (stays turns)
                  omega
              rcases kept_split keptSublist pendingDistinct stillKept with
                ⟨nearer', farther', kept_eq, nearerSublist⟩
              have shorter := nearerSublist.length_le
              simp only [List.length_cons] at short
              rw [kept_eq, List.append_assoc, List.cons_append] at next
              exact ih (turns + 1) before' nearer' entry (farther' ++ added) (by omega) same next
  have inPending : address ∈ addresses registry.entries := stays 0
  rcases List.mem_map.mp inPending with ⟨entry, entryMem, same⟩
  rcases List.append_of_mem entryMem with ⟨nearer, farther, entries_eq⟩
  have split := Split.start registry
  rw [entries_eq] at split
  exact approach nearer.length 0 [] nearer entry farther (Nat.le_refl _) same split

theorem visited_mono {turns later : ℕ} (le : turns ≤ later) :
    (after registry script turns).visited ⊆ (after registry script later).visited := by
  induction later with
  | zero =>
      rw [Nat.le_zero.mp le]
      exact List.Subset.refl _
  | succ later ih =>
      rcases Nat.lt_or_eq_of_le le with lt | rfl
      · refine List.Subset.trans (ih (Nat.lt_succ_iff.mp lt)) ?_
        simp only [after, turn]
        cases (after registry script later).cursor with
        | none => exact List.Subset.refl _
        | some address => exact List.subset_append_left _ _
      · exact List.Subset.refl _

end Walk

end Lucciefr.Log
