import Lucciefr.Log.Registry

/-!
# Removing backends

Removing a backend removes one entry, the first one which matches, after it was
notified. Shutting down the log system removes all entries, one by one. Its loop
holds on to the pointer to the next entry while it removes by value, which is
safe because the current entry is always the first one of the list: it matches
itself, and nothing is in front of it that could match instead.
-/

namespace Lucciefr.Log

namespace Registry

variable {registry : Registry} {callback : ℕ} {userptr : Pointer} {entry : ℕ × Backend}

/-- The entry is the first one in the list which matches callback and user data, or
else the first one which matches the callback. -/
def IsFirstMatch (callback : ℕ) (userptr : Pointer) (earlier : List (ℕ × Backend))
    (entry : ℕ × Backend) (later : List (ℕ × Backend)) : Prop :=
  entry.2.callback = callback ∧
    (entry.2.userptr = userptr ∧
        (∀ other ∈ earlier, ¬(other.2.callback = callback ∧ other.2.userptr = userptr)) ∨
      (∀ other ∈ earlier ++ entry :: later,
          ¬(other.2.callback = callback ∧ other.2.userptr = userptr)) ∧
        ∀ other ∈ earlier, other.2.callback ≠ callback)

theorem isFirstMatch_of_matching (picked : registry.matching callback userptr = some entry) :
    ∃ earlier later, registry.entries = earlier ++ entry :: later ∧
      IsFirstMatch callback userptr earlier entry later := by
  simp only [matching, Option.or_eq_some_iff] at picked
  rcases picked with both | ⟨noBoth, callbackOnly⟩
  · rcases List.find?_eq_some_iff_append.mp both with ⟨matched, earlier, later, split, before⟩
    simp only [Bool.and_eq_true, decide_eq_true_eq] at matched
    refine ⟨earlier, later, split, matched.2, Or.inl ⟨matched.1, ?_⟩⟩
    rintro other otherMem ⟨sameCallback, sameUserptr⟩
    simpa [sameCallback, sameUserptr] using before other otherMem
  · rcases List.find?_eq_some_iff_append.mp callbackOnly with
      ⟨matched, earlier, later, split, before⟩
    simp only [decide_eq_true_eq] at matched
    refine ⟨earlier, later, split, matched, Or.inr ⟨?_, ?_⟩⟩
    · rintro other otherMem ⟨sameCallback, sameUserptr⟩
      have unmatched := List.find?_eq_none.mp noBoth other (split ▸ otherMem)
      simp [sameCallback, sameUserptr] at unmatched
    · intro other otherMem
      simpa using before other otherMem

theorem no_callback_of_matching_none (unmatched : registry.matching callback userptr = none) :
    ∀ other ∈ registry.entries, other.2.callback ≠ callback := by
  simp only [matching, Option.or_eq_none_iff] at unmatched
  intro other otherMem
  simpa using List.find?_eq_none.mp unmatched.2 other otherMem

theorem matching_head {rest : List (ℕ × Backend)} (split : registry.entries = entry :: rest) :
    registry.matching entry.2.callback entry.2.userptr = some entry := by
  simp [matching, split]

/-- No entries are left. -/
def cleared (registry : Registry) : Registry where
  entries := []
  fresh := registry.fresh
  distinct := List.nodup_nil
  below := List.forall_mem_nil _

end Registry

namespace LogState

variable {Table : Type} {state : LogState Table} {registry : Registry}

/-- The loop of `log_shutdown`, whose current entry is always the first one of the list. -/
theorem logShutdownFrom_spec {turns : ℕ} (registered : state.Registered registry)
    (enough : registry.entries.length ≤ turns) :
    ∃ entries logBackends,
      logShutdownFrom turns state.logBackends state =
        .ok { state with
          entries := entries
          logBackends := logBackends
          events := state.events ++ registry.entries.flatMap Registry.removal } ∧
      { state with
        entries := entries
        logBackends := logBackends
        events := state.events ++ registry.entries.flatMap Registry.removal }.Registered
          registry.cleared := by
  induction listed : registry.entries generalizing state registry turns with
  | nil =>
      have represents := registered.represents
      have only := registered.only
      rw [listed] at represents only
      have ended : logShutdownFrom turns state.logBackends state = .ok state := by
        rw [represents.head_eq]
        cases turns <;> rfl
      refine ⟨state.entries, state.logBackends, ?_, represents, only, registered.bound_eq⟩
      simp [ended]
  | cons entry rest ih =>
      rw [listed] at enough
      cases turns with
      | zero => simp at enough
      | succ turns =>
          have first : registry.entries = [] ++ entry :: rest := listed
          rcases logUnregisterBackend_of_some registered (Registry.matching_head listed) with
            ⟨entries, logBackends, removed, remaining⟩
          have left : (registry.without entry.1).entries = rest := Registry.without_entries first
          have rest_le : (registry.without entry.1).entries.length ≤ turns := by
            rw [left]
            exact Nat.le_of_succ_le_succ enough
          rcases ih remaining rest_le left with ⟨entries', logBackends', finished, cleared⟩
          have head_eq : state.logBackends = some entry.1 := by
            rw [registered.represents.head_eq, listed]
            rfl
          have next_eq : logBackends = firstPointer rest none := by
            rw [← left]
            exact remaining.represents.head_eq
          rw [List.flatMap_cons, ← List.append_assoc]
          refine ⟨entries', logBackends', ?_, cleared⟩
          rw [head_eq, logShutdownFrom, registered.load first, ok_bind, removed, ok_bind,
            ← next_eq]
          exact finished

theorem logShutdown_spec {table : CheckpointTable Table} {checkpoints : Table}
    (registered : state.Registered registry)
    (clear : table.clear state.checkpoints = .ok checkpoints) :
    ∃ entries logBackends,
      state.logShutdown table =
        .ok { state with
          checkpoints := checkpoints
          entries := entries
          logBackends := logBackends
          events := state.events ++ registry.entries.flatMap Registry.removal } ∧
      { state with
        checkpoints := checkpoints
        entries := entries
        logBackends := logBackends
        events := state.events ++ registry.entries.flatMap Registry.removal }.Registered
          registry.cleared := by
  have withTable : { state with checkpoints := checkpoints }.Registered registry :=
    ⟨registered.represents, registered.only, registered.bound_eq⟩
  rcases logShutdownFrom_spec withTable registered.represents.length_le with
    ⟨entries, logBackends, finished, cleared⟩
  refine ⟨entries, logBackends, ?_, cleared⟩
  rw [logShutdown, clear, ok_bind]
  exact finished

/--
A removal takes out exactly the first match and notifies it before it is freed;
a shutdown does so with every entry, in the order of registration.
-/
theorem removal_takes_first_match {Table : Type} (table : CheckpointTable Table)
    (state : LogState Table) (registry : Registry) (registered : state.Registered registry) :
    (∀ callback userptr, ∃ next, state.logUnregisterBackend callback userptr = .ok next ∧
      ((next = state ∧ ∀ entry ∈ registry.entries, entry.2.callback ≠ callback) ∨
        ∃ earlier entry later, registry.entries = earlier ++ entry :: later ∧
          Registry.IsFirstMatch callback userptr earlier entry later ∧
          next.Registered (registry.without entry.1) ∧
          (registry.without entry.1).entries = earlier ++ later ∧
          next.events = state.events ++ Registry.notification entry ++ [.freed entry.1])) ∧
    (∀ checkpoints, table.clear state.checkpoints = .ok checkpoints →
      ∃ last, state.logShutdown table = .ok last ∧
        last.logBackends = none ∧
        last.Registered registry.cleared ∧
        last.events = state.events ++
          registry.entries.flatMap fun entry =>
            Registry.notification entry ++ [.freed entry.1]) := by
  constructor
  · intro callback userptr
    cases matched : registry.matching callback userptr with
    | none =>
        exact ⟨state, logUnregisterBackend_of_none registered matched,
          Or.inl ⟨rfl, Registry.no_callback_of_matching_none matched⟩⟩
    | some entry =>
        rcases logUnregisterBackend_of_some registered matched with
          ⟨entries, logBackends, removed, remaining⟩
        rcases Registry.isFirstMatch_of_matching matched with ⟨earlier, later, split, first⟩
        refine ⟨_, removed, Or.inr ⟨earlier, entry, later, split, first, remaining,
          Registry.without_entries split, ?_⟩⟩
        rw [List.append_assoc]
        rfl
  · intro checkpoints clear
    rcases logShutdown_spec registered clear with ⟨entries, logBackends, finished, cleared⟩
    exact ⟨_, finished, cleared.represents.head_eq, cleared, rfl⟩

/-- A backend registered twice is notified and freed twice, in order. -/
theorem removal_takes_first_match_twice :
    let table : CheckpointTable Unit := ⟨fun _ _ => .ok (1, ()), fun _ => .ok ()⟩
    let backend : Backend := ⟨1, some 2, none⟩
    ∃ state last : LogState Unit,
      run (execute table) (initial () .info)
        [.registerBackend backend, .registerBackend backend] = .ok state ∧
      state.logShutdown table = .ok last ∧ last.logBackends = none ∧
      last.events =
        [.notify 0 backend .shutdown, .freed 0, .notify 1 backend .shutdown, .freed 1] := by
  intro table backend
  rcases logRegisterBackend_spec (Registered.initial () .info) backend with
    ⟨entries, logBackends, registered, once⟩
  rcases logRegisterBackend_spec once backend with
    ⟨entries', logBackends', registeredAgain, twice⟩
  rcases (removal_takes_first_match table _ _ twice).2 () rfl with
    ⟨last, finished, head_eq, -, events_eq⟩
  have first : execute table (initial () .info) (.registerBackend backend) = _ := registered
  have second : execute table _ (.registerBackend backend) = _ := registeredAgain
  refine ⟨_, last, ?_, finished, head_eq, events_eq⟩
  rw [run_cons_of_ok first, run_cons_of_ok second, run_nil]

end LogState

end Lucciefr.Log
