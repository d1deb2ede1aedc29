import Lucciefr.Log.Walk

/-!
# Dispatching while backends are added and removed

The loop of `sbuffer_log_send` reads the next pointer of the current entry after
its callback has returned, and the callback may have edited the list. As long as
no callback removes the entry it was called for, the loop follows the walk over
the registry. The first callback which does remove its own entry makes the loop
read a freed entry.
-/

namespace Lucciefr.Log

/-- The event is a call of the callback of this entry, with this message. -/
def Event.isMessageTo (address : ℕ) (logmsg : List UInt8) (level : LogLevel) : Event → Bool
  | .message entry _ bytes messageLevel =>
      entry = address && bytes = logmsg && messageLevel = level
  | _ => false

/-- How often the callback of an entry was called with a message. -/
def received (address : ℕ) (logmsg : List UInt8) (level : LogLevel) (events : List Event) : ℕ :=
  events.countP (Event.isMessageTo address logmsg level)

namespace LogState

variable {Table : Type} {state : LogState Table} {registry : Registry} {logmsg : List UInt8}
  {level : LogLevel}

theorem received_removal (logmsg : List UInt8) (level : LogLevel) (address : ℕ)
    (entry : ℕ × Backend) :
    received address logmsg level (Registry.removal entry) = 0 := by
  rcases entry with ⟨entry, ⟨callback, notify, userptr⟩⟩
  cases notify <;> rfl

/-- A call from inside a callback edits the registry and delivers nothing. -/
theorem executeCall_spec (registered : state.Registered registry) (call : BackendCall) :
    ∃ next, state.executeCall call = .ok next ∧ next.Registered (registry.apply call) ∧
      ∀ address, received address logmsg level next.events =
        received address logmsg level state.events := by
  cases call with
  | register backend =>
      rcases logRegisterBackend_spec registered backend with
        ⟨entries, logBackends, succeeded, added⟩
      exact ⟨_, succeeded, added, fun address => rfl⟩
  | unregister callback userptr =>
      simp only [executeCall, Registry.apply, Registry.unregister]
      cases matched : registry.matching callback userptr with
      | none =>
          exact ⟨state, logUnregisterBackend_of_none registered matched, registered,
            fun address => rfl⟩
      | some entry =>
          rcases logUnregisterBackend_of_some registered matched with
            ⟨entries, logBackends, succeeded, removed⟩
          refine ⟨_, succeeded, removed, ?_⟩
          intro address
          have silent := received_removal logmsg level address entry
          simp only [received, List.countP_append] at silent ⊢
          omega

theorem runCalls_spec (registered : state.Registered registry) (calls : List BackendCall) :
    ∃ next, run executeCall state calls = .ok next ∧ next.Registered (registry.applyAll calls) ∧
      ∀ address, received address logmsg level next.events =
        received address logmsg level state.events := by
  refine run_simulates Registry.apply
    (fun (next : LogState Table) registry => next.Registered registry ∧
      ∀ address, received address logmsg level next.events =
        received address logmsg level state.events)
    (fun _ => True) ?_ _ ⟨registered, fun _ => rfl⟩ fun _ _ => trivial
  rintro current registry call ⟨currentRegistered, unchanged⟩ -
  rcases executeCall_spec currentRegistered call with
    ⟨next, succeeded, nextRegistered, silent⟩
  exact ⟨next, succeeded, nextRegistered, fun address => (silent address).trans (unchanged address)⟩

theorem Registered.load_next (registered : state.Registered registry) {address : ℕ}
    (current : address ∈ addresses registry.entries) :
    ∃ node, state.entries.load (some address) = .ok node ∧
      node.next = Registry.successor address registry.entries := by
  rcases List.mem_map.mp current with ⟨entry, entryMem, rfl⟩
  rcases List.append_of_mem entryMem with ⟨earlier, later, entries_eq⟩
  refine ⟨_, registered.load entries_eq, ?_⟩
  have distinct := registry.distinct
  simp only [entries_eq, addresses, List.map_append, List.map_cons] at distinct
  have outside : entry.1 ∉ addresses earlier := by
    intro mem
    exact (List.nodup_append.mp distinct).2.2 _ mem entry.1 (by simp) rfl
  rw [entries_eq, Registry.successor_eq outside]

theorem dispatchTurn_eq (registered : state.Registered registry) {address : ℕ}
    (current : address ∈ addresses registry.entries) (calls : List BackendCall) :
    ∃ next, next.Registered (registry.applyAll calls) ∧
      (∀ other, received other logmsg level next.events =
        received other logmsg level state.events + if other = address then 1 else 0) ∧
      dispatchTurn logmsg level (some address, state) calls =
        (next.entries.load (some address) >>= fun node => .ok (node.next, next)) := by
  rcases List.mem_map.mp current with ⟨entry, entryMem, rfl⟩
  rcases List.append_of_mem entryMem with ⟨earlier, later, entries_eq⟩
  rcases runCalls_spec (registered.record (.message entry.1 entry.2 logmsg level)) calls with
    ⟨next, ran, nextRegistered, silent⟩
  refine ⟨next, nextRegistered, ?_, ?_⟩
  · intro other
    rw [silent other]
    simp only [received, List.countP_append, List.countP_singleton, Event.isMessageTo]
    by_cases same : other = entry.1
    · simp [same]
    · simp [same, Ne.symm same]
  · simp only [dispatchTurn, registered.load entries_eq, ok_bind, ran]

/-- The calls which the callbacks make in the first turns of the loop. -/
def firstTurns (script : ℕ → List BackendCall) (turns : ℕ) : List (List BackendCall) :=
  (List.range turns).map script

/-- The loop has come as far as the walk. -/
structure Follows (start : LogState Table) (logmsg : List UInt8) (level : LogLevel)
    (next : LogState Table) (walk : Walk) : Prop where
  registered : next.Registered walk.registry
  received_eq : ∀ address, received address logmsg level next.events =
    received address logmsg level start.events + walk.visited.count address

variable {script : ℕ → List BackendCall}

/-- While the callbacks keep their entries, the loop follows the walk. -/
theorem dispatch_follows (logmsg : List UInt8) (level : LogLevel)
    (registered : state.Registered registry) (turns : ℕ)
    (keeps : ∀ earlier < turns, ∀ address,
      (Walk.after registry script earlier).cursor = some address →
        address ∈ addresses
          ((Walk.after registry script earlier).registry.applyAll (script earlier)).entries) :
    ∃ next, run (dispatchTurn logmsg level) (state.logBackends, state)
        (firstTurns script turns) = .ok ((Walk.after registry script turns).cursor, next) ∧
      Follows state logmsg level next (Walk.after registry script turns) := by
  induction turns with
  | zero =>
      refine ⟨state, ?_, registered, fun address => rfl⟩
      rw [registered.represents.head_eq]
      rfl
  | succ turns ih =>
      have keepsEarlier := fun earlier (lt : earlier < turns) =>
        keeps earlier (Nat.lt_succ_of_lt lt)
      rcases ih keepsEarlier with ⟨next, ran, follows⟩
      rcases Walk.split_after keepsEarlier with ⟨before, pending, split⟩
      have turns_eq : firstTurns script (turns + 1) =
          firstTurns script turns ++ [script turns] := by
        simp [firstTurns, List.range_succ]
      rw [turns_eq, run_append_of_ok ran]
      cases pending with
      | nil =>
          have ended : (Walk.after registry script turns).cursor = none := split.cursor_eq
          rw [Walk.after, Walk.turn_of_ended ended, ended]
          exact ⟨next, rfl, follows⟩
      | cons entry pending =>
          have cursor_eq : (Walk.after registry script turns).cursor = some entry.1 :=
            split.cursor_eq
          have current :
              entry.1 ∈ addresses (Walk.after registry script turns).registry.entries := by
            simp [split.entries_eq]
          rcases dispatchTurn_eq follows.registered current (script turns) with
            ⟨last, lastRegistered, delivered, turned⟩
          have stays := keeps turns (Nat.lt_succ_self _) _ cursor_eq
          rcases split.turn stays with ⟨before', kept, added, -, registry_eq, visited_eq, -⟩
          rcases lastRegistered.load_next stays with ⟨node, loaded, next_eq⟩
          have turn_eq : (Walk.after registry script (turns + 1)).cursor =
              Registry.successor entry.1
                ((Walk.after registry script turns).registry.applyAll (script turns)).entries := by
            simp only [Walk.after, Walk.turn, cursor_eq]
          refine ⟨last, ?_, ?_, ?_⟩
          · rw [cursor_eq, turn_eq, ← next_eq]
            apply run_cons_of_ok
            rw [turned, loaded, ok_bind]
          · rw [Walk.after, registry_eq]
            exact lastRegistered
          · intro address
            rw [delivered address, follows.received_eq address, Walk.after, visited_eq,
              List.count_append, Nat.add_assoc]
            by_cases same : address = entry.1
            · simp [same]
            · simp [same, Ne.symm same]

/-- The first callback which removes its own entry makes the loop read a freed entry. -/
theorem dispatch_faults (registered : state.Registered registry) {turns address : ℕ}
    (keeps : ∀ earlier < turns, ∀ address,
      (Walk.after registry script earlier).cursor = some address →
        address ∈ addresses
          ((Walk.after registry script earlier).registry.applyAll (script earlier)).entries)
    (cursor_eq : (Walk.after registry script turns).cursor = some address)
    (removed : address ∉ addresses
      ((Walk.after registry script turns).registry.applyAll (script turns)).entries) :
    run (dispatchTurn logmsg level) (state.logBackends, state) (firstTurns script (turns + 1)) =
      .error .useAfterFree := by
  rcases dispatch_follows logmsg level registered turns keeps with ⟨next, ran, follows⟩
  rcases Walk.split_after keeps with ⟨before, pending, split⟩
  have current : address ∈ addresses (Walk.after registry script turns).registry.entries := by
    rw [split.cursor_eq] at cursor_eq
    rcases firstPointer_mem cursor_eq with ⟨impossible, -⟩ | mem
    · contradiction
    · simp only [split.entries_eq, addresses, List.map_append, List.mem_append]
      exact Or.inr mem
  rcases dispatchTurn_eq follows.registered current (script turns) with
    ⟨last, lastRegistered, -, turned⟩
  have turns_eq : firstTurns script (turns + 1) = firstTurns script turns ++ [script turns] := by
    simp [firstTurns, List.range_succ]
  rw [turns_eq, run_append_of_ok ran, cursor_eq]
  apply run_cons_of_error
  rw [turned, lastRegistered.load_of_notMem removed]
  rfl

/-- The entry is a live node of the heap. -/
def Live (state : LogState Table) (address : ℕ) : Prop :=
  ∃ node, state.entries.cells address = some node

theorem Registered.live_iff (registered : state.Registered registry) {address : ℕ} :
    state.Live address ↔ address ∈ addresses registry.entries := by
  constructor
  · rintro ⟨node, live⟩
    by_contra outside
    rw [registered.only address outside] at live
    contradiction
  · intro mem
    rcases registered.represents.linked.live mem with ⟨node, live, -⟩
    exact ⟨node, live⟩

/--
What a dispatch should do while the callbacks edit the list: it reads no freed entry,
it ends when finitely many entries are added, and every entry which was registered
before and stays registered receives the message exactly once.
-/
def DispatchesCorrectly (state : LogState Table) (logmsg : List UInt8) (level : LogLevel)
    (script : ℕ → List BackendCall) : Prop :=
  (∀ turns, run (dispatchTurn logmsg level) (state.logBackends, state)
      (firstTurns script turns) ≠ .error .useAfterFree) ∧
    ((∃ quiet, ∀ turns ≥ quiet, ∀ backend, .register backend ∉ script turns) →
      ∃ turns last, state.sbufferLogSend logmsg level (firstTurns script turns) = .ok last) ∧
    ∀ address, state.Live address →
      (∀ turns cursor next, run (dispatchTurn logmsg level) (state.logBackends, state)
        (firstTurns script turns) = .ok (cursor, next) → next.Live address) →
      ∃ turns, ∀ later ≥ turns, ∃ cursor next,
        run (dispatchTurn logmsg level) (state.logBackends, state) (firstTurns script later) =
          .ok (cursor, next) ∧
        received address logmsg level next.events =
          received address logmsg level state.events + 1

theorem dispatchesCorrectly_of_keepsCurrent (registered : state.Registered registry)
    (keeps : Walk.KeepsCurrent registry script) :
    state.DispatchesCorrectly logmsg level script := by
  have follow := fun turns =>
    dispatch_follows logmsg level registered turns fun earlier _ => keeps earlier
  refine ⟨?_, ?_, ?_⟩
  · intro turns
    rcases follow turns with ⟨next, ran, -⟩
    simp [ran]
  · rintro ⟨quiet, noRegister⟩
    rcases Walk.terminates keeps noRegister with ⟨turns, ended⟩
    rcases follow turns with ⟨next, ran, -⟩
    refine ⟨turns, next, ?_⟩
    rw [sbufferLogSend, ran, ok_bind, ended]
  · intro address live stays
    have registeredAlways : ∀ turns,
        address ∈ addresses (Walk.after registry script turns).registry.entries := by
      intro turns
      rcases follow turns with ⟨next, ran, follows⟩
      exact follows.registered.live_iff.mp (stays turns _ next ran)
    rcases Walk.visits keeps registeredAlways with ⟨turns, visited⟩
    refine ⟨turns, ?_⟩
    intro later later_ge
    rcases follow later with ⟨next, ran, follows⟩
    rcases Walk.split_after fun earlier _ => keeps earlier with
      ⟨before, pending, split⟩
    refine ⟨_, next, ran, ?_⟩
    rw [follows.received_eq address,
      List.count_eq_one_of_mem split.visited_nodup (Walk.visited_mono later_ge visited)]

/--
A dispatch is correct exactly if no callback removes the entry it is called for,
whatever else the callbacks add and remove.
-/
theorem dispatchesCorrectly_iff_keepsCurrent (state : LogState Table) (registry : Registry)
    (registered : state.Registered registry) (logmsg : List UInt8) (level : LogLevel)
    (script : ℕ → List BackendCall) :
    state.DispatchesCorrectly logmsg level script ↔ Walk.KeepsCurrent registry script := by
  constructor
  · rintro ⟨noFault, -, -⟩ turns
    induction turns using Nat.strong_induction_on with
    | _ turns ih =>
        intro address cursor_eq
        by_contra removed
        exact noFault (turns + 1) (dispatch_faults registered ih cursor_eq removed)
  · exact dispatchesCorrectly_of_keepsCurrent registered

/-- Removing the next entry and adding one from a callback is harmless. -/
theorem dispatchesCorrectly_iff_keepsCurrent_next :
    let table : CheckpointTable Unit := ⟨fun _ _ => .ok (1, ()), fun _ => .ok ()⟩
    let backend : Backend := ⟨1, none, none⟩
    let script : ℕ → List BackendCall := fun turn =>
      if turn = 0 then [.unregister 2 none, .register backend] else []
    ∃ state : LogState Unit,
      run (execute table) (initial () .info)
        [.registerBackend backend, .registerBackend ⟨2, none, none⟩] = .ok state ∧
      state.DispatchesCorrectly [0xc0] .info script := by
  intro table backend script
  rcases logRegisterBackend_spec (Registered.initial () .info) backend with
    ⟨entries, logBackends, registered, once⟩
  rcases logRegisterBackend_spec once ⟨2, none, none⟩ with
    ⟨entries', logBackends', registeredAgain, twice⟩
  have first : execute table (initial () .info) (.registerBackend backend) = _ := registered
  have second : execute table _ (.registerBackend ⟨2, none, none⟩) = _ := registeredAgain
  refine ⟨_, by rw [run_cons_of_ok first, run_cons_of_ok second, run_nil], ?_⟩
  apply (dispatchesCorrectly_iff_keepsCurrent _ _ twice [0xc0] .info script).mpr
  intro turns address cursor_eq
  match turns with
  | 0 =>
      cases cursor_eq
      decide
  | 1 =>
      cases cursor_eq
      decide
  | more + 2 =>
      rw [Nat.add_comm, Walk.after_of_ended rfl more] at cursor_eq
      contradiction

/-- A backend which removes itself from its callback. -/
theorem dispatch_self_removal :
    ∃ state : LogState Unit,
      run (execute ⟨fun _ _ => .ok (1, ()), fun _ => .ok ()⟩) (initial () .info)
        [.registerBackend ⟨1, none, none⟩] = .ok state ∧
      state.sbufferLogSend [0xc0] .info [[.unregister 1 none]] = .error .useAfterFree ∧
      ¬state.DispatchesCorrectly [0xc0] .info fun _ => [.unregister 1 none] := by
  refine ⟨_, rfl, rfl, ?_⟩
  rintro ⟨noFault, -, -⟩
  exact noFault 1 rfl

end LogState

end Lucciefr.Log
