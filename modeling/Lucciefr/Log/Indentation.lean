import Mathlib.Combinatorics.Enumerative.DyckWord
import Lucciefr.Log.Delivery
import Lucciefr.Msgpack.Header

/-!
# Indentation

The messages which enter and leave a scope are the brackets of a sequence of log
calls. When the brackets form a Dyck word, the indentation level is meant to follow
the nesting: it is restored at the end, both messages of a scope carry the same
indentation, and the messages in between carry a larger one. The threshold treats
the two levels like any other, and one value lets only the second one pass.
-/

namespace Lucciefr.Log

open Msgpack

/-- The scope messages among the log calls. -/
def LogCall.bracket (call : LogCall) : Option DyckStep :=
  match call.level with
  | .enter => some .U
  | .leave => some .D
  | _ => none

def brackets (calls : List LogCall) : List DyckStep :=
  calls.filterMap LogCall.bracket

/-- Every scope which is entered is left again, and no other. -/
def Balanced (calls : List LogCall) : Prop :=
  ∃ word : DyckWord, word.toList = brackets calls

/-- The scopes entered in a sequence of calls. -/
def entered (calls : List LogCall) : ℕ :=
  (brackets calls).count .U

/-- The scopes left in a sequence of calls. -/
def left (calls : List LogCall) : ℕ :=
  (brackets calls).count .D

/-- Less than this many scopes are open at any time. -/
def NestsBelow (limit : ℕ) (calls : List LogCall) : Prop :=
  ∀ earlier, earlier <+: calls → entered earlier < left earlier + limit

/-- The scope of a call that enters and the call that leaves it again. -/
structure Scope (calls earlier : List LogCall) (enter : LogCall) (body : List LogCall)
    (leave : LogCall) (later : List LogCall) : Prop where
  split : calls = earlier ++ enter :: (body ++ leave :: later)
  enters : enter.level = .enter
  leaves : leave.level = .leave
  balanced : Balanced body

section Brackets

variable {calls earlier later : List LogCall} {call : LogCall}

theorem entered_append : entered (earlier ++ later) = entered earlier + entered later := by
  simp [entered, brackets]

theorem left_append (earlier : List LogCall) :
    left (earlier ++ later) = left earlier + left later := by
  simp [left, brackets]

theorem entered_singleton : entered [call] = if call.level = .enter then 1 else 0 := by
  rcases call with ⟨attachment, level, origin, msg, len, timestamp, getpid, readable, unwrapped⟩
  cases level <;> rfl

theorem left_singleton : left [call] = if call.level = .leave then 1 else 0 := by
  rcases call with ⟨attachment, level, origin, msg, len, timestamp, getpid, readable, unwrapped⟩
  cases level <;> rfl

theorem Balanced.entered_eq_left (balanced : Balanced calls) : entered calls = left calls := by
  rcases balanced with ⟨word, word_eq⟩
  rw [entered, left, ← word_eq]
  exact word.count_U_eq_count_D

theorem Balanced.left_le_entered (balanced : Balanced calls) (initial : earlier <+: calls) :
    left earlier ≤ entered earlier := by
  rcases balanced with ⟨word, word_eq⟩
  have shorter : brackets earlier <+: word.toList := by
    rw [word_eq]
    exact initial.filterMap _
  have counted := word.count_D_le_count_U (brackets earlier).length
  rwa [← List.prefix_iff_eq_take.mp shorter] at counted

theorem left_eq_zero_iff : left calls = 0 ↔ ∀ call ∈ calls, call.level ≠ .leave := by
  induction calls with
  | nil => simp [left, brackets]
  | cons call calls ih =>
      have split : left (call :: calls) = left [call] + left calls := left_append [call]
      rw [split, left_singleton]
      by_cases leaves : call.level = .leave
      · simp [leaves]
      · simp [leaves, ih]

theorem nestsBelow_of_length {limit : ℕ} (short : calls.length < limit) :
    NestsBelow limit calls := by
  intro earlier initial
  have counted : entered earlier ≤ (brackets earlier).length := List.count_le_length
  have filtered : (brackets earlier).length ≤ earlier.length := List.length_filterMap_le _ _
  have shorter := initial.length_le
  omega

theorem Scope.open_inside {enter leave : LogCall} {body first second : List LogCall}
    (scope : Scope calls earlier enter body leave later) (initial : body = first ++ second) :
    entered (earlier ++ enter :: first) = entered earlier + 1 + entered first ∧
      left (earlier ++ enter :: first) = left earlier + left first ∧
      left first ≤ entered first ∧ earlier ++ enter :: first <+: calls := by
  have opened : earlier ++ enter :: first = (earlier ++ [enter]) ++ first := by simp
  refine ⟨?_, ?_, scope.balanced.left_le_entered ⟨second, initial.symm⟩, ?_⟩
  · rw [opened, entered_append, entered_append, entered_singleton, if_pos scope.enters]
  · rw [opened, left_append, left_append, left_singleton, if_neg (by simp [scope.enters])]
    rfl
  · refine ⟨second ++ leave :: later, ?_⟩
    rw [scope.split, initial]
    simp

end Brackets

/-- The indentation of a message can be read from its packed form. -/
theorem LogMessage.indentLevel_eq_of_pack {first second : LogMessage}
    (same : first.pack = second.pack) : first.indentLevel = second.indentLevel := by
  have levels : ∀ level : LogLevel, (packInt (Int32.ofNat level.number)).length = 1 := by
    intro level
    cases level <;> rfl
  simp only [LogMessage.pack, List.append_assoc] at same
  have afterArray := List.append_cancel_left same
  have afterLevel := (List.append_inj afterArray (by simp only [levels])).2
  exact packUint32_append_inj afterLevel

namespace LogState

variable {Table : Type} {table : CheckpointTable Table} {state next : LogState Table}
  {registry : Registry} {call : LogCall} {calls : List LogCall}

/-- The call passes the threshold and writes this message. -/
def Emits (table : CheckpointTable Table) (state : LogState Table) (call : LogCall)
    (message : LogMessage) : Prop :=
  ¬call.level.number < state.globalThreshold.number ∧
    ∃ next, state.sbufferLogLevel table call.attachment call.level call.timestamp
      (state.cachedPid call) call.origin call.msg call.len = .ok (message.pack, next)

/-- The decrement of `sbuffer_log_level` stops at 0. -/
theorem toNat_decrement (indent : UInt32) :
    (if indent > 0 then indent - 1 else indent).toNat = indent.toNat - 1 := by
  have positive_iff : indent > 0 ↔ 1 ≤ indent.toNat := UInt32.lt_iff_toNat_lt
  split
  · apply UInt32.toNat_sub_of_le
    exact UInt32.le_iff_toNat_le.mpr (positive_iff.mp ‹_›)
  · have empty : ¬1 ≤ indent.toNat := fun positive => absurd (positive_iff.mpr positive) ‹_›
    omega

theorem shownIndent_of_ne (remains : call.level ≠ .leave) :
    state.shownIndent call.level = state.indentLevel :=
  if_neg fun leaving => remains leaving.1

theorem toNat_shownIndent_of_leave (leaves : call.level = .leave) :
    (state.shownIndent call.level).toNat = state.indentLevel.toNat - 1 := by
  simp only [shownIndent, leaves, true_and]
  exact toNat_decrement _

theorem Emits.indentLevel_eq {message : LogMessage} (emits : state.Emits table call message) :
    message.indentLevel = state.shownIndent call.level := by
  rcases emits with ⟨-, next, written⟩
  have written := sbufferLogLevel_of_ok call.readable written
  cases chosen : chooseAttachment table state.checkpoints call.attachment call.level call.msg with
  | error fault =>
      rw [chosen, error_bind] at written
      contradiction
  | ok result =>
      rw [chosen, ok_bind] at written
      simp only [Except.ok.injEq, Prod.mk.injEq] at written
      exact LogMessage.indentLevel_eq_of_pack written.1.symm

/--
The indentation follows the nesting of a sequence of calls: it is restored at the
end; a message which leaves a scope carries the indentation from before the scope,
like the message which entered it; and a message inside carries a larger one than
the message which entered the scope.
-/
structure TracksNesting (table : CheckpointTable Table) (state final : LogState Table)
    (calls : List LogCall) : Prop where
  restored : final.indentLevel = state.indentLevel
  closes : ∀ earlier enter body leave later, Scope calls earlier enter body leave later →
    ∀ before inside, run (attachLogLevel table) state earlier = .ok before →
      run (attachLogLevel table) state (earlier ++ enter :: body) = .ok inside →
      ∀ closing, inside.Emits table leave closing →
        closing.indentLevel = before.indentLevel ∧
        ∀ opening, before.Emits table enter opening → closing.indentLevel = opening.indentLevel
  encloses : ∀ earlier enter first call second leave later,
    Scope calls earlier enter (first ++ call :: second) leave later →
    ∀ before inside, run (attachLogLevel table) state earlier = .ok before →
      run (attachLogLevel table) state (earlier ++ enter :: first) = .ok inside →
      ∀ opening message, before.Emits table enter opening → inside.Emits table call message →
        opening.indentLevel < message.indentLevel

/-- The indentation after a call, under a fixed threshold. -/
def indentStep (threshold : LogLevel) (indent : UInt32) (call : LogCall) : UInt32 :=
  if call.level.number < threshold.number then indent
  else if call.level = .enter then indent + 1
  else if call.level = .leave ∧ indent > 0 then indent - 1
  else indent

theorem nextIndent_eq :
    state.nextIndent call.level =
      if call.level = .enter then state.indentLevel + 1
      else if call.level = .leave ∧ state.indentLevel > 0 then state.indentLevel - 1
      else state.indentLevel := by
  unfold nextIndent shownIndent
  by_cases enters : call.level = .enter
  · simp [enters]
  · simp [enters]

theorem attachLogLevel_indent (registered : state.Registered registry)
    (succeeded : state.attachLogLevel table call = .ok next) :
    next.Registered registry ∧ next.globalThreshold = state.globalThreshold ∧
      next.indentLevel = indentStep state.globalThreshold state.indentLevel call := by
  by_cases suppressed : call.level.number < state.globalThreshold.number
  · rw [attachLogLevel_of_suppressed suppressed] at succeeded
    simp only [Except.ok.injEq] at succeeded
    subst succeeded
    exact ⟨registered, rfl, by rw [indentStep, if_pos suppressed]⟩
  · rw [attachLogLevel_of_emitted registered suppressed] at succeeded
    cases chosen : chooseAttachment table state.checkpoints call.attachment call.level call.msg with
    | error fault =>
        rw [chosen, error_bind] at succeeded
        contradiction
    | ok result =>
        rw [chosen, ok_bind] at succeeded
        simp only [Except.ok.injEq] at succeeded
        subst succeeded
        refine ⟨registered.emitted call _ _, rfl, ?_⟩
        rw [indentStep, if_neg suppressed]
        exact nextIndent_eq

theorem run_indent (registered : state.Registered registry)
    (succeeded : run (attachLogLevel table) state calls = .ok next) :
    next.Registered registry ∧ next.globalThreshold = state.globalThreshold ∧
      next.indentLevel = calls.foldl (indentStep state.globalThreshold) state.indentLevel := by
  induction calls generalizing state with
  | nil =>
      simp only [run_nil, Except.ok.injEq] at succeeded
      subst succeeded
      exact ⟨registered, rfl, rfl⟩
  | cons call calls ih =>
      rcases run_cons_ok succeeded with ⟨middle, stepped, rest⟩
      rcases attachLogLevel_indent registered stepped with ⟨still, threshold, indent⟩
      rcases ih still rest with ⟨last, lastThreshold, lastIndent⟩
      refine ⟨last, lastThreshold.trans threshold, ?_⟩
      rw [lastIndent, threshold, indent, List.foldl_cons]

section Arithmetic

variable {threshold : LogLevel} {indent : UInt32}

theorem indentStep_of_suppressed (suppressed : call.level.number < threshold.number) :
    indentStep threshold indent call = indent :=
  if_pos suppressed

theorem indentStep_of_other (stays : call.level ≠ .enter) (remains : call.level ≠ .leave) :
    indentStep threshold indent call = indent := by
  simp [indentStep, stays, remains]

theorem indentStep_of_enter (enters : call.level = .enter) (passes : threshold.number ≤ 7) :
    indentStep threshold indent call = indent + 1 := by
  have reached : ¬LogLevel.enter.number < threshold.number := Nat.not_lt.mpr passes
  simp only [indentStep, enters, if_neg reached, if_true]

theorem toNat_indentStep_of_leave (leaves : call.level = .leave) (passes : threshold.number ≤ 8) :
    (indentStep threshold indent call).toNat = indent.toNat - 1 := by
  have reached : ¬LogLevel.leave.number < threshold.number := Nat.not_lt.mpr passes
  simp only [indentStep, leaves, if_neg reached, reduceCtorEq, if_false, true_and]
  exact toNat_decrement indent

theorem foldl_indentStep_of_above (above : 8 < threshold.number) :
    calls.foldl (indentStep threshold) indent = indent := by
  induction calls with
  | nil => rfl
  | cons call calls ih =>
      have unchanged : indentStep threshold indent call = indent := by
        by_cases enters : call.level = .enter
        · apply indentStep_of_suppressed
          rw [enters]
          exact Nat.lt_of_succ_lt above
        · by_cases leaves : call.level = .leave
          · apply indentStep_of_suppressed
            rw [leaves]
            exact above
          · exact indentStep_of_other enters leaves
      rw [List.foldl_cons, unchanged]
      exact ih

/-- Between both levels, only the messages which leave a scope have an effect. -/
theorem foldl_indentStep_of_between (between : threshold.number = 8) :
    (calls.foldl (indentStep threshold) indent).toNat = indent.toNat - left calls := by
  induction calls using List.reverseRecOn with
  | nil => rfl
  | append_singleton calls call ih =>
      rw [List.foldl_append, List.foldl_cons, List.foldl_nil, left_append, left_singleton]
      by_cases leaves : call.level = .leave
      · rw [toNat_indentStep_of_leave leaves between.le, ih, if_pos leaves]
        exact Nat.sub_sub _ _ _
      · rw [if_neg leaves, Nat.add_zero, ← ih]
        apply congrArg UInt32.toNat
        by_cases enters : call.level = .enter
        · apply indentStep_of_suppressed
          rw [enters, between]
          decide
        · exact indentStep_of_other enters leaves

/-- Below both levels, the indentation is raised by the number of open scopes. -/
theorem foldl_indentStep_of_below (below : threshold.number ≤ 7)
    (closed : ∀ earlier, earlier <+: calls → left earlier ≤ entered earlier)
    (nests : NestsBelow (2 ^ 32 - indent.toNat) calls) :
    (calls.foldl (indentStep threshold) indent).toNat + left calls =
      indent.toNat + entered calls := by
  induction calls using List.reverseRecOn with
  | nil => rfl
  | append_singleton calls call ih =>
      have shorter : calls <+: calls ++ [call] := List.prefix_append _ _
      have reached := ih (fun earlier initial => closed earlier (initial.trans shorter))
        fun earlier initial => nests earlier (initial.trans shorter)
      have closedHere := closed _ (List.prefix_refl (calls ++ [call]))
      have nestsHere := nests _ (List.prefix_refl (calls ++ [call]))
      have bound := indent.toNat_lt
      rw [List.foldl_append, List.foldl_cons, List.foldl_nil]
      simp only [left_append, entered_append, left_singleton, entered_singleton]
        at closedHere nestsHere ⊢
      by_cases enters : call.level = .enter
      · have one : (1 : UInt32).toNat = 1 := rfl
        simp only [enters, reduceCtorEq, if_true, if_false] at nestsHere ⊢
        rw [indentStep_of_enter enters below, UInt32.toNat_add, one]
        omega
      · by_cases leaves : call.level = .leave
        · simp only [leaves, reduceCtorEq, if_true, if_false] at closedHere ⊢
          rw [toNat_indentStep_of_leave leaves (Nat.le_succ_of_le below)]
          omega
        · rw [indentStep_of_other enters leaves, if_neg enters, if_neg leaves]
          exact reached

end Arithmetic

section Scopes

variable {earlier body later : List LogCall} {enter leave : LogCall}
  {before inside : LogState Table}
  {message : LogMessage}

/-- Where both levels pass the threshold, the indentation tells how many scopes are open. -/
theorem run_indent_of_below (registered : state.Registered registry) (balanced : Balanced calls)
    (nests : NestsBelow (2 ^ 32 - state.indentLevel.toNat) calls)
    (below : state.globalThreshold.number ≤ 7) (initial : earlier <+: calls)
    (succeeded : run (attachLogLevel table) state earlier = .ok before) :
    before.indentLevel.toNat + left earlier = state.indentLevel.toNat + entered earlier := by
  rw [(run_indent registered succeeded).2.2]
  apply foldl_indentStep_of_below below
  · intro start shorter
    exact balanced.left_le_entered (shorter.trans initial)
  · intro start shorter
    exact nests start (shorter.trans initial)

theorem tracksNesting_of_below (registered : state.Registered registry) (balanced : Balanced calls)
    (nests : NestsBelow (2 ^ 32 - state.indentLevel.toNat) calls)
    (below : state.globalThreshold.number ≤ 7)
    (succeeded : run (attachLogLevel table) state calls = .ok next) :
    TracksNesting table state next calls where
  restored := by
    have reached := run_indent_of_below registered balanced nests below (List.prefix_refl _)
      succeeded
    apply UInt32.toNat_inj.mp
    rw [balanced.entered_eq_left] at reached
    exact Nat.add_right_cancel reached
  closes := by
    intro earlier enter body leave later scope before inside ranBefore ranInside closing closes
    have whole : body = body ++ [] := (List.append_nil body).symm
    rcases scope.open_inside whole with ⟨entered_eq, left_eq, -, initial⟩
    have reachedBefore := run_indent_of_below registered balanced nests below
      ⟨_, scope.split.symm⟩ ranBefore
    have reachedInside := run_indent_of_below registered balanced nests below initial ranInside
    have sameInside := scope.balanced.entered_eq_left
    have shown : closing.indentLevel = before.indentLevel := by
      apply UInt32.toNat_inj.mp
      rw [closes.indentLevel_eq, toNat_shownIndent_of_leave scope.leaves]
      omega
    refine ⟨shown, ?_⟩
    intro opening opens
    rw [shown, opens.indentLevel_eq, shownIndent_of_ne (by simp [scope.enters])]
  encloses := by
    intro earlier enter first call second leave later scope before inside ranBefore ranInside
      opening message opens emits
    rcases scope.open_inside rfl with ⟨entered_eq, left_eq, closed, initial⟩
    have reachedBefore := run_indent_of_below registered balanced nests below
      ⟨_, scope.split.symm⟩ ranBefore
    have reachedInside := run_indent_of_below registered balanced nests below initial ranInside
    rw [opens.indentLevel_eq, emits.indentLevel_eq, shownIndent_of_ne (by simp [scope.enters])]
    apply UInt32.lt_iff_toNat_lt.mpr
    by_cases leaves : call.level = .leave
    · -- the scope which this call leaves is inside, too
      have longer : first ++ [call] <+: first ++ call :: second := ⟨second, by simp⟩
      have inner := scope.balanced.left_le_entered longer
      simp only [left_append, entered_append, left_singleton, entered_singleton, leaves,
        reduceCtorEq, if_true, if_false] at inner
      rw [toNat_shownIndent_of_leave leaves]
      omega
    · rw [shownIndent_of_ne leaves]
      omega

/-- Only messages which leave a scope pass the threshold, there is one, and it lowers the
indentation. -/
def LeavesOnly (state : LogState Table) (calls : List LogCall) : Prop :=
  state.globalThreshold = .leave ∧ state.indentLevel > 0 ∧ ∃ call ∈ calls, call.level = .leave

theorem eq_leave_of_number {level : LogLevel} (number_eq : level.number = 8) : level = .leave := by
  cases level <;> first | rfl | contradiction

theorem tracksNesting_of_suppressed (registered : state.Registered registry)
    (suppressed : 7 < state.globalThreshold.number) (harmless : ¬state.LeavesOnly calls)
    (succeeded : run (attachLogLevel table) state calls = .ok next) :
    TracksNesting table state next calls where
  restored := by
    rw [(run_indent registered succeeded).2.2]
    rcases Nat.lt_or_eq_of_le suppressed with above | between
    · exact foldl_indentStep_of_above above
    · apply UInt32.toNat_inj.mp
      rw [foldl_indentStep_of_between between.symm]
      by_cases positive : state.indentLevel > 0
      · have remains : left calls = 0 := by
          apply left_eq_zero_iff.mpr
          intro call callMem leaves
          exact harmless ⟨eq_leave_of_number between.symm, positive, call, callMem, leaves⟩
        rw [remains, Nat.sub_zero]
      · have zero : ¬0 < state.indentLevel.toNat :=
          fun above => positive (UInt32.lt_iff_toNat_lt.mpr above)
        omega
  closes := by
    intro earlier enter body leave later scope before inside ranBefore ranInside closing closes
    rcases run_indent registered ranBefore with ⟨-, thresholdBefore, indentBefore⟩
    rcases run_indent registered ranInside with ⟨-, thresholdInside, indentInside⟩
    have passes := closes.1
    rw [scope.leaves, thresholdInside] at passes
    have between : state.globalThreshold.number = 8 :=
      Nat.le_antisymm (Nat.le_of_not_lt passes) suppressed
    have zero : ¬0 < state.indentLevel.toNat := by
      intro above
      apply harmless
      refine ⟨eq_leave_of_number between, UInt32.lt_iff_toNat_lt.mpr above, leave, ?_, scope.leaves⟩
      rw [scope.split]
      simp
    have reachedBefore := congrArg UInt32.toNat indentBefore
    have reachedInside := congrArg UInt32.toNat indentInside
    rw [foldl_indentStep_of_between between] at reachedBefore reachedInside
    refine ⟨?_, ?_⟩
    · apply UInt32.toNat_inj.mp
      rw [closes.indentLevel_eq, toNat_shownIndent_of_leave scope.leaves]
      omega
    · intro opening opens
      have passesBefore := opens.1
      rw [scope.enters, thresholdBefore] at passesBefore
      exact absurd suppressed passesBefore
  encloses := by
    intro earlier enter first call second leave later scope before inside ranBefore ranInside
      opening message opens emits
    have passes := opens.1
    rw [scope.enters, (run_indent registered ranBefore).2.1] at passes
    exact absurd suppressed passes

/-- When only the messages which leave a scope pass, the indentation sinks. -/
theorem not_tracksNesting_of_leavesOnly (registered : state.Registered registry)
    (leavesOnly : state.LeavesOnly calls)
    (succeeded : run (attachLogLevel table) state calls = .ok next) :
    ¬TracksNesting table state next calls := by
  intro tracks
  rcases leavesOnly with ⟨threshold, positive, leaves⟩
  have between : state.globalThreshold.number = 8 := by
    rw [threshold]
    rfl
  have reached := congrArg UInt32.toNat (run_indent registered succeeded).2.2
  rw [foldl_indentStep_of_between between, tracks.restored] at reached
  have above : 0 < state.indentLevel.toNat := UInt32.lt_iff_toNat_lt.mp positive
  have some : left calls ≠ 0 := by
    intro none
    rcases leaves with ⟨call, callMem, leaving⟩
    exact left_eq_zero_iff.mp none call callMem leaving
  omega

end Scopes

/--
From any state, a balanced sequence of calls runs to its end, and the indentation
follows its nesting if and only if the threshold does not let the messages which leave
a scope pass alone, to lower an indentation which is not 0.
-/
theorem tracksNesting_iff_not_leavesOnly (table : CheckpointTable Table)
    (registered : state.Registered registry)
    (balanced : Balanced calls) (nests : NestsBelow (2 ^ 32 - state.indentLevel.toNat) calls) :
    (table.NeverFaults → ∃ final, run (attachLogLevel table) state calls = .ok final) ∧
      ∀ final, run (attachLogLevel table) state calls = .ok final →
        (TracksNesting table state final calls ↔ ¬state.LeavesOnly calls) := by
  constructor
  · intro aside
    have progress : ∀ (state : LogState Table) (call : LogCall), state.Registered registry → True →
        ∃ next, state.attachLogLevel table call = .ok next ∧ next.Registered registry := by
      intro state call registered _
      by_cases suppressed : call.level.number < state.globalThreshold.number
      · exact ⟨state, attachLogLevel_of_suppressed suppressed, registered⟩
      · rcases chooseAttachment_ok aside state.checkpoints call with ⟨chosen, later, chosen_eq⟩
        refine ⟨state.emitted registry call chosen later, ?_, registered.emitted call _ _⟩
        rw [attachLogLevel_of_emitted registered suppressed, chosen_eq, ok_bind]
    rcases run_succeeds (fun state : LogState Table => state.Registered registry) (fun _ => True)
      progress registered (fun call _ => trivial) with ⟨final, ran, -⟩
    exact ⟨final, ran⟩
  · intro final succeeded
    constructor
    · intro tracks leavesOnly
      exact not_tracksNesting_of_leavesOnly registered leavesOnly succeeded tracks
    · intro harmless
      rcases Nat.lt_or_ge 7 state.globalThreshold.number with suppressed | below
      · exact tracksNesting_of_suppressed registered suppressed harmless succeeded
      · exact tracksNesting_of_below registered balanced nests below succeeded

/-- Two nested scopes, with a message inside. -/
theorem tracksNesting_iff_not_leavesOnly_nested :
    let table : CheckpointTable Unit := ⟨fun _ _ => .ok (1, ()), fun _ => .ok ()⟩
    let call : LogLevel → LogCall := fun level =>
      ⟨none, level, none, some [104, 105], -1, 0, 42, by simp, unwrapped_of_short (by simp)⟩
    let calls := [call .enter, call .debug, call .enter, call .error, call .leave, call .leave]
    ∃ final, run (attachLogLevel table) (initial () .info) calls = .ok final ∧
      TracksNesting table (initial () .info) final calls := by
  intro table call calls
  have balanced : Balanced calls := ⟨(0 : DyckWord).nest.nest, rfl⟩
  have nests : NestsBelow (2 ^ 32 - 0) calls := nestsBelow_of_length (by decide)
  rcases tracksNesting_iff_not_leavesOnly table (Registered.initial () .info) balanced nests with
    ⟨runs, tracks⟩
  rcases runs ⟨fun _ _ => ⟨_, rfl⟩, fun _ => ⟨_, rfl⟩⟩ with ⟨final, ran⟩
  refine ⟨final, ran, (tracks final ran).mpr ?_⟩
  rintro ⟨threshold, -⟩
  contradiction

/--
After one scope was entered and the threshold was set to the level which leaves a
scope, a balanced pair of messages takes the indentation from 1 to 0.
-/
theorem tracksNesting_suppressed_enter :
    let table : CheckpointTable Unit := ⟨fun _ _ => .ok (1, ()), fun _ => .ok ()⟩
    let call : LogLevel → LogCall := fun level =>
      ⟨none, level, none, some [104, 105], -1, 0, 42, by simp, unwrapped_of_short (by simp)⟩
    ∃ (state final : LogState Unit),
      run (execute table) (initial () .info) [.attach (call .enter), .setThreshold .leave] =
        .ok state ∧
      Balanced [call .enter, call .leave] ∧
      NestsBelow (2 ^ 32 - state.indentLevel.toNat) [call .enter, call .leave] ∧
      run (attachLogLevel table) state [call .enter, call .leave] = .ok final ∧
      ¬TracksNesting table state final [call .enter, call .leave] := by
  intro table call
  refine ⟨_, _, rfl, ⟨(0 : DyckWord).nest, rfl⟩, nestsBelow_of_length (by decide), rfl, ?_⟩
  intro tracks
  exact absurd tracks.restored (by decide)

end LogState

end Lucciefr.Log
