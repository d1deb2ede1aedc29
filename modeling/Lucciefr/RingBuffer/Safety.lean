import Lucciefr.RingBuffer.Refinement

/-!
# Safety of every ring buffer state

A ring buffer is without an array after an initialization with capacity 0 or a
failed allocation, and after `ringbuffer_done`. Every operation recognizes such
a vacant buffer by its count, except for a push: it takes the vacant buffer for
a full one and overwrites its oldest entry. A run is therefore safe exactly when
it pushes elements only while there is an array.
-/

namespace Lucciefr.RingBuffer

universe u

variable {Element : Type u} {build : Build} {capacity : ℕ} {free : Bool}

/-- The calls of a run which also reads elements and finishes the buffer. -/
inductive Call (Element : Type u) where
  | execute (op : Op Element)
  | element (index : ℕ)
  | tail
  | head
  | done

namespace Call

/-- The non-`NULL` element pointer which a call pushes, if any. -/
def pushed : Call Element → Option Element
  | .execute op => op.pushed
  | _ => none

def Readable : Call Element → Prop
  | .execute op => op.Readable
  | _ => True

/-- Whether the call is `ringbuffer_push` or `ringbuffer_push_copy`. -/
def isPush : Call Element → Bool
  | .execute (.push _) => true
  | .execute (.pushCopy _ _ _) => true
  | _ => false

end Call

/-- Execute one call; a read leaves the buffer as it is. -/
def call (build : Build) (rb : RingBuffer Element) : Call Element →
    Except Fault (RingBuffer Element)
  | .execute op => rb.execute build op
  | .element index => do
      let _ ← rb.element build index
      .ok rb
  | .tail => do
      let _ ← rb.tail build
      .ok rb
  | .head => do
      let _ ← rb.head build
      .ok rb
  | .done => rb.done build

/-- Both push operations push the same way, the one its argument and the other a copy. -/
theorem call_of_isPush {call : Call Element} (pushing : call.isPush) (readable : call.Readable)
    (rb : RingBuffer Element) : rb.call build call = rb.push build call.pushed := by
  cases call with
  | execute op =>
      cases op with
      | push element => rfl
      | pushCopy buffer size malloc => exact pushCopy_eq readable
      | pop => simp [Call.isPush] at pushing
      | clear => simp [Call.isPush] at pushing
  | element index => simp [Call.isPush] at pushing
  | tail => simp [Call.isPush] at pushing
  | head => simp [Call.isPush] at pushing
  | done => simp [Call.isPush] at pushing

theorem isPush_of_pushed {call : Call Element} (pushed : call.pushed ≠ none) : call.isPush := by
  cases call with
  | execute op => cases op <;> simp_all [Call.pushed, Op.pushed, Call.isPush]
  | element index => simp [Call.pushed] at pushed
  | tail => simp [Call.pushed] at pushed
  | head => simp [Call.pushed] at pushed
  | done => simp [Call.pushed] at pushed

/-- The state of a buffer without an array. -/
structure Vacant (rb : RingBuffer Element) : Prop where
  entries_eq : rb.entries = none
  count_eq : rb.count = 0
  capacity_eq : rb.capacity = 0

/-- The state of a buffer which stores a bounded list in an array of its capacity. -/
def Storing (build : Build) (capacity : ℕ) (free : Bool) (rb : RingBuffer Element) : Prop :=
  ∃ fifo : BoundedFifo Element capacity,
    Stores build capacity free [] rb fifo.dropped fifo.items

namespace Vacant

variable {rb : RingBuffer Element}

/-- Without a capacity, or without memory for it, a buffer is initialized vacant. -/
theorem init (free : Bool) {granted : Bool}
    (failed : ¬(0 < capacity ∧ callocPointers Element build granted capacity ≠ none)) :
    (init build granted capacity free : RingBuffer Element).Vacant := by
  by_cases capacity_pos : 0 < capacity
  · have allocated : callocPointers Element build granted capacity = none := by
      by_contra allocated
      exact failed ⟨capacity_pos, allocated⟩
    simp only [RingBuffer.init, gt_iff_lt, if_pos capacity_pos, allocated]
    exact ⟨rfl, rfl, rfl⟩
  · simp only [RingBuffer.init, gt_iff_lt, if_neg capacity_pos]
    exact ⟨rfl, rfl, rfl⟩

theorem sized (vacant : rb.Vacant) :
    ∀ entries, rb.entries = some entries → entries.length = rb.capacity := by
  intro entries entries_eq
  rw [vacant.entries_eq] at entries_eq
  contradiction

theorem element (vacant : rb.Vacant) (index : ℕ) : rb.element build index = .ok none := by
  simp [RingBuffer.element, vacant.count_eq]

/-- A push takes a vacant buffer for a full one. -/
theorem push (vacant : rb.Vacant) (element : Element) :
    rb.push build (some element) = .error .nullPointer := by
  have full : ¬rb.count < rb.capacity := by
    rw [vacant.count_eq, vacant.capacity_eq]
    exact lt_irrefl 0
  simp only [RingBuffer.push, if_neg full, set, freeEntry]
  cases rb.free <;> simp [load, store, vacant.entries_eq]

theorem clear (vacant : rb.Vacant) : rb.clear build = .ok rb := by
  simp [RingBuffer.clear, popWhileAbove, vacant.count_eq]

/-- Every call except for the push of an element leaves a vacant buffer vacant. -/
theorem call (vacant : rb.Vacant) {call : Call Element} (readable : call.Readable)
    (nothing : call.pushed = none) :
    ∃ next, rb.call build call = .ok next ∧ next.Vacant ∧ (call.isPush → next = rb) := by
  by_cases pushing : call.isPush
  · refine ⟨rb, ?_, vacant, fun _ => rfl⟩
    rw [call_of_isPush pushing readable, nothing]
    rfl
  · cases call with
    | execute op =>
        cases op with
        | push element => simp [Call.isPush] at pushing
        | pushCopy buffer size malloc => simp [Call.isPush] at pushing
        | pop => exact ⟨rb, pop_of_empty vacant.count_eq, vacant, fun _ => rfl⟩
        | clear => exact ⟨rb, vacant.clear, vacant, fun _ => rfl⟩
    | element index =>
        exact ⟨rb, by simp [RingBuffer.call, vacant.element], vacant, fun _ => rfl⟩
    | tail => exact ⟨rb, by simp [RingBuffer.call, tail, vacant.element], vacant, fun _ => rfl⟩
    | head => exact ⟨rb, by simp [RingBuffer.call, head, vacant.element], vacant, fun _ => rfl⟩
    | done =>
        refine ⟨{ rb with capacity := 0, entries := none }, ?_, ?_, fun impossible => ?_⟩
        · simp [RingBuffer.call, done, vacant.clear]
        · exact ⟨rfl, vacant.count_eq, rfl⟩
        · exact absurd impossible pushing

/-- The push of an element into a vacant buffer dereferences `NULL`. -/
theorem call_of_pushed (vacant : rb.Vacant) {call : Call Element} (readable : call.Readable)
    (pushed : call.pushed ≠ none) : rb.call build call = .error .nullPointer := by
  rw [call_of_isPush (isPush_of_pushed pushed) readable]
  cases pushed_eq : call.pushed with
  | none => contradiction
  | some element => exact vacant.push element

end Vacant

namespace Storing

variable {rb : RingBuffer Element}

theorem init (free : Bool) {granted : Bool} {entries : List (Option Element)}
    (capacity_pos : 0 < capacity)
    (allocated : callocPointers Element build granted capacity = some entries) :
    Storing build capacity free (init build granted capacity free : RingBuffer Element) :=
  ⟨BoundedFifo.empty Element capacity, Stores.init free capacity_pos allocated⟩

theorem sized (storing : Storing build capacity free rb) :
    ∀ entries, rb.entries = some entries → entries.length = rb.capacity := by
  rcases storing with ⟨fifo, ⟨slots, represents⟩, -⟩
  intro entries entries_eq
  rw [represents.entries_eq, Option.some.injEq] at entries_eq
  rw [← entries_eq, represents.length_eq]

theorem capacity_eq (storing : Storing build capacity free rb) : rb.capacity = capacity := by
  rcases storing with ⟨fifo, stores⟩
  exact stores.capacity_eq

theorem element (storing : Storing build capacity free rb) (index : ℕ) :
    ∃ element, rb.element build index = .ok element := by
  rcases storing with ⟨fifo, ⟨slots, represents⟩, -⟩
  exact ⟨_, represents.element index⟩

theorem done (storing : Storing build capacity free rb) :
    ∃ next, rb.done build = .ok next ∧ next.Vacant := by
  rcases storing with ⟨fifo, stores⟩
  rcases stores.clear with ⟨cleared, cleared_eq, clearedStores⟩
  refine ⟨{ cleared with capacity := 0, entries := none }, ?_, rfl, ?_, rfl⟩
  · simp [RingBuffer.done, cleared_eq]
  · simpa using clearedStores.count_eq

/-- Every call except for `ringbuffer_done` leaves a storing buffer storing. -/
theorem call (capacity_pos : 0 < capacity) (storing : Storing build capacity free rb)
    {call : Call Element} (readable : call.Readable) (unfinished : call ≠ .done) :
    ∃ next, rb.call build call = .ok next ∧ Storing build capacity free next := by
  cases call with
  | execute op =>
      rcases storing with ⟨fifo, stores⟩
      rcases execute_simulates capacity_pos fifo stores readable with ⟨next, executed, nextStores⟩
      exact ⟨next, executed, op.apply fifo, nextStores⟩
  | element index =>
      rcases storing.element index with ⟨element, read⟩
      exact ⟨rb, by simp [RingBuffer.call, read], storing⟩
  | tail =>
      rcases storing.element 0 with ⟨element, read⟩
      exact ⟨rb, by simp [RingBuffer.call, tail, read], storing⟩
  | head =>
      rcases storing.element (build.sub rb.count 1) with ⟨element, read⟩
      exact ⟨rb, by simp [RingBuffer.call, head, read], storing⟩
  | done => contradiction

end Storing

/-- A run in which no call leaves the array and a buffer of capacity 0 stores nothing. -/
structure SafeRun (build : Build) (rb : RingBuffer Element) (calls : List (Call Element)) :
    Prop where
  /-- No call dereferences `NULL` or indexes the array beyond its end. -/
  succeeds : ∃ last, run (call build) rb calls = .ok last
  /-- The end of the array is where the capacity says, in every state of the run. -/
  sized : ∀ before after middle entries, calls = before ++ after →
    run (call build) rb before = .ok middle → middle.entries = some entries →
    entries.length = middle.capacity
  /-- In a state of capacity 0 a push stores nothing and leaves the count at 0. -/
  unstored : ∀ before pushing after middle, calls = before ++ pushing :: after →
    pushing.isPush → run (call build) rb before = .ok middle → middle.capacity = 0 →
    ∃ next, middle.call build pushing = .ok next ∧ next.entries = middle.entries ∧
      next.count = 0

namespace SafeRun

variable {rb next : RingBuffer Element} {first : Call Element} {calls : List (Call Element)}

theorem nil (sized : ∀ entries, rb.entries = some entries → entries.length = rb.capacity) :
    SafeRun build rb [] where
  succeeds := ⟨rb, rfl⟩
  sized := by
    intro before after middle entries split ran entries_eq
    rcases List.append_eq_nil_iff.mp split.symm with ⟨rfl, -⟩
    simp only [run_nil, Except.ok.injEq] at ran
    subst ran
    exact sized entries entries_eq
  unstored := by
    intro before pushing after middle split
    simp at split

/-- A run is safe if its first call is and the rest of it is. -/
theorem cons (sized : ∀ entries, rb.entries = some entries → entries.length = rb.capacity)
    (unstored : first.isPush → rb.capacity = 0 → next.entries = rb.entries ∧ next.count = 0)
    (stepped : rb.call build first = .ok next) (rest : SafeRun build next calls) :
    SafeRun build rb (first :: calls) where
  succeeds := by
    rw [run_cons_of_ok stepped]
    exact rest.succeeds
  sized := by
    intro before after middle entries split ran entries_eq
    cases before with
    | nil =>
        simp only [run_nil, Except.ok.injEq] at ran
        subst ran
        exact sized entries entries_eq
    | cons second before =>
        rw [List.cons_append, List.cons.injEq] at split
        rcases split with ⟨rfl, split⟩
        rw [run_cons_of_ok stepped] at ran
        exact rest.sized before after middle entries split ran entries_eq
  unstored := by
    intro before pushing after middle split isPush ran vacant
    cases before with
    | nil =>
        simp only [run_nil, Except.ok.injEq] at ran
        rw [List.nil_append, List.cons.injEq] at split
        rcases split with ⟨rfl, -⟩
        subst ran
        exact ⟨next, stepped, unstored isPush vacant⟩
    | cons second before =>
        rw [List.cons_append, List.cons.injEq] at split
        rcases split with ⟨rfl, split⟩
        rw [run_cons_of_ok stepped] at ran
        exact rest.unstored before pushing after middle split isPush ran vacant

theorem tail (safe : SafeRun build rb (first :: calls)) :
    ∃ next, rb.call build first = .ok next ∧ SafeRun build next calls := by
  rcases safe with ⟨⟨last, ran⟩, sized, unstored⟩
  rcases run_cons_ok ran with ⟨next, stepped, ranRest⟩
  refine ⟨next, stepped, ⟨last, ranRest⟩, ?_, ?_⟩
  · intro before after middle entries split ranBefore entries_eq
    apply sized (first :: before) after middle entries (by rw [split, List.cons_append])
    · rw [run_cons_of_ok stepped, ranBefore]
    · exact entries_eq
  · intro before pushing after middle split isPush ranBefore
    apply unstored (first :: before) pushing after middle (by rw [split, List.cons_append]) isPush
    rw [run_cons_of_ok stepped, ranBefore]

theorem cons_iff (sized : ∀ entries, rb.entries = some entries → entries.length = rb.capacity)
    (unstored : first.isPush → rb.capacity = 0 → next.entries = rb.entries ∧ next.count = 0)
    (stepped : rb.call build first = .ok next) :
    SafeRun build rb (first :: calls) ↔ SafeRun build next calls := by
  constructor
  · intro safe
    rcases safe.tail with ⟨other, otherStepped, otherSafe⟩
    rw [stepped, Except.ok.injEq] at otherStepped
    exact otherStepped ▸ otherSafe
  · exact SafeRun.cons sized unstored stepped

end SafeRun

/-- From a vacant buffer a run is safe if and only if it pushes no element. -/
theorem Vacant.safeRun_iff {rb : RingBuffer Element} (vacant : rb.Vacant)
    {calls : List (Call Element)} (readable : ∀ call ∈ calls, call.Readable) :
    SafeRun build rb calls ↔ ∀ call ∈ calls, call.pushed = none := by
  induction calls generalizing rb with
  | nil => simpa using SafeRun.nil vacant.sized
  | cons first calls ih =>
      have firstReadable := readable first (by simp)
      have restReadable : ∀ call ∈ calls, call.Readable := fun call callMem =>
        readable call (List.mem_cons_of_mem _ callMem)
      by_cases nothing : first.pushed = none
      · rcases vacant.call firstReadable nothing with ⟨next, stepped, nextVacant, kept⟩
        have unstored : first.isPush → rb.capacity = 0 →
            next.entries = rb.entries ∧ next.count = 0 := by
          intro pushing _
          exact ⟨by rw [kept pushing], nextVacant.count_eq⟩
        rw [SafeRun.cons_iff vacant.sized unstored stepped, ih nextVacant restReadable,
          List.forall_mem_cons]
        exact (and_iff_right nothing).symm
      · have failed : rb.call build first = .error .nullPointer :=
          vacant.call_of_pushed firstReadable nothing
        constructor
        · intro safe
          rcases safe.tail with ⟨next, stepped, -⟩
          rw [failed] at stepped
          contradiction
        · intro unpushed
          exact absurd (unpushed first (by simp)) nothing

theorem unfinished_done {calls : List (Call Element)} :
    (∀ before call after, Call.done :: calls = before ++ call :: after → call.pushed ≠ none →
      Call.done ∉ before) ↔ ∀ call ∈ calls, call.pushed = none := by
  constructor
  · intro unfinished call callMem
    by_contra pushed
    rcases List.append_of_mem callMem with ⟨before, after, split⟩
    apply unfinished (.done :: before) call after (by rw [split, List.cons_append]) pushed
    simp
  · intro unpushed before call after split pushed doneMem
    cases before with
    | nil => simp at doneMem
    | cons second before =>
        rw [List.cons_append, List.cons.injEq] at split
        exact pushed (unpushed call (by simp [split.2]))

theorem unfinished_cons {first : Call Element} {calls : List (Call Element)}
    (goingOn : first ≠ .done) :
    (∀ before call after, first :: calls = before ++ call :: after → call.pushed ≠ none →
      Call.done ∉ before) ↔
    ∀ before call after, calls = before ++ call :: after → call.pushed ≠ none →
      Call.done ∉ before := by
  constructor
  · intro unfinished before call after split pushed doneMem
    apply unfinished (first :: before) call after (by rw [split, List.cons_append]) pushed
    exact List.mem_cons_of_mem _ doneMem
  · intro unfinished before call after split pushed
    cases before with
    | nil => simp
    | cons second before =>
        rw [List.cons_append, List.cons.injEq] at split
        rcases split with ⟨rfl, split⟩
        rw [List.mem_cons, not_or]
        exact ⟨Ne.symm goingOn, unfinished before call after split pushed⟩

/-- From a storing buffer a run is safe if and only if it pushes no element after `done`. -/
theorem Storing.safeRun_iff {rb : RingBuffer Element} (capacity_pos : 0 < capacity)
    (storing : Storing build capacity free rb) {calls : List (Call Element)}
    (readable : ∀ call ∈ calls, call.Readable) :
    SafeRun build rb calls ↔
      ∀ before call after, calls = before ++ call :: after → call.pushed ≠ none →
        Call.done ∉ before := by
  induction calls generalizing rb with
  | nil =>
      constructor
      · intro safe before call after split
        simp at split
      · intro unfinished
        apply SafeRun.nil
        exact storing.sized
  | cons first calls ih =>
      have firstReadable := readable first (by simp)
      have restReadable : ∀ call ∈ calls, call.Readable := fun call callMem =>
        readable call (List.mem_cons_of_mem _ callMem)
      have occupied : rb.capacity ≠ 0 := by
        rw [storing.capacity_eq]
        omega
      by_cases finishing : first = .done
      · subst finishing
        rcases storing.done with ⟨next, finished, vacant⟩
        have stepped : rb.call build .done = .ok next := finished
        rw [SafeRun.cons_iff storing.sized (fun _ vacant => absurd vacant occupied) stepped,
          vacant.safeRun_iff restReadable, unfinished_done]
      · rcases storing.call capacity_pos firstReadable finishing with ⟨next, stepped, nextStoring⟩
        rw [SafeRun.cons_iff storing.sized (fun _ vacant => absurd vacant occupied) stepped,
          ih nextStoring restReadable, unfinished_cons finishing]

/--
A run on a fresh buffer is safe if and only if it pushes elements only into a
buffer with an array: its allocation succeeded with a capacity above 0, and no
`ringbuffer_done` comes before the push.
-/
theorem safeRun_iff_pushes_with_array (build : Build) (granted : Bool) (capacity : ℕ)
    (free : Bool) (calls : List (Call Element)) (readable : ∀ call ∈ calls, call.Readable) :
    SafeRun build (init build granted capacity free) calls ↔
      ∀ before call after, calls = before ++ call :: after → call.pushed ≠ none →
        0 < capacity ∧ callocPointers Element build granted capacity ≠ none ∧
          Call.done ∉ before := by
  by_cases allocated : 0 < capacity ∧ callocPointers Element build granted capacity ≠ none
  · rcases allocated with ⟨capacity_pos, allocated⟩
    rcases Option.ne_none_iff_exists'.mp allocated with ⟨entries, allocated_eq⟩
    have storing : Storing build capacity free
        (init build granted capacity free : RingBuffer Element) :=
      Storing.init free capacity_pos allocated_eq
    rw [storing.safeRun_iff capacity_pos readable]
    constructor
    · intro unfinished before call after split pushed
      exact ⟨capacity_pos, allocated, unfinished before call after split pushed⟩
    · intro conditions before call after split pushed
      exact (conditions before call after split pushed).2.2
  · have vacant : (init build granted capacity free : RingBuffer Element).Vacant :=
      Vacant.init free allocated
    rw [vacant.safeRun_iff readable]
    constructor
    · intro unpushed before call after split pushed
      exact absurd (unpushed call (by simp [split])) pushed
    · intro conditions call callMem
      by_contra pushed
      rcases List.append_of_mem callMem with ⟨before, after, split⟩
      rcases conditions before call after split pushed with ⟨capacity_pos, allocatedCall, -⟩
      exact allocated ⟨capacity_pos, allocatedCall⟩

/-- A push before `done`, and the calls which a finished buffer accepts. -/
theorem safeRun_iff_pushes_with_array_done :
    SafeRun .x64 (init .x64 true 2 true)
      [.execute (.push (some 10)), .done, .execute .pop, .head] := by
  apply (safeRun_iff_pushes_with_array .x64 true 2 true
    [.execute (.push (some 10)), .done, .execute .pop, .head]
    (by simp [Call.Readable, Op.Readable])).mpr
  intro before call after split pushed
  cases before with
  | nil => exact ⟨by decide, by decide, by simp⟩
  | cons first before =>
      rw [List.cons_append, List.cons.injEq] at split
      have callMem : call ∈ [Call.done, .execute .pop, .head] := by simp [split.2]
      simp only [List.mem_cons, List.not_mem_nil, or_false] at callMem
      rcases callMem with rfl | rfl | rfl <;> exact absurd rfl pushed

/-- A buffer of capacity 0 takes the push of an element for a push into a full buffer. -/
theorem not_safeRun_capacity_zero :
    ¬SafeRun .x64 (init .x64 true 0 false) [.execute (.push (some 7))] := by
  rintro ⟨⟨last, ran⟩, -, -⟩
  cases ran

end Lucciefr.RingBuffer
