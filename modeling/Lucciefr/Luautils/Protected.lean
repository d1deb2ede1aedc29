import Lucciefr.Lua.Call
import Lucciefr.Luautils.Basic

/-!
# Protected calls

`luautils_cpcall` of `core/luautils.c`, and `libopen`, which rests on it. A message
handler, which knows the name of the function in its upvalue, and the function itself
are inserted below the arguments.
-/

namespace Lucciefr.Lua

/-- `cpcall_errfunc` -/
def cpcallErrfunc (runtime : Runtime) : LuaM ℕ := do
  luaPushvalue (luaUpvalueindex 1)
  luaPushliteral "() error: "
  luaPushvalue 1
  luaConcat runtime 3
  pure 1

/-- What a state has become. -/
def stateAfter {α : Type} : EStateM.Result Failure State α → State
  | .ok _ reached => reached
  | .error _ reached => reached

/-- A C function. The functions which it finds are still there when it returns. -/
structure CFunction where
  run : LuaM ℕ
  keepsCode : ∀ state address closure, state.closures.cells address = some closure →
    ∃ kept, (stateAfter (run state)).closures.cells address = some kept ∧ kept.code = closure.code

/-- The address of `cpcall_errfunc`. -/
def cpcallErrfuncAddress : ℕ := 0

/-- The code of the program, with the other C functions at the addresses from 1 on. -/
def program (runtime : Runtime) (functions : ℕ → CFunction) : ℕ → LuaM ℕ
  | 0 => cpcallErrfunc runtime
  | address + 1 => (functions address).run

/-- `lua_guarded_pcall`, in which no exception occurs in native code: `setjmp` returns
only once. -/
def luaGuardedPcall (runtime : Runtime) (code : ℕ → LuaM ℕ) (nargs : ℕ)
    (nresults errfunc : ℤ) : LuaM ℤ :=
  luaPcall runtime code nargs nresults errfunc

/-- `luautils_cpcall` -/
def luautilsCpcall (runtime : Runtime) (functions : ℕ → CFunction) (func : ℕ)
    (fname : List UInt8) (nargs : ℤ) : LuaM Bool := do
  luaPushstring fname
  luaPushcclosure cpcallErrfuncAddress 1
  let top ← luaGettop
  let errfunc := top - nargs
  if errfunc ≤ 0 then
    luaLError runtime (characters ("luautils_cpcall(" ++ runtime.formattedState ++ ",'") ++
      cString fname ++ characters ("'," ++ toString nargs ++
        ") invalid stack index for error handler, check your nargs"))
  else do
    luaInsert errfunc
    luaPushcclosure func 0
    luaInsert (errfunc + 1)
    let result ← luaGuardedPcall runtime (program runtime functions) nargs.toNat luaMultret errfunc
    if result ≠ 0 then
      pure true
    else do
      luaRemove errfunc
      pure false

/-- `luautils_stackclean` -/
def luautilsStackclean (basepointer : ℤ) : LuaM Unit :=
  if basepointer ≥ 0 then luaSettop basepointer else pure ()

/-- `libopen` -/
def libopen (runtime : Runtime) (functions : ℕ → CFunction) (func : ℕ) (fname : List UInt8)
    (expectArgs popArgs : ℤ) : LuaM Unit := do
  let top ← luaGettop
  let failed ← luautilsCpcall runtime functions func fname 0
  if failed then
    luaError
  else do
    let reached ← luaGettop
    if expectArgs ≥ 0 ∧ reached ≠ top + expectArgs then
      luaLError runtime (characters "libopen('" ++ cString fname ++
        characters ("') stack misaligned: expected " ++ toString (top + expectArgs) ++ ", got " ++
          toString reached))
    else if popArgs > 0 then
      luautilsStackclean (reached - popArgs)
    else
      pure ()

/-- The message handler, with the name in its upvalue. -/
def State.handler (state : State) (fname : List UInt8) : Closure where
  code := cpcallErrfuncAddress
  upvalues := [.string (cString fname)]
  environment := state.environment

/-- The function itself. -/
def State.callee (state : State) (func : ℕ) : Closure where
  code := func
  upvalues := []
  environment := state.environment

/-- The state with the handler and the function below the arguments. -/
def State.prepared (state : State) (func : ℕ) (fname : List UInt8) (nargs : ℕ) : State :=
  { state with
    stack := state.stack.take nargs ++ .function (state.closures.bound + 1) ::
      .function state.closures.bound :: state.stack.drop nargs
    closures := ((state.closures.alloc (state.handler fname)).2.alloc (state.callee func)).2 }

/-- The state in which the function begins. -/
def State.called (state : State) (func : ℕ) (fname : List UInt8) (nargs : ℕ) : State :=
  (state.prepared func fname nargs).enter (state.callee func) (state.stack.take nargs).reverse

section Lemmas

variable {runtime : Runtime} {functions : ℕ → CFunction} {state frame : State} {func n : ℕ}
  {fname text : List UInt8} {nargs : ℕ} {message : Value}

theorem luaConcat_three {first second third : Value} :
    (∃ text, luaConcat runtime 3 (((state.push first).push second).push third) =
      .ok () (state.push (.string text))) ∨
    ∃ raised, luaConcat runtime 3 (((state.push first).push second).push third) =
      .error (.raised raised) (((state.push first).push second).push third) := by
  have enough : ¬(((state.push first).push second).push third).stack.length < 3 := by
    simp only [State.stack_push, List.length_cons]
    omega
  rw [luaConcat, if_neg enough, if_neg (by decide), if_neg (by decide)]
  split
  · exact Or.inr ⟨_, rfl⟩
  · rename_i texts _
    by_cases fits : texts.flatten.length < ljMaxStr
    · rw [if_pos fits]
      exact Or.inl ⟨texts.flatten, rfl⟩
    · rw [if_neg fits]
      exact Or.inr ⟨_, rfl⟩

theorem luaConcat_strings {first second third : List UInt8}
    (fits : (first ++ second ++ third).length < ljMaxStr) :
    luaConcat runtime 3
        (((state.push (.string first)).push (.string second)).push (.string third)) =
      .ok () (state.push (.string (first ++ second ++ third))) := by
  have enough : ¬(((state.push (.string first)).push (.string second)).push
      (.string third)).stack.length < 3 := by
    simp only [State.stack_push, List.length_cons]
    omega
  have flat : [first, second, third].flatten = first ++ second ++ third := by simp
  have texts : ((((state.push (.string first)).push (.string second)).push
      (.string third)).stack.take 3).reverse.mapM (concatText runtime) =
        some [first, second, third] := rfl
  rw [luaConcat, if_neg enough, if_neg (by decide), if_neg (by decide), texts]
  simp only [flat, if_pos fits]
  rfl

theorem cpcallErrfunc_eq {name : Value} (name_eq : name = (state.upvalues[0]?).getD .nil)
    {shown : Value} (shown_eq : shown =
      (((state.push name).push (.string (characters "() error: "))).slots[0]?).getD .nil) :
    cpcallErrfunc runtime state =
      (luaConcat runtime 3 >>= fun _ => pure 1)
        (((state.push name).push (.string (characters "() error: "))).push shown) := by
  have pushName : luaPushvalue (luaUpvalueindex 1) state = .ok () (state.push name) := by
    rw [name_eq]
    rfl
  have pushShown : luaPushvalue 1 ((state.push name).push (.string (characters "() error: "))) =
      .ok () (((state.push name).push (.string (characters "() error: "))).push shown) := by
    rw [shown_eq]
    rfl
  rw [cpcallErrfunc, bind_of_ok pushName, luaPushliteral, bind_of_ok push_eq, bind_of_ok pushShown]

/-- The handler returns one string, or fails by an error of its own. -/
theorem cpcallErrfunc_cases (runtime : Runtime) (state : State) :
    (∃ text, cpcallErrfunc runtime state = .ok 1 (state.push (.string text))) ∨
    ∃ raised reached, cpcallErrfunc runtime state = .error (.raised raised) reached ∧
      reached.closures = state.closures := by
  rw [cpcallErrfunc_eq rfl rfl]
  rcases luaConcat_three with ⟨text, joined⟩ | ⟨raised, failed⟩
  · exact Or.inl ⟨text, bind_of_ok joined⟩
  · exact Or.inr ⟨raised, _, bind_of_error failed, rfl⟩

/-- The handler puts the name of the function in front of the message. -/
theorem cpcallErrfunc_string (runtime : Runtime) (state : State)
    (fits : (cString fname ++ characters "() error: " ++ text).length < ljMaxStr)
    (upvalues_eq : state.upvalues = [.string (cString fname)])
    (stack_eq : state.stack = [.string text]) :
    cpcallErrfunc runtime state =
      .ok 1 (state.push (.string (cString fname ++ characters "() error: " ++ text))) := by
  have name_eq : Value.string (cString fname) = (state.upvalues[0]?).getD .nil := by
    rw [upvalues_eq]
    rfl
  have shown_eq : Value.string text = ((((state.push (.string (cString fname))).push
      (.string (characters "() error: "))).slots[0]?).getD .nil) := by
    rw [State.slots, State.stack_push, State.stack_push, stack_eq]
    rfl
  rw [cpcallErrfunc_eq name_eq shown_eq, bind_of_ok (luaConcat_strings fits)]
  rfl

theorem program_keepsCode (runtime : Runtime) (functions : ℕ → CFunction) (state : State) (func : ℕ)
    {address : ℕ} {closure : Closure}
    (present : state.closures.cells address = some closure) :
    ∃ kept, (stateAfter (program runtime functions func state)).closures.cells address = some kept ∧
      kept.code = closure.code := by
  cases func with
  | zero =>
      rw [program]
      rcases cpcallErrfunc_cases runtime state with ⟨text, returned⟩ |
        ⟨raised, reached, failed, same⟩
      · rw [returned]
        exact ⟨closure, present, rfl⟩
      · rw [failed, stateAfter, same]
        exact ⟨closure, present, rfl⟩
  | succ func => exact (functions func).keepsCode state address closure present

/-- Up to the protected call, the handler and the function are put below the arguments. -/
theorem luautilsCpcall_eq (enough : nargs ≤ state.stack.length) :
    luautilsCpcall runtime functions func fname nargs state =
      (luaPcall runtime (program runtime functions) nargs luaMultret (state.top + 1 - nargs) >>=
        fun result =>
          if result ≠ 0 then
            pure true
          else do
            luaRemove (state.top + 1 - nargs)
            pure false) (state.prepared func fname nargs) := by
  have below_length : (state.stack.drop nargs).length = state.stack.length - nargs :=
    List.length_drop
  have errfunc_eq : state.top + 1 - nargs = (state.stack.drop nargs).length + 1 := by
    rw [State.top]
    omega
  have pushHandler : luaPushcclosure cpcallErrfuncAddress 1 (state.push (.string (cString fname))) =
      .ok () (state.withClosure (state.handler fname) []
        (state.stack.take nargs ++ state.stack.drop nargs)) := by
    rw [List.take_append_drop]
    exact luaPushcclosure_one
  have top_eq : (state.withClosure (state.handler fname) []
      (state.stack.take nargs ++ state.stack.drop nargs)).top = state.top + 1 := by
    rw [List.take_append_drop]
    rfl
  have pushFunction : luaPushcclosure func 0 (state.withClosure (state.handler fname)
      (state.stack.take nargs) (state.stack.drop nargs)) =
        .ok () ((state.withClosure (state.handler fname) (state.stack.take nargs)
          (state.stack.drop nargs)).withClosure (state.callee func) []
            (state.stack.take nargs ++ .function state.closures.bound ::
              state.stack.drop nargs)) :=
    luaPushcclosure_zero
  have above_handler : state.top + 1 - nargs + 1 =
      (Value.function state.closures.bound :: state.stack.drop nargs).length + 1 := by
    rw [List.length_cons, errfunc_eq]
    rfl
  rw [luautilsCpcall, luaPushstring, bind_of_ok push_eq, bind_of_ok pushHandler,
    bind_of_ok luaGettop_eq, top_eq, if_neg (by omega),
    bind_of_ok (luaInsert_withClosure errfunc_eq), bind_of_ok pushFunction,
    bind_of_ok (luaInsert_withClosure above_handler), Int.toNat_natCast]
  rfl

theorem luaPcall_prepared (enough : nargs ≤ state.stack.length) {code : ℕ → LuaM ℕ} :
    luaPcall runtime code nargs luaMultret (state.top + 1 - nargs)
        (state.prepared func fname nargs) =
      vmPcall runtime code (some (.function state.closures.bound))
        (.function (state.closures.bound + 1)) (state.stack.take nargs).reverse
        (.function state.closures.bound :: state.stack.drop nargs) luaMultret
        (state.prepared func fname nargs) := by
  have length_eq : (state.stack.take nargs).length = nargs := List.length_take_of_le enough
  have errfunc_eq : state.top + 1 - nargs = (state.stack.drop nargs).length + 1 := by
    rw [State.top, List.length_drop]
    omega
  have called := luaPcall_eq runtime code (state.prepared func fname nargs) rfl errfunc_eq
  rwa [length_eq] at called

theorem callee_live : (state.prepared func fname nargs).closures.cells (state.closures.bound + 1) =
    some (state.callee func) :=
  Heap.cells_alloc_self

theorem handler_live : (state.called func fname nargs).closures.cells state.closures.bound =
    some (state.handler fname) := by
  change ((state.closures.alloc (state.handler fname)).2.alloc (state.callee func)).2.cells
    state.closures.bound = _
  rw [Heap.cells_alloc_of_ne, Heap.cells_alloc_self]
  rw [Heap.bound_alloc]
  omega

/-- A function which returns leaves its results in place of the arguments. -/
theorem luautilsCpcall_of_ok (enough : nargs ≤ state.stack.length)
    (returned : program runtime functions func (state.called func fname nargs) = .ok n frame)
    (results : n ≤ frame.stack.length) :
    luautilsCpcall runtime functions func fname nargs state =
      .ok false { (state.prepared func fname nargs).leave frame (state.closures.bound + 1) with
        stack := frame.stack.take n ++ state.stack.drop nargs } := by
  have run : luaPcall runtime (program runtime functions) nargs luaMultret
      (state.top + 1 - nargs) (state.prepared func fname nargs) =
        .ok 0 { (state.prepared func fname nargs).leave frame (state.closures.bound + 1) with
          stack := frame.stack.take n ++ .function state.closures.bound ::
            state.stack.drop nargs } := by
    rw [luaPcall_prepared enough, vmPcall_of_ok (callValue_of_ok _ _ callee_live returned results),
      List.reverse_reverse]
  have removed := luaRemove_of_split
    { (state.prepared func fname nargs).leave frame (state.closures.bound + 1) with
      stack := frame.stack.take n ++ .function state.closures.bound :: state.stack.drop nargs }
    (state.top + 1 - nargs) rfl (by rw [State.top, List.length_drop]; omega)
  rw [luautilsCpcall_eq enough, bind_of_ok run, if_neg (by decide), bind_of_ok removed]
  rfl

/-- The handler is called whatever the message is. -/
theorem handleError_handler {reached : State} {closure : Closure} {address : ℕ}
    (live : reached.closures.cells address = some closure)
    (code_eq : closure.code = cpcallErrfuncAddress) :
    ∃ status shown after, status ≠ 0 ∧
      handleError runtime (program runtime functions) (some (.function address)) message reached =
        .ok (status, shown) after := by
  have program_eq : program runtime functions closure.code = cpcallErrfunc runtime := by
    rw [code_eq]
    rfl
  rcases cpcallErrfunc_cases runtime (reached.enter closure [message]) with ⟨text, returned⟩ |
    ⟨raised, frame, failed, -⟩
  · rw [← program_eq] at returned
    have called := callValue_of_ok runtime _ live returned (by simp)
    exact ⟨luaErrrun, _, _, by decide, handleError_of_ok called⟩
  · rw [← program_eq] at failed
    have called := callValue_of_error runtime _ live failed
    exact ⟨luaErrerr, _, _, by decide, handleError_of_raised called⟩

/-- What the handler makes of an error is left on top of the handler. -/
theorem luautilsCpcall_of_handled (enough : nargs ≤ state.stack.length) {status : ℤ} {shown : Value}
    {after : State}
    (failed : program runtime functions func (state.called func fname nargs) =
      .error (.raised message) frame)
    (nonzero : status ≠ 0)
    (handled : handleError runtime (program runtime functions)
      (some (.function state.closures.bound)) message
      ((state.prepared func fname nargs).leave frame (state.closures.bound + 1)) =
        .ok (status, shown) after) :
    luautilsCpcall runtime functions func fname nargs state =
      .ok true { after with
        stack := shown :: .function state.closures.bound :: state.stack.drop nargs } := by
  have run : luaPcall runtime (program runtime functions) nargs luaMultret
      (state.top + 1 - nargs) (state.prepared func fname nargs) =
        .ok status { after with
          stack := shown :: .function state.closures.bound :: state.stack.drop nargs } := by
    rw [luaPcall_prepared enough, vmPcall_of_raised
      (callValue_of_error runtime _ callee_live failed) handled]
  rw [luautilsCpcall_eq enough, bind_of_ok run, if_pos nonzero]
  rfl

/-- A function which raises an error leaves the handler below the message. -/
theorem luautilsCpcall_of_raised (enough : nargs ≤ state.stack.length)
    (failed : program runtime functions func (state.called func fname nargs) =
      .error (.raised message) frame) :
    ∃ shown after, luautilsCpcall runtime functions func fname nargs state = .ok true after ∧
      after.stack = shown :: .function state.closures.bound :: state.stack.drop nargs := by
  have kept := program_keepsCode runtime functions (state.called func fname nargs) func handler_live
  rw [failed, stateAfter] at kept
  rcases kept with ⟨closure, live, code_eq⟩
  have liveAfter : ((state.prepared func fname nargs).leave frame
      (state.closures.bound + 1)).closures.cells state.closures.bound = some closure := by
    rw [State.leave, Heap.cells_adjust_of_ne (by simp), live]
  rcases handleError_handler liveAfter code_eq with
    ⟨status, shown, after, nonzero, handled⟩
  exact ⟨shown, _, luautilsCpcall_of_handled enough failed nonzero handled, rfl⟩

/-- The message has the name of the function in front, unless the handler was changed. -/
theorem luautilsCpcall_of_string (enough : nargs ≤ state.stack.length)
    (failed : program runtime functions func (state.called func fname nargs) =
      .error (.raised (.string text)) frame)
    (unchanged : frame.closures.cells state.closures.bound = some (state.handler fname))
    (fits : (cString fname ++ characters "() error: " ++ text).length < ljMaxStr) :
    ∃ after, luautilsCpcall runtime functions func fname nargs state = .ok true after ∧
      after.stack = .string (cString fname ++ characters "() error: " ++ text) ::
        .function state.closures.bound :: state.stack.drop nargs := by
  have live : ((state.prepared func fname nargs).leave frame
      (state.closures.bound + 1)).closures.cells state.closures.bound =
        some (state.handler fname) := by
    rw [State.leave, Heap.cells_adjust_of_ne (by simp), unchanged]
  have returned := cpcallErrfunc_string runtime (((state.prepared func fname nargs).leave frame
    (state.closures.bound + 1)).enter (state.handler fname) [.string text]) fits rfl rfl
  have called := callValue_of_ok runtime (program runtime functions) live returned (by simp)
  have handled := handleError_of_ok called
  exact ⟨_, luautilsCpcall_of_handled enough failed (by decide) handled, rfl⟩

/-- A registering function which pushes as many values as expected is balanced. -/
theorem libopen_of_ok
    (returned : program runtime functions func (state.called func fname 0) = .ok n frame)
    (results : n ≤ frame.stack.length) :
    ∃ after, libopen runtime functions func fname n n state = .ok () after ∧
      after.stack = state.stack := by
  have called := luautilsCpcall_of_ok (Nat.zero_le _) returned results
  rw [List.drop_zero, Nat.cast_zero] at called
  generalize reached_eq : ({
    (state.prepared func fname 0).leave frame (state.closures.bound + 1) with
    stack := frame.stack.take n ++ state.stack } : State) = reached at called
  have split : reached.stack = frame.stack.take n ++ state.stack := by rw [← reached_eq]
  have top_eq : reached.top = state.top + n := by
    rw [State.top, State.top, split, List.length_append, List.length_take]
    push_cast
    omega
  have balanced : ¬((n : ℤ) ≥ 0 ∧ reached.top ≠ state.top + n) := by
    rintro ⟨-, misaligned⟩
    exact misaligned top_eq
  rw [libopen, bind_of_ok luaGettop_eq, bind_of_ok called]
  rw [if_neg (by decide), bind_of_ok luaGettop_eq, if_neg balanced]
  by_cases some_results : (n : ℤ) > 0
  · have cleaned := luaSettop_of_append split
    have base : reached.top - n = state.stack.length := by
      rw [top_eq, State.top]
      omega
    rw [if_pos some_results, base, luautilsStackclean, if_pos (by omega), cleaned]
    exact ⟨_, rfl, rfl⟩
  · have none_left : n = 0 := by omega
    rw [if_neg some_results]
    refine ⟨reached, rfl, ?_⟩
    rw [split, none_left]
    rfl

/-- The function raises an error, with a string as its message. -/
def RaisesString (runtime : Runtime) (functions : ℕ → CFunction) (func : ℕ) (fname : List UInt8)
    (nargs : ℕ) (state : State) : Prop :=
  ∃ text frame, program runtime functions func (state.called func fname nargs) =
    .error (.raised (.string text)) frame

/-- A protected call replaces the arguments by the results or by the message. -/
structure CallsProtected (runtime : Runtime) (functions : ℕ → CFunction) (func : ℕ)
    (fname : List UInt8) (nargs : ℕ) (state : State) : Prop where
  returns : ∀ n frame,
    program runtime functions func (state.called func fname nargs) = .ok n frame →
      n ≤ frame.stack.length →
        ∃ after, luautilsCpcall runtime functions func fname nargs state = .ok false after ∧
          after.stack = frame.stack.take n ++ state.stack.drop nargs
  raises : ∀ text frame,
    program runtime functions func (state.called func fname nargs) =
      .error (.raised (.string text)) frame →
        ∃ after, luautilsCpcall runtime functions func fname nargs state = .ok true after ∧
          after.stack = .string (cString fname ++ characters "() error: " ++ text) ::
            state.stack.drop nargs

theorem not_callsProtected_of_raises (enough : nargs ≤ state.stack.length)
    (raises : RaisesString runtime functions func fname nargs state) :
    ¬CallsProtected runtime functions func fname nargs state := by
  rintro ⟨-, expected⟩
  rcases raises with ⟨text, frame, failed⟩
  rcases luautilsCpcall_of_raised enough failed with ⟨shown, reached, actual, left⟩
  rcases expected text frame failed with ⟨after, same, stack_eq⟩
  rw [actual, EStateM.Result.ok.injEq] at same
  rw [← same.2, left] at stack_eq
  have lengths := congrArg List.length stack_eq
  simp at lengths

/--
The stack is as it should be after every call in which no error is raised, and then
`libopen` leaves it as it was. When an error is raised, the message handler is left.
-/
theorem callsProtected_iff_not_raises (enough : nargs ≤ state.stack.length) :
    (CallsProtected runtime functions func fname nargs state ↔
      ¬RaisesString runtime functions func fname nargs state) ∧
    ∀ n frame, program runtime functions func (state.called func fname 0) = .ok n frame →
      n ≤ frame.stack.length →
        ∃ after, libopen runtime functions func fname n n state = .ok () after ∧
          after.stack = state.stack := by
  refine ⟨⟨?_, ?_⟩, fun n frame => libopen_of_ok⟩
  · intro protects raises
    exact not_callsProtected_of_raises enough raises protects
  · intro silent
    constructor
    · intro n frame returned results
      exact ⟨_, luautilsCpcall_of_ok enough returned results, rfl⟩
    · intro text frame failed
      exact absurd ⟨text, frame, failed⟩ silent

theorem callsProtected_iff_not_raises_pair :
    let function : CFunction :=
      ⟨push (.boolean true) >>= fun _ => pure 2, fun _ _ closure live => ⟨closure, live, rfl⟩⟩
    CallsProtected default (fun _ => function) 1 (characters "pair") 1 (State.empty.push .nil) := by
  intro function
  apply (callsProtected_iff_not_raises (by decide)).1.mpr
  rintro ⟨text, frame, raised⟩
  contradiction

theorem not_callsProtected_raising :
    let function : CFunction :=
      ⟨throw (.raised (.string (characters "bad"))), fun _ _ closure live => ⟨closure, live, rfl⟩⟩
    ¬CallsProtected default (fun _ => function) 1 (characters "fail") 1
      (State.empty.push .nil) := by
  intro function
  exact not_callsProtected_of_raises (by decide) ⟨_, _, rfl⟩

end Lemmas

end Lucciefr.Lua
