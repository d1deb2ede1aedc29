import Lucciefr.Lua.State

/-!
# Calling functions

A called function gets a frame of its own: a stack with nothing but the arguments, and
its upvalues. What it leaves on that stack as its results goes to the stack of the
caller. In a protected call an error goes no further than the call, which replaces the
function and its arguments by the message; the message handler is called before that,
with the original message.
-/

namespace Lucciefr.Lua

/-- `LUA_MULTRET` -/
def luaMultret : ℤ := -1

/-- `LUA_ERRRUN` -/
def luaErrrun : ℤ := 2

/-- `LUA_ERRERR` -/
def luaErrerr : ℤ := 5

/-- `LJ_MAX_STR` -/
def ljMaxStr : ℕ := 0x7fffff00

/-- `lua_pushcclosure` -/
def luaPushcclosure (f n : ℕ) : LuaM Unit := fun state =>
  if n ≤ state.stack.length then
    .ok () { state with
      stack := .function state.closures.bound :: state.stack.drop n
      closures := (state.closures.alloc
        { code := f, upvalues := (state.stack.take n).reverse,
          environment := state.environment }).2 }
  else
    apiCheckFails state

/-- The text of a value which can be concatenated. -/
def concatText (runtime : Runtime) : Value → Option (List UInt8)
  | .string bytes => some bytes
  | .number n => some (runtime.strFromnumber n)
  | _ => none

/-- The value which `lj_meta_cat` complains about, in a list which begins at the top. -/
def offending (runtime : Runtime) : List Value → Value
  | top :: below :: rest =>
      if concatText runtime below = none then below
      else if concatText runtime top = none then top
      else offending runtime (below :: rest)
  | _ => .nil

/-- `lua_concat` -/
def luaConcat (runtime : Runtime) (n : ℕ) : LuaM Unit := fun state =>
  if state.stack.length < n then
    apiCheckFails state
  else if n = 0 then
    push (.string []) state
  else if n = 1 then
    .ok () state
  else
    match (state.stack.take n).reverse.mapM (concatText runtime) with
    | none =>
        errMsg runtime ("attempt to concatenate a " ++
          (offending runtime (state.stack.take n)).type.name ++ " value") state
    | some texts =>
        if texts.flatten.length < ljMaxStr then
          .ok () { state with stack := .string texts.flatten :: state.stack.drop n }
        else
          errMsg runtime "string length overflow" state

namespace State

/-- The state in which a function begins. -/
def enter (state : State) (closure : Closure) (args : List Value) : State :=
  { state with
    stack := args.reverse
    upvalues := closure.upvalues
    environment := closure.environment }

/-- The state with a new closure, and the function value for it among the values of the
stack. -/
def withClosure (state : State) (closure : Closure) (higher lower : List Value) : State :=
  { state with
    stack := higher ++ .function state.closures.bound :: lower
    closures := (state.closures.alloc closure).2 }

/-- The state of the caller, after the function at this address has left `frame`. -/
def leave (state frame : State) (address : ℕ) : State :=
  { state with
    registry := frame.registry
    globals := frame.globals
    tables := frame.tables
    closures := frame.closures.adjust (some address) fun closure =>
      { closure with upvalues := frame.upvalues, environment := frame.environment } }

end State

/-- Call a value. `code` is the code at each address, which returns the number of its
results. -/
def callValue (runtime : Runtime) (code : ℕ → LuaM ℕ) (function : Value) (args : List Value) :
    LuaM (List Value) := fun state =>
  match function with
  | .function address =>
      match state.closures.cells address with
      | none => .error (.undefined .useAfterFree) state
      | some closure =>
          match code closure.code (state.enter closure args) with
          | .error failure frame => .error failure (state.leave frame address)
          | .ok n frame =>
              if n ≤ frame.stack.length then
                .ok (frame.stack.take n).reverse (state.leave frame address)
              else
                apiCheckFails (state.leave frame address)
  | other => errMsg runtime ("attempt to call a " ++ other.type.name ++ " value") state

/-- The status and the message of a protected call in which an error was raised. -/
def handleError (runtime : Runtime) (code : ℕ → LuaM ℕ) (handler : Option Value)
    (message : Value) : LuaM (ℤ × Value) := fun state =>
  match handler with
  | none => .ok (luaErrrun, message) state
  | some function =>
      match callValue runtime code function [message] state with
      | .ok results reached => .ok (luaErrrun, results.headD .nil) reached
      | .error (.raised _) reached =>
          .ok (luaErrerr, .string (characters "error in error handling")) reached
      | .error failure reached => .error failure reached

/-- As many results as the caller asks for. -/
def adjustResults (results : List Value) (nresults : ℤ) : List Value :=
  if nresults = luaMultret then
    results
  else
    (results ++ List.replicate nresults.toNat Value.nil).take nresults.toNat

/-- `lua_call` -/
def luaCall (runtime : Runtime) (code : ℕ → LuaM ℕ) (nargs : ℕ) (nresults : ℤ) : LuaM Unit := do
  let state ← get
  match state.stack[nargs]? with
  | none => apiCheckFails
  | some function => do
      let results ← callValue runtime code function (state.stack.take nargs).reverse
      modify fun reached => { reached with
        stack := (adjustResults results nresults).reverse ++ state.stack.drop (nargs + 1) }

/-- `lj_vm_pcall`: a call from a stack with these values below the function. -/
def vmPcall (runtime : Runtime) (code : ℕ → LuaM ℕ) (handler : Option Value) (function : Value)
    (args lower : List Value) (nresults : ℤ) : LuaM ℤ := fun state =>
  match callValue runtime code function args state with
  | .ok results reached =>
      .ok 0 { reached with stack := (adjustResults results nresults).reverse ++ lower }
  | .error (.raised message) reached =>
      match handleError runtime code handler message reached with
      | .ok (status, message) reached => .ok status { reached with stack := message :: lower }
      | .error failure reached => .error failure reached
  | .error failure reached => .error failure reached

/-- `lua_pcall` -/
def luaPcall (runtime : Runtime) (code : ℕ → LuaM ℕ) (nargs : ℕ) (nresults errfunc : ℤ) :
    LuaM ℤ := do
  let state ← get
  let handler ← (if errfunc = 0 then pure none else do
    let above ← stkindex2adr errfunc
    pure state.stack[above]?)
  match state.stack[nargs]? with
  | none => apiCheckFails
  | some function =>
      vmPcall runtime code handler function (state.stack.take nargs).reverse
        (state.stack.drop (nargs + 1)) nresults

section Lemmas

variable {runtime : Runtime} {code : ℕ → LuaM ℕ} {state reached after frame : State}
  {function handler message shown : Value} {results higher lower : List Value} {errfunc status : ℤ}
  {address n : ℕ} {closure : Closure} {failure : Failure}

theorem luaPushcclosure_zero {f : ℕ} : luaPushcclosure f 0 state =
    .ok () (state.withClosure ⟨f, [], state.environment⟩ [] state.stack) := by
  rw [luaPushcclosure, if_pos (Nat.zero_le _)]
  rfl

theorem luaPushcclosure_one {f : ℕ} {value : Value} : luaPushcclosure f 1 (state.push value) =
    .ok () (state.withClosure ⟨f, [value], state.environment⟩ [] state.stack) := by
  rw [luaPushcclosure, if_pos (by simp)]
  rfl

theorem luaInsert_withClosure {idx : ℤ} (idx_eq : idx = lower.length + 1) :
    luaInsert idx (state.withClosure closure [] (higher ++ lower)) =
      .ok () (state.withClosure closure higher lower) :=
  luaInsert_of_split rfl idx_eq

theorem callValue_of_ok (runtime : Runtime) (code : ℕ → LuaM ℕ) {args : List Value}
    (live : state.closures.cells address = some closure)
    (returned : code closure.code (state.enter closure args) = .ok n frame)
    (enough : n ≤ frame.stack.length) :
    callValue runtime code (.function address) args state =
      .ok (frame.stack.take n).reverse (state.leave frame address) := by
  simp only [callValue, live, returned, if_pos enough]

theorem callValue_of_error (runtime : Runtime) (code : ℕ → LuaM ℕ) {args : List Value}
    (live : state.closures.cells address = some closure)
    (failed : code closure.code (state.enter closure args) = .error failure frame) :
    callValue runtime code (.function address) args state =
      .error failure (state.leave frame address) := by
  simp only [callValue, live, failed]

/-- What a called function does not see of its caller. -/
theorem callValue_of_stack {args : List Value} (stack : List Value)
    (called : callValue runtime code function args state = .ok results reached) :
    reached.stack = state.stack ∧
      callValue runtime code function args { state with stack := stack } =
        .ok results { reached with stack := stack } := by
  cases function with
  | function address =>
      rw [callValue] at called ⊢
      simp only at called ⊢
      have same : ∀ closure args, ({ state with stack := stack } : State).enter closure args =
        state.enter closure args := fun _ _ => rfl
      simp only [same]
      cases live : state.closures.cells address with
      | none => simp [live] at called
      | some closure =>
          simp only [live] at called ⊢
          cases ran : code closure.code (state.enter closure args) with
          | error failure frame => simp [ran] at called
          | ok n frame =>
              simp only [ran] at called ⊢
              split at called
              · rename_i enough
                rw [if_pos enough]
                cases called
                exact ⟨rfl, rfl⟩
              · cases called
  | _ => cases called

theorem adjustResults_one : adjustResults results 1 = [results.headD .nil] := by
  cases results with
  | nil => rfl
  | cons first rest => rfl

/-- A call with one argument and one result. -/
theorem luaCall_one {value : Value}
    (called : callValue runtime code function [value] state = .ok results reached) :
    luaCall runtime code 1 1 ((state.push function).push value) =
      .ok () (reached.push (results.headD .nil)) := by
  rcases callValue_of_stack (value :: function :: state.stack) called with ⟨kept, ran⟩
  have ran' : callValue runtime code function [value] ((state.push function).push value) =
      .ok results { reached with stack := value :: function :: state.stack } := ran
  rw [luaCall, get_bind]
  change ((callValue runtime code function [value] >>= fun results => modify fun reached =>
    { reached with stack := (adjustResults results 1).reverse ++ state.stack } : LuaM Unit))
      ((state.push function).push value) = _
  rw [bind_of_ok ran', modify_eq_ok, adjustResults_one, ← kept]
  rfl

theorem handleError_of_ok
    (called : callValue runtime code handler [message] state = .ok results reached) :
    handleError runtime code (some handler) message state =
      .ok (luaErrrun, results.headD .nil) reached := by
  simp only [handleError, called]

theorem handleError_of_raised {raised : Value}
    (called : callValue runtime code handler [message] state = .error (.raised raised) reached) :
    handleError runtime code (some handler) message state =
      .ok (luaErrerr, .string (characters "error in error handling")) reached := by
  simp only [handleError, called]

theorem vmPcall_of_ok {args : List Value}
    (called : callValue runtime code function args state = .ok results reached) :
    vmPcall runtime code (some handler) function args lower luaMultret state =
      .ok 0 { reached with stack := results.reverse ++ lower } := by
  simp only [vmPcall, called, adjustResults, if_true]

theorem vmPcall_of_raised {args : List Value}
    (called : callValue runtime code function args state = .error (.raised message) reached)
    (handled : handleError runtime code (some handler) message reached =
      .ok (status, shown) after) :
    vmPcall runtime code (some handler) function args lower luaMultret state =
      .ok status { after with stack := shown :: lower } := by
  simp only [vmPcall, called, handled]

/-- Where the function and the message handler are found. -/
theorem luaPcall_eq (runtime : Runtime) (code : ℕ → LuaM ℕ) (state : State)
    (split : state.stack = higher ++ function :: handler :: lower)
    (errfunc_eq : errfunc = lower.length + 1) :
    luaPcall runtime code higher.length luaMultret errfunc state =
      vmPcall runtime code (some handler) function higher.reverse (handler :: lower) luaMultret
        state := by
  have regrouped : state.stack = (higher ++ [function, handler]) ++ lower := by simpa using split
  have position := stkindex2adr_of_split _ regrouped (by simp) errfunc_eq
  have handler_eq : state.stack[(higher ++ [function, handler]).length - 1]? = some handler := by
    rw [split, List.length_append, List.getElem?_append_right (by simp)]
    simp
  have function_eq : state.stack[higher.length]? = some function := by
    rw [split, List.getElem?_append_right (Nat.le_refl _), Nat.sub_self]
    rfl
  have args_eq : state.stack.take higher.length = higher := by
    rw [split, List.take_left]
  have lower_eq : state.stack.drop (higher.length + 1) = handler :: lower := by
    rw [← List.drop_drop, split, List.drop_left]
    rfl
  have chosen : (if errfunc = 0 then pure none else do
      let above ← stkindex2adr errfunc
      pure state.stack[above]? : LuaM (Option Value)) state = .ok (some handler) state := by
    rw [if_neg (by omega), bind_of_ok position, handler_eq]
    rfl
  rw [luaPcall, get_bind, bind_of_ok chosen, function_eq, args_eq, lower_eq]

end Lemmas

end Lucciefr.Lua
