import Lucciefr.Lua.Api

/-!
# Indices and values

The macros of `core/luahelpers.h` for stack indices, and the functions of
`core/luautils.c` which the others rest on.
-/

namespace Lucciefr.Lua

/-- `LUA_CHECKIDX` -/
def luaCheckidx (runtime : Runtime) (function : String) (idx : ℤ) : LuaM Unit :=
  if idx = 0 then
    luaLError runtime (characters (function ++ "() Lua state " ++ runtime.formattedState ++
      ", error: zero is not an acceptable stack index!"))
  else
    pure ()

/-- `LUA_ABSIDX`, with the index that it leaves in its argument. -/
def luaAbsidx (idx : ℤ) : LuaM ℤ :=
  if idx < 0 then do
    let top ← luaGettop
    pure (idx + top + 1)
  else
    pure idx

/-- `LUA_CHKABSIDX` -/
def luaChkabsidx (runtime : Runtime) (function : String) (idx : ℤ) : LuaM ℤ := do
  luaCheckidx runtime function idx
  luaAbsidx idx

/-- The conversion of a `lua_Integer` to an `int`. -/
def integerToInt (n : ℤ) : ℤ :=
  n.bmod (2 ^ 32)

variable {runtime : Runtime} {state : State} {function : String} {idx : ℤ}

theorem luaAbsidx_eq : luaAbsidx idx state = .ok (state.absindex idx) state := by
  rw [luaAbsidx, State.absindex]
  split
  · rfl
  · rfl

theorem luaChkabsidx_eq (nonzero : idx ≠ 0) :
    luaChkabsidx runtime function idx state = .ok (state.absindex idx) state := by
  rw [luaChkabsidx, luaCheckidx, if_neg nonzero, bind_of_ok pure_eq_ok, luaAbsidx_eq]

end Lucciefr.Lua
