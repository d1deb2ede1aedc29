import Lucciefr.Luautils.Basic

/-!
# Pointers as numbers

The conversions between pointers and Lua numbers in `core/luautils.c`. A pointer becomes
an unsigned number; reading it back goes through a signed 32-bit integer, which a cast
extends to the width of a pointer.
-/

namespace Lucciefr

/-- The cast of a signed integer to `uintptr_t` or a pointer. -/
def Build.uintptr (build : Build) (value : ℤ) : ℕ :=
  (value % 2 ^ build.bits).toNat

/-- The conversion of an unsigned integer to `double`: of the numbers with 53 significant
bits the nearest one, and the even one of two. -/
def doubleOfNat (n : ℕ) : ℕ :=
  if n < 2 ^ 53 then
    n
  else
    let unit := 2 ^ (n.log2 - 52)
    let below := n / unit
    if 2 * (n % unit) < unit ∨ 2 * (n % unit) = unit ∧ below % 2 = 0 then
      below * unit
    else
      (below + 1) * unit

namespace Lua

/-- `if (n > 2147483647.0) n -= 4294967296.0`. The difference is exact, unless it is
beyond every integer type. -/
def wrapNumber : Number → Number
  | .finite value => .finite (if value > 2147483647 then value - 4294967296 else value)
  | n => n

/-- `luautils_toint32` -/
def luautilsToint32 (runtime : Runtime) (idx : ℤ) : LuaM ℤ := do
  let n ← luaTonumber runtime idx
  truncate 32 (wrapNumber n)

/-- `luautils_isptr`, with a place for the pointer: the pointer, if there is one. -/
def luautilsIsptr (runtime : Runtime) (build : Build) (idx : ℤ) : LuaM (Option ℕ) := do
  luaCheckidx runtime "luautils_isptr" idx
  let type ← luaType idx
  match type with
  | .number => do
      let n ← luautilsToint32 runtime idx
      pure (some (build.uintptr n))
  | .userdata => some <$> luaTouserdata runtime idx
  | .lightuserdata => some <$> luaTouserdata runtime idx
  | .string => do
      let o ← index2adr idx
      pure (some (runtime.address (o.getD .nil)))
  | .cdata => some <$> luaTopointer runtime idx
  | .function => some <$> luaTopointer runtime idx
  | _ => pure none

/-- `luautils_toptr` -/
def luautilsToptr (runtime : Runtime) (build : Build) (idx : ℤ) : LuaM ℕ := do
  luaCheckidx runtime "luautils_toptr" idx
  match ← luautilsIsptr runtime build idx with
  | some result => pure result
  | none => luaTopointer runtime idx

/-- `luautils_checkptr` -/
def luautilsCheckptr (runtime : Runtime) (build : Build) (idx : ℤ) : LuaM ℕ := do
  luaCheckidx runtime "luautils_checkptr" idx
  match ← luautilsIsptr runtime build idx with
  | some result => pure result
  | none => do
      let type ← luaType idx
      luaLError runtime (characters ("Supplied argument type '" ++ type.name ++
        "' was not convertible to a C pointer"))

/-- `luautils_pushptrnum` -/
def luautilsPushptrnum (build : Build) (value : ℤ) : LuaM Unit :=
  luaPushnumber (doubleOfNat (build.uintptr value))

/-- `result + offset` in `lua_Integer`, which has the width of a pointer. -/
def addOffset (build : Build) (result offset : ℤ) : LuaM ℤ :=
  if -2 ^ (build.bits - 1) ≤ result + offset ∧ result + offset < 2 ^ (build.bits - 1) then
    pure (result + offset)
  else
    throw (.undefined .signedOverflow)

/-- What stands for `NULL`. -/
def pushNull (nilIsZero : Bool) : LuaM Unit :=
  if nilIsZero then luaPushinteger 0 else luaPushnil

/-- `luautils_ptrtonumber` -/
def luautilsPtrtonumber (runtime : Runtime) (build : Build) (idx offset : ℤ)
    (nilIsZero : Bool) : LuaM Unit := do
  let type ← luaType idx
  match type with
  | .nil => pushNull nilIsZero
  | .none => pushNull nilIsZero
  | .number => do
      let result ← luautilsToint32 runtime idx
      let result ← (if result ≠ 0 then addOffset build result offset else pure result)
      luautilsPushptrnum build result
  | _ => do
      match ← luautilsIsptr runtime build idx with
      | some result =>
          if result = 0 then pushNull nilIsZero else luautilsPushptrnum build (result + offset)
      | none =>
          luaLError runtime (characters ("ptr value of type '" ++ type.name ++
            "' not convertible to a number"))

/-- A pointer survives the conversion to a number, and so does the number. -/
structure PointerSurvives (runtime : Runtime) (build : Build) (nilIsZero : Bool) (idx : ℤ)
    (pointer : ℕ) (state : State) : Prop where
  encoded : luautilsPtrtonumber runtime build idx 0 nilIsZero state =
    .ok () (state.push (.integer pointer))
  decoded : ∀ (later : State) (number : ℤ), later.Holds number (.integer pointer) →
    luautilsIsptr runtime build number later = .ok (some pointer) later ∧
    luautilsToptr runtime build number later = .ok pointer later
  stable : ∀ (later : State) (number : ℤ), later.Holds number (.integer pointer) →
    luautilsPtrtonumber runtime build number 0 nilIsZero later =
      .ok () (later.push (.integer pointer))

section Lemmas

variable {runtime : Runtime} {build : Build} {state : State} {idx value : ℤ} {n pointer : ℕ}
  {nilIsZero : Bool}

theorem doubleOfNat_of_lt (exact : n < 2 ^ 53) : doubleOfNat n = n := by
  rw [doubleOfNat, if_pos exact]

/-- The integer which is read from an integral number. -/
def wrapInteger (value : ℤ) : ℤ :=
  if value > 2147483647 then value - 4294967296 else value

theorem wrapNumber_integer : wrapNumber (.finite value) = .finite (wrapInteger value : ℤ) := by
  have compare : ((value : ℚ) > 2147483647) ↔ value > 2147483647 := by exact_mod_cast Iff.rfl
  rw [wrapNumber, wrapInteger]
  by_cases large : value > 2147483647
  · rw [if_pos large, if_pos (compare.mpr large)]
    push_cast
    rfl
  · rw [if_neg large, if_neg (compare.not.mpr large)]

theorem luautilsToint32_integer (runtime : Runtime) (holds : state.Holds idx (.integer value)) :
    luautilsToint32 runtime idx state =
      if -2 ^ 31 ≤ wrapInteger value ∧ wrapInteger value < 2 ^ 31 then
        .ok (wrapInteger value) state
      else
        .error (.undefined .signedOverflow) state := by
  have number : luaTonumber runtime idx state = .ok (.finite value) state := by
    rw [luaTonumber, bind_of_ok (index2adr_of_holds holds)]
    rfl
  rw [luautilsToint32, bind_of_ok number, wrapNumber_integer, truncate_integer]

theorem addOffset_zero (range : -2 ^ 31 ≤ value ∧ value < 2 ^ 31) :
    addOffset build value 0 = pure value := by
  have wide : (2 : ℤ) ^ 31 ≤ 2 ^ (build.bits - 1) := by cases build <;> decide
  rw [addOffset, add_zero, if_pos]
  constructor
  · exact le_trans (neg_le_neg wide) range.1
  · exact lt_of_lt_of_le range.2 wide

/-- A number is read as a pointer through a 32-bit integer. -/
theorem luautilsIsptr_integer (holds : state.Holds idx (.integer value)) :
    luautilsIsptr runtime build idx state =
      if -2 ^ 31 ≤ wrapInteger value ∧ wrapInteger value < 2 ^ 31 then
        .ok (some (build.uintptr (wrapInteger value))) state
      else
        .error (.undefined .signedOverflow) state := by
  have number := luautilsToint32_integer runtime holds
  rw [luautilsIsptr, luaCheckidx, if_neg holds.nonzero, bind_of_ok pure_eq_ok,
    bind_of_ok (luaType_of_holds holds)]
  change (luautilsToint32 runtime idx >>= fun n => pure (some (build.uintptr n))) state = _
  by_cases range : -2 ^ 31 ≤ wrapInteger value ∧ wrapInteger value < 2 ^ 31
  · rw [if_pos range] at number ⊢
    rw [bind_of_ok number, pure_eq_ok]
  · rw [if_neg range] at number ⊢
    rw [bind_of_error number]

theorem luautilsToptr_of_isptr (nonzero : idx ≠ 0)
    (found : luautilsIsptr runtime build idx state = .ok (some pointer) state) :
    luautilsToptr runtime build idx state = .ok pointer state := by
  rw [luautilsToptr, luaCheckidx, if_neg nonzero, bind_of_ok pure_eq_ok, bind_of_ok found]
  rfl

/-- Up to the range of the pointers, a cast to `double` and back to an integer is exact. -/
theorem luautilsPushptrnum_eq (cast_eq : build.uintptr value = pointer)
    (small : pointer < 2 ^ 47) :
    luautilsPushptrnum build value state = .ok () (state.push (.integer pointer)) := by
  have exact_pointer : doubleOfNat pointer = pointer :=
    doubleOfNat_of_lt (lt_of_lt_of_le small (by decide))
  rw [luautilsPushptrnum, cast_eq, exact_pointer, luaPushnumber, push_eq, Value.integer,
    Int.cast_natCast]

theorem uintptr_of_lt (representable : pointer < 2 ^ build.bits) :
    build.uintptr pointer = pointer := by
  rw [Build.uintptr, Int.emod_eq_of_lt (by omega) (by exact_mod_cast representable),
    Int.toNat_natCast]

theorem wrapInteger_of_narrow (representable : pointer < 2 ^ build.bits)
    (narrow : build = .x86 ∨ pointer < 2 ^ 31) :
    (-2 ^ 31 ≤ wrapInteger pointer ∧ wrapInteger pointer < 2 ^ 31) ∧
      build.uintptr (wrapInteger pointer) = pointer := by
  rcases narrow with rfl | low
  · rw [Build.uintptr, wrapInteger]
    simp only [Build.bits] at representable ⊢
    split <;> omega
  · have unchanged : wrapInteger pointer = pointer := by
      rw [wrapInteger, if_neg (by omega)]
    rw [unchanged]
    exact ⟨by omega, uintptr_of_lt representable⟩

/-- From 2^31 on a pointer comes back as another one, or is out of the range of the integer. -/
theorem luautilsIsptr_ne_of_wide (holds : state.Holds idx (.integer pointer))
    (high : 2 ^ 31 ≤ pointer) (small : pointer < 2 ^ 47) :
    luautilsIsptr runtime .x64 idx state ≠ .ok (some pointer) state := by
  have different : Build.x64.uintptr (wrapInteger pointer) ≠ pointer := by
    rw [Build.uintptr, wrapInteger, if_pos (by omega)]
    simp only [Build.bits]
    omega
  intro decoded
  rw [luautilsIsptr_integer holds] at decoded
  split at decoded
  · injection decoded with found
    exact different (Option.some.inj found)
  · cases decoded

theorem luautilsPtrtonumber_lightuserdata (holds : state.Holds idx (.lightuserdata pointer))
    (nonzero : pointer ≠ 0) (representable : pointer < 2 ^ build.bits)
    (small : pointer < 2 ^ 47) :
    luautilsPtrtonumber runtime build idx 0 nilIsZero state =
      .ok () (state.push (.integer pointer)) := by
  have found : luautilsIsptr runtime build idx state = .ok (some pointer) state := by
    rw [luautilsIsptr, luaCheckidx, if_neg holds.nonzero, bind_of_ok pure_eq_ok,
      bind_of_ok (luaType_of_holds holds)]
    change (some <$> luaTouserdata runtime idx) state = _
    have pointer_eq : luaTouserdata runtime idx state = .ok pointer state := by
      rw [luaTouserdata, bind_of_ok (index2adr_of_holds holds)]
      rfl
    rw [map_eq_pure_bind, bind_of_ok pointer_eq, pure_eq_ok]
  rw [luautilsPtrtonumber, bind_of_ok (luaType_of_holds holds)]
  simp only [Value.type]
  rw [bind_of_ok found]
  simp only [if_neg nonzero]
  exact luautilsPushptrnum_eq (by rw [add_zero]; exact uintptr_of_lt representable) small

theorem luautilsPtrtonumber_integer (holds : state.Holds idx (.integer pointer))
    (representable : pointer < 2 ^ build.bits) (small : pointer < 2 ^ 47)
    (narrow : build = .x86 ∨ pointer < 2 ^ 31) :
    luautilsPtrtonumber runtime build idx 0 nilIsZero state =
      .ok () (state.push (.integer pointer)) := by
  have number := luautilsToint32_integer runtime holds
  rcases wrapInteger_of_narrow representable narrow with ⟨range, cast_eq⟩
  rw [if_pos range] at number
  rw [luautilsPtrtonumber, bind_of_ok (luaType_of_holds holds)]
  change (luautilsToint32 runtime idx >>= fun result => _ >>= fun result => _) state = _
  rw [bind_of_ok number, addOffset_zero range, ite_self, bind_of_ok pure_eq_ok,
    luautilsPushptrnum_eq cast_eq small]

/-- On the 32-bit build pointers and numbers are converted into each other. On the 64-bit
build they are, if the pointer is a positive `int32_t`. -/
theorem pointerSurvives_iff (holds : state.Holds idx (.lightuserdata pointer))
    (nonzero : pointer ≠ 0) (representable : pointer < 2 ^ build.bits)
    (small : pointer < 2 ^ 47) :
    PointerSurvives runtime build nilIsZero idx pointer state ↔
      build = .x86 ∨ pointer < 2 ^ 31 := by
  constructor
  · intro survives
    by_contra wide
    rw [not_or, not_lt] at wide
    have build_eq : build = .x64 := by
      cases build with
      | x86 => exact absurd rfl wide.1
      | x64 => rfl
    subst build_eq
    -- the number on top of the stack, as the encoding leaves it
    have onTop : (state.push (.integer pointer)).Holds (-1) (.integer pointer) := State.holds_first
    exact luautilsIsptr_ne_of_wide onTop wide.2 small (survives.decoded _ _ onTop).1
  · intro narrow
    rcases wrapInteger_of_narrow representable narrow with ⟨range, cast_eq⟩
    refine ⟨luautilsPtrtonumber_lightuserdata holds nonzero representable small, ?_, ?_⟩
    · intro later number onStack
      have found : luautilsIsptr runtime build number later = .ok (some pointer) later := by
        rw [luautilsIsptr_integer onStack, if_pos range, cast_eq]
      exact ⟨found, luautilsToptr_of_isptr onStack.nonzero found⟩
    · intro later number onStack
      exact luautilsPtrtonumber_integer onStack representable small narrow

end Lemmas

theorem pointerSurvives_iff_upperHalf :
    let state := State.empty.push (.lightuserdata 0x80000000)
    PointerSurvives default .x86 false 1 0x80000000 state := by
  have holds : (State.empty.push (.lightuserdata 0x80000000)).Holds 1
      (.lightuserdata 0x80000000) := (State.holds_of_pos (by decide)).mpr rfl
  exact (pointerSurvives_iff holds (by decide) (by decide) (by decide)).mpr (.inl rfl)

/-- The first pointer which the sign extension changes. -/
theorem not_pointerSurvives_upperHalf :
    let state := State.empty.push (.lightuserdata 0x80000000)
    ¬PointerSurvives default .x64 false 1 0x80000000 state := by
  intro state survives
  have onTop : (state.push (.integer (0x80000000 : ℕ))).Holds (-1) (.integer (0x80000000 : ℕ)) :=
    State.holds_first
  exact luautilsIsptr_ne_of_wide onTop (by decide) (by decide) (survives.decoded _ _ onTop).1

end Lua

end Lucciefr
