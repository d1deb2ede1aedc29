import Mathlib.Data.List.Basic
import Lucciefr.Symbols.Basic

/-!
# The arrays of `getBinarySymbol`

The path is copied to a local array of a fixed size, and the copy has an end only if the
path is shorter. Everything else that `getBinarySymbol` does stays within its arrays.
-/

namespace Lucciefr.Symbols

/-- The name of a path in a symbol. -/
def mangled (path : List UInt8) : List UInt8 :=
  path.map fun char => if isNameChar char then char else 95

/-- The names of the two symbols, in the order in which they are looked up. -/
def symbolNames (path : List UInt8) : List (List UInt8) :=
  [mangled path ++ characters "_binary_obj_data_end",
    mangled path ++ characters "_binary_obj_data_start"]

/-- The call returns, and no access was outside of an array. -/
def StaysInside (library : Library) (path : List UInt8) (lenGiven : Bool)
    (buffer : Option (List UInt8)) (size : ℕ) : Prop :=
  ∀ names, ∃ result reached,
    getBinarySymbol library path lenGiven buffer size names = .ok result reached

section Lemmas

variable {library : Library} {path text pattern : List UInt8} {names : List (List UInt8)}
  {buffer : Option (List UInt8)} {size i : ℕ}

theorem checked_ok {α : Type} {result : Except Fault α} {value : α} (ok : result = .ok value) :
    checked result names = .ok value names := by
  rw [ok]
  rfl

theorem checked_error {α : Type} {result : Except Fault α} {fault : Fault}
    (failed : result = .error fault) : checked result names = .error fault names := by
  rw [failed]
  rfl

@[simp]
theorem length_localArray : (localArray library size).length = size := by
  simp [localArray]

@[simp]
theorem length_mangled : (mangled path).length = path.length := by
  simp [mangled]

theorem notMem_mangled : 0 ∉ mangled path := by
  intro present
  rcases List.mem_map.mp present with ⟨char, -, char_eq⟩
  split at char_eq
  · rename_i isName
    rw [char_eq] at isName
    exact absurd isName (by decide)
  · exact absurd char_eq (by decide)

/-- The loop replaces the characters from its index down to the first one. -/
theorem convertPattern_eq (inside : i ≤ pattern.length) :
    convertPattern i pattern = .ok (mangled (pattern.take i) ++ pattern.drop i) := by
  induction i generalizing pattern with
  | zero => rfl
  | succ i ih =>
      have here : i < pattern.length := inside
      have char_eq : pattern[i]? = some pattern[i] := List.getElem?_eq_getElem here
      have parts : pattern.drop i = pattern[i] :: pattern.drop (i + 1) :=
        List.drop_eq_getElem_cons here
      rw [convertPattern, char_eq, List.take_succ_eq_append_getElem here, mangled, List.map_append,
        List.map_singleton]
      simp only
      split
      · rw [ih here.le, parts, mangled, List.append_assoc, List.singleton_append]
      · have setInside : i ≤ (pattern.set i 95).length := by
          rw [List.length_set]
          exact here.le
        have setParts : (pattern.set i 95).drop i = 95 :: pattern.drop (i + 1) := by
          rw [List.drop_eq_getElem_cons (by rw [List.length_set]; exact here),
            List.getElem_set_self, List.drop_set_of_lt (Nat.lt_succ_self i)]
        rw [ih setInside, List.take_set_of_le (le_refl i), setParts, mangled, List.append_assoc,
          List.singleton_append]

theorem lookUp_eq (names : List (List UInt8)) (rest : List UInt8) (suffix : String)
    (short : text.length < library.pathMax)
    (noNul : 0 ∉ text) (suffixNoNul : 0 ∉ characters suffix)
    (suffixShort : (characters suffix).length < 32) :
    lookUp library (text ++ 0 :: rest) suffix names =
      .ok (text ++ characters suffix, library.exported (text ++ characters suffix))
        (names ++ [text ++ characters suffix]) := by
  have fits : (text ++ characters suffix).length < library.pathMax + 32 := by
    rw [List.length_append]
    omega
  have outputNoNul : 0 ∉ text ++ characters suffix := by
    rw [List.mem_append, not_or]
    exact ⟨noNul, suffixNoNul⟩
  rcases snprintf_of_lt (localArray library (library.pathMax + 32)) (by simp) fits with
    ⟨rest, printed⟩
  rw [lookUp, bind_of_ok (checked_ok (readString_of_append noNul)),
    bind_of_ok (checked_ok printed), bind_of_ok (checked_ok (readString_of_append outputNoNul))]
  rfl

theorem symbolFound_ok {temp : List UInt8} {data last : Option ℕ}
    (room : ∀ array, buffer = some array → size ≤ array.length) :
    ∃ found, symbolFound library temp data last buffer size = .ok found := by
  cases data with
  | none => exact ⟨_, rfl⟩
  | some start =>
      cases last with
      | none => exact ⟨_, rfl⟩
      | some stop =>
          cases buffer with
          | none => exact ⟨_, rfl⟩
          | some array =>
              rw [symbolFound]
              by_cases empty : size = 0
              · simp only [empty]
                exact ⟨_, rfl⟩
              · rcases snprintf_of_le temp (room array rfl) with ⟨written, printed⟩
                simp only [ne_eq, empty, not_false_eq_true, if_true, printed]
                exact ⟨_, rfl⟩

/-- Which symbols are looked up for a path which is not too long. -/
theorem getBinarySymbol_of_lt (noNul : 0 ∉ stripPwd library path)
    (short : (stripPwd library path).length < library.pathMax)
    (room : ∀ array, buffer = some array → size ≤ array.length) :
    ∃ result, getBinarySymbol library path true buffer size names =
      .ok result (names ++ symbolNames (stripPwd library path)) := by
  generalize stripped : stripPwd library path = text at noNul short ⊢
  have room' : text.length < (localArray library library.pathMax).length := by simpa using short
  rcases strncpy_of_lt room' with ⟨rest, copied, -⟩
  rw [length_localArray] at copied
  have converted : convertPattern (text.length % 2 ^ 32) (text ++ 0 :: rest) =
      .ok (mangled text ++ 0 :: rest) := by
    rw [Nat.mod_eq_of_lt (short.trans library.pathMax_lt), convertPattern_eq (by simp),
      List.take_left, List.drop_left]
  have shortName : (mangled text).length < library.pathMax := by simpa using short
  have last := lookUp_eq names rest "_binary_obj_data_end" shortName notMem_mangled (by decide)
    (by decide)
  have data := lookUp_eq (names ++ [mangled text ++ characters "_binary_obj_data_end"]) rest
    "_binary_obj_data_start" shortName notMem_mangled (by decide) (by decide)
  rcases symbolFound_ok room with ⟨found, ended⟩
  refine ⟨found, ?_⟩
  rw [getBinarySymbol, if_neg (by decide), stripped, bind_of_ok (checked_ok copied),
    bind_of_ok (checked_ok (readString_of_append noNul)), bind_of_ok (checked_ok converted),
    bind_of_ok last, bind_of_ok data, checked_ok ended, List.append_assoc]
  rfl

/-- A longer path leaves the pattern without an end. -/
theorem getBinarySymbol_of_ge (noNul : 0 ∉ stripPwd library path)
    (long : library.pathMax ≤ (stripPwd library path).length) :
    getBinarySymbol library path true buffer size names = .error .outOfBounds names := by
  have exceeds : (localArray library library.pathMax).length ≤ (stripPwd library path).length := by
    simpa using long
  have copied := strncpy_of_ge exceeds
  rw [length_localArray] at copied
  have unterminated : 0 ∉ (stripPwd library path).take library.pathMax := fun present =>
    noNul (List.mem_of_mem_take present)
  rw [getBinarySymbol, if_neg (by decide), bind_of_ok (checked_ok copied),
    bind_of_error (checked_error (readString_of_notMem unterminated))]

theorem stripPwd_notMem (noNul : 0 ∉ path) : 0 ∉ stripPwd library path := fun present =>
  noNul (List.mem_of_mem_drop present)

/--
`getBinarySymbol` stays within its arrays if and only if the path without the directory
of the library is shorter than `PATH_MAX`.
-/
theorem staysInside_iff (library : Library) (path : List UInt8) (lenGiven : Bool)
    (buffer : Option (List UInt8)) (size : ℕ) (noNul : 0 ∉ path)
    (room : ∀ array, buffer = some array → size ≤ array.length) :
    StaysInside library path lenGiven buffer size ↔
      lenGiven = false ∨ (stripPwd library path).length < library.pathMax := by
  cases lenGiven with
  | false => exact ⟨fun _ => Or.inl rfl, fun _ names => ⟨_, names, rfl⟩⟩
  | true =>
      constructor
      · intro inside
        right
        by_contra long
        rcases inside [] with ⟨result, reached, returned⟩
        rw [getBinarySymbol_of_ge (stripPwd_notMem noNul) (by omega)] at returned
        cases returned
      · rintro (absurdity | short) names
        · cases absurdity
        · rcases getBinarySymbol_of_lt (stripPwd_notMem noNul) short room with ⟨result, returned⟩
          exact ⟨result, _, returned⟩

end Lemmas

/-- A library without any symbol. -/
def Library.sample : Library where
  build := .x64
  pathMax := 4096
  pathMax_lt := by decide
  dllpath := characters "/opt/lib.so"
  exported _ := none
  leftover _ := 170

theorem staysInside_iff_sample :
    StaysInside Library.sample (characters "/opt/lua/utils.lua") true none 0 := by
  exact (staysInside_iff Library.sample (characters "/opt/lua/utils.lua") true none 0
    (by decide) nofun).mpr (Or.inr (by decide))

/-- A path of 4096 letters. -/
theorem not_staysInside_long :
    ¬StaysInside Library.sample (List.replicate 4096 97) true none 0 := by
  intro inside
  have noNul : 0 ∉ List.replicate 4096 (97 : UInt8) := by
    intro present
    exact absurd (List.eq_of_mem_replicate present) (by decide)
  have different : ¬getDllDir Library.sample <+: List.replicate 4096 97 := by
    have dir_eq : getDllDir Library.sample = 47 :: characters "opt/" := by decide
    rw [dir_eq, List.replicate_succ, List.cons_prefix_cons]
    exact fun absurdity => absurd absurdity.1 (by decide)
  have long : Library.sample.pathMax ≤
      (stripPwd Library.sample (List.replicate 4096 97)).length := by
    rw [stripPwd, if_neg different, List.drop_zero, List.length_replicate]
    exact le_refl 4096
  rcases inside [] with ⟨result, reached, returned⟩
  rw [getBinarySymbol_of_ge (stripPwd_notMem noNul) long] at returned
  cases returned

end Lucciefr.Symbols
