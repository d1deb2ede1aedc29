import Lucciefr.Symbols.Bounds

/-!
# The names of compiled-in scripts

`objwrap.lua`, which gives a script its symbols when the library is built, and the three
ways in which the symbols are looked up at run time. The names do not depend on the
separators of the path, so that a module name leads to the same symbols.
-/

namespace Lucciefr.Symbols

/-- `lj_char_bits`, from the character 0 on. -/
def ljCharBits : List ℕ :=
  List.replicate 9 1 ++ List.replicate 5 3 ++ List.replicate 18 1 ++ [2] ++
    List.replicate 15 4 ++ List.replicate 10 152 ++ List.replicate 7 4 ++
    List.replicate 6 176 ++ List.replicate 20 160 ++ List.replicate 4 4 ++ [132, 4] ++
    List.replicate 6 208 ++ List.replicate 20 192 ++ List.replicate 4 4 ++ [1] ++
    List.replicate 128 128

/-- `LJ_CHAR_ALNUM` -/
def ljCharAlnum : ℕ := 0x68

/-- `lj_char_isalnum` -/
def ljCharIsalnum (char : UInt8) : Bool :=
  ljCharBits.getD char.toNat 0 &&& ljCharAlnum ≠ 0

/-- `src:gsub("%W", "_")` -/
def gsubNonAlnum (src : List UInt8) : List UInt8 :=
  src.map fun char => if ljCharIsalnum char then char else 95

/-- The symbols which `objcopy --prefix-symbols` makes for the end and the start of a file.
The name of the file is a part of them, with `_` for everything but letters and digits. -/
def objcopySymbols (prefixed file : List UInt8) : List (List UInt8) :=
  [prefixed ++ characters "_binary_" ++ mangled file ++ characters "_end",
    prefixed ++ characters "_binary_" ++ mangled file ++ characters "_start"]

/-- The symbols which `objwrap.lua` makes for a script. -/
def objwrap (objcopy : List UInt8 → List UInt8 → List (List UInt8)) (src dst : List UInt8) :
    List (List UInt8) :=
  let temp := directory dst ++ characters "data"
  let prefixed := gsubNonAlnum src
  objcopy prefixed temp

/-- The path of a script with these components. -/
def scriptPath (components : List (List UInt8)) : List UInt8 :=
  List.intercalate [47] components ++ characters ".lua"

/-- The module name for a script with these components. -/
def moduleName (components : List (List UInt8)) : List UInt8 :=
  List.intercalate [46] components

/-- These names are looked up, one after another. -/
def LooksUp {α : Type} (program : SymbolM α) (symbols : List (List UInt8)) : Prop :=
  ∀ names, ∃ result, program names = .ok result (names ++ symbols)

section Lemmas

variable {library : Library} {path dst name : List UInt8} {components : List (List UInt8)}

/-- Both classes of characters are the same. -/
theorem ljCharIsalnum_eq (char : UInt8) : ljCharIsalnum char = isNameChar char := by
  have each : ∀ code : Fin 256, ljCharIsalnum (UInt8.ofNat code) =
      isNameChar (UInt8.ofNat code) := by decide +kernel
  have same := each ⟨char.toNat, char.toNat_lt⟩
  rwa [UInt8.ofNat_toNat] at same

theorem gsubNonAlnum_eq : gsubNonAlnum path = mangled path := by
  simp only [gsubNonAlnum, mangled, ljCharIsalnum_eq]

theorem plain_of_notMem (slash : 47 ∉ name) (backslash : 92 ∉ name) :
    ∀ char ∈ name, ¬IsSeparator char := by
  rintro char charMem (rfl | rfl)
  · exact slash charMem
  · exact backslash charMem

theorem directory_append (separator : UInt8) (isSeparator : IsSeparator separator)
    (plain : ∀ char ∈ name, ¬IsSeparator char) :
    directory (path ++ separator :: name) = path ++ [separator] := by
  have passed : ∀ char ∈ name.reverse, decide (¬IsSeparator char) = true := by
    intro char charMem
    exact decide_eq_true (plain char (List.mem_reverse.mp charMem))
  rw [directory, List.reverse_append, List.reverse_cons, List.append_assoc,
    List.dropWhile_append_of_pos passed]
  simp [isSeparator]

/-- What is not empty ends with a separator. -/
theorem directory_ends (nonempty : directory path ≠ []) :
    ∃ start separator, directory path = start ++ [separator] ∧ IsSeparator separator := by
  have stopped := List.head?_dropWhile_not (fun char => decide (¬IsSeparator char)) path.reverse
  rw [directory] at nonempty ⊢
  cases dropped : path.reverse.dropWhile fun char => decide (¬IsSeparator char) with
  | nil =>
      rw [dropped] at nonempty
      exact absurd rfl nonempty
  | cons separator rest =>
      rw [dropped] at stopped
      exact ⟨rest.reverse, separator, List.reverse_cons, not_not.mp (of_decide_eq_false stopped)⟩

theorem stripPwd_of_not_prefix (apart : getDllDir library ≠ [] → ¬getDllDir library <+: path) :
    stripPwd library path = path := by
  rw [stripPwd]
  split
  · rename_i stripped
    by_cases empty : getDllDir library = []
    · rw [empty]
      rfl
    · exact absurd stripped (apart empty)
  · rfl

theorem stripPwd_append : stripPwd library (getDllDir library ++ path) = path := by
  rw [stripPwd, if_pos (List.prefix_append _ _), List.drop_left]

theorem mangled_append {first second : List UInt8} :
    mangled (first ++ second) = mangled first ++ mangled second := by
  rw [mangled, List.map_append, ← mangled, ← mangled]

theorem mangled_intercalate {separator : List UInt8} :
    mangled (List.intercalate separator components) =
      List.intercalate (mangled separator) (components.map mangled) := by
  induction components with
  | nil => rfl
  | cons first rest ih =>
      cases rest with
      | nil => rw [List.map_singleton, List.intercalate_singleton, List.intercalate_singleton]
      | cons second rest =>
          rw [List.intercalate_cons_cons, mangled_append, mangled_append, ih]
          simp only [List.map_cons, List.intercalate_cons_cons]

theorem notMem_intercalate {char : UInt8} {separator : List UInt8} (between : char ∉ separator)
    (each : ∀ component ∈ components, char ∉ component) :
    char ∉ List.intercalate separator components := by
  induction components with
  | nil => exact List.not_mem_nil
  | cons first rest ih =>
      have inRest := ih fun component componentMem =>
        each component (List.mem_cons_of_mem first componentMem)
      cases rest with
      | nil =>
          rw [List.intercalate_singleton]
          exact each first List.mem_cons_self
      | cons second rest =>
          rw [List.intercalate_cons_cons, List.mem_append, List.mem_append, not_or, not_or]
          exact ⟨⟨each first List.mem_cons_self, between⟩, inRest⟩

/-- The dots of a module name and the separators of a path are replaced alike. -/
theorem mangled_moduleName :
    mangled (moduleName components ++ characters ".lua") = mangled (scriptPath components) := by
  have separators : mangled [46] = mangled [47] := by decide
  rw [moduleName, scriptPath, mangled_append, mangled_append, mangled_intercalate,
    mangled_intercalate, separators]

/-- No file extension completes the directory of the library. -/
theorem not_prefix_append {ending : List UInt8} (plain : ∀ char ∈ ending, ¬IsSeparator char)
    (apart : getDllDir library ≠ [] → ¬getDllDir library <+: path) :
    getDllDir library ≠ [] → ¬getDllDir library <+: path ++ ending := by
  rintro nonempty ⟨rest, whole⟩
  rcases List.append_eq_append_iff.mp whole with ⟨middle, path_eq, -⟩ | ⟨middle, dir_eq, ending_eq⟩
  · exact apart nonempty ⟨middle, path_eq.symm⟩
  · rcases directory_ends nonempty with ⟨start, separator, ends, isSeparator⟩
    rcases List.eq_nil_or_concat middle with middle_eq | ⟨front, last, middle_eq⟩
    · rw [middle_eq, List.append_nil] at dir_eq
      exact apart nonempty ⟨[], by rw [List.append_nil, dir_eq]⟩
    · have same : start ++ [separator] = path ++ front ++ [last] := by
        rw [← ends, List.append_assoc, ← List.concat_eq_append, ← middle_eq]
        exact dir_eq
      have last_eq : separator = last := List.singleton_inj.mp (List.append_inj_right' same rfl)
      refine plain last ?_ (last_eq ▸ isSeparator)
      rw [ending_eq, middle_eq]
      simp

/-- What `objwrap.lua` makes is what `getBinarySymbol` looks up. -/
theorem objwrap_eq {objcopy : List UInt8 → List UInt8 → List (List UInt8)}
    (named : ∀ prefixed file, objcopy prefixed file = objcopySymbols prefixed file)
    (destination : dst = characters "obj/" ++ name) (plain : ∀ char ∈ name, ¬IsSeparator char) :
    objwrap objcopy path dst = symbolNames path := by
  have dir_eq : directory dst = characters "obj/" := by
    have parts : characters "obj/" = characters "obj" ++ [47] := by decide
    rw [destination, parts, List.append_assoc]
    exact directory_append 47 (Or.inl rfl) plain
  have temp_eq : mangled (characters "obj/" ++ characters "data") = characters "obj_data" := by
    decide
  have last : characters "_binary_obj_data_end" =
      characters "_binary_" ++ (characters "obj_data" ++ characters "_end") := by decide
  have first : characters "_binary_obj_data_start" =
      characters "_binary_" ++ (characters "obj_data" ++ characters "_start") := by decide
  rw [objwrap, dir_eq, gsubNonAlnum_eq, named, objcopySymbols, temp_eq, symbolNames, last, first]
  simp only [List.append_assoc]

theorem symbolDofileC_looksUp (library : Library) (path : List UInt8)
    (noNul : 0 ∉ stripPwd library path)
    (short : (stripPwd library path).length < library.pathMax) :
    LooksUp (symbolDofileC library path) (symbolNames (stripPwd library path)) := by
  intro names
  have room : ∀ array, some (localArray library (library.pathMax + 32)) = some array →
      library.pathMax + 32 ≤ array.length := by
    intro array array_eq
    rw [← Option.some.inj array_eq, length_localArray]
  exact getBinarySymbol_of_lt noNul short room

theorem dllSymbolLoaderC_looksUp {modName filename : List UInt8}
    (filename_eq : modName ++ characters ".lua" = filename) (noNul : 0 ∉ filename)
    (short : filename.length < library.pathMax) :
    LooksUp (dllSymbolLoaderC library modName) (symbolNames (stripPwd library filename)) := by
  intro names
  rcases snprintf_of_lt (localArray library library.pathMax) (by simp) short with ⟨rest, printed⟩
  have shortStripped : (stripPwd library filename).length < library.pathMax := by
    rw [stripPwd, List.length_drop]
    omega
  have room : ∀ array : List UInt8, none = some array → 0 ≤ array.length := fun _ _ =>
    Nat.zero_le _
  rcases getBinarySymbol_of_lt (stripPwd_notMem noNul) shortStripped room with ⟨result, returned⟩
  refine ⟨result, ?_⟩
  rw [dllSymbolLoaderC, filename_eq, bind_of_ok (checked_ok printed),
    bind_of_ok (checked_ok (readString_of_append noNul))]
  exact returned

/--
A script is looked up under the names which it got when the library was built, whether it
is run by its path, by its path within the directory of the library, or required by its
module name.
-/
theorem looksUp_objwrap (library : Library)
    (objcopy : List UInt8 → List UInt8 → List (List UInt8)) (components : List (List UInt8))
    (dst name : List UInt8)
    (named : ∀ prefixed file, objcopy prefixed file = objcopySymbols prefixed file)
    (noNul : ∀ component ∈ components, 0 ∉ component)
    (short : (scriptPath components).length < library.pathMax)
    (destination : dst = characters "obj/" ++ name) (plain : ∀ char ∈ name, ¬IsSeparator char)
    (apart : getDllDir library ≠ [] → ¬getDllDir library <+: scriptPath components ∧
      ¬getDllDir library <+: moduleName components) :
    LooksUp (symbolDofileC library (scriptPath components))
        (objwrap objcopy (scriptPath components) dst) ∧
      LooksUp (luautilsDofile library (scriptPath components))
        (objwrap objcopy (scriptPath components) dst) ∧
      LooksUp (dllSymbolLoaderC library (moduleName components))
        (objwrap objcopy (scriptPath components) dst) := by
  rw [objwrap_eq named destination plain]
  have pathNoNul : 0 ∉ scriptPath components := by
    rw [scriptPath, List.mem_append, not_or]
    exact ⟨notMem_intercalate (by decide) noNul, by decide⟩
  refine ⟨?byPath, ?inDirectory, ?required⟩
  case byPath =>
    have kept : stripPwd library (scriptPath components) = scriptPath components :=
      stripPwd_of_not_prefix fun nonempty => (apart nonempty).1
    have found := symbolDofileC_looksUp library (scriptPath components)
    rw [kept] at found
    exact found pathNoNul short
  case inDirectory =>
    have found := symbolDofileC_looksUp library (getDllDir library ++ scriptPath components)
    rw [stripPwd_append] at found
    exact found pathNoNul short
  case required =>
    have fileNoNul : 0 ∉ moduleName components ++ characters ".lua" := by
      rw [moduleName, List.mem_append, not_or]
      exact ⟨notMem_intercalate (by decide) noNul, by decide⟩
    have length_eq : (moduleName components ++ characters ".lua").length =
        (scriptPath components).length := by
      rw [← length_mangled, mangled_moduleName, length_mangled]
    have kept : stripPwd library (moduleName components ++ characters ".lua") =
        moduleName components ++ characters ".lua" :=
      stripPwd_of_not_prefix
        (not_prefix_append (plain_of_notMem (by decide) (by decide)) fun nonempty =>
          (apart nonempty).2)
    have found := dllSymbolLoaderC_looksUp rfl fileNoNul (length_eq ▸ short)
    rw [kept] at found
    rw [symbolNames, ← mangled_moduleName, ← symbolNames]
    exact found

end Lemmas

theorem looksUp_objwrap_sample :
    LooksUp (symbolDofileC Library.sample (characters "core/process.lua"))
        (objwrap objcopySymbols (characters "core/process.lua")
          (characters "obj/process.core.lua.o")) ∧
      LooksUp (luautilsDofile Library.sample (characters "core/process.lua"))
        (objwrap objcopySymbols (characters "core/process.lua")
          (characters "obj/process.core.lua.o")) ∧
      LooksUp (dllSymbolLoaderC Library.sample (characters "core.process"))
        (objwrap objcopySymbols (characters "core/process.lua")
          (characters "obj/process.core.lua.o")) := by
  exact looksUp_objwrap Library.sample objcopySymbols [characters "core", characters "process"]
    (characters "obj/process.core.lua.o") (characters "process.core.lua.o") (fun _ _ => rfl)
    (by decide) (by decide) (by decide) (plain_of_notMem (by decide) (by decide)) (by decide)

end Lucciefr.Symbols
