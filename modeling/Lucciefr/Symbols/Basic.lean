import Lucciefr.Base.Buffer
import Lucciefr.Base.Effect
import Lucciefr.Platform

/-!
# Compiled-in scripts

The functions of `core/symbols.c` which look for a script among the symbols of the
library. Its path without the directory of the library, where every character but
letters and digits is replaced, is the first part of the names of two symbols. What is
done with the script is left out.
-/

namespace Lucciefr.Symbols

/-- What is known about the library when it is loaded. -/
structure Library where
  build : Build
  /-- `PATH_MAX` -/
  pathMax : ℕ
  pathMax_lt : pathMax < 2 ^ 32
  /-- `lcfr_globals.dllpath` -/
  dllpath : List UInt8
  /-- `dlsym`, or `GetProcAddress` -/
  exported : List UInt8 → Option ℕ
  /-- What is found in a local array before it is written. -/
  leftover : ℕ → UInt8

/-- The state is the list of the names which were looked up. -/
abbrev SymbolM (α : Type) := EStateM Fault (List (List UInt8)) α

/-- An operation on an array. -/
def checked {α : Type} : Except Fault α → SymbolM α
  | .ok value => pure value
  | .error fault => throw fault

/-- The characters of an ASCII text. -/
def characters (text : String) : List UInt8 :=
  text.toList.map fun char => UInt8.ofNat char.toNat

/-- A path separator. -/
def IsSeparator (char : UInt8) : Prop :=
  char = 47 ∨ char = 92

instance : DecidablePred IsSeparator := fun char =>
  inferInstanceAs (Decidable (char = 47 ∨ char = 92))

/-- A path up to its last separator. -/
def directory (path : List UInt8) : List UInt8 :=
  (path.reverse.dropWhile fun char => ¬IsSeparator char).reverse

/-- `get_dll_dir` -/
def getDllDir (library : Library) : List UInt8 :=
  directory library.dllpath

/-- `strip_pwd` -/
def stripPwd (library : Library) (pathname : List UInt8) : List UInt8 :=
  pathname.drop (if getDllDir library <+: pathname then (getDllDir library).length else 0)

/-- The characters which remain in a symbol name. -/
def isNameChar (char : UInt8) : Bool :=
  (97 ≤ char && char ≤ 122) || -- 'a' to 'z'
  (65 ≤ char && char ≤ 90) || -- 'A' to 'Z'
  (48 ≤ char && char ≤ 57) -- '0' to '9'

/-- The loop of `getBinarySymbol`, which replaces the characters before the given index. -/
def convertPattern : (i : ℕ) → List UInt8 → Except Fault (List UInt8)
  | 0, pattern => .ok pattern
  | i + 1, pattern =>
      match pattern[i]? with
      | none => .error .outOfBounds
      | some char =>
          if isNameChar char then
            convertPattern i pattern
          else
            convertPattern i (pattern.set i 95) -- '_'

/-- `getExportedSymbolByName` -/
def getExportedSymbolByName (library : Library) (name : List UInt8) : SymbolM (Option ℕ) := do
  modify fun names => names ++ [name]
  pure (library.exported name)

/-- A local array. -/
def localArray (library : Library) (size : ℕ) : List UInt8 :=
  (List.range size).map library.leftover

/-- What `getBinarySymbol` returns, and stores. -/
structure BinarySymbol where
  data : Option ℕ
  len : ℕ
  buffer : Option (List UInt8)

/-- Look up a symbol whose name consists of the pattern and this suffix. -/
def lookUp (library : Library) (pattern : List UInt8) (suffix : String) :
    SymbolM (List UInt8 × Option ℕ) := do
  let prefixed ← checked (readString pattern)
  let temp ← checked (snprintf (localArray library (library.pathMax + 32))
    (library.pathMax + 32) (prefixed ++ characters suffix))
  let name ← checked (readString temp)
  let symbol ← getExportedSymbolByName library name
  pure (name, symbol)

/-- The end of `getBinarySymbol`, where both symbols were looked up. -/
def symbolFound (library : Library) (temp : List UInt8) (data last : Option ℕ)
    (buffer : Option (List UInt8)) (size : ℕ) : Except Fault BinarySymbol :=
  match data, last with
  | some start, some stop => do
      let len := library.build.sub stop start
      let written ← (match buffer with
        | none => pure none
        | some array => some <$> (if size ≠ 0 then snprintf array size temp else pure array))
      pure ⟨if len > 0 then data else none, len, written⟩
  | _, _ => pure ⟨none, 0, buffer⟩

/-- `getBinarySymbol`, where `lenGiven` tells whether `len` is not `NULL`. -/
def getBinarySymbol (library : Library) (path : List UInt8) (lenGiven : Bool)
    (buffer : Option (List UInt8)) (size : ℕ) : SymbolM BinarySymbol :=
  if !lenGiven then
    pure ⟨none, 0, buffer⟩
  else do
    let pattern ← checked (strncpy (localArray library library.pathMax) (stripPwd library path)
      library.pathMax)
    let length ← checked (readString pattern)
    let i := length.length % 2 ^ 32 -- an `unsigned int`
    let pattern ← checked (convertPattern i pattern)
    let last ← lookUp library pattern "_binary_obj_data_end"
    let data ← lookUp library pattern "_binary_obj_data_start"
    checked (symbolFound library data.1 data.2 last.2 buffer size)

/-- `dll_getBinarySymbol_C` -/
def dllGetBinarySymbolC (library : Library) (name : List UInt8) : SymbolM BinarySymbol :=
  getBinarySymbol library name true none 0

/-- `symbol_dofile_C` -/
def symbolDofileC (library : Library) (filename : List UInt8) : SymbolM BinarySymbol :=
  getBinarySymbol library filename true (some (localArray library (library.pathMax + 32)))
    (library.pathMax + 32)

/-- `dll_symbolLoader_C` -/
def dllSymbolLoaderC (library : Library) (modName : List UInt8) : SymbolM BinarySymbol := do
  let array ← checked (snprintf (localArray library library.pathMax) library.pathMax
    (modName ++ characters ".lua"))
  let filename ← checked (readString array)
  getBinarySymbol library filename true none 0

/-- `luautils_dofile` -/
def luautilsDofile (library : Library) (filename : List UInt8) : SymbolM BinarySymbol :=
  symbolDofileC library (getDllDir library ++ filename)

end Lucciefr.Symbols
