import Mathlib.Data.List.Basic
import Lucciefr.Base.Buffer
import Lucciefr.Base.Stride

/-!
# Hashes of strings

The hash functions of `core/strutils.c`, each for strings and for wide strings. They
differ in what they do with the hash and the value of a character; arithmetic is modulo
`2 ^ 32`. The value of a `char` is signed.
-/

namespace Lucciefr.Strutils

/-- A type of characters. -/
class Character (α : Type) where
  /-- The value in an `int` operation. -/
  promote : α → Int32

/-- `wchar_t` -/
class WideCharacter (α : Type) extends Character α where
  /-- The wide character with this code. -/
  widen : UInt8 → α
  promote_widen : ∀ code, promote (widen code) = code.toUInt32.toInt32

/-- `char` -/
instance : Character UInt8 where
  promote char := char.toInt8.toInt32

/-- `wchar_t` on Linux. -/
instance : WideCharacter Int32 where
  promote char := char
  widen code := code.toUInt32.toInt32
  promote_widen _ := rfl

/-- `wchar_t` on Windows. -/
instance : WideCharacter UInt16 where
  promote char := char.toUInt32.toInt32
  widen code := code.toUInt16
  promote_widen code := by rw [UInt8.toUInt32_toUInt16]

section Definitions

variable {α Hash : Type} [Character α] {Wide : Type} [WideCharacter Wide]

/-- The body of the loop of a hash function, with what is done with a character. -/
def hashBody (turn : Hash → Int32 → Hash) (key : List α) (i : ℕ) (hash : Hash) :
    Except Fault Hash := do
  let char ← readAt key i
  pure (turn hash (Character.promote char))

/-- The loop of a hash function. -/
def hashLoop (turn : Hash → Int32 → Hash) (init : Hash) (key : List α) (length step : ℕ) :
    Except Fault Hash :=
  forStride .divergence length step (hashBody turn key) init

/-- `hash_str_djb` -/
def hashStrDjb (key : List UInt8) (length step : ℕ) : Except Fault Int32 :=
  hashLoop (fun hash char => ((hash <<< 5) + hash) + char) 5381 key length step

/-- `hash_wstr_djb` -/
def hashWstrDjb (key : List Wide) (length step : ℕ) : Except Fault Int32 :=
  hashLoop (fun hash char => ((hash <<< 5) + hash) + char) 5381 key length step

/-- `hash_str_sdbm` -/
def hashStrSdbm (key : List UInt8) (length step : ℕ) : Except Fault Int32 :=
  hashLoop (fun hash char => ((hash <<< 16) + (hash <<< 6) - hash) + char) 0 key length step

/-- `hash_wstr_sdbm` -/
def hashWstrSdbm (key : List Wide) (length step : ℕ) : Except Fault Int32 :=
  hashLoop (fun hash char => ((hash <<< 16) + (hash <<< 6) - hash) + char) 0 key length step

/-- A turn of the loops of `hash_str_elf` and `hash_wstr_elf`. -/
def elfTurn (hash : UInt32) (char : Int32) : UInt32 :=
  let hash := (hash <<< 4) + char.toUInt32
  let top := hash &&& 0xf0000000
  if top ≠ 0 then
    let hash := hash ^^^ top
    hash ^^^ (top >>> 24)
  else
    hash

/-- `hash_str_elf` -/
def hashStrElf (key : List UInt8) (length step : ℕ) : Except Fault Int32 :=
  UInt32.toInt32 <$> hashLoop elfTurn 0 key length step

/-- `hash_wstr_elf` -/
def hashWstrElf (key : List Wide) (length step : ℕ) : Except Fault Int32 :=
  UInt32.toInt32 <$> hashLoop elfTurn 0 key length step

/-- `hash_str_mulAdd` -/
def hashStrMulAdd (init factor : Int32) (key : List UInt8) (length step : ℕ) :
    Except Fault Int32 :=
  hashLoop (fun hash char => (hash * factor) + char) init key length step

/-- `hash_wstr_mulAdd` -/
def hashWstrMulAdd (init factor : Int32) (key : List Wide) (length step : ℕ) :
    Except Fault Int32 :=
  hashLoop (fun hash char => (hash * factor) + char) init key length step

/-- `hash_str_mulXor` -/
def hashStrMulXor (init factor : Int32) (key : List UInt8) (length step : ℕ) :
    Except Fault Int32 :=
  hashLoop (fun hash char => (hash * factor) ^^^ char) init key length step

/-- `hash_wstr_mulXor` -/
def hashWstrMulXor (init factor : Int32) (key : List Wide) (length step : ℕ) :
    Except Fault Int32 :=
  hashLoop (fun hash char => (hash * factor) ^^^ char) init key length step

/-- `hash_str_xorMul` -/
def hashStrXorMul (init factor : Int32) (key : List UInt8) (length step : ℕ) :
    Except Fault Int32 :=
  hashLoop (fun hash char => (hash ^^^ char) * factor) init key length step

/-- `hash_wstr_xorMul` -/
def hashWstrXorMul (init factor : Int32) (key : List Wide) (length step : ℕ) :
    Except Fault Int32 :=
  hashLoop (fun hash char => (hash ^^^ char) * factor) init key length step

end Definitions

section Lemmas

variable {α Hash : Type} [Character α] {Wide : Type} [WideCharacter Wide]
  {turn other : Hash → Int32 → Hash} {init : Hash} {key : List α} {length step : ℕ}

/-- The hash of the characters at the multiples of the step. -/
def foldHash (turn : Hash → Int32 → Hash) (init : Hash) (chars : List α) : Hash :=
  chars.foldl (fun hash char => turn hash (Character.promote char)) init

theorem hashLoop_eq (positive : 0 < step) (inside : length ≤ key.length) :
    hashLoop turn init key length step =
      .ok (foldHash turn init (every step (key.take length))) := by
  have length_eq : (key.take length).length = length := List.length_take_of_le inside
  have loop := forStride_foldl Fault.divergence (hashBody turn key) init (key.take length)
    (fun hash char => turn hash (Character.promote char)) positive
  rw [length_eq] at loop
  apply loop
  intro index char hash present
  rw [List.getElem?_take] at present
  split at present
  · rw [hashBody, readAt_of_some present]
    rfl
  · cases present

theorem hashLoop_congr (same : ∀ hash char, turn hash char = other hash char) :
    hashLoop turn init key length step = hashLoop other init key length step := by
  have turn_eq : turn = other := funext fun hash => funext fun char => same hash char
  rw [turn_eq]

/-- Another key with the same values of the characters which are visited. -/
theorem hashLoop_map {β : Type} [Character β] {convert : α → β} (positive : 0 < step)
    (inside : length ≤ key.length)
    (same : ∀ char ∈ every step (key.take length),
      Character.promote (convert char) = Character.promote char) :
    ∃ hash, hashLoop turn init key length step = .ok hash ∧
      hashLoop turn init (key.map convert) length step = .ok hash := by
  have insideMap : length ≤ (key.map convert).length := by rwa [List.length_map]
  refine ⟨_, hashLoop_eq positive inside, ?_⟩
  rw [hashLoop_eq positive insideMap, ← List.map_take, every_map, foldHash, List.foldl_map,
    foldHash]
  congr 1
  apply List.foldl_ext
  intro hash char charMem
  rw [same char charMem]

end Lemmas

/-- Both functions return, with the same hash. -/
def SameHash (first second : Except Fault Int32) : Prop :=
  ∃ hash, first = .ok hash ∧ second = .ok hash

/-- The functions for strings and for wide strings return the same hashes. -/
structure HashesAgree {Wide : Type} [WideCharacter Wide] (key : List UInt8) (wide : List Wide)
    (length step : ℕ) : Prop where
  djb : SameHash (hashStrDjb key length step) (hashWstrDjb wide length step)
  sdbm : SameHash (hashStrSdbm key length step) (hashWstrSdbm wide length step)
  elf : SameHash (hashStrElf key length step) (hashWstrElf wide length step)
  mulAdd : ∀ init factor, SameHash (hashStrMulAdd init factor key length step)
    (hashWstrMulAdd init factor wide length step)
  mulXor : ∀ init factor, SameHash (hashStrMulXor init factor key length step)
    (hashWstrMulXor init factor wide length step)
  xorMul : ∀ init factor, SameHash (hashStrXorMul init factor key length step)
    (hashWstrXorMul init factor wide length step)

section Agreement

variable {Wide : Type} [WideCharacter Wide] {key : List UInt8} {length step : ℕ}

theorem hashesAgree_map {convert : UInt8 → Wide} (positive : 0 < step)
    (inside : length ≤ key.length)
    (same : ∀ char ∈ every step (key.take length),
      Character.promote (convert char) = Character.promote char) :
    HashesAgree key (key.map convert) length step where
  djb := hashLoop_map positive inside same
  sdbm := hashLoop_map positive inside same
  elf := by
    have hashed : ∃ hash, hashLoop elfTurn 0 key length step = .ok hash ∧
        hashLoop elfTurn 0 (key.map convert) length step = .ok hash :=
      hashLoop_map positive inside same
    rcases hashed with ⟨hash, narrow, wide⟩
    refine ⟨hash.toInt32, ?_, ?_⟩
    · rw [hashStrElf, narrow]
      rfl
    · rw [hashWstrElf, wide]
      rfl
  mulAdd _ _ := hashLoop_map positive inside same
  mulXor _ _ := hashLoop_map positive inside same
  xorMul _ _ := hashLoop_map positive inside same

/-- A character which is not negative has the value of its code. -/
theorem promote_of_lt {char : UInt8} (ascii : char < 128) :
    Character.promote (WideCharacter.widen char : Wide) = Character.promote char := by
  have each : ∀ code : Fin 128, (UInt8.ofNat code).toUInt32.toInt32 =
      (UInt8.ofNat code).toInt8.toInt32 := by decide +kernel
  have same := each ⟨char.toNat, ascii⟩
  rw [UInt8.ofNat_toNat] at same
  rw [WideCharacter.promote_widen, same]
  rfl

/--
The hashes of a string and of a wide string agree if the characters which are visited are
below 128, or if the wide characters are as signed as those of the string.
-/
theorem hashesAgree_widened (key : List UInt8) (length step : ℕ) (positive : 0 < step)
    (inside : length ≤ key.length) :
    (∀ (Wide : Type) [WideCharacter Wide],
      (∀ index < length, step ∣ index → ∀ char, key[index]? = some char → char < 128) →
        HashesAgree key (key.map (WideCharacter.widen : UInt8 → Wide)) length step) ∧
    HashesAgree key (key.map fun char => char.toInt8.toInt32) length step := by
  constructor
  · intro Wide _ ascii
    apply hashesAgree_map positive inside
    intro char charMem
    rcases mem_every positive charMem with ⟨index, divides, present⟩
    rw [List.getElem?_take] at present
    split at present
    · exact promote_of_lt (ascii index ‹_› divides char present)
    · cases present
  · exact hashesAgree_map positive inside fun char _ => rfl

end Agreement

theorem hashesAgree_widened_name :
    HashesAgree [110, 0xe4, 109, 101] ([110, 0xe4, 109, 101] : List UInt16) 4 2 ∧
      HashesAgree [110, 0xe4, 109, 101] ([110, -28, 109, 101] : List Int32) 4 1 := by
  constructor
  · apply (hashesAgree_widened [110, 0xe4, 109, 101] 4 2 (by decide) (by decide)).1 UInt16
    intro index inside divides char present
    rcases index with _ | _ | _ | _ | index
    · cases present
      decide
    · exact absurd divides (by decide)
    · cases present
      decide
    · exact absurd divides (by decide)
    · omega
  · exact (hashesAgree_widened [110, 0xe4, 109, 101] 4 1 (by decide) (by decide)).2

/-- The string "ä" in Latin-1. -/
theorem not_hashesAgree_latin1 : ¬HashesAgree [0xe4] ([0xe4] : List Int32) 1 1 := by
  intro agree
  rcases agree.djb with ⟨hash, narrow, wide⟩
  have narrow_eq : hashStrDjb [0xe4] 1 1 = .ok 177545 := rfl
  have wide_eq : hashWstrDjb ([0xe4] : List Int32) 1 1 = .ok 177801 := rfl
  rw [narrow_eq] at narrow
  rw [wide_eq, ← narrow] at wide
  exact absurd (Except.ok.inj wide) (by decide)

/-- The hash of two strings one after another is the hash of the second one, which begins with
the hash of the first one. -/
def Incremental {α : Type} (hash : Int32 → List α → (length step : ℕ) → Except Fault Int32) :
    Prop :=
  ∀ (init : Int32) (first second : List α) (step : ℕ), 0 < step → step ∣ first.length →
    ∃ middle, hash init first first.length step = .ok middle ∧
      SameHash (hash init (first ++ second) (first.length + second.length) step)
        (hash middle second second.length step)

section Composition

variable {α : Type} [Character α] {Wide : Type} [WideCharacter Wide]

theorem shiftLeft_eq_mul {hash shift factor : Int32} {n : ℕ}
    (amount : (shift.toBitVec.smod 32).toNat = n) (power : factor.toBitVec = BitVec.twoPow 32 n) :
    hash <<< shift = hash * factor := by
  apply Int32.toBitVec_inj.mp
  rw [Int32.toBitVec_shiftLeft, Int32.toBitVec_mul, power, ← BitVec.shiftLeft_eq_mul_twoPow,
    BitVec.shiftLeft_eq', amount]

theorem djb_eq_mulAdd (hash char : Int32) :
    ((hash <<< 5) + hash) + char = (hash * 33) + char := by
  have shifted : hash <<< 5 = hash * 32 := shiftLeft_eq_mul (n := 5) (by decide) (by decide)
  rw [shifted]
  grind

theorem sdbm_eq_mulAdd (hash char : Int32) :
    ((hash <<< 16) + (hash <<< 6) - hash) + char = (hash * 65599) + char := by
  have high : hash <<< 16 = hash * 65536 :=
    shiftLeft_eq_mul (n := 16) (by decide) (by decide)
  have low : hash <<< 6 = hash * 64 := shiftLeft_eq_mul (n := 6) (by decide) (by decide)
  rw [high, low]
  grind

theorem hashLoop_incremental {turn : Int32 → Int32 → Int32} :
    Incremental fun init (key : List α) length step => hashLoop turn init key length step := by
  intro init first second step positive divides
  have length_eq : (first ++ second).length = first.length + second.length :=
    List.length_append
  have parts : foldHash turn init (every step ((first ++ second).take (first.length +
      second.length))) = foldHash turn (foldHash turn init (every step (first.take first.length)))
        (every step (second.take second.length)) := by
    rw [List.take_of_length_le (le_refl first.length),
      List.take_of_length_le (le_refl second.length), List.take_of_length_le length_eq.le,
      every_append positive divides, foldHash, foldHash, foldHash, List.foldl_append]
  exact ⟨_, hashLoop_eq positive (le_refl _), _, hashLoop_eq positive length_eq.ge,
    parts ▸ hashLoop_eq positive (le_refl _)⟩

/--
`djb` and `sdbm` are multiplicative hashes, and those can be computed for one part of a
string after another.
-/
theorem shiftHashes_eq_mulAdd (Wide : Type) [WideCharacter Wide] :
    (∀ (key : List UInt8) (length step : ℕ),
      hashStrDjb key length step = hashStrMulAdd 5381 33 key length step ∧
      hashStrSdbm key length step = hashStrMulAdd 0 65599 key length step) ∧
    (∀ (key : List Wide) (length step : ℕ),
      hashWstrDjb key length step = hashWstrMulAdd 5381 33 key length step ∧
      hashWstrSdbm key length step = hashWstrMulAdd 0 65599 key length step) ∧
    ∀ factor : Int32,
      (Incremental (hashStrMulAdd · factor) ∧ Incremental (hashStrMulXor · factor) ∧
        Incremental (hashStrXorMul · factor)) ∧
      Incremental (fun init (key : List Wide) => hashWstrMulAdd init factor key) ∧
        Incremental (fun init (key : List Wide) => hashWstrMulXor init factor key) ∧
        Incremental (fun init (key : List Wide) => hashWstrXorMul init factor key) := by
  refine ⟨fun key length step => ⟨?_, ?_⟩, fun key length step => ⟨?_, ?_⟩, fun factor => ?_⟩
  · exact hashLoop_congr djb_eq_mulAdd
  · exact hashLoop_congr sdbm_eq_mulAdd
  · exact hashLoop_congr djb_eq_mulAdd
  · exact hashLoop_congr sdbm_eq_mulAdd
  · exact ⟨⟨hashLoop_incremental, hashLoop_incremental, hashLoop_incremental⟩,
      hashLoop_incremental, hashLoop_incremental, hashLoop_incremental⟩

end Composition

end Lucciefr.Strutils
