import Mathlib.Tactic.SplitIfs
import Lucciefr.Msgpack.Header

/-!
# Reading any token

What the unpacker may read from arbitrary bytes. The sizes of everything that it
reads fit their fields, and the packed form of a value is at most as long as the
bytes it was read from, with two exceptions: a number of single precision is packed
with double precision, and an extension of the largest size is taken from bytes
which are not consumed.
-/

namespace Lucciefr.Msgpack

/-- What is known of a token and the bytes it was read from. -/
def Token.Sound (consumed : List UInt8) : Token → Prop
  | .value object => object.WellFormed ∧ object.depth = 0 ∧
      (object.ExtSizes (· < 2 ^ 32 - 1) → (packObject object).length ≤ consumed.length ∨
        ∃ n, consumed = 0xca :: n ∧ n.length = 4 ∧
          object = .float (floatToDouble (ofBigEndian n)))
  | .array n => n < 2 ^ 32 ∧ (packArray n).length ≤ consumed.length
  | .map n => n < 2 ^ 32 ∧ (packMap n).length ≤ consumed.length

variable {width trail : ℕ} {callback : List UInt8 → Object} {input rest n : List UInt8}
  {token : Token}
  {head : UInt8}

theorem readNumber_eq_some (read : readNumber width callback input = some (token, rest)) :
    ∃ n, n.length = width ∧ input = n ++ rest ∧ token = .value (callback n) := by
  simp only [readNumber, Option.map_eq_some_iff, Prod.exists, Prod.mk.injEq] at read
  rcases read with ⟨n, last, taken, rfl, rfl⟩
  rcases readExactly_eq_some.mp taken with ⟨split, length_eq⟩
  exact ⟨n, length_eq, split, rfl⟩

theorem readValue_eq_some (read : readValue callback trail input = some (token, rest)) :
    ∃ body, body.length = trail ∧ input = body ++ rest ∧ token = .value (callback body) :=
  readNumber_eq_some read

theorem readSized_eq_some (read : readSized width callback input = some (token, rest)) :
    ∃ n body, n.length = width ∧ body.length = ofBigEndian n ∧ input = n ++ (body ++ rest) ∧
      token = .value (callback body) := by
  simp only [readSized, Option.bind_eq_some_iff, Prod.exists] at read
  rcases read with ⟨n, last, taken, value⟩
  rcases readExactly_eq_some.mp taken with ⟨split, length_eq⟩
  rcases readValue_eq_some value with ⟨body, size, valueSplit, token_eq⟩
  exact ⟨n, body, length_eq, size, by rw [split, valueSplit], token_eq⟩

theorem readContainer_eq_some {start : ℕ → Token}
    (read : readContainer width start input = some (token, rest)) :
    ∃ n, n.length = width ∧ input = n ++ rest ∧ token = start (ofBigEndian n) := by
  simp only [readContainer, Option.map_eq_some_iff, Prod.exists, Prod.mk.injEq] at read
  rcases read with ⟨n, last, taken, rfl, rfl⟩
  rcases readExactly_eq_some.mp taken with ⟨split, length_eq⟩
  exact ⟨n, length_eq, split, rfl⟩

theorem callbackExt_eq_some {p : List UInt8} {l : UInt32} {object : Object}
    (viewed : callbackExt p l = some object) :
    ∃ type behind, p = type :: behind ∧ (l - 1).toNat ≤ behind.length ∧
      object = .ext type.toInt8 (behind.take (l - 1).toNat) := by
  cases p with
  | nil => contradiction
  | cons type behind =>
      simp only [callbackExt, Option.ite_none_left_eq_some, not_lt, Option.some.injEq] at viewed
      exact ⟨type, behind, rfl, viewed.1, viewed.2.symm⟩

theorem readExtValue_eq_some {trail : UInt32} (positive : trail ≠ 0)
    (read : readExtValue n trail input = some (token, rest)) :
    ∃ type body, body.length + 1 = trail.toNat ∧ input = type :: (body ++ rest) ∧
      token = .value (.ext type.toInt8 body) := by
  simp only [readExtValue, if_neg positive, Option.ite_none_left_eq_some, not_lt,
    Option.map_eq_some_iff, Prod.mk.injEq] at read
  rcases read with ⟨enough, object, viewed, rfl, rfl⟩
  rcases callbackExt_eq_some viewed with ⟨type, behind, rfl, size, rfl⟩
  have nonzero : trail.toNat ≠ 0 := fun zero => positive (UInt32.toNat_inj.mp zero)
  have one_le : (1 : UInt32) ≤ trail :=
    UInt32.le_iff_toNat_le.mpr (Nat.one_le_iff_ne_zero.mpr nonzero)
  have one : (1 : UInt32).toNat = 1 := rfl
  have body_size : (trail - 1).toNat = trail.toNat - 1 := by
    rw [UInt32.toNat_sub_of_le _ _ one_le, one]
  have trail_eq : trail.toNat = (trail - 1).toNat + 1 := by omega
  refine ⟨type, behind.take (trail - 1).toNat, ?_, ?_, rfl⟩
  · rw [List.length_take]
    omega
  · rw [trail_eq, List.drop_succ_cons, List.take_append_drop]

/-- An extension of the largest size is taken from the size field on. -/
theorem readExt_eq_some (read : readExt width input = some (token, rest)) :
    ∃ n, n.length = width ∧
      ((∃ type body, UInt32.ofNat (ofBigEndian n) + 1 ≠ 0 ∧
          body.length = (UInt32.ofNat (ofBigEndian n)).toNat ∧
          input = n ++ type :: (body ++ rest) ∧ token = .value (.ext type.toInt8 body)) ∨
        ∃ type body, body.length = 2 ^ 32 - 1 ∧ input = n ++ rest ∧
          token = .value (.ext type body)) := by
  simp only [readExt, Option.bind_eq_some_iff, Prod.exists] at read
  rcases read with ⟨n, last, taken, value⟩
  rcases readExactly_eq_some.mp taken with ⟨split, length_eq⟩
  refine ⟨n, length_eq, ?_⟩
  by_cases wrapped : UInt32.ofNat (ofBigEndian n) + 1 = 0
  · right
    simp only [readExtValue, wrapped, if_true, Option.map_eq_some_iff, Prod.mk.injEq] at value
    rcases value with ⟨object, viewed, rfl, rfl⟩
    rcases callbackExt_eq_some viewed with ⟨type, behind, -, size, rfl⟩
    have largest : ((0 : UInt32) - 1).toNat = 2 ^ 32 - 1 := rfl
    refine ⟨_, _, ?_, split, rfl⟩
    rw [List.length_take, largest] at *
    exact Nat.min_eq_left size
  · left
    rcases readExtValue_eq_some wrapped value with ⟨type, body, size, valueSplit, token_eq⟩
    refine ⟨type, body, wrapped, ?_, by rw [split, valueSplit], token_eq⟩
    have one : (1 : UInt32).toNat = 1 := rfl
    have nonzero : (UInt32.ofNat (ofBigEndian n) + 1).toNat ≠ 0 :=
      fun zero => wrapped (UInt32.toNat_inj.mp zero)
    rw [UInt32.toNat_add, one] at size nonzero
    have bound := (UInt32.ofNat (ofBigEndian n)).toNat_lt
    omega

/-- The widths of the numbers of the format. -/
def NumberWidth (width : ℕ) : Prop :=
  width = 1 ∨ width = 2 ∨ width = 4 ∨ width = 8

theorem NumberWidth.pow_le (number : NumberWidth width) : 256 ^ width ≤ 2 ^ 64 := by
  rcases number with rfl | rfl | rfl | rfl <;> decide

theorem length_packUint64_le {d : UInt64} (number : NumberWidth width)
    (fits : d.toNat < 256 ^ width) : (packUint64 d).length ≤ width + 1 := by
  rcases number with rfl | rfl | rfl | rfl <;> unfold packUint64 <;> split_ifs <;>
    simp only [List.length_cons, List.length_nil, length_bigEndian] <;> omega

theorem length_packInt64_le {d : Int64} (number : NumberWidth width)
    (lower : -256 ^ width ≤ 2 * d.toInt) (negative : d.toInt < 0) :
    (packInt64 d).length ≤ width + 1 := by
  rcases number with rfl | rfl | rfl | rfl <;> unfold packInt64 <;> split_ifs <;>
    simp only [List.length_cons, length_storeSigned] <;> omega

theorem lt_of_widths {l : ℕ} (widths : width = 1 ∨ width = 2 ∨ width = 4)
    (fits : l < 256 ^ width) : l < 2 ^ 32 := by
  rcases widths with rfl | rfl | rfl <;> omega

theorem length_packStr_le {l : ℕ} (widths : width = 1 ∨ width = 2 ∨ width = 4)
    (fits : l < 256 ^ width) : (packStr l).length ≤ width + 1 := by
  rcases widths with rfl | rfl | rfl <;> unfold packStr <;> split_ifs <;>
    simp only [List.length_cons, List.length_nil, length_bigEndian] <;> omega

theorem length_packBin_le {l : ℕ} (widths : width = 1 ∨ width = 2 ∨ width = 4)
    (fits : l < 256 ^ width) : (packBin l).length ≤ width + 1 := by
  rcases widths with rfl | rfl | rfl <;> unfold packBin <;> split_ifs <;>
    simp only [List.length_cons, List.length_nil, length_bigEndian] <;> omega

theorem length_packExt_le {l : ℕ} (type : Int8) (widths : width = 1 ∨ width = 2 ∨ width = 4)
    (fits : l < 256 ^ width) : (packExt l type).length ≤ width + 2 := by
  rcases widths with rfl | rfl | rfl <;> unfold packExt <;> split_ifs <;>
    simp only [List.length_cons, List.length_nil, List.length_append, length_bigEndian] <;> omega

theorem length_packFixExt {l : ℕ} (type : Int8)
    (sizes : l = 1 ∨ l = 2 ∨ l = 4 ∨ l = 8 ∨ l = 16) : (packExt l type).length = 2 := by
  rcases sizes with rfl | rfl | rfl | rfl | rfl <;> rfl

theorem length_packArray_le {l : ℕ} (widths : width = 2 ∨ width = 4) (fits : l < 256 ^ width) :
    (packArray l).length ≤ width + 1 := by
  rcases widths with rfl | rfl <;> unfold packArray <;> split_ifs <;>
    simp only [List.length_cons, List.length_nil, length_bigEndian] <;> omega

theorem length_packMap_le {l : ℕ} (widths : width = 2 ∨ width = 4) (fits : l < 256 ^ width) :
    (packMap l).length ≤ width + 1 := by
  rcases widths with rfl | rfl <;> unfold packMap <;> split_ifs <;>
    simp only [List.length_cons, List.length_nil, length_bigEndian] <;> omega

theorem callbackUint_sound (head : UInt8) (number : NumberWidth n.length) :
    (Token.value (callbackUint (ofBigEndian n))).Sound (head :: n) := by
  have bound := ofBigEndian_lt n
  have fits : (UInt64.ofNat (ofBigEndian n)).toNat < 256 ^ n.length := by
    rw [UInt64.toNat_ofNat']
    exact Nat.lt_of_le_of_lt (Nat.mod_le _ _) bound
  exact ⟨trivial, rfl, fun _ => Or.inl (length_packUint64_le number fits)⟩

theorem loadSigned_bounds (bytes : List UInt8) :
    -256 ^ bytes.length ≤ 2 * loadSigned bytes ∧ 2 * loadSigned bytes < 256 ^ bytes.length := by
  have bound : (ofBigEndian bytes : ℤ) < 256 ^ bytes.length := by
    exact_mod_cast ofBigEndian_lt bytes
  unfold loadSigned
  split
  · have small : (2 * ofBigEndian bytes : ℤ) < 256 ^ bytes.length := by exact_mod_cast ‹_›
    constructor
    · omega
    · exact small
  · have large : (256 ^ bytes.length : ℤ) ≤ 2 * ofBigEndian bytes := by
      exact_mod_cast Nat.le_of_not_lt ‹_›
    constructor <;> omega

theorem callbackInt_sound (head : UInt8) (number : NumberWidth n.length) :
    (Token.value (callbackInt (loadSigned n))).Sound (head :: n) := by
  rcases loadSigned_bounds n with ⟨lower, upper⟩
  have power : (256 ^ n.length : ℤ) ≤ 2 ^ 64 := by exact_mod_cast number.pow_le
  unfold callbackInt
  split
  · have fits : (UInt64.ofNat (loadSigned n).toNat).toNat < 256 ^ n.length := by
      rw [UInt64.toNat_ofNat']
      apply Nat.lt_of_le_of_lt (Nat.mod_le _ _)
      zify
      omega
    exact ⟨trivial, rfl, fun _ => Or.inl (length_packUint64_le number fits)⟩
  · have same : (Int64.ofInt (loadSigned n)).toInt = loadSigned n := by
      apply Int64.toInt_ofInt_of_le <;> omega
    refine ⟨?_, rfl, fun _ => Or.inl (length_packInt64_le number ?_ ?_)⟩
    · simp only [Object.WellFormed, same]
      omega
    · rw [same]
      exact lower
    · rw [same]
      omega

/-- The bytes which a token was read from, in front of the rest. -/
def Reads (data : List UInt8) (token : Token) (rest : List UInt8) : Prop :=
  ∃ consumed, data = consumed ++ rest ∧ consumed ≠ [] ∧ token.Sound consumed

theorem reads_number (sound : ∀ n : List UInt8, n.length = width →
      (Token.value (callback n)).Sound (head :: n))
    (read : readNumber width callback input = some (token, rest)) :
    Reads (head :: input) token rest := by
  rcases readNumber_eq_some read with ⟨n, length_eq, rfl, rfl⟩
  exact ⟨head :: n, rfl, by simp, sound n length_eq⟩

theorem reads_uint (number : NumberWidth width)
    (read : readNumber width (fun n => callbackUint (ofBigEndian n)) input = some (token, rest)) :
    Reads (head :: input) token rest := by
  apply reads_number _ read
  rintro n rfl
  exact callbackUint_sound head number

theorem reads_int (number : NumberWidth width)
    (read : readNumber width (fun n => callbackInt (loadSigned n)) input = some (token, rest)) :
    Reads (head :: input) token rest := by
  apply reads_number _ read
  rintro n rfl
  exact callbackInt_sound head number

theorem reads_str (widths : width = 1 ∨ width = 2 ∨ width = 4)
    (read : readSized width .str input = some (token, rest)) :
    Reads (head :: input) token rest := by
  rcases readSized_eq_some read with ⟨n, body, rfl, size, rfl, rfl⟩
  have bound : body.length < 256 ^ n.length := size ▸ ofBigEndian_lt n
  have header := length_packStr_le widths bound
  have fits : body.length < 2 ^ 32 := lt_of_widths widths bound
  refine ⟨head :: (n ++ body), by simp, by simp, fits, rfl, fun _ => Or.inl ?_⟩
  simp only [packObject, List.length_append, List.length_cons]
  omega

theorem reads_bin (widths : width = 1 ∨ width = 2 ∨ width = 4)
    (read : readSized width .bin input = some (token, rest)) :
    Reads (head :: input) token rest := by
  rcases readSized_eq_some read with ⟨n, body, rfl, size, rfl, rfl⟩
  have bound : body.length < 256 ^ n.length := size ▸ ofBigEndian_lt n
  have header := length_packBin_le widths bound
  have fits : body.length < 2 ^ 32 := lt_of_widths widths bound
  refine ⟨head :: (n ++ body), by simp, by simp, fits, rfl, fun _ => Or.inl ?_⟩
  simp only [packObject, List.length_append, List.length_cons]
  omega

theorem reads_ext (widths : width = 1 ∨ width = 2 ∨ width = 4)
    (read : readExt width input = some (token, rest)) :
    Reads (head :: input) token rest := by
  rcases readExt_eq_some read with ⟨n, rfl, found⟩
  have bound := ofBigEndian_lt n
  rcases found with ⟨type, body, -, size, rfl, rfl⟩ | ⟨type, body, size, rfl, rfl⟩
  · have fits : body.length < 256 ^ n.length := by
      rw [size, UInt32.toNat_ofNat']
      exact Nat.lt_of_le_of_lt (Nat.mod_le _ _) bound
    have header := length_packExt_le type.toInt8 widths fits
    have small : body.length < 2 ^ 32 := size ▸ UInt32.toNat_lt _
    refine ⟨head :: (n ++ type :: body), by simp, by simp, small, rfl, fun _ => Or.inl ?_⟩
    simp only [packObject, List.length_append, List.length_cons]
    omega
  · refine ⟨head :: n, rfl, by simp, ?_, rfl, ?_⟩
    · simp only [Object.WellFormed, size]
      omega
    · intro small
      simp only [Object.ExtSizes, size] at small
      omega

theorem reads_fixExt {trail : UInt32}
    (sizes : trail = 2 ∨ trail = 3 ∨ trail = 5 ∨ trail = 9 ∨ trail = 17)
    (read : readExtValue [] trail input = some (token, rest)) :
    Reads (head :: input) token rest := by
  have positive : trail ≠ 0 := by rcases sizes with rfl | rfl | rfl | rfl | rfl <;> decide
  rcases readExtValue_eq_some positive read with ⟨type, body, size, rfl, rfl⟩
  have fixed : body.length = 1 ∨ body.length = 2 ∨ body.length = 4 ∨ body.length = 8 ∨
      body.length = 16 := by
    rcases sizes with rfl | rfl | rfl | rfl | rfl <;>
      simp only [UInt32.reduceToNat, Nat.reduceEqDiff] at size <;> omega
  have header := length_packFixExt type.toInt8 fixed
  refine ⟨head :: type :: body, by simp, by simp, ?_, rfl, fun _ => Or.inl ?_⟩
  · simp only [Object.WellFormed]
    omega
  · simp only [packObject, List.length_append, List.length_cons]
    omega

theorem reads_array (widths : width = 2 ∨ width = 4)
    (read : readContainer width .array input = some (token, rest)) :
    Reads (head :: input) token rest := by
  rcases readContainer_eq_some read with ⟨n, rfl, rfl, rfl⟩
  have bound := ofBigEndian_lt n
  refine ⟨head :: n, rfl, by simp, ?_, length_packArray_le widths bound⟩
  rcases widths with width | width <;> rw [width] at bound <;> omega

theorem reads_map (widths : width = 2 ∨ width = 4)
    (read : readContainer width .map input = some (token, rest)) :
    Reads (head :: input) token rest := by
  rcases readContainer_eq_some read with ⟨n, rfl, rfl, rfl⟩
  have bound := ofBigEndian_lt n
  refine ⟨head :: n, rfl, by simp, ?_, length_packMap_le widths bound⟩
  rcases widths with width | width <;> rw [width] at bound <;> omega

theorem reads_variable (read : readVariable head input = some (token, rest)) :
    Reads (head :: input) token rest := by
  have one : NumberWidth 1 := Or.inl rfl
  have two : NumberWidth 2 := Or.inr (Or.inl rfl)
  have four : NumberWidth 4 := Or.inr (Or.inr (Or.inl rfl))
  have eight : NumberWidth 8 := Or.inr (Or.inr (Or.inr rfl))
  unfold readVariable at read
  split at read
  · simp only [Option.some.injEq, Prod.mk.injEq] at read
    rcases read with ⟨rfl, rfl⟩
    exact ⟨[0xc0], rfl, by simp, trivial, rfl, fun _ => Or.inl (Nat.le_refl 1)⟩
  · simp only [Option.some.injEq, Prod.mk.injEq] at read
    rcases read with ⟨rfl, rfl⟩
    exact ⟨[0xc2], rfl, by simp, trivial, rfl, fun _ => Or.inl (Nat.le_refl 1)⟩
  · simp only [Option.some.injEq, Prod.mk.injEq] at read
    rcases read with ⟨rfl, rfl⟩
    exact ⟨[0xc3], rfl, by simp, trivial, rfl, fun _ => Or.inl (Nat.le_refl 1)⟩
  · exact reads_bin (by simp) read
  · exact reads_bin (by simp) read
  · exact reads_bin (by simp) read
  · exact reads_ext (by simp) read
  · exact reads_ext (by simp) read
  · exact reads_ext (by simp) read
  · -- a number of single precision
    apply reads_number _ read
    intro n length_eq
    exact ⟨trivial, rfl, fun _ => Or.inr ⟨n, rfl, length_eq, rfl⟩⟩
  · apply reads_number _ read
    intro n length_eq
    refine ⟨trivial, rfl, fun _ => Or.inl ?_⟩
    simp [packObject, packDouble, length_eq]
  · exact reads_uint one read
  · exact reads_uint two read
  · exact reads_uint four read
  · exact reads_uint eight read
  · exact reads_int one read
  · exact reads_int two read
  · exact reads_int four read
  · exact reads_int eight read
  · exact reads_fixExt (by simp) read
  · exact reads_fixExt (by simp) read
  · exact reads_fixExt (by simp) read
  · exact reads_fixExt (by simp) read
  · exact reads_fixExt (by simp) read
  · exact reads_str (by simp) read
  · exact reads_str (by simp) read
  · exact reads_str (by simp) read
  · exact reads_array (by simp) read
  · exact reads_array (by simp) read
  · exact reads_map (by simp) read
  · exact reads_map (by simp) read
  · contradiction

theorem toNat_and_lt (head mask : UInt8) : (head &&& mask).toNat ≤ mask.toNat := by
  rw [UInt8.toNat_and]
  exact Nat.and_le_right

theorem readToken_sound {data : List UInt8} (read : readToken data = some (token, rest)) :
    Reads data token rest := by
  cases data with
  | nil => contradiction
  | cons head input =>
      simp only [readToken] at read
      split at read
      · have small : head.toNat < 2 ^ 7 := Nat.lt_succ_of_le (UInt8.le_iff_toNat_le.mp ‹_›)
        simp only [Option.some.injEq, Prod.mk.injEq] at read
        rcases read with ⟨rfl, rfl⟩
        refine ⟨[head], rfl, by simp, trivial, rfl, fun _ => Or.inl ?_⟩
        have value : (UInt64.ofNat head.toNat).toNat = head.toNat := by
          rw [UInt64.toNat_ofNat']
          omega
        simp only [callbackUint, packObject, packUint64, value, if_pos small,
          if_pos (Nat.lt_of_lt_of_le small (by decide) : head.toNat < 2 ^ 8), List.length_cons,
          List.length_nil, Nat.le_refl]
      · split at read
        · have isNegative : 0xe0 ≤ head := ‹_›
          have large : 224 ≤ head.toNat := UInt8.le_iff_toNat_le.mp isNegative
          have bound := head.toNat_lt
          simp only [Option.some.injEq, Prod.mk.injEq] at read
          rcases read with ⟨rfl, rfl⟩
          have value : loadSigned [head] = head.toNat - 256 := by
            have loaded : ofBigEndian [head] = head.toNat := by simp [ofBigEndian]
            simp only [loadSigned, loaded, List.length_singleton, pow_one]
            rw [if_neg (by omega)]
          have same : (Int64.ofInt (head.toNat - 256)).toInt = head.toNat - 256 := by
            apply Int64.toInt_ofInt_of_le <;> omega
          rw [value, callbackInt, if_neg (by omega)]
          refine ⟨[head], rfl, by simp, ?_, rfl, fun _ => Or.inl ?_⟩
          · simp only [Object.WellFormed, same]
            omega
          · simp only [packObject, packInt64, same]
            rw [if_neg (by omega), if_pos (by omega)]
            exact Nat.le_of_eq (length_storeSigned 1 _)
        · split at read
          · exact reads_variable read
          · split at read
            · rcases readValue_eq_some read with ⟨body, size, rfl, rfl⟩
              have small := toNat_and_lt head 0x1f
              have mask : (0x1f : UInt8).toNat = 31 := rfl
              refine ⟨head :: body, rfl, by simp, ?_, rfl, fun _ => Or.inl ?_⟩
              · simp only [Object.WellFormed]
                omega
              · simp only [packObject, packStr, List.length_append, List.length_cons]
                rw [if_pos (by omega), List.length_singleton]
                omega
            · have small := toNat_and_lt head 0x0f
              have mask : (0x0f : UInt8).toNat = 15 := rfl
              split at read
              · simp only [Option.some.injEq, Prod.mk.injEq] at read
                rcases read with ⟨rfl, rfl⟩
                refine ⟨[head], rfl, by simp, by omega, ?_⟩
                rw [packArray, if_pos (by omega)]
                exact Nat.le_refl 1
              · simp only [Option.some.injEq, Prod.mk.injEq] at read
                rcases read with ⟨rfl, rfl⟩
                refine ⟨[head], rfl, by simp, by omega, ?_⟩
                rw [packMap, if_pos (by omega)]
                exact Nat.le_refl 1

end Lucciefr.Msgpack
