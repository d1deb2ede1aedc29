import Mathlib.Algebra.Order.Ring.Int
import Mathlib.Tactic.Zify
import Lucciefr.Msgpack.Pack
import Lucciefr.Msgpack.Unpack

/-!
# Reading back headers

What the unpacker reads where the packer has written one value: one token, which
is the value or the start of the container, and the bytes which follow.
-/

namespace Lucciefr.Msgpack

variable {rest : List UInt8}

theorem readNumber_append {width : ℕ} {callback : List UInt8 → Object} {n : List UInt8}
    (length_eq : n.length = width) :
    readNumber width callback (n ++ rest) = some (.value (callback n), rest) := by
  simp [readNumber, readExactly_append length_eq]

theorem readValue_append {callback : List UInt8 → Object} {trail : ℕ} {body : List UInt8}
    (length_eq : body.length = trail) :
    readValue callback trail (body ++ rest) = some (.value (callback body), rest) := by
  simp [readValue, readExactly_append length_eq]

theorem readSized_append (width : ℕ) {callback : List UInt8 → Object} {body : List UInt8}
    (fits : body.length < 256 ^ width) :
    readSized width callback (bigEndian width body.length ++ (body ++ rest)) =
      some (.value (callback body), rest) := by
  have size := ofBigEndian_bigEndian_of_lt fits
  simp [readSized, readExactly_append (length_bigEndian _ _), readValue_append size.symm]

theorem readContainer_append {n : ℕ} (width : ℕ) {start : ℕ → Token} (fits : n < 256 ^ width) :
    readContainer width start (bigEndian width n ++ rest) = some (start n, rest) := by
  have size := ofBigEndian_bigEndian_of_lt fits
  simp [readContainer, readExactly_append (length_bigEndian _ _), size]

theorem callbackExt_append {type : Int8} {body : List UInt8} {l : UInt32}
    (size : (l - 1).toNat = body.length) :
    callbackExt (type.toUInt8 :: (body ++ rest)) l = some (.ext type body) := by
  have same : type.toUInt8.toInt8 = type := by simp
  simp [callbackExt, size, same]

theorem readExtValue_append (n : List UInt8) {type : Int8} {body : List UInt8} (trail : UInt32)
    (size : trail.toNat = body.length + 1) :
    readExtValue n trail (type.toUInt8 :: (body ++ rest)) =
      some (.value (.ext type body), rest) := by
  have nonzero : trail ≠ 0 := by
    rintro rfl
    simp at size
  have one_le : (1 : UInt32) ≤ trail := by
    apply UInt32.le_iff_toNat_le.mpr
    rw [size]
    exact Nat.le_add_left 1 _
  have body_eq : (trail - 1).toNat = body.length := by
    rw [UInt32.toNat_sub_of_le _ _ one_le, size]
    rfl
  simp [readExtValue, nonzero, size, callbackExt_append body_eq]

theorem readExt_append (rest : List UInt8) (width : ℕ) (type : Int8) {body : List UInt8}
    (fits : body.length < 256 ^ width) (small : body.length < 2 ^ 32 - 1) :
    readExt width (bigEndian width body.length ++ type.toUInt8 :: (body ++ rest)) =
      some (.value (.ext type body), rest) := by
  have trail : (UInt32.ofNat body.length + 1).toNat = body.length + 1 := by
    have one : (1 : UInt32).toNat = 1 := rfl
    rw [UInt32.toNat_add, UInt32.toNat_ofNat', one]
    omega
  have size := ofBigEndian_bigEndian_of_lt fits
  simp only [readExt, readExactly_append (length_bigEndian _ _), Option.bind_some, size]
  exact readExtValue_append _ _ trail

theorem loadSigned_storeSigned {width : ℕ} {d : ℤ} (lower : -256 ^ width ≤ 2 * d)
    (upper : 2 * d < 256 ^ width) : loadSigned (storeSigned width d) = d := by
  have positive : (0 : ℤ) < 256 ^ width := pow_pos (by decide) width
  have nonneg := Int.emod_nonneg d positive.ne'
  have below := Int.emod_lt_of_pos d positive
  have stored : (d % 256 ^ width).toNat < 256 ^ width := by
    zify
    rwa [Int.toNat_of_nonneg nonneg]
  simp only [loadSigned, storeSigned, length_bigEndian, ofBigEndian_bigEndian_of_lt stored]
  zify
  rw [Int.toNat_of_nonneg nonneg]
  rcases lt_or_ge d 0 with negative | natural
  · have shifted : d % 256 ^ width = d + 256 ^ width := by
      rw [← Int.add_emod_right, Int.emod_eq_of_lt (by omega) (by omega)]
    rw [shifted, if_neg (by omega)]
    omega
  · have same : d % 256 ^ width = d := Int.emod_eq_of_lt natural (by omega)
    rw [same, if_pos upper]

theorem length_storeSigned (width : ℕ) (d : ℤ) : (storeSigned width d).length = width :=
  length_bigEndian _ _

theorem readNumber_storeSigned (width : ℕ) {d : ℤ} (lower : -256 ^ width ≤ 2 * d)
    (upper : 2 * d < 256 ^ width) :
    readNumber width (fun n => callbackInt (loadSigned n)) (storeSigned width d ++ rest) =
      some (.value (callbackInt d), rest) := by
  rw [readNumber_append (length_storeSigned width d), loadSigned_storeSigned lower upper]

theorem readNumber_callbackUint {value : ℕ} (width : ℕ) (fits : value < 256 ^ width) :
    readNumber width (fun n => callbackUint (ofBigEndian n)) (bigEndian width value ++ rest) =
      some (.value (callbackUint value), rest) := by
  rw [readNumber_append (length_bigEndian width value), ofBigEndian_bigEndian_of_lt fits]

theorem readToken_fixnum {n : ℕ} (small : n < 2 ^ 7) :
    readToken (UInt8.ofNat n :: rest) = some (.value (callbackUint n), rest) := by
  have head : (UInt8.ofNat n).toNat = n := by
    simp only [UInt8.toNat_ofNat']
    omega
  have below : UInt8.ofNat n ≤ 0x7f := by
    apply UInt8.le_iff_toNat_le.mpr
    rw [head]
    exact Nat.le_of_lt_succ small
  simp only [readToken, if_pos below, head]

theorem readToken_negativeFixnum {d : ℤ} (lower : -2 ^ 5 ≤ d) (negative : d < 0) :
    readToken (storeSigned 1 d ++ rest) = some (.value (callbackInt d), rest) := by
  have head : ∀ n < 32, ¬UInt8.ofNat (224 + n) ≤ 0x7f ∧ 0xe0 ≤ UInt8.ofNat (224 + n) := by decide
  have stored : storeSigned 1 d = [UInt8.ofNat (224 + (d + 32).toNat)] := by
    have shifted : (d % 256 ^ 1).toNat = 224 + (d + 32).toNat := by omega
    simp only [storeSigned, shifted, bigEndian, pow_zero, Nat.div_one]
  have loaded : loadSigned (storeSigned 1 d) = d :=
    loadSigned_storeSigned (by omega) (by omega)
  rcases head (d + 32).toNat (by omega) with ⟨notPositive, isNegative⟩
  rw [stored] at loaded ⊢
  simp only [List.cons_append, List.nil_append, readToken, if_neg notPositive, if_pos isNegative,
    loaded]

theorem bigEndian_one (value : ℕ) : bigEndian 1 value = [UInt8.ofNat value] := by
  simp [bigEndian]

theorem readToken_packUint64 (d : UInt64) :
    readToken (packUint64 d ++ rest) = some (.value (.positiveInteger d), rest) := by
  have value : callbackUint d.toNat = .positiveInteger d := by simp [callbackUint]
  rw [← value]
  unfold packUint64
  split
  · split
    · exact readToken_fixnum ‹_›
    · rw [← bigEndian_one]
      exact readNumber_callbackUint 1 ‹_›
  · split
    · exact readNumber_callbackUint 2 ‹_›
    · split
      · exact readNumber_callbackUint 4 ‹_›
      · exact readNumber_callbackUint 8 d.toNat_lt

theorem packUint64_toUInt64 (d : UInt32) : packUint64 d.toUInt64 = packUint32 d := by
  have bound := d.toNat_lt
  simp only [packUint64, packUint32, UInt32.toNat_toUInt64, if_pos bound]

theorem readToken_packUint32 (rest : List UInt8) (d : UInt32) :
    readToken (packUint32 d ++ rest) = some (.value (.positiveInteger d.toUInt64), rest) := by
  rw [← packUint64_toUInt64]
  exact readToken_packUint64 _

/-- What is packed after an integer does not change how the integer is read. -/
theorem packUint32_append_inj {d e : UInt32} {other : List UInt8}
    (same : packUint32 d ++ rest = packUint32 e ++ other) : d = e := by
  have first := readToken_packUint32 rest d
  rw [same, readToken_packUint32] at first
  simp only [Option.some.injEq, Prod.mk.injEq, Token.value.injEq, Object.positiveInteger.injEq]
    at first
  exact UInt32.toUInt64_inj.mp first.1.symm

theorem readToken_packInt64 {d : Int64} (negative : d.toInt < 0) :
    readToken (packInt64 d ++ rest) = some (.value (.negativeInteger d), rest) := by
  have value : callbackInt d.toInt = .negativeInteger d := by
    rw [callbackInt, if_neg (by omega), Int64.ofInt_toInt]
  have lower := d.le_toInt
  rw [← value]
  unfold packInt64
  split
  · split
    · split
      · exact readNumber_storeSigned 8 (by omega) (by omega)
      · exact readNumber_storeSigned 4 (by omega) (by omega)
    · split
      · exact readNumber_storeSigned 2 (by omega) (by omega)
      · exact readNumber_storeSigned 1 (by omega) (by omega)
  · rw [if_pos (by omega)]
    exact readToken_negativeFixnum (by omega) negative

theorem readToken_packDouble (bits : UInt64) :
    readToken (packDouble bits ++ rest) = some (.value (.float bits), rest) := by
  have value : UInt64.ofNat (ofBigEndian (bigEndian 8 bits.toNat)) = bits := by
    rw [ofBigEndian_bigEndian_of_lt bits.toNat_lt, UInt64.ofNat_toNat]
  have read : readNumber 8 (fun n => .float (UInt64.ofNat (ofBigEndian n)))
      (bigEndian 8 bits.toNat ++ rest) =
      some (.value (.float (UInt64.ofNat (ofBigEndian (bigEndian 8 bits.toNat)))), rest) :=
    readNumber_append (length_bigEndian 8 bits.toNat)
  rw [value] at read
  exact read

theorem readToken_fixStr {l : ℕ} (small : l < 32) (input : List UInt8) :
    readToken ((0xa0 ||| UInt8.ofNat l) :: input) = readValue .str l input := by
  have head : ∀ l < 32, ¬(0xa0 ||| UInt8.ofNat l) ≤ 0x7f ∧ ¬0xe0 ≤ (0xa0 ||| UInt8.ofNat l) ∧
      ¬0xc0 ≤ (0xa0 ||| UInt8.ofNat l) ∧ 0xa0 ≤ (0xa0 ||| UInt8.ofNat l) ∧
      ((0xa0 ||| UInt8.ofNat l) &&& 0x1f).toNat = l := by decide
  rcases head l small with ⟨notPositive, notNegative, notVariable, isStr, length_eq⟩
  simp only [readToken, if_neg notPositive, if_neg notNegative, if_neg notVariable, if_pos isStr,
    length_eq]

theorem readToken_packStr {body : List UInt8} (fits : body.length < 2 ^ 32) :
    readToken (packStr body.length ++ (body ++ rest)) = some (.value (.str body), rest) := by
  unfold packStr
  split
  · exact (readToken_fixStr ‹_› _).trans (readValue_append rfl)
  · split
    · rw [← bigEndian_one]
      exact readSized_append 1 ‹_›
    · split
      · exact readSized_append 2 ‹_›
      · exact readSized_append 4 fits

theorem readToken_packBin {body : List UInt8} (fits : body.length < 2 ^ 32) :
    readToken (packBin body.length ++ (body ++ rest)) = some (.value (.bin body), rest) := by
  unfold packBin
  split
  · rw [← bigEndian_one]
    exact readSized_append 1 ‹_›
  · split
    · exact readSized_append 2 ‹_›
    · exact readSized_append 4 fits

theorem readToken_packExt {type : Int8} {body : List UInt8} (small : body.length < 2 ^ 32 - 1) :
    readToken (packExt body.length type ++ (body ++ rest)) =
      some (.value (.ext type body), rest) := by
  unfold packExt
  split
  · exact readExtValue_append [] 2 (by rw [‹body.length = 1›]; rfl)
  · split
    · exact readExtValue_append [] 3 (by rw [‹body.length = 2›]; rfl)
    · split
      · exact readExtValue_append [] 5 (by rw [‹body.length = 4›]; rfl)
      · split
        · exact readExtValue_append [] 9 (by rw [‹body.length = 8›]; rfl)
        · split
          · exact readExtValue_append [] 17 (by rw [‹body.length = 16›]; rfl)
          · split
            · have read := readExt_append rest 1 type ‹_› small
              rw [bigEndian_one] at read
              exact read
            · split
              · exact readExt_append rest 2 type ‹_› small
              · exact readExt_append rest 4 type (by omega) small

theorem readToken_packArray {n : ℕ} (fits : n < 2 ^ 32) :
    readToken (packArray n ++ rest) = some (.array n, rest) := by
  have head : ∀ n < 16, ¬(0x90 ||| UInt8.ofNat n) ≤ 0x7f ∧ ¬0xe0 ≤ (0x90 ||| UInt8.ofNat n) ∧
      ¬0xc0 ≤ (0x90 ||| UInt8.ofNat n) ∧ ¬0xa0 ≤ (0x90 ||| UInt8.ofNat n) ∧
      0x90 ≤ (0x90 ||| UInt8.ofNat n) ∧ ((0x90 ||| UInt8.ofNat n) &&& 0x0f).toNat = n := by
    decide
  unfold packArray
  split
  · rcases head n ‹_› with ⟨notPositive, notNegative, notVariable, notStr, isArray, length_eq⟩
    simp only [List.cons_append, List.nil_append, readToken, if_neg notPositive,
      if_neg notNegative, if_neg notVariable, if_neg notStr, if_pos isArray, length_eq]
  · split
    · exact readContainer_append 2 ‹_›
    · exact readContainer_append 4 fits

theorem readToken_packMap {n : ℕ} (fits : n < 2 ^ 32) :
    readToken (packMap n ++ rest) = some (.map n, rest) := by
  have head : ∀ n < 16, ¬(0x80 ||| UInt8.ofNat n) ≤ 0x7f ∧ ¬0xe0 ≤ (0x80 ||| UInt8.ofNat n) ∧
      ¬0xc0 ≤ (0x80 ||| UInt8.ofNat n) ∧ ¬0xa0 ≤ (0x80 ||| UInt8.ofNat n) ∧
      ¬0x90 ≤ (0x80 ||| UInt8.ofNat n) ∧ ((0x80 ||| UInt8.ofNat n) &&& 0x0f).toNat = n := by
    decide
  unfold packMap
  split
  · rcases head n ‹_› with ⟨notPositive, notNegative, notVariable, notStr, notArray, length_eq⟩
    simp only [List.cons_append, List.nil_append, readToken, if_neg notPositive,
      if_neg notNegative, if_neg notVariable, if_neg notStr, if_neg notArray, length_eq]
  · split
    · exact readContainer_append 2 ‹_›
    · exact readContainer_append 4 fits

end Lucciefr.Msgpack
