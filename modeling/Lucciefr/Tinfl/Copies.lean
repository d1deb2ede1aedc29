import Lucciefr.Base.Deflate
import Lucciefr.Tinfl.Basic

/-!
# Copies of earlier output

A match is copied byte by byte, three bytes in a turn or eight bytes in a turn. Each of the
loops appends the bytes which are `dist` before the end, also where the match overlaps with
what is appended, and none of them writes behind the end of the output buffer.
-/

namespace Lucciefr.Tinfl

open Deflate

variable {setting : Setting} {r : Machine} {src count turns dist : ℕ}

theorem checked_eq {α : Type} {result : Except Fault α} {value : α} (defined : result = .ok value) :
    checked result r = .ok value r := by
  rw [defined]
  rfl

theorem putByte_eq {byte : UInt8} (room : r.outBuf.length < setting.outEnd) :
    putByte setting byte r = .ok () { r with outBuf := r.outBuf ++ [byte] } := by
  rw [putByte, get_bind, if_pos room, modify_eq_ok]

/-- The next byte of a match is at `src`. -/
structure Behind (r : Machine) (dist src : ℕ) : Prop where
  positive : 0 < dist
  inside : dist ≤ r.outBuf.length
  src_eq : src = r.outBuf.length - dist

theorem Behind.copied (count : ℕ) (behind : Behind r dist src) :
    Behind { r with outBuf := repeatFrom dist count r.outBuf } dist (src + count) where
  positive := behind.positive
  inside := by
    have inside := behind.inside
    simp only [length_repeatFrom]
    omega
  src_eq := by
    have inside := behind.inside
    have src_eq := behind.src_eq
    simp only [length_repeatFrom]
    omega

theorem Behind.readAt_eq (behind : Behind r dist src) :
    readAt r.outBuf src = .ok (r.outBuf.getD (r.outBuf.length - dist) 0) := by
  have positive := behind.positive
  have inside := behind.inside
  have below : src < r.outBuf.length := by
    rw [behind.src_eq]
    omega
  rw [readAt_of_some (List.getElem?_eq_getElem below), ← behind.src_eq,
    List.getD_eq_getElem?_getD, List.getElem?_eq_getElem below]
  rfl

theorem copyByte_eq (behind : Behind r dist src) (room : r.outBuf.length < setting.outEnd) :
    copyByte setting src r = .ok () { r with outBuf := repeatFrom dist 1 r.outBuf } := by
  rw [copyByte, get_bind, bind_of_ok (checked_eq behind.readAt_eq), putByte_eq room]
  rfl

theorem copyBytes_eq (behind : Behind r dist src)
    (fits : r.outBuf.length + count ≤ setting.outEnd) :
    copyBytes setting count src r = .ok () { r with outBuf := repeatFrom dist count r.outBuf } := by
  induction count generalizing r src with
  | zero => rfl
  | succ count ih =>
      have rest := ih (behind.copied 1) (by
        simp only [length_repeatFrom]
        omega)
      rw [copyBytes, bind_of_ok (copyByte_eq behind (by omega)), rest, ← repeatFrom_add,
        Nat.add_comm 1]

/-- A word is read before it is written, which makes no difference for this distance. -/
theorem copyWord_eq (setting : Setting) (r : Machine) (behind : Behind r dist src)
    (apart : 4 ≤ dist)
    (fits : r.outBuf.length + 4 ≤ setting.outEnd) :
    copyWord setting src r = .ok () { r with outBuf := repeatFrom dist 4 r.outBuf } := by
  have src_eq := behind.src_eq
  have inside := behind.inside
  have element : ∀ index < 4, readAt r.outBuf (src + index) =
      .ok ((repeatFrom dist index r.outBuf).getD
        ((repeatFrom dist index r.outBuf).length - dist) 0) := by
    intro index below
    have here : src + index < r.outBuf.length := by omega
    have old : (repeatFrom dist index r.outBuf)[src + index]? = r.outBuf[src + index]? := by
      rcases isPrefix_repeatFrom with ⟨rest, whole⟩
      rw [← whole, List.getElem?_append_left here]
    rw [← (behind.copied index).readAt_eq, readAt, readAt, old]
  have first := element 0 (by decide)
  rw [Nat.add_zero] at first
  rw [copyWord, get_bind, bind_of_ok (checked_eq first), get_bind,
    bind_of_ok (checked_eq (element 1 (by decide))), get_bind,
    bind_of_ok (checked_eq (element 2 (by decide))), get_bind,
    bind_of_ok (checked_eq (element 3 (by decide)))]
  rw [bind_of_ok (putByte_eq (by omega)), bind_of_ok (putByte_eq (by simp; omega)),
    bind_of_ok (putByte_eq (by simp; omega)), putByte_eq (by simp; omega)]
  rfl

theorem copyWords_eq (setting : Setting) (turns : ℕ) (behind : Behind r dist src) (apart : 4 ≤ dist)
    (fits : r.outBuf.length + 8 * turns ≤ setting.outEnd) :
    copyWords setting turns src r =
      .ok () { r with outBuf := repeatFrom dist (8 * turns) r.outBuf } := by
  induction turns generalizing r src with
  | zero => rfl
  | succ turns ih =>
      have first := copyWord_eq setting r behind apart (by omega)
      have second := copyWord_eq setting { r with outBuf := repeatFrom dist 4 r.outBuf }
        (behind.copied 4) apart (by simp only [length_repeatFrom]; omega)
      have rest := ih ((behind.copied 4).copied 4) (by simp only [length_repeatFrom]; omega)
      rw [Nat.add_assoc] at rest
      have split : repeatFrom dist (8 * (turns + 1)) r.outBuf =
          repeatFrom dist (8 * turns) (repeatFrom dist 4 (repeatFrom dist 4 r.outBuf)) := by
        rw [← repeatFrom_add, ← repeatFrom_add]
        congr 1
        omega
      rw [copyWords, bind_of_ok first, bind_of_ok second, rest, split]

/-- The turns of three bytes copy as many bytes as asked, if these are at least three. -/
theorem copyThrees_eq (behind : Behind r dist src) (some_turn : 3 ≤ count)
    (fits : r.outBuf.length + count ≤ setting.outEnd) (enough : count ≤ turns) :
    copyThrees setting turns src count r =
      .ok () { r with outBuf := repeatFrom dist count r.outBuf } := by
  induction turns generalizing r src count with
  | zero => omega
  | succ turns ih =>
      have first : copyBytes setting 3 src r =
          .ok () { r with outBuf := repeatFrom dist 3 r.outBuf } := copyBytes_eq behind (by omega)
      have after := behind.copied 3
      have left : (count : ℤ) - 3 = (count - 3 : ℕ) := by omega
      have total : count = 3 + (count - 3) := by omega
      have split : repeatFrom dist count r.outBuf =
          repeatFrom dist (count - 3) (repeatFrom dist 3 r.outBuf) := by
        rw [← repeatFrom_add, ← total]
      rw [copyThrees, bind_of_ok first, left, split]
      by_cases more : 2 < ((count - 3 : ℕ) : ℤ)
      · rw [if_pos more, ih after (by omega) (by simp only [length_repeatFrom]; omega) (by omega)]
      · rw [if_neg more, Int.toNat_natCast,
          copyBytes_eq after (by simp only [length_repeatFrom]; omega)]

/-- Whichever loop copies a match which fits, the same bytes are appended. -/
theorem copyMatch_of_fits (positive : 0 < r.dist) (inside : r.dist ≤ r.outBuf.length)
    (some_turn : 3 ≤ r.counter) (fits : r.outBuf.length + r.counter ≤ setting.outEnd) :
    copyMatch setting r =
      .ok ()
        { r with
          distFromOutBufStart := r.outBuf.length
          outBuf := repeatFrom r.dist r.counter r.outBuf } := by
  have behind : Behind { r with distFromOutBufStart := r.outBuf.length } r.dist
      (r.outBuf.length - r.dist) := ⟨positive, inside, rfl⟩
  have room : max r.outBuf.length (r.outBuf.length - r.dist) = r.outBuf.length :=
    Nat.max_eq_left (Nat.sub_le _ _)
  rw [copyMatch, bind_of_ok modify_eq_ok, get_bind, if_neg (Nat.not_lt.mpr inside)]
  simp only [room]
  rw [if_neg (Nat.not_lt.mpr fits)]
  by_cases wide : setting.unaligned ∧ 9 ≤ r.counter ∧ r.counter ≤ r.dist
  · have total := Nat.div_add_mod r.counter 8
    have words := copyWords_eq setting (r.counter / 8) behind (by omega) (by simp only; omega)
    have after := behind.copied (8 * (r.counter / 8))
    have split : repeatFrom r.dist r.counter r.outBuf =
        repeatFrom r.dist (r.counter % 8) (repeatFrom r.dist (8 * (r.counter / 8)) r.outBuf) := by
      rw [← repeatFrom_add, total]
    rw [if_pos wide, bind_of_ok words, split]
    by_cases few : r.counter % 8 < 3
    · rw [if_pos few, copyBytes_eq after (by simp only [length_repeatFrom]; omega)]
    · rw [if_neg few, copyThrees_eq after (by omega) (by simp only [length_repeatFrom]; omega)
        (by omega)]
  · rw [if_neg wide, copyThrees_eq behind some_turn fits (by omega)]

section Exceeding

theorem putMatchByte_of_room (setting : Setting) (r : Machine) (positive : 0 < r.dist)
    (inside : r.dist ≤ r.outBuf.length) (start : r.distFromOutBufStart = r.outBuf.length)
    (room : r.outBuf.length < setting.outEnd) :
    putMatchByte setting r =
      .ok () { r with
        outBuf := repeatFrom r.dist 1 r.outBuf
        distFromOutBufStart := r.distFromOutBufStart + 1 } := by
  have behind : Behind r r.dist (r.distFromOutBufStart - r.dist) :=
    ⟨positive, inside, by rw [start]⟩
  have enough : needRoom setting 53 r = .ok () r := by
    rw [needRoom, get_bind, if_neg (Nat.not_le.mpr room)]
    rfl
  rw [putMatchByte, bind_of_ok enough, get_bind, bind_of_ok (copyByte_eq behind room)]
  rfl

/-- The buffer is filled, and what is left of the match is kept for the next call. -/
theorem putMatch_of_exceeds (r : Machine) {room : ℕ} (positive : 0 < r.dist)
    (inside : r.dist ≤ r.outBuf.length) (start : r.distFromOutBufStart = r.outBuf.length)
    (room_eq : r.outBuf.length + room = setting.outEnd) (exceeds : room < r.counter) :
    putMatch setting r =
      .error (.status .hasMoreOutput) { r with
        state := 53
        outBuf := repeatFrom r.dist room r.outBuf
        counter := r.counter - room - 1
        distFromOutBufStart := r.distFromOutBufStart + room } := by
  have run : ∀ (turns room : ℕ) (r : Machine), 0 < r.dist → r.dist ≤ r.outBuf.length →
      r.distFromOutBufStart = r.outBuf.length → r.outBuf.length + room = setting.outEnd →
      room < r.counter → room < turns →
        loop (.fault .divergence) (do
            if (← get).counter = 0 then
              pure (some ())
            else
              modify fun r => { r with counter := r.counter - 1 }
              putMatchByte setting
              pure none) turns r =
          .error (.status .hasMoreOutput) { r with
            state := 53
            outBuf := repeatFrom r.dist room r.outBuf
            counter := r.counter - room - 1
            distFromOutBufStart := r.distFromOutBufStart + room } := by
    intro turns
    induction turns with
    | zero =>
        intro room r _ _ _ _ _ enough
        cases enough
    | succ turns ih =>
        intro room r positive inside start room_eq exceeds enough
        have some_left : ¬r.counter = 0 := by omega
        cases room with
        | zero =>
            have full : setting.outEnd ≤ r.outBuf.length := Nat.le_of_eq room_eq.symm
            have left : putMatchByte setting { r with counter := r.counter - 1 } =
                .error (.status .hasMoreOutput)
                  { r with state := 53, counter := r.counter - 1 } := by
              rw [putMatchByte]
              apply bind_of_error
              rw [needRoom, get_bind, if_pos full]
              rfl
            rw [loop]
            apply bind_of_error
            rw [get_bind, if_neg some_left, bind_of_ok modify_eq_ok, bind_of_error left]
            rfl
        | succ room =>
            have length_eq : (repeatFrom r.dist 1 r.outBuf).length = r.outBuf.length + 1 :=
              length_repeatFrom
            have put := putMatchByte_of_room setting { r with counter := r.counter - 1 } positive
              inside start (by simp only; omega)
            have rest := ih room { r with
              counter := r.counter - 1
              outBuf := repeatFrom r.dist 1 r.outBuf
              distFromOutBufStart := r.distFromOutBufStart + 1 } positive
              (by simp only [length_eq]; omega) (by simp only [length_eq, start])
              (by simp only [length_eq]; omega) (by simp only; omega) (by omega)
            rw [loop_of_none (by
              rw [get_bind, if_neg some_left, bind_of_ok modify_eq_ok, bind_of_ok put]
              rfl), rest]
            simp only [← repeatFrom_add, Nat.add_comm 1 room]
            have counter_eq : r.counter - 1 - room - 1 = r.counter - (room + 1) - 1 := by omega
            have source_eq : r.distFromOutBufStart + 1 + room =
                r.distFromOutBufStart + (room + 1) := by omega
            rw [counter_eq, source_eq]
  rw [putMatch, get_bind]
  exact run (r.counter + 1) room r positive inside start room_eq exceeds (by omega)

/-- A match is refused, copied as a whole, or up to the end of the buffer. -/
theorem copyMatch_eq (r : Machine) (positive : 0 < r.dist) (some_turn : 3 ≤ r.counter)
    (within : r.outBuf.length ≤ setting.outEnd) :
    copyMatch setting r =
      if r.outBuf.length < r.dist then
        .error (.status .failed)
          { r with state := 37, distFromOutBufStart := r.outBuf.length }
      else if r.outBuf.length + r.counter ≤ setting.outEnd then
        .ok () { r with
          distFromOutBufStart := r.outBuf.length
          outBuf := repeatFrom r.dist r.counter r.outBuf }
      else
        .error (.status .hasMoreOutput) { r with
          state := 53
          outBuf := repeatFrom r.dist (setting.outEnd - r.outBuf.length) r.outBuf
          counter := r.counter - (setting.outEnd - r.outBuf.length) - 1
          distFromOutBufStart := setting.outEnd } := by
  by_cases before : r.outBuf.length < r.dist
  · rw [if_pos before, copyMatch, bind_of_ok modify_eq_ok, get_bind, if_pos before]
    rfl
  · have inside := Nat.le_of_not_lt before
    rw [if_neg before]
    by_cases fits : r.outBuf.length + r.counter ≤ setting.outEnd
    · rw [if_pos fits, copyMatch_of_fits positive inside some_turn fits]
    · have room : max r.outBuf.length (r.outBuf.length - r.dist) = r.outBuf.length :=
        Nat.max_eq_left (Nat.sub_le _ _)
      have filled := putMatch_of_exceeds { r with distFromOutBufStart := r.outBuf.length } positive
        inside rfl (Nat.add_sub_of_le within) (by simp only; omega)
      simp only [Nat.add_sub_of_le within] at filled
      rw [if_neg fits, copyMatch, bind_of_ok modify_eq_ok, get_bind, if_neg before]
      simp only [room]
      rw [if_pos (Nat.not_le.mp fits), filled]

theorem copyMatch_eq_exceeding :
    let r : Machine :=
      { state := 26, dist := 2, counter := 4, distFromOutBufStart := 0, final := 1
        tables := fun _ => ⟨[], [], []⟩, lenCodes := [], zAdler32 := 1, checkAdler32 := 1
        input := ⟨0, 0, []⟩, outBuf := [104, 105, 106] }
    copyMatch ⟨.x64, true, false, 5⟩ r =
      .error (.status .hasMoreOutput) { r with
        state := 53
        outBuf := [104, 105, 106, 105, 106]
        counter := 1
        distFromOutBufStart := 5 } := by
  intro r
  exact copyMatch_eq r (by decide) (by decide) (by decide)

end Exceeding

end Lucciefr.Tinfl
