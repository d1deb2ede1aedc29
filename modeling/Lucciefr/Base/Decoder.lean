import Mathlib.Data.List.Basic

/-!
# Incremental decoders

A decoder is called again and again, with as much room for output as the caller
happens to have, until it reports that it is done. It sees the input which is
left and the output which it has written so far.

A correct decoder is described by what its next calls answer, whatever room each
of them is given: on a stream it delivers the content, piece by piece, and on an
input which does not begin with a stream it never reports the end.
-/

namespace Lucciefr

universe u v w

/-- The answer to a call. -/
structure DecoderCall (State : Type u) (Byte : Type v) (Status : Type w) where
  state : State
  consumed : ℕ
  output : List Byte
  status : Status

structure Decoder (State : Type u) (Byte : Type v) (Status : Type w) where
  init : State
  call : State → (input written : List Byte) → (room : ℕ) → DecoderCall State Byte Status
  /-- Everything was written. -/
  done : Status
  /-- There was not enough room. -/
  more : Status

namespace Decoder

variable {State : Type u} {Byte : Type v} {Status : Type w} (decoder : Decoder State Byte Status)

/-- The next calls deliver the pending output. -/
def Delivers : (calls : ℕ) → State → (input written pending : List Byte) → Prop
  | 0, _, _, _, _ => True
  | calls + 1, state, input, written, pending => ∀ room,
      (decoder.call state input written room).output = pending.take room ∧
      if pending.length ≤ room then
        (decoder.call state input written room).status = decoder.done
      else
        (decoder.call state input written room).status = decoder.more ∧
        Delivers calls (decoder.call state input written room).state
          (input.drop (decoder.call state input written room).consumed)
          (written ++ pending.take room) (pending.drop room)

/-- The next calls do not come to an end. -/
def Rejects : (calls : ℕ) → State → (input written : List Byte) → Prop
  | 0, _, _, _ => True
  | calls + 1, state, input, written => ∀ room,
      (decoder.call state input written room).status ≠ decoder.done ∧
      ((decoder.call state input written room).status = decoder.more →
        (decoder.call state input written room).output.length ≤ room ∧
        Rejects calls (decoder.call state input written room).state
          (input.drop (decoder.call state input written room).consumed)
          (written ++ (decoder.call state input written room).output))

/-- The input begins with a stream of the content. -/
def BeginsWith (streams : List Byte → List Byte → Prop) (input content : List Byte) : Prop :=
  ∃ stream rest, streams stream content ∧ input = stream ++ rest

/-- The decoder decodes these streams, and nothing else. -/
structure Correct (streams : List Byte → List Byte → Prop) : Prop where
  delivers : ∀ input content, BeginsWith streams input content →
    ∀ calls, decoder.Delivers calls decoder.init input [] content
  rejects : ∀ input, (∀ content, ¬BeginsWith streams input content) →
    ∀ calls, decoder.Rejects calls decoder.init input []

variable {decoder} {streams : List Byte → List Byte → Prop} {state : State}
  {input written pending other content : List Byte} {calls room : ℕ}

namespace Delivers

theorem output_eq (room : ℕ) (delivers : decoder.Delivers (calls + 1) state input written pending) :
    (decoder.call state input written room).output = pending.take room :=
  (delivers room).1

theorem status_of_fits (delivers : decoder.Delivers (calls + 1) state input written pending)
    (fits : pending.length ≤ room) :
    (decoder.call state input written room).status = decoder.done := by
  have answer := (delivers room).2
  rwa [if_pos fits] at answer

theorem status_of_exceeds (delivers : decoder.Delivers (calls + 1) state input written pending)
    (exceeds : room < pending.length) :
    (decoder.call state input written room).status = decoder.more := by
  have answer := (delivers room).2
  rw [if_neg (Nat.not_le.mpr exceeds)] at answer
  exact answer.1

theorem next (delivers : decoder.Delivers (calls + 1) state input written pending)
    (exceeds : room < pending.length) :
    decoder.Delivers calls (decoder.call state input written room).state
      (input.drop (decoder.call state input written room).consumed)
      (written ++ pending.take room) (pending.drop room) := by
  have answer := (delivers room).2
  rw [if_neg (Nat.not_le.mpr exceeds)] at answer
  exact answer.2

/-- What is delivered does not depend on the room which each call is given. -/
theorem unique (delivers : decoder.Delivers (calls + 1) state input written pending)
    (otherwise : decoder.Delivers (calls + 1) state input written other) : pending = other := by
  have first := output_eq (max pending.length other.length) delivers
  have second := output_eq (max pending.length other.length) otherwise
  rw [first, List.take_of_length_le (Nat.le_max_left _ _),
    List.take_of_length_le (Nat.le_max_right _ _)] at second
  exact second

end Delivers

/-- An input begins with streams of at most one content. -/
theorem Correct.content_unique (correct : decoder.Correct streams)
    (begins : BeginsWith streams input content) (otherwise : BeginsWith streams input other) :
    content = other :=
  (correct.delivers _ _ begins 1).unique (correct.delivers _ _ otherwise 1)

end Decoder

end Lucciefr
