/-!
# Undefined behaviour

The ways in which a C program leaves the defined part of the language that the
models of this development detect. A modelled function returns a fault where
the C function would execute an access with undefined behaviour, so that
"never faults" is a statement about the code and not about its result.
-/

namespace Lucciefr

/-- An operation with undefined behaviour, or a loop which does not end. -/
inductive Fault where
  /-- A `NULL` pointer is dereferenced. -/
  | nullPointer
  /-- An element outside an array or a string is read or written. -/
  | outOfBounds
  /-- A block is read, written or freed after it was freed. -/
  | useAfterFree
  /-- A loop over a finite structure does not end. -/
  | divergence
  /-- The result of an `int` operation is not an `int`. -/
  | signedOverflow
  /-- A value is shifted by its width or more. -/
  | invalidShift
  /-- An integer is divided by zero. -/
  | divisionByZero
deriving DecidableEq, Repr

universe u v w

variable {ε : Type u} {α : Type v} {β : Type v}

@[simp]
theorem ok_bind (value : α) (next : α → Except ε β) :
    ((Except.ok value : Except ε α) >>= next) = next value := rfl

@[simp]
theorem error_bind (failure : ε) (next : α → Except ε β) :
    ((Except.error failure : Except ε α) >>= next) = .error failure := rfl

end Lucciefr
