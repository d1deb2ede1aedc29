import Mathlib.Data.List.Basic
import Lucciefr.Base.Fault
import Lucciefr.Platform

/-!
# The ring buffer

The model of `core/ringbuffer.c`. An element pointer (`void*`) is an `Option`,
with `none` for `NULL`; the elements themselves are arbitrary. The `entries`
pointer is `NULL` or an array, and every access to it is checked: reading or
writing through `NULL` or at an index which the array does not have is a fault.

The free function is only known by whether it is set. Its calls are recorded in
order, with their arguments, in `freed`; this trace is the only field which the
C structure does not have.
-/

namespace Lucciefr

universe u

/-- `ringbuffer_t` -/
structure RingBuffer (Element : Type u) where
  /-- Dynamic memory for an array of element pointers. -/
  entries : Option (List (Option Element))
  /-- The current start of the list (oldest entry, "tail" pointer). -/
  position : ℕ
  /-- The number of elements in the buffer. -/
  count : ℕ
  /-- The maximum number of elements. -/
  capacity : ℕ
  /-- Whether a free function is set. -/
  free : Bool
  /-- The arguments of the calls of the free function so far. -/
  freed : List (Option Element)

/-- `calloc(count, sizeof(void*))`, which fails if the system does not grant the
memory or if the size of the array is not a `size_t`. -/
def callocPointers (Element : Type u) (build : Build) (granted : Bool) (count : ℕ) :
    Option (List (Option Element)) :=
  if granted ∧ count * build.sizeofPointer < 2 ^ build.bits then
    some (List.replicate count none)
  else
    none

namespace RingBuffer

variable {Element : Type u}

/-- `ringbuffer_init` -/
def init (build : Build) (granted : Bool) (capacity : ℕ) (free : Bool) : RingBuffer Element :=
  let rb : RingBuffer Element :=
    { entries := none, position := 0, count := 0, capacity := 0, free := free, freed := [] }
  if capacity > 0 then
    match callocPointers Element build granted capacity with
    | some entries => { rb with entries := some entries, capacity := capacity }
    | none => rb
  else
    rb

/-- The element pointer `rb->entries[index]`. -/
def load (rb : RingBuffer Element) (index : ℕ) : Except Fault (Option Element) :=
  match rb.entries with
  | none => .error .nullPointer
  | some entries =>
      match entries[index]? with
      | none => .error .outOfBounds
      | some element => .ok element

/-- `rb->entries[index] = element` -/
def store (rb : RingBuffer Element) (index : ℕ) (element : Option Element) :
    Except Fault (RingBuffer Element) :=
  match rb.entries with
  | none => .error .nullPointer
  | some entries =>
      if index < entries.length then
        .ok { rb with entries := some (entries.set index element) }
      else
        .error .outOfBounds

/-- `ringbuffer_inc_tail` -/
def incTail (build : Build) (rb : RingBuffer Element) : RingBuffer Element :=
  let position := build.add rb.position 1
  { rb with position := if position ≥ rb.capacity then 0 else position }

/-- `if (index >= rb->capacity) index -= rb->capacity`, the wrap of an index. -/
def wrap (build : Build) (rb : RingBuffer Element) (index : ℕ) : ℕ :=
  if index ≥ rb.capacity then build.sub index rb.capacity else index

/-- `ringbuffer_free` -/
def freeEntry (build : Build) (rb : RingBuffer Element) (index : ℕ) :
    Except Fault (RingBuffer Element) := do
  let index := rb.wrap build index
  if rb.free then
    let element ← rb.load index
    { rb with freed := rb.freed ++ [element] }.store index none
  else
    rb.store index none

/-- `ringbuffer_set` -/
def set (build : Build) (rb : RingBuffer Element) (index : ℕ) (element : Option Element) :
    Except Fault (RingBuffer Element) := do
  let index := rb.wrap build index
  let rb ← rb.freeEntry build index
  rb.store index element

/-- `ringbuffer_push` -/
def push (build : Build) (rb : RingBuffer Element) (element : Option Element) :
    Except Fault (RingBuffer Element) :=
  match element with
  | none => .ok rb
  | some element =>
      if rb.count < rb.capacity then do
        let rb ← rb.set build (build.add rb.position rb.count) (some element)
        .ok { rb with count := build.add rb.count 1 }
      else do
        let rb ← rb.set build rb.position (some element)
        .ok (rb.incTail build)

/-- `ringbuffer_push_copy`; `malloc` is the block allocated for the copied bytes. -/
def pushCopy (build : Build) (rb : RingBuffer Element) (buffer : Option (List UInt8)) (size : ℕ)
    (malloc : List UInt8 → Option Element) : Except Fault (RingBuffer Element) :=
  match buffer with
  | none => .ok rb
  | some bytes =>
      if size = 0 then
        .ok rb
      else
        match malloc (bytes.take size) with
        | none => .ok rb
        | some copy =>
            if size ≤ bytes.length then rb.push build (some copy) else .error .outOfBounds

/-- `ringbuffer_pop` -/
def pop (build : Build) (rb : RingBuffer Element) : Except Fault (RingBuffer Element) :=
  if rb.count > 0 then do
    let rb := { rb with count := build.sub rb.count 1 }
    let rb ← rb.freeEntry build rb.position
    .ok (rb.incTail build)
  else
    .ok rb

/-- The loop `while (rb->count > limit) ringbuffer_pop(rb)`. Each turn decrements
the count, so the initial count bounds the number of turns. -/
def popWhileAbove (build : Build) (limit : ℕ) : ℕ → RingBuffer Element →
    Except Fault (RingBuffer Element)
  | 0, rb => if rb.count > limit then .error .divergence else .ok rb
  | turns + 1, rb =>
      if rb.count > limit then
        rb.pop build >>= popWhileAbove build limit turns
      else
        .ok rb

/-- `ringbuffer_clear` -/
def clear (build : Build) (rb : RingBuffer Element) : Except Fault (RingBuffer Element) :=
  popWhileAbove build 0 rb.count rb

/-- `ringbuffer_done` -/
def done (build : Build) (rb : RingBuffer Element) : Except Fault (RingBuffer Element) := do
  let rb ← rb.clear build
  .ok { rb with capacity := 0, entries := none }

/-- `ringbuffer_element` -/
def element (build : Build) (rb : RingBuffer Element) (index : ℕ) :
    Except Fault (Option Element) :=
  if index < rb.count then
    rb.load (rb.wrap build (build.add index rb.position))
  else
    .ok none

/-- `ringbuffer_tail` -/
def tail (build : Build) (rb : RingBuffer Element) : Except Fault (Option Element) :=
  rb.element build 0

/-- `ringbuffer_head` -/
def head (build : Build) (rb : RingBuffer Element) : Except Fault (Option Element) :=
  rb.element build (build.sub rb.count 1)

/-- The loop of `ringbuffer_resize` which copies the elements from index `i` on. -/
def copyEntries (build : Build) (rb : RingBuffer Element) : (remaining i : ℕ) →
    List (Option Element) → Except Fault (List (Option Element))
  | 0, _, newEntries => .ok newEntries
  | remaining + 1, i, newEntries => do
      let element ← rb.element build i
      if i < newEntries.length then
        copyEntries build rb remaining (i + 1) (newEntries.set i element)
      else
        .error .outOfBounds

/-- `ringbuffer_resize`; the capacity field is not assigned. -/
def resize (build : Build) (rb : RingBuffer Element) (newCapacity : ℕ) (granted : Bool) :
    Except Fault (RingBuffer Element) :=
  if newCapacity > 0 then
    match callocPointers Element build granted newCapacity with
    | none => .ok rb
    | some newEntries => do
        let rb ← popWhileAbove build newCapacity rb.count rb
        let newEntries ← rb.copyEntries build rb.count 0 newEntries
        .ok { rb with entries := some newEntries, position := 0 }
  else
    .ok rb

/-- The operations which a run executes on a ring buffer. -/
inductive Op (Element : Type u) where
  | push (element : Option Element)
  | pushCopy (buffer : Option (List UInt8)) (size : ℕ) (malloc : List UInt8 → Option Element)
  | pop
  | clear

/-- Execute one operation. -/
def execute (build : Build) (rb : RingBuffer Element) : Op Element →
    Except Fault (RingBuffer Element)
  | .push element => rb.push build element
  | .pushCopy buffer size malloc => rb.pushCopy build buffer size malloc
  | .pop => rb.pop build
  | .clear => rb.clear build

end RingBuffer

end Lucciefr
