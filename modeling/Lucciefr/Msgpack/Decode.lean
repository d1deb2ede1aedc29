import Lucciefr.Msgpack.Token

/-!
# Unpacking by recursion

What the stack machine of the unpacker computes, as a recursive reader of objects:
a container is its header followed by its contents, and each open container takes
one of the slots of the stack. The stack is full when no slot is left, so that then
no container can be read, not even an empty one.
-/

namespace Lucciefr.Msgpack

/-- An object in at most `slots` nested containers. -/
def readObject : (slots : ℕ) → Reader UInt8 Object
  | 0, data =>
      (readToken data).bind fun (token, rest) =>
        match token with
        | .value object => some (object, rest)
        | _ => none
  | slots + 1, data =>
      (readToken data).bind fun (token, rest) =>
        match token with
        | .value object => some (object, rest)
        | .array n => (readMany (readObject slots) n rest).map fun (items, rest) =>
            (.array items, rest)
        | .map n => (readMany (readBoth (readObject slots) (readObject slots)) n rest).map
            fun (pairs, rest) => (.map pairs, rest)

variable {slots n : ℕ} {data rest : List UInt8} {object : Object} {token : Token}

theorem readObject_of_value (read : readToken data = some (.value object, rest)) :
    readObject slots data = some (object, rest) := by
  cases slots <;> simp [readObject, read]

theorem readObject_of_array (read : readToken data = some (.array n, rest)) :
    readObject (slots + 1) data =
      (readMany (readObject slots) n rest).map fun (items, rest) => (.array items, rest) := by
  simp [readObject, read]

theorem readObject_of_map (read : readToken data = some (.map n, rest)) :
    readObject (slots + 1) data =
      (readMany (readBoth (readObject slots) (readObject slots)) n rest).map
        fun (pairs, rest) => (.map pairs, rest) := by
  simp [readObject, read]

theorem readObject_of_none (failed : readToken data = none) : readObject slots data = none := by
  cases slots <;> simp [readObject, failed]

/-- How an object was read. -/
theorem readObject_cases (succeeded : readObject slots data = some (object, rest)) :
    readToken data = some (.value object, rest) ∨
    (∃ fewer items middle, slots = fewer + 1 ∧ object = .array items ∧
      readToken data = some (.array items.length, middle) ∧
      readMany (readObject fewer) items.length middle = some (items, rest)) ∨
    (∃ fewer pairs middle, slots = fewer + 1 ∧ object = .map pairs ∧
      readToken data = some (.map pairs.length, middle) ∧
      readMany (readBoth (readObject fewer) (readObject fewer)) pairs.length middle =
        some (pairs, rest)) := by
  cases read : readToken data with
  | none =>
      rw [readObject_of_none read] at succeeded
      contradiction
  | some result =>
      rcases result with ⟨token, middle⟩
      cases token with
      | value value =>
          rw [readObject_of_value read] at succeeded
          simp only [Option.some.injEq, Prod.mk.injEq] at succeeded
          rcases succeeded with ⟨rfl, rfl⟩
          exact Or.inl rfl
      | array n =>
          cases slots with
          | zero => simp [readObject, read] at succeeded
          | succ fewer =>
              rw [readObject_of_array read] at succeeded
              simp only [Option.map_eq_some_iff, Prod.mk.injEq, Prod.exists] at succeeded
              rcases succeeded with ⟨items, last, contents, rfl, rfl⟩
              have length_eq := length_of_readMany contents
              subst length_eq
              exact Or.inr (Or.inl ⟨fewer, items, middle, rfl, rfl, rfl, contents⟩)
      | map n =>
          cases slots with
          | zero => simp [readObject, read] at succeeded
          | succ fewer =>
              rw [readObject_of_map read] at succeeded
              simp only [Option.map_eq_some_iff, Prod.mk.injEq, Prod.exists] at succeeded
              rcases succeeded with ⟨pairs, last, contents, rfl, rfl⟩
              have length_eq := length_of_readMany contents
              subst length_eq
              exact Or.inr (Or.inr ⟨fewer, pairs, middle, rfl, rfl, rfl, contents⟩)

theorem length_readToken_lt (read : readToken data = some (token, rest)) :
    rest.length < data.length := by
  rcases readToken_sound read with ⟨consumed, rfl, nonempty, -⟩
  have positive := List.length_pos_iff.mpr nonempty
  simp only [List.length_append]
  omega

section Machine

variable {turns : ℕ} {stack : List Frame}

/-- The stack machine, with as many turns as it needs. -/
def execute (stack : List Frame) (data : List UInt8) : Option Object :=
  templateExecute data.length stack data

/-- How the stack machine goes on after `_push`. -/
def resume (pushed : Pushed) (rest : List UInt8) : Option Object :=
  match pushed with
  | .finish object => some object
  | .headerAgain stack => execute stack rest

theorem templateExecute_succ : templateExecute (turns + 1) stack data =
    (readToken data).bind fun (token, rest) =>
      (pushToken stack token).bind fun pushed =>
        match pushed with
        | .finish object => some object
        | .headerAgain stack => templateExecute turns stack rest := rfl

theorem templateExecute_eq_execute (enough : data.length ≤ turns) :
    templateExecute turns stack data = execute stack data := by
  induction turns using Nat.strongRecOn generalizing stack data with
  | ind turns ih =>
      cases turns with
      | zero =>
          have empty : data = [] := List.length_eq_zero_iff.mp (Nat.le_zero.mp enough)
          rw [empty]
          rfl
      | succ turns =>
          cases data with
          | nil => rfl
          | cons head tail =>
              simp only [List.length_cons, Nat.add_le_add_iff_right] at enough
              rw [execute, List.length_cons, templateExecute_succ, templateExecute_succ]
              cases read : readToken (head :: tail) with
              | none => rfl
              | some result =>
                  rcases result with ⟨token, rest⟩
                  have shorter := length_readToken_lt read
                  rw [List.length_cons] at shorter
                  simp only [Option.bind_some]
                  cases pushToken stack token with
                  | none => rfl
                  | some pushed =>
                      cases pushed with
                      | finish object => rfl
                      | headerAgain stack =>
                          simp only [Option.bind_some]
                          rw [ih turns (Nat.lt_succ_self _) (by omega),
                            ih tail.length (by omega) (by omega)]

theorem execute_eq : execute stack data =
    (readToken data).bind fun (token, rest) =>
      (pushToken stack token).bind fun pushed => resume pushed rest := by
  cases data with
  | nil => rfl
  | cons head tail =>
      rw [execute, List.length_cons, templateExecute_succ]
      cases read : readToken (head :: tail) with
      | none => rfl
      | some result =>
          rcases result with ⟨token, rest⟩
          have shorter := length_readToken_lt read
          rw [List.length_cons] at shorter
          simp only [Option.bind_some]
          cases pushToken stack token with
          | none => rfl
          | some pushed =>
              cases pushed with
              | finish object => rfl
              | headerAgain stack =>
                  simp only [Option.bind_some, resume]
                  exact templateExecute_eq_execute (by omega)

/-- The machine reads one object, which is pushed to the stack, and goes on. -/
def ReadsObject (slots : ℕ) (stack : List Frame) : Prop :=
  ∀ data, execute stack data =
    (readObject slots data).bind fun (object, rest) => resume (push object stack) rest

/-- With an array on top of the stack, the machine reads the missing items. -/
theorem execute_arrayItem (inner : ∀ frame, ReadsObject slots (frame :: stack))
    (items : List Object) :
    execute (.arrayItem (n + 1) items :: stack) data =
      (readMany (readObject slots) (n + 1) data).bind fun (more, rest) =>
        resume (push (.array (items ++ more)) stack) rest := by
  induction n generalizing items data with
  | zero =>
      rw [inner, readMany]
      cases readObject slots data with
      | none => rfl
      | some result => rfl
  | succ n ih =>
      rw [inner, readMany]
      cases readObject slots data with
      | none => rfl
      | some result =>
          rcases result with ⟨object, middle⟩
          simp only [Option.bind_some, push, Nat.add_sub_cancel, Nat.succ_ne_zero, if_false, resume]
          rw [ih]
          cases readMany (readObject slots) (n + 1) middle with
          | none => rfl
          | some result => simp [resume]

/-- With a map on top of the stack, the machine reads the missing pairs. -/
theorem execute_mapKey (inner : ∀ frame, ReadsObject slots (frame :: stack))
    (pairs : List (Object × Object)) :
    execute (.mapKey (n + 1) pairs :: stack) data =
      (readMany (readBoth (readObject slots) (readObject slots)) (n + 1) data).bind
        fun (more, rest) => resume (push (.map (pairs ++ more)) stack) rest := by
  induction n generalizing pairs data with
  | zero =>
      rw [inner, readMany, readBoth]
      cases readObject slots data with
      | none => rfl
      | some result =>
          rcases result with ⟨key, middle⟩
          simp only [Option.bind_some, push, resume]
          rw [inner]
          cases readObject slots middle with
          | none => rfl
          | some result => rfl
  | succ n ih =>
      rw [inner, readMany, readBoth]
      cases readObject slots data with
      | none => rfl
      | some result =>
          rcases result with ⟨key, middle⟩
          simp only [Option.bind_some, push, resume]
          rw [inner]
          cases readObject slots middle with
          | none => rfl
          | some result =>
              rcases result with ⟨val, last⟩
              simp only [Option.bind_some, Option.map_some, push, Nat.add_sub_cancel,
                Nat.succ_ne_zero, if_false, resume]
              rw [ih]
              cases readMany (readBoth (readObject slots) (readObject slots)) (n + 1) last with
              | none => rfl
              | some result => simp [resume]

/-- The machine reads objects as far as the stack has room for their containers. -/
theorem execute_readObject (stack : List Frame) (room : stack.length + slots = embedStackSize) :
    ReadsObject slots stack := by
  induction slots generalizing stack with
  | zero =>
      intro data
      have full : stack.length ≥ embedStackSize := Nat.le_of_eq room.symm
      rw [execute_eq, readObject]
      cases readToken data with
      | none => rfl
      | some result =>
          rcases result with ⟨token, rest⟩
          cases token with
          | value object => rfl
          | array n => simp [pushToken, full]
          | map n => simp [pushToken, full]
  | succ slots ih =>
      intro data
      have free : ¬stack.length ≥ embedStackSize := by omega
      have inner : ∀ frame, ReadsObject slots (frame :: stack) := by
        intro frame
        apply ih
        rw [List.length_cons]
        omega
      rw [execute_eq, readObject]
      cases readToken data with
      | none => rfl
      | some result =>
          rcases result with ⟨token, rest⟩
          cases token with
          | value object => rfl
          | array n =>
              simp only [Option.bind_some, pushToken, if_neg free]
              cases n with
              | zero => rfl
              | succ n =>
                  simp only [Nat.succ_ne_zero, if_false, Option.bind_some, resume]
                  rw [execute_arrayItem inner]
                  cases readMany (readObject slots) (n + 1) rest with
                  | none => rfl
                  | some result => rfl
          | map n =>
              simp only [Option.bind_some, pushToken, if_neg free]
              cases n with
              | zero => rfl
              | succ n =>
                  simp only [Nat.succ_ne_zero, if_false, Option.bind_some, resume]
                  rw [execute_mapKey inner]
                  cases readMany (readBoth (readObject slots) (readObject slots)) (n + 1) rest with
                  | none => rfl
                  | some result => rfl

end Machine

/-- The unpacker reads one object, in at most as many containers as the stack has room for. -/
theorem msgpackUnpack_eq (data : List UInt8) :
    msgpackUnpack data = (readObject embedStackSize data).map Prod.fst := by
  have machine := execute_readObject [] (Nat.zero_add _) data
  rw [msgpackUnpack]
  rw [execute] at machine
  rw [machine]
  cases readObject embedStackSize data with
  | none => rfl
  | some result => rfl

end Lucciefr.Msgpack
