import Mathlib.Data.List.Perm.Subperm
import Lucciefr.Lua.Traversal
import Lucciefr.Luautils.Basic

/-!
# Sequences

`luautils_table_issequential` of `core/luautils.c`. The loop visits the entries of a
table only to count them: in each turn it looks at the next position. When there is a
value at as many positions as there are entries, no other entry is left.
-/

namespace Lucciefr.Lua

/-- The local variables of `luautils_table_issequential`. -/
structure SequenceTest where
  result : Bool
  /-- An `int`, which counts further than a table can have entries. -/
  seq : ℤ

/-- The body of the loop of `luautils_table_issequential`. -/
def issequentialTurn (idx : ℤ) (held : SequenceTest) : LuaM SequenceTest := do
  luaRawgeti idx (held.seq + 1)
  let isnil ← luaIsnil (-1)
  luaPop 2
  pure ⟨!isnil, held.seq + 1⟩

/-- `luautils_table_issequential` -/
def luautilsTableIssequential (runtime : Runtime) (turns : ℕ) (idx : ℤ) : LuaM Bool := do
  let idx ← luaChkabsidx runtime "luautils_table_issequential" idx
  luaLChecktype runtime idx .table
  luaPushnil
  let final ← whileNext runtime idx SequenceTest.result (issequentialTurn idx) turns ⟨true, 0⟩
  if !final.result then
    luaPop 1
    pure false
  else
    pure (decide (final.seq > 0))

/-- The keys are the positions from 1 to n. -/
def Table.IsSequence (t : Table) (n : ℕ) : Prop :=
  ∀ key, key ∈ t.map.keys ↔ ∃ i : ℕ, 1 ≤ i ∧ i ≤ n ∧ key = .integer i

/-- The positions from 1 to n, as keys. -/
def sequenceKeys (n : ℕ) : List Value :=
  (List.range n).map fun i : ℕ => .integer (i + 1)

section Lemmas

variable {runtime : Runtime} {state : State} {idx : ℤ} {address n : ℕ} {t : Table} {key : Value}

theorem mem_sequenceKeys : key ∈ sequenceKeys n ↔ ∃ i : ℕ, 1 ≤ i ∧ i ≤ n ∧ key = .integer i := by
  rw [sequenceKeys, List.mem_map]
  constructor
  · rintro ⟨i, iMem, rfl⟩
    rw [List.mem_range] at iMem
    exact ⟨i + 1, by omega, by omega, by push_cast; rfl⟩
  · rintro ⟨i, positive, le, rfl⟩
    refine ⟨i - 1, by rw [List.mem_range]; omega, ?_⟩
    rw [Value.integer_inj]
    omega

theorem nodup_sequenceKeys : (sequenceKeys n).Nodup := by
  apply List.Nodup.map _ List.nodup_range
  intro i j same
  rw [Value.integer_inj] at same
  omega

@[simp]
theorem length_sequenceKeys : (sequenceKeys n).length = n := by
  simp [sequenceKeys]

theorem Table.length_keys : t.map.keys.length = t.map.entries.length := by
  simp [OrderedMap.keys]

theorem Table.isSequence_iff : t.IsSequence n ↔ t.map.keys.Perm (sequenceKeys n) := by
  have nodup : t.map.keys.Nodup := t.map.nodup
  rw [List.perm_ext_iff_of_nodup nodup nodup_sequenceKeys]
  simp only [Table.IsSequence, mem_sequenceKeys]

theorem Table.IsSequence.length_eq (sequence : t.IsSequence n) : t.map.entries.length = n := by
  have sizes := (isSequence_iff.mp sequence).length_eq
  rwa [length_sequenceKeys, length_keys] at sizes

theorem Table.IsSequence.set {value : Value} (sequence : t.IsSequence n)
    (present : value ≠ .nil) :
    (t.set (.integer (n + 1)) value (Value.integer_isKey _)).IsSequence (n + 1) := by
  intro key
  rw [mem_keys_set present, sequence key]
  constructor
  · rintro (rfl | ⟨i, first, last, rfl⟩)
    · exact ⟨n + 1, by omega, le_refl _, by push_cast; rfl⟩
    · exact ⟨i, first, by omega, rfl⟩
  · rintro ⟨i, first, last, rfl⟩
    by_cases latest : i = n + 1
    · left
      rw [latest]
      push_cast
      rfl
    · exact Or.inr ⟨i, first, by omega, rfl⟩

/-- If there is a value at as many positions as there are entries, these are all. -/
theorem Table.isSequence_of_subset
    (subset : ∀ i : ℕ, 1 ≤ i → i ≤ t.map.entries.length → t.get (.integer i) ≠ .nil) :
    t.IsSequence t.map.entries.length := by
  have included : sequenceKeys t.map.entries.length ⊆ t.map.keys := by
    intro key keyMem
    rcases mem_sequenceKeys.mp keyMem with ⟨i, positive, le, rfl⟩
    exact get_ne_nil_iff.mp (subset i positive le)
  rw [isSequence_iff]
  apply List.Perm.symm
  apply (List.subperm_of_subset nodup_sequenceKeys included).perm_of_length_le
  rw [length_sequenceKeys, length_keys]

theorem luaRawgeti_of_holds {i : ℤ} (holds : state.Holds idx (.table address))
    (live : state.tables.cells address = some t) :
    luaRawgeti idx i state = .ok () (state.push (t.get (.integer i))) := by
  rw [luaRawgeti, bind_of_ok (tableAt_of_holds holds live)]
  rfl

theorem luaIsnil_first {value : Value} :
    luaIsnil (-1) (state.push value) = .ok (decide (value = .nil)) (state.push value) := by
  rw [luaIsnil, bind_of_ok (luaType_of_holds State.holds_first), pure_eq_ok]
  simp only [Value.type_eq_nil]

/-- What is known when these entries were visited. -/
structure Probed (state : State) (t : Table) (visited : List (Value × Value))
    (held : SequenceTest) (base : State) : Prop where
  base_eq : base = state
  seq_eq : held.seq = visited.length
  found : held.result = true → ∀ i : ℕ, 1 ≤ i → i ≤ visited.length → t.get (.integer i) ≠ .nil
  missing : held.result = false → 1 ≤ visited.length ∧ t.get (.integer visited.length) = .nil

theorem issequentialTurn_keeps (positive : 0 < idx) (holds : state.Holds idx (.table address))
    (live : state.tables.cells address = some t) :
    TurnKeeps SequenceTest.result (issequentialTurn idx) t (Probed state t) := by
  rintro visited key value ahead held base split going ⟨rfl, seq_eq, found, -⟩
  have atIdx : ((base.push key).push value).Holds idx (.table address) :=
    holds.push_two positive
  refine ⟨⟨!decide (t.get (.integer (held.seq + 1)) = .nil), held.seq + 1⟩, base, ?_, ?_⟩
  · rw [issequentialTurn, bind_of_ok (luaRawgeti_of_holds atIdx live), bind_of_ok luaIsnil_first,
      bind_of_ok luaPop_second]
    rfl
  · have length_eq : (visited ++ [(key, value)]).length = visited.length + 1 := by simp
    refine ⟨rfl, ?_, ?_, ?_⟩
    · rw [length_eq, seq_eq]
      push_cast
      rfl
    · intro present i first last
      rw [length_eq] at last
      by_cases latest : i = visited.length + 1
      · rw [seq_eq] at present
        rw [latest]
        simpa using present
      · exact found going i first (by omega)
    · intro absent
      rw [length_eq]
      rw [seq_eq] at absent
      exact ⟨by omega, by simpa using absent⟩

theorem luautilsTableIssequential_eq (holds : state.Holds idx (.table address)) {turns : ℕ} :
    luautilsTableIssequential runtime turns idx state =
      (whileNext runtime (state.absindex idx) SequenceTest.result
          (issequentialTurn (state.absindex idx)) turns ⟨true, 0⟩ >>= fun final =>
        if !final.result then do
          luaPop 1
          pure false
        else
          pure (decide (final.seq > 0))) (state.push .nil) := by
  rw [luautilsTableIssequential, bind_of_ok (luaChkabsidx_eq holds.nonzero),
    bind_of_ok (luaLChecktype_table holds.absolute),
    bind_of_ok luaPushnil_eq]

/--
The result tells whether the table has entries, with the positions from 1 on as their
keys. The state is left as it was.
-/
theorem issequential_iff_isSequence (runtime : Runtime) (state : State) (idx : ℤ) (address : ℕ)
    (t : Table) (holds : state.Holds idx (.table address))
    (live : state.tables.cells address = some t) :
    ∀ turns > t.map.entries.length, ∃ result : Bool,
      luautilsTableIssequential runtime turns idx state = .ok result state ∧
      (result = true ↔ t.map.keys ≠ [] ∧ ∃ n, t.IsSequence n) := by
  intro turns enough
  have start : Probed state t [] ⟨true, 0⟩ state := by
    refine ⟨rfl, rfl, ?_, nofun⟩
    intro _ i first last
    rw [List.length_nil] at last
    omega
  have source : Traverses (state.absindex idx) address t (Probed state t) := by
    rintro visited held base ⟨rfl, -⟩
    exact ⟨holds.absolute, live⟩
  rw [luautilsTableIssequential_eq holds]
  generalize run : whileNext runtime (state.absindex idx) SequenceTest.result
    (issequentialTurn (state.absindex idx)) turns ⟨true, 0⟩ (state.push .nil) = ended
  have ends := whileNext_ok runtime holds.positive source
    (issequentialTurn_keeps holds.positive holds.absolute live) enough start
  rw [run] at ends
  cases ends with
  | complete going visited =>
      rename_i final reached
      rcases visited with ⟨rfl, seq_eq, found, -⟩
      refine ⟨decide (final.seq > 0), ?_, ?_⟩
      · rw [bind_of_ok run, going]
        rfl
      · rw [decide_eq_true_iff, seq_eq]
        constructor
        · intro positive
          refine ⟨?_, _, Table.isSequence_of_subset (found going)⟩
          rw [← List.length_pos_iff, Table.length_keys]
          exact_mod_cast positive
        · rintro ⟨nonempty, -⟩
          rw [← List.length_pos_iff, Table.length_keys] at nonempty
          exact_mod_cast nonempty
  | early seen unseen last stopped split visited =>
      rcases visited with ⟨rfl, -, -, missing⟩
      rcases missing stopped with ⟨positive, absent⟩
      refine ⟨false, ?_, ?_⟩
      · rw [bind_of_ok run, stopped]
        simp only [Bool.not_false, if_true]
        rw [bind_of_ok luaPop_first, pure_eq_ok]
      · refine iff_of_false Bool.false_ne_true ?_
        rintro ⟨-, n, sequence⟩
        have size := sequence.length_eq
        rw [split, List.length_append] at size
        apply Table.get_eq_nil_iff.mp absent
        exact (sequence _).mpr ⟨seen.length, positive, by omega, rfl⟩
  | failure failed => cases failed

/-- A table with `t[1] = true` and `t[2] = false`. -/
def Table.pair : Table :=
  (Table.empty.setInteger 1 (.boolean true)).setInteger 2 (.boolean false)

theorem issequential_iff_isSequence_pair :
    let state := (State.empty.newTable Table.pair).push (.table 0)
    ∃ result : Bool, luautilsTableIssequential default 3 (-1) state = .ok result state ∧
      (result = true ↔ Table.pair.map.keys ≠ [] ∧ ∃ n, Table.pair.IsSequence n) := by
  intro state
  exact issequential_iff_isSequence default state (-1) 0 Table.pair State.holds_first
    Heap.cells_alloc_self 3 (by decide)

end Lemmas

end Lucciefr.Lua
