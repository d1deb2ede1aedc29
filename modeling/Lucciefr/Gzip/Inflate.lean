import Mathlib.Order.Iterate
import Lucciefr.Gzip.Basic

/-!
# Decompression into a growing buffer

The loop of `tinfl_decompress_mem_to_heap` collects everything which a correct
decompressor delivers, if the memory for it is granted. Its only failure is that a
buffer is not allocated before the second turn, so that nothing is returned for an
empty content.
-/

namespace Lucciefr.Gzip

variable {Decompressor : Type} {build : Build} {tinfl : Tinfl Decompressor}
  {allocator : Allocator build} {pSrcBuf pending content : List UInt8} {flags : BitVec 32}
  {turns capacity length : ℕ} {loop : MemToHeap Decompressor}

/-- The capacity after this one, when it does not wrap. -/
def doubled (capacity : ℕ) : ℕ :=
  max 128 (capacity * 2)

/-- The allocator grants each size on the way to a capacity of this length. -/
def Allocator.GrowsTo (allocator : Allocator build) (length capacity : ℕ) : Prop :=
  ∀ turns, doubled^[turns] capacity < length → allocator.grants (doubled^[turns + 1] capacity)

theorem newOutBufCapacity_eq (below : capacity < 2 ^ (build.bits - 1)) :
    newOutBufCapacity build capacity = doubled capacity := by
  have fits : capacity * 2 % 2 ^ build.bits = capacity * 2 := by
    apply Nat.mod_eq_of_lt
    have half : 2 ^ build.bits = 2 ^ (build.bits - 1) * 2 := by cases build <;> rfl
    omega
  rw [newOutBufCapacity, fits, doubled]
  split <;> omega

theorem le_iterate_doubled (capacity turns : ℕ) : capacity ≤ doubled^[turns] capacity := by
  have larger : id ≤ doubled := fun smaller => by
    simp only [id_eq, doubled]
    omega
  exact Function.id_le_iterate_of_id_le larger turns capacity

namespace Allocator.GrowsTo

theorem of_le (reached : length ≤ capacity) : allocator.GrowsTo length capacity := by
  intro turns short
  have grown := le_iterate_doubled capacity turns
  omega

theorem iff_of_lt (short : capacity < length) : allocator.GrowsTo length capacity ↔
    allocator.grants (doubled capacity) ∧ allocator.GrowsTo length (doubled capacity) := by
  constructor
  · intro grows
    exact ⟨grows 0 short, fun turns => grows (turns + 1)⟩
  · rintro ⟨granted, grows⟩ turns
    cases turns with
    | zero => exact fun _ => granted
    | succ turns => exact grows turns

end Allocator.GrowsTo

/-- The flags which the loop passes on. -/
def decompFlags (flags : BitVec 32) : BitVec 32 :=
  flags &&& ~~~flagHasMoreInput ||| flagNonWrapping

/-- The answer to the call of this turn. -/
def MemToHeap.call (loop : MemToHeap Decompressor) (tinfl : Tinfl Decompressor)
    (pSrcBuf : List UInt8) (flags : BitVec 32) : DecoderCall Decompressor UInt8 TinflStatus :=
  (tinfl.decoder (decompFlags flags)).call loop.decomp (pSrcBuf.drop loop.srcBufOfs)
    (loop.pBuf.getD []) (loop.outBufCapacity - loop.pOutLen)

/-- The variables after a turn, with a buffer of this capacity. -/
def MemToHeap.grown (loop : MemToHeap Decompressor)
    (call : DecoderCall Decompressor UInt8 TinflStatus) (capacity : ℕ) :
    MemToHeap Decompressor where
  decomp := call.state
  pBuf := some ((loop.pBuf.map (· ++ call.output)).getD [])
  srcBufOfs := loop.srcBufOfs + call.consumed
  outBufCapacity := capacity
  pOutLen := loop.pOutLen + call.output.length

theorem memToHeapFrom_succ :
    memToHeapFrom tinfl allocator pSrcBuf flags (turns + 1) loop =
      if (loop.call tinfl pSrcBuf flags).status.number < 0 ∨
          (loop.call tinfl pSrcBuf flags).status = .needsMoreInput then
        .ok none
      else if (loop.call tinfl pSrcBuf flags).status = .done then
        .ok ((loop.pBuf.map (· ++ (loop.call tinfl pSrcBuf flags).output)).map fun bytes =>
          ⟨bytes, loop.pOutLen + (loop.call tinfl pSrcBuf flags).output.length⟩)
      else if allocator.grants (newOutBufCapacity build loop.outBufCapacity) then
        memToHeapFrom tinfl allocator pSrcBuf flags turns
          (loop.grown (loop.call tinfl pSrcBuf flags) (newOutBufCapacity build loop.outBufCapacity))
      else .ok none := rfl

theorem memToHeapFrom_of_done (done : (loop.call tinfl pSrcBuf flags).status = .done) :
    memToHeapFrom tinfl allocator pSrcBuf flags (turns + 1) loop =
      .ok ((loop.pBuf.map (· ++ (loop.call tinfl pSrcBuf flags).output)).map fun bytes =>
        ⟨bytes, loop.pOutLen + (loop.call tinfl pSrcBuf flags).output.length⟩) := by
  rw [memToHeapFrom_succ, done]
  rfl

theorem memToHeapFrom_of_more (more : (loop.call tinfl pSrcBuf flags).status = .hasMoreOutput) :
    memToHeapFrom tinfl allocator pSrcBuf flags (turns + 1) loop =
      if allocator.grants (newOutBufCapacity build loop.outBufCapacity) then
        memToHeapFrom tinfl allocator pSrcBuf flags turns
          (loop.grown (loop.call tinfl pSrcBuf flags) (newOutBufCapacity build loop.outBufCapacity))
      else .ok none := by
  rw [memToHeapFrom_succ, more]
  rfl

theorem memToHeapFrom_of_failed (done : (loop.call tinfl pSrcBuf flags).status ≠ .done)
    (more : (loop.call tinfl pSrcBuf flags).status ≠ .hasMoreOutput) :
    memToHeapFrom tinfl allocator pSrcBuf flags (turns + 1) loop = .ok none := by
  rw [memToHeapFrom_succ, if_pos]
  generalize (loop.call tinfl pSrcBuf flags).status = status at done more
  cases status with
  | badParam => exact Or.inl (by decide)
  | adler32Mismatch => exact Or.inl (by decide)
  | failed => exact Or.inl (by decide)
  | done => contradiction
  | needsMoreInput => exact Or.inr rfl
  | hasMoreOutput => contradiction

/-- Nothing is written through a `NULL` pointer. -/
theorem MemToHeap.written_eq (call : DecoderCall Decompressor UInt8 TinflStatus)
    (null : loop.pBuf = none → loop.outBufCapacity = 0)
    (output : call.output.length ≤ loop.outBufCapacity - loop.pOutLen) :
    (loop.pBuf.map (· ++ call.output)).getD [] = loop.pBuf.getD [] ++ call.output := by
  cases buffer : loop.pBuf with
  | none =>
      rw [null buffer, Nat.zero_sub, Nat.le_zero, List.length_eq_zero_iff] at output
      rw [output]
      rfl
  | some bytes => rfl

/-- What the variables say about the buffer. -/
structure MemToHeap.Fills (loop : MemToHeap Decompressor) (build : Build) : Prop where
  length : loop.pOutLen = (loop.pBuf.getD []).length
  inside : loop.pOutLen ≤ loop.outBufCapacity
  below : loop.outBufCapacity < 2 ^ (build.bits - 1)
  null : loop.pBuf = none → loop.outBufCapacity = 0

theorem MemToHeap.Fills.grown {call : DecoderCall Decompressor UInt8 TinflStatus}
    (fills : loop.Fills build)
    (output : call.output.length ≤ loop.outBufCapacity - loop.pOutLen)
    (below : doubled loop.outBufCapacity < 2 ^ (build.bits - 1)) :
    (loop.grown call (doubled loop.outBufCapacity)).Fills build where
  length := by
    simp only [MemToHeap.grown, Option.getD_some, loop.written_eq call fills.null output,
      List.length_append, fills.length]
  inside := by
    have inside := fills.inside
    simp only [MemToHeap.grown, doubled]
    omega
  below := below
  null := by
    intro impossible
    contradiction

/-- Each turn doubles the capacity, so that the turns suffice for every size which is granted. -/
theorem turns_suffice (enough : 2 ^ build.bits ≤ max 64 capacity * 2 ^ (turns + 1)) :
    2 ^ build.bits ≤ max 64 (doubled capacity) * 2 ^ turns := by
  have larger : max 64 capacity * 2 ≤ max 64 (doubled capacity) := by
    rw [doubled]
    omega
  calc 2 ^ build.bits ≤ max 64 capacity * 2 ^ (turns + 1) := enough
    _ = max 64 capacity * 2 * 2 ^ turns := by ring
    _ ≤ max 64 (doubled capacity) * 2 ^ turns := Nat.mul_le_mul_right _ larger

theorem turns_left (below : capacity < 2 ^ (build.bits - 1)) :
    ¬2 ^ build.bits ≤ max 64 capacity * 2 ^ 0 := by
  have half : 2 ^ (build.bits - 1) ≤ 2 ^ build.bits := Nat.pow_le_pow_right (by decide) (by omega)
  have wide : 64 < 2 ^ build.bits := by cases build <;> decide
  omega

theorem memToHeapFrom_of_delivers (loop : MemToHeap Decompressor)
    (delivers : (tinfl.decoder (decompFlags flags)).Delivers turns loop.decomp
      (pSrcBuf.drop loop.srcBufOfs) (loop.pBuf.getD []) pending)
    (fills : loop.Fills build) (enough : 2 ^ build.bits ≤ max 64 loop.outBufCapacity * 2 ^ turns)
    (total : loop.pBuf.getD [] ++ pending = content) (nonempty : content ≠ []) :
    (allocator.GrowsTo content.length loop.outBufCapacity →
      memToHeapFrom tinfl allocator pSrcBuf flags turns loop =
        .ok (some ⟨content, content.length⟩)) ∧
    (¬allocator.GrowsTo content.length loop.outBufCapacity →
      memToHeapFrom tinfl allocator pSrcBuf flags turns loop = .ok none) := by
  induction turns generalizing loop pending with
  | zero => exact absurd enough (turns_left fills.below)
  | succ turns ih =>
      have inside := fills.inside
      have total_length : loop.pOutLen + pending.length = content.length := by
        rw [fills.length, ← List.length_append, total]
      have output : (loop.call tinfl pSrcBuf flags).output =
          pending.take (loop.outBufCapacity - loop.pOutLen) := delivers.output_eq _
      rcases Nat.lt_or_ge loop.outBufCapacity content.length with short | reached
      · have exceeds : loop.outBufCapacity - loop.pOutLen < pending.length := by omega
        have output_le : (loop.call tinfl pSrcBuf flags).output.length ≤
            loop.outBufCapacity - loop.pOutLen := by
          rw [output, List.length_take]
          exact Nat.min_le_left _ _
        rw [memToHeapFrom_of_more (delivers.status_of_exceeds exceeds),
          newOutBufCapacity_eq fills.below, Allocator.GrowsTo.iff_of_lt short]
        by_cases granted : allocator.grants (doubled loop.outBufCapacity)
        · rw [if_pos granted]
          simp only [granted, true_and]
          have next := delivers.next exceeds
          have written := loop.written_eq _ fills.null output_le
          rw [output] at written
          apply ih (loop.grown (loop.call tinfl pSrcBuf flags) (doubled loop.outBufCapacity))
          · simp only [MemToHeap.grown, Option.getD_some, ← List.drop_drop]
            rw [output, written]
            exact next
          · exact fills.grown output_le (allocator.lt_half _ granted)
          · exact turns_suffice enough
          · simp only [MemToHeap.grown, Option.getD_some]
            rw [output, written, List.append_assoc, List.take_append_drop, total]
        · rw [if_neg granted]
          simp [granted]
      · have fits : pending.length ≤ loop.outBufCapacity - loop.pOutLen := by omega
        have grows : allocator.GrowsTo content.length loop.outBufCapacity := .of_le reached
        refine ⟨fun _ => ?_, absurd grows⟩
        rw [memToHeapFrom_of_done (delivers.status_of_fits fits), output,
          List.take_of_length_le fits, total_length]
        cases buffer : loop.pBuf with
        | none =>
            rw [fills.null buffer] at reached
            exact absurd (List.length_eq_zero_iff.mp (Nat.le_zero.mp reached)) nonempty
        | some bytes =>
            rw [buffer, Option.getD_some] at total
            rw [← total]
            rfl

theorem memToHeapFrom_of_rejects
    (rejects : (tinfl.decoder (decompFlags flags)).Rejects turns loop.decomp
      (pSrcBuf.drop loop.srcBufOfs) (loop.pBuf.getD []))
    (null : loop.pBuf = none → loop.outBufCapacity = 0) (block : HeapBlock) :
    memToHeapFrom tinfl allocator pSrcBuf flags turns loop ≠ .ok (some block) := by
  induction turns generalizing loop with
  | zero =>
      intro impossible
      contradiction
  | succ turns ih =>
      rcases rejects (loop.outBufCapacity - loop.pOutLen) with ⟨notDone, continues⟩
      by_cases more : (loop.call tinfl pSrcBuf flags).status = .hasMoreOutput
      · rcases continues more with ⟨output, next⟩
        rw [memToHeapFrom_of_more more]
        split
        · have written := MemToHeap.written_eq (loop.call tinfl pSrcBuf flags) null output
          apply ih
          · simp only [MemToHeap.grown, Option.getD_some, ← List.drop_drop]
            rw [written]
            exact next
          · intro impossible
            contradiction
        · simp
      · rw [memToHeapFrom_of_failed notDone more]
        simp

theorem initial_turns (tinfl : Tinfl Decompressor) (build : Build) :
    2 ^ build.bits ≤ max 64 (MemToHeap.initial tinfl).outBufCapacity * 2 ^ build.bits :=
  Nat.le_mul_of_pos_left _ (Nat.lt_of_lt_of_le (by decide) (Nat.le_max_left 64 _))

/-- A nonempty content is returned unless memory runs out. -/
theorem memToHeap_of_delivers
    (delivers : ∀ calls, (tinfl.decoder (decompFlags flags)).Delivers calls tinfl.init pSrcBuf []
      content) (nonempty : content ≠ []) :
    (allocator.GrowsTo content.length 0 →
      tinflDecompressMemToHeap tinfl allocator pSrcBuf flags =
        .ok (some ⟨content, content.length⟩)) ∧
    (¬allocator.GrowsTo content.length 0 →
      tinflDecompressMemToHeap tinfl allocator pSrcBuf flags = .ok none) := by
  apply memToHeapFrom_of_delivers (.initial tinfl) (delivers build.bits)
  · exact ⟨rfl, Nat.le_refl 0, Nat.two_pow_pos _, fun _ => rfl⟩
  · exact initial_turns tinfl build
  · rfl
  · exact nonempty

/-- The end of an empty content is reported before there is a buffer. -/
theorem memToHeap_of_empty
    (delivers : ∀ calls, (tinfl.decoder (decompFlags flags)).Delivers calls tinfl.init pSrcBuf []
      []) : tinflDecompressMemToHeap tinfl allocator pSrcBuf flags = .ok none := by
  cases build with
  | x86 => exact memToHeapFrom_of_done ((delivers 1).status_of_fits (Nat.zero_le 0))
  | x64 => exact memToHeapFrom_of_done ((delivers 1).status_of_fits (Nat.zero_le 0))

/-- Nothing is returned for an input which is rejected. -/
theorem memToHeap_of_rejects
    (rejects : ∀ calls, (tinfl.decoder (decompFlags flags)).Rejects calls tinfl.init pSrcBuf [])
    (block : HeapBlock) :
    tinflDecompressMemToHeap tinfl allocator pSrcBuf flags ≠ .ok (some block) :=
  memToHeapFrom_of_rejects (rejects build.bits) (fun _ => rfl) block

end Lucciefr.Gzip
