import Lucciefr.Base.Buffer
import Lucciefr.Base.Decimal
import Lucciefr.Base.Retry
import Lucciefr.Platform
import Lucciefr.Strutils.Format
import Lucciefr.Symbols.Basic

/-!
# The executable of a process

`get_pid_exe` of `core/linux/processes.c`, which reads the link `/proc/<pid>/exe`. There is
no NUL behind what `readlink` stores, and a target which is longer than the buffer is cut
off. The result is ended with a NUL only if there is room for it.
-/

namespace Lucciefr.Processes

open Strutils (Memory realloc realloc_isSome length_realloc)
open Symbols (characters)

/-- A link, and whether `readlink` fails for a buffer of some size. The number of bytes which
it stores is a `ssize_t`. -/
structure Link (build : Build) where
  target : List UInt8
  noNul : 0 ∉ target
  representable : target.length < 2 ^ (build.bits - 1)
  fails : (size : ℕ) → Bool

/-- What `getpid` returns, and the links of the file system. -/
structure LinuxSystem (build : Build) where
  self : ℤ
  link : (path : List UInt8) → Option (Link build)

variable {build : Build}

/-- `readlink`, with what it returns and what is in the buffer. -/
def readlink (system : LinuxSystem build) (path buffer : List UInt8) (size : ℕ) :
    Except Fault (ℤ × List UInt8) :=
  match system.link path with
  | none => .ok (-1, buffer)
  | some link =>
      if link.fails size then
        .ok (-1, buffer)
      else do
        let stored := link.target.take size
        let buffer ← writeBytes buffer stored
        pure (stored.length, buffer)

/-- `fmt_pid_prefix`, where `%u` converts the `pid_t`. -/
def fmtPidPrefix (buffer : List UInt8) (size : ℕ) (pid : ℤ) (suffix : Option (List UInt8)) :
    Except Fault (List UInt8) :=
  let digits := decimal (pid % 2 ^ 32).toNat
  match suffix with
  | some suffix => snprintf buffer size (characters "/proc/" ++ digits ++ characters "/" ++ suffix)
  | none => snprintf buffer size (characters "/proc/" ++ digits ++ characters "/")

/-- The local variables of the loop of `get_pid_exe`, and whether it goes on. -/
structure ExeLoop where
  result : Option (List UInt8)
  size : ℕ
  rc : ℤ
  again : Bool

/-- A turn of the loop of `get_pid_exe`. Where the function returns `NULL`, that is what is
left in `result`. -/
def exeTurn (memory : Memory) (system : LinuxSystem build) (path : List UInt8) (held : ExeLoop) :
    Except Fault ExeLoop :=
  match realloc memory held.result held.size with
  | none => .ok ⟨none, held.size, held.rc, false⟩
  | some block => do
      let (rc, block) ← readlink system path block held.size
      if rc < 0 then
        pure ⟨none, held.size, rc, false⟩
      else if rc.toNat < held.size then
        pure ⟨some block, held.size, rc, false⟩
      else
        pure ⟨some block, build.mul held.size 2, rc, true⟩

/-- The end of `get_pid_exe`, where `rc` is not negative. -/
def terminate (result : List UInt8) (size : ℕ) (rc : ℤ) : Except Fault (List UInt8) :=
  if rc.toNat < size then
    through (writeBytes · [0]) result rc.toNat
  else
    .ok result

/-- `get_pid_exe`, with what the array `proc` holds at the beginning. The size gets to the
end of its range after fewer turns of the loop than it has bits. -/
def getPidExe (memory : Memory) (system : LinuxSystem build) (proc : Vector UInt8 32) (pid : ℤ)
    (buffer : Option (List UInt8)) (size : ℕ) : Except Fault (Option (List UInt8)) := do
  let pid := if pid = 0 then system.self else pid
  let proc ← fmtPidPrefix proc.toList 32 pid (some (characters "exe"))
  let path ← readString proc
  match buffer with
  | some buffer => do
      let (rc, result) ← readlink system path buffer size
      if rc < 0 then
        pure none
      else do
        let result ← terminate result size rc
        pure (some result)
  | none => do
      let last ← doWhile .divergence ExeLoop.again (exeTurn memory system path) build.bits
        ⟨none, 128, 0, true⟩
      match last.result with
      | none => pure none
      | some result => do
          let result ← terminate result last.size last.rc
          pure (some result)

/-- The path of the link. -/
def exePath (system : LinuxSystem build) (pid : ℤ) : List UInt8 :=
  characters "/proc/" ++ decimal ((if pid = 0 then system.self else pid) % 2 ^ 32).toNat ++
    characters "/" ++ characters "exe"

/-- What is in the buffer of the caller: as much of the target as fits with a NUL. -/
def Truncated (target buffer : List UInt8) (size : ℕ) (block : List UInt8) : Prop :=
  ∃ behind, block = target.take (size - 1) ++ 0 :: behind ++ buffer.drop size ∧
    (target.take (size - 1) ++ 0 :: behind).length = size

/-- The result is `NULL` only for a reason, and otherwise a string in its buffer. -/
def Delivered (memory : Memory) (found : Option (Link build)) (buffer : Option (List UInt8))
    (size : ℕ) (run : Except Fault (Option (List UInt8))) : Prop :=
  match found, buffer with
  | none, _ => run = .ok none
  | some link, some buffer =>
      if link.fails size then
        run = .ok none
      else
        ∃ block, run = .ok (some block) ∧ Truncated link.target buffer size block
  | some link, none =>
      (run = .ok none ∨ ∃ behind, run = .ok (some (link.target ++ 0 :: behind))) ∧
      ((∀ size, link.fails size = false ∧ (memory size).isSome) → run ≠ .ok none)

section Lemmas

variable {memory : Memory} {system : LinuxSystem build} {link : Link build}
  {path buffer : List UInt8} {pid : ℤ} {size : ℕ} {held : ExeLoop}

/-- The path fits, with the NUL behind it. -/
theorem fmtPidPrefix_exe (proc : Vector UInt8 32) (pid : ℤ) :
    ∃ rest, fmtPidPrefix proc.toList 32 pid (some (characters "exe")) =
      .ok (characters "/proc/" ++ decimal (pid % 2 ^ 32).toNat ++ characters "/" ++
        characters "exe" ++ 0 :: rest) := by
  have small : (pid % 2 ^ 32).toNat < 10 ^ 10 := by omega
  have digits := length_decimal_le (by decide) small
  refine snprintf_of_lt _ ?_ ?_
  · rw [proc.length_toList]
  · rw [List.length_append, List.length_append, List.length_append]
    have texts : (characters "/proc/").length = 6 ∧ (characters "/").length = 1 ∧
        (characters "exe").length = 3 := by decide
    omega

theorem noNul_exePath (pid : ℤ) :
    0 ∉ characters "/proc/" ++ decimal (pid % 2 ^ 32).toNat ++ characters "/" ++
      characters "exe" := by
  have digits : 0 ∉ decimal (pid % 2 ^ 32).toNat := fun nulMem =>
    absurd (isDigit_of_mem_decimal nulMem) (by decide)
  simp only [List.mem_append, not_or]
  exact ⟨⟨⟨by decide, digits⟩, by decide⟩, by decide⟩

theorem getPidExe_eq (proc : Vector UInt8 32) (buffer : Option (List UInt8)) :
    getPidExe memory system proc pid buffer size = (
      match buffer with
      | some buffer => do
          let (rc, result) ← readlink system (exePath system pid) buffer size
          if rc < 0 then
            pure none
          else do
            let result ← terminate result size rc
            pure (some result)
      | none => do
          let last ← doWhile .divergence ExeLoop.again
            (exeTurn memory system (exePath system pid)) build.bits ⟨none, 128, 0, true⟩
          match last.result with
          | none => pure none
          | some result => do
              let result ← terminate result last.size last.rc
              pure (some result)) := by
  rcases fmtPidPrefix_exe proc (if pid = 0 then system.self else pid) with ⟨rest, printed⟩
  simp only [getPidExe, printed, ok_bind, readString_of_append (noNul_exePath _), exePath]

theorem readlink_of_none (missing : system.link path = none) :
    readlink system path buffer size = .ok (-1, buffer) := by
  rw [readlink, missing]

theorem readlink_of_fails (found : system.link path = some link) (failed : link.fails size = true) :
    readlink system path buffer size = .ok (-1, buffer) := by
  rw [readlink, found]
  exact if_pos failed

theorem readlink_of_found (found : system.link path = some link)
    (succeeds : link.fails size = false) (room : size ≤ buffer.length) :
    readlink system path buffer size =
      .ok (((link.target.take size).length : ℤ),
        link.target.take size ++ buffer.drop (link.target.take size).length) := by
  have fits : (link.target.take size).length ≤ buffer.length :=
    (List.length_take_le size _).trans room
  simp only [readlink, found, succeeds, Bool.false_eq_true, if_false, writeBytes_of_le fits,
    ok_bind]
  rfl

theorem terminate_of_lt {text rest : List UInt8} {behind : UInt8} (fits : text.length < size) :
    terminate (text ++ behind :: rest) size text.length = .ok (text ++ 0 :: rest) := by
  rw [terminate, Int.toNat_natCast, if_pos fits]
  exact through_writeBytes rfl (by simp)

theorem terminate_of_ge {text block : List UInt8} (full : size ≤ text.length) :
    terminate block size text.length = .ok block := by
  rw [terminate, Int.toNat_natCast, if_neg (by omega)]

/-- The buffer of a caller who has room for the target and a NUL. -/
theorem truncated_of_lt {target : List UInt8} (fits : target.length < size)
    (room : size ≤ buffer.length) :
    Truncated target buffer size (target ++ 0 :: buffer.drop (target.length + 1)) := by
  have whole : target.take (size - 1) = target := List.take_of_length_le (by omega)
  refine ⟨(buffer.drop (target.length + 1)).take (size - (target.length + 1)), ?_, ?_⟩
  · have rejoined : (buffer.drop (target.length + 1)).take (size - (target.length + 1)) ++
        buffer.drop size = buffer.drop (target.length + 1) := by
      have shifted : buffer.drop size =
          (buffer.drop (target.length + 1)).drop (size - (target.length + 1)) := by
        rw [List.drop_drop]
        congr 1
        omega
      rw [shifted, List.take_append_drop]
    rw [whole, List.append_assoc, List.cons_append, rejoined]
  · rw [whole, List.length_append, List.length_cons, List.length_take, List.length_drop]
    omega

/-- Without that there is no NUL among the bytes which were stored. -/
theorem not_truncated_of_ge (link : Link build) (full : size ≤ link.target.length)
    {rest : List UInt8} :
    ¬Truncated link.target buffer size (link.target.take size ++ rest) := by
  rintro ⟨behind, same, length_eq⟩
  have stored : (link.target.take size).length = size := List.length_take_of_le full
  have start := (List.append_inj same (by rw [stored, length_eq])).1
  have nulMem : 0 ∈ link.target.take size := by
    rw [start]
    simp
  exact link.noNul (List.mem_of_mem_take nulMem)

/-- For the buffer of a caller everything depends on the room for the NUL. -/
theorem delivered_some_iff (proc : Vector UInt8 32) (room : size ≤ buffer.length) :
    Delivered memory (system.link (exePath system pid)) (some buffer) size
        (getPidExe memory system proc pid (some buffer) size) ↔
      ∀ link, system.link (exePath system pid) = some link → link.fails size = false →
        link.target.length < size := by
  rw [getPidExe_eq]
  cases found : system.link (exePath system pid) with
  | none =>
      simp only [readlink_of_none found, ok_bind, Delivered]
      exact iff_of_true rfl nofun
  | some link =>
      cases failing : link.fails size with
      | true =>
          simp only [readlink_of_fails found failing, ok_bind, Delivered, failing]
          refine iff_of_true rfl fun other same succeeds => ?_
          rw [← Option.some.inj same, failing] at succeeds
          cases succeeds
      | false =>
          simp only [readlink_of_found found failing room, ok_bind, Delivered, failing,
            Bool.false_eq_true, if_false]
          have counted : ¬((link.target.take size).length : ℤ) < 0 := by omega
          simp only [counted, if_false]
          by_cases fits : link.target.length < size
          · have whole : link.target.take size = link.target := List.take_of_length_le fits.le
            have more : link.target.length < buffer.length := by omega
            rw [whole, List.drop_eq_getElem_cons more, terminate_of_lt fits, ok_bind]
            refine iff_of_true ⟨_, rfl, truncated_of_lt fits room⟩ fun other same _ => ?_
            rw [← Option.some.inj same]
            exact fits
          · have stored : (link.target.take size).length = size :=
              List.length_take_of_le (not_lt.mp fits)
            rw [terminate_of_ge (not_lt.mp stored.ge.not_gt), ok_bind]
            refine iff_of_false ?_ fun always => fits (always link rfl failing)
            rintro ⟨block, same, truncated⟩
            rw [← Option.some.inj (Except.ok.inj same)] at truncated
            exact not_truncated_of_ge link (not_lt.mp fits) truncated

/-- What is known before a turn: the size is a power of two in its range. -/
def Doubling (build : Build) (held : ExeLoop) : Prop :=
  ∃ k, held.size = 2 ^ (7 + k) ∧ 7 + k < build.bits

/-- What the loop leaves behind: nothing, or the whole target with room behind it. -/
structure Found (memory : Memory) (link : Link build) (last : ExeLoop) : Prop where
  stored : ∀ block, last.result = some block → last.rc = link.target.length ∧
    link.target.length < last.size ∧ ∃ behind rest, block = link.target ++ behind :: rest
  present : (∀ size, link.fails size = false ∧ (memory size).isSome) → last.result ≠ none

/-- When `readlink` fails, then the loop is left with `NULL`. -/
theorem exeTurn_of_refused
    (refused : ∀ block, readlink system path block held.size = .ok (-1, block)) :
    ∃ next, exeTurn memory system path held = .ok next ∧ next.again = false ∧
      next.result = none := by
  rw [exeTurn]
  cases realloc memory held.result held.size with
  | none => exact ⟨_, rfl, rfl, rfl⟩
  | some block =>
      simp only [refused block, ok_bind]
      exact ⟨_, rfl, rfl, rfl⟩

theorem Doubling.double {next : ExeLoop} (doubling : Doubling build held)
    (full : held.size ≤ link.target.length) (doubled : next.size = build.mul held.size 2) :
    Doubling build next ∧ build.bits - Nat.log2 next.size < build.bits - Nat.log2 held.size := by
  rcases doubling with ⟨k, size_eq, inRange⟩
  rw [size_eq] at full
  have below : 7 + k < build.bits - 1 :=
    (Nat.pow_lt_pow_iff_right (by decide)).mp (full.trans_lt link.representable)
  have product : held.size * 2 = 2 ^ (7 + (k + 1)) := by
    rw [size_eq, ← Nat.add_assoc, Nat.pow_succ]
  have small : held.size * 2 < 2 ^ build.bits := by
    rw [product]
    exact Nat.pow_lt_pow_right (by decide) (by omega)
  rw [Build.mul_of_lt small, product] at doubled
  refine ⟨⟨k + 1, doubled, by omega⟩, ?_⟩
  rw [doubled, size_eq, Nat.log2_two_pow, Nat.log2_two_pow]
  omega

/-- One turn leaves the loop, or doubles a size which is at most the length of the target. -/
theorem exeTurn_cases (found : system.link path = some link) (doubling : Doubling build held) :
    ∃ next, exeTurn memory system path held = .ok next ∧
      (next.again = true → Doubling build next ∧
        build.bits - Nat.log2 next.size < build.bits - Nat.log2 held.size) ∧
      (next.again = false → Found memory link next) := by
  cases failing : link.fails held.size with
  | true =>
      rcases exeTurn_of_refused (fun block => readlink_of_fails found failing) with
        ⟨next, turned, ended, empty⟩
      refine ⟨next, turned, fun going => ?_, fun _ => ⟨fun block stored => ?_, fun always => ?_⟩⟩
      · rw [ended] at going
        cases going
      · rw [empty] at stored
        cases stored
      · rw [(always held.size).1] at failing
        cases failing
  | false =>
      rw [exeTurn]
      cases granted : realloc memory held.result held.size with
      | none =>
          refine ⟨_, rfl, nofun, fun _ => ⟨nofun, fun always => ?_⟩⟩
          rcases realloc_isSome (always held.size).2 with
            ⟨block, present, -⟩
          rw [granted] at present
          cases present
      | some block =>
          have length_eq := length_realloc granted
          have counted : ¬((link.target.take held.size).length : ℤ) < 0 := by omega
          simp only [readlink_of_found found failing length_eq.ge, ok_bind, counted, if_false,
            Int.toNat_natCast]
          by_cases fits : (link.target.take held.size).length < held.size
          · have shorter : link.target.length < held.size := by
              rw [List.length_take] at fits
              omega
            have whole : link.target.take held.size = link.target :=
              List.take_of_length_le shorter.le
            have more : link.target.length < block.length := by omega
            rw [if_pos fits]
            refine ⟨_, rfl, nofun, fun _ => ⟨fun stored same => ?_, fun _ => nofun⟩⟩
            rw [← Option.some.inj same, whole, List.drop_eq_getElem_cons more]
            exact ⟨rfl, shorter, _, _, rfl⟩
          · have full : held.size ≤ link.target.length := by
              rw [List.length_take] at fits
              omega
            rw [if_neg fits]
            exact ⟨_, rfl, fun _ => doubling.double full rfl, nofun⟩

theorem delivered_none (proc : Vector UInt8 32) :
    Delivered memory (system.link (exePath system pid)) none size
      (getPidExe memory system proc pid none size) := by
  have wide : 7 < build.bits := by cases build <;> decide
  rw [getPidExe_eq]
  cases found : system.link (exePath system pid) with
  | none =>
      have turn : ∀ held : ExeLoop, True →
          ∃ next, exeTurn memory system (exePath system pid) held = .ok next ∧
            (next.again = true → True ∧ 0 < 0) ∧ (next.again = false → next.result = none) := by
        intro held _
        rcases exeTurn_of_refused (fun block => readlink_of_none found) with
          ⟨next, turned, ended, empty⟩
        refine ⟨next, turned, fun going => ?_, fun _ => empty⟩
        rw [ended] at going
        cases going
      have loop : ∃ last, doWhile .divergence ExeLoop.again
          (exeTurn memory system (exePath system pid)) build.bits ⟨none, 128, 0, true⟩ = .ok last ∧
          last.result = none :=
        doWhile_returns (fun _ => True) (fun _ => 0) turn (by omega) trivial
      rcases loop with ⟨last, ended, empty⟩
      simp only [ended, ok_bind, empty, Delivered]
      rfl
  | some link =>
      have start : Doubling build ⟨none, 128, 0, true⟩ := ⟨0, rfl, wide⟩
      have enough : build.bits - Nat.log2 (ExeLoop.size ⟨none, 128, 0, true⟩) < build.bits := by
        have seven : Nat.log2 128 = 7 := by decide
        rw [seven]
        omega
      have loop : ∃ last, doWhile .divergence ExeLoop.again
          (exeTurn memory system (exePath system pid)) build.bits ⟨none, 128, 0, true⟩ = .ok last ∧
          Found memory link last :=
        doWhile_returns (Doubling build) (fun held => build.bits - Nat.log2 held.size)
          (fun held => exeTurn_cases found) enough start
      rcases loop with ⟨last, ended, left⟩
      rcases left with ⟨stored, present⟩
      simp only [ended, ok_bind, Delivered]
      cases result_eq : last.result with
      | none => exact ⟨Or.inl rfl, fun always => absurd result_eq (present always)⟩
      | some block =>
          rcases stored block result_eq with ⟨rc_eq, shorter, behind, rest, rfl⟩
          simp only [rc_eq, terminate_of_lt shorter, ok_bind]
          exact ⟨Or.inr ⟨rest, rfl⟩, fun _ => nofun⟩

/--
The result is a string in its buffer, and as much of the target as fits, if and only if the
buffer is not one of a caller which has no room for a NUL behind the target.
-/
theorem delivered_iff {build : Build} (memory : Memory) (system : LinuxSystem build)
    (proc : Vector UInt8 32) (pid : ℤ) (buffer : Option (List UInt8)) (size : ℕ)
    (room : ∀ array, buffer = some array → size ≤ array.length) :
    Delivered memory (system.link (exePath system pid)) buffer size
        (getPidExe memory system proc pid buffer size) ↔
      buffer = none ∨ ∀ link, system.link (exePath system pid) = some link →
        link.fails size = false → link.target.length < size := by
  cases buffer with
  | none => exact iff_of_true (delivered_none proc) (Or.inl rfl)
  | some array =>
      rw [delivered_some_iff proc (room array rfl)]
      exact ⟨Or.inr, fun condition => condition.resolve_left nofun⟩

end Lemmas

/-- The link `/a`, which is not read to an empty buffer. -/
def shortLink : Link .x64 where
  target := [47, 97]
  noNul := by decide
  representable := by decide
  fails size := size = 0

/-- The process 5 is the one which calls, and all others have no link. -/
def singleProcess : LinuxSystem .x64 where
  self := 5
  link path := if path = characters "/proc/5/exe" then some shortLink else none

theorem singleProcess_link (path : List UInt8) (same : path = characters "/proc/5/exe") :
    singleProcess.link path = some shortLink :=
  if_pos same

theorem delivered_iff_shortLink :
    Delivered (fun _ => some fun _ => 7) (singleProcess.link (exePath singleProcess 0))
        (some [7, 7, 7, 7]) 3 (getPidExe (fun _ => some fun _ => 7) singleProcess
          (Vector.replicate 32 7) 0 (some [7, 7, 7, 7]) 3) ↔
      (some [7, 7, 7, 7] : Option (List UInt8)) = none ∨
        ∀ link, singleProcess.link (exePath singleProcess 0) = some link →
          link.fails 3 = false → link.target.length < 3 :=
  delivered_iff (fun _ => some fun _ => 7) singleProcess (Vector.replicate 32 7) 0
    (some [7, 7, 7, 7]) 3 fun _ same => Option.some.inj same ▸ by decide

/-- There is no NUL in a buffer with the size of the target. -/
theorem not_delivered_shortLink :
    ¬(∀ (system : LinuxSystem .x64) (proc : Vector UInt8 32) (pid : ℤ) (array : List UInt8)
        (size : ℕ), size ≤ array.length →
        Delivered (fun _ => some fun _ => 7) (system.link (exePath system pid)) (some array) size
          (getPidExe (fun _ => some fun _ => 7) system proc pid (some array) size)) ∧
    getPidExe (fun _ => some fun _ => 7) singleProcess (Vector.replicate 32 7) 0
      (some [7, 7, 7]) 2 = .ok (some [47, 97, 7]) := by
  have run : getPidExe (fun _ => some fun _ => 7) singleProcess (Vector.replicate 32 7) 0
      (some [7, 7, 7]) 2 = .ok (some [47, 97, 7]) := by decide
  have found := singleProcess_link (exePath singleProcess 0) (by decide)
  refine ⟨fun always => ?_, run⟩
  have delivered := always singleProcess (Vector.replicate 32 7) 0 [7, 7, 7] 2 (by decide)
  rw [found] at delivered
  simp only [Delivered, run, shortLink] at delivered
  rcases delivered with ⟨block, same, truncated⟩
  rw [← Option.some.inj (Except.ok.inj same)] at truncated
  exact not_truncated_of_ge shortLink (by decide) truncated

end Lucciefr.Processes
