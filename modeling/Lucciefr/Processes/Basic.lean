import Lucciefr.Base.CString
import Lucciefr.Base.Interaction

/-!
# DLL injection

The model of the injection functions of `core/win/processes.c`. They are
programs which call the operating system; every result which the code looks at
is an answer, and a handle or pointer is an `Option`, with `none` for `NULL`.
Messages to the log are left out.

`WaitForSingleObject` blocks, so that it is modelled by two calls, its beginning
and its return. It returns when the thread has ended, when the timeout has
passed, or without waiting when it fails; the code does not look at which.
-/

namespace Lucciefr.Processes

/-- The access rights passed to `OpenProcess`. -/
inductive Access where
  | suspendResume
  | allAccess
deriving DecidableEq, Repr

/-- The calls to the operating system, and the call of `resume_process`, which is
recorded to count the attempts to resume the target. -/
inductive OsCall where
  | openProcess (access : Access) (pid : ℕ)
  | closeHandle (handle : ℕ)
  | getProcAddress (library name : String)
  | ntSuspendProcess (process : ℕ)
  | ntResumeProcess (process : ℕ)
  | virtualAllocEx (process size : ℕ)
  | writeProcessMemory (process address : ℕ) (bytes : List UInt8) (size : ℕ)
  | virtualFreeEx (process address size : ℕ)
  | createRemoteThread (process entryPoint param : ℕ)
  | resumeThread (thread : ℕ)
  | beginWait (thread timeout : ℕ)
  | endWait (thread : ℕ)
  | getExitCodeThread (thread : ℕ)
  | resumeProcess (pid : ℕ)
deriving DecidableEq, Repr

/-- What the code looks at of the result of a call. -/
def OsCall.Answer : OsCall → Type
  | openProcess _ _ => Option ℕ -- the handle
  | getProcAddress _ _ => Option ℕ -- the address
  | ntSuspendProcess _ => ℤ -- the status
  | ntResumeProcess _ => ℤ -- the status
  | virtualAllocEx _ _ => Option ℕ -- the address
  | writeProcessMemory _ _ _ _ => ℕ -- what is in `bytes_written` afterwards
  | createRemoteThread _ _ _ => Option ℕ -- the handle
  | getExitCodeThread _ => Option UInt32 -- the exit code, unless the query fails
  | _ => Unit

/-- What happens besides the calls of the injector. -/
inductive Background where
  | elapse (milliseconds : ℕ)
  | threadEnds (code : UInt32)
deriving DecidableEq, Repr

abbrev Injector := Program OsCall OsCall.Answer

abbrev OsEvent := Event OsCall OsCall.Answer Background

/-- A call to the operating system. -/
abbrev os (made : OsCall) : Injector made.Answer :=
  Program.request made

/-- `STILL_ACTIVE` -/
def stillActive : UInt32 := 259

/-- `suspend_process` -/
def suspendProcess (pid : ℕ) : Injector Bool := do
  let proc : Option ℕ ← os (.openProcess .suspendResume pid)
  match proc with
  | none => pure false
  | some proc => do
      let ntSuspendProcess : Option ℕ ← os (.getProcAddress "ntdll" "NtSuspendProcess")
      let result ← (match ntSuspendProcess with
        | some _ => do
            let ntStatus : ℤ ← os (.ntSuspendProcess proc)
            pure (decide (ntStatus = 0))
        | none => pure false)
      os (.closeHandle proc)
      pure result

/-- `resume_process` -/
def resumeProcess (pid : ℕ) : Injector Bool := do
  os (.resumeProcess pid)
  let proc : Option ℕ ← os (.openProcess .suspendResume pid)
  match proc with
  | none => pure false
  | some proc => do
      let ntResumeProcess : Option ℕ ← os (.getProcAddress "ntdll" "NtResumeProcess")
      let result ← (match ntResumeProcess with
        | some _ => do
            let ntStatus : ℤ ← os (.ntResumeProcess proc)
            pure (decide (ntStatus = 0))
        | none => pure false)
      os (.closeHandle proc)
      pure result

/-- What `suspend_process` and `resume_process` have in common: calling a function of
`ntdll` with a handle of the process. -/
def throughNtdll (name : String) (invoke : ℕ → Injector ℤ) (pid : ℕ) : Injector Bool := do
  let proc : Option ℕ ← os (.openProcess .suspendResume pid)
  match proc with
  | none => pure false
  | some proc => do
      let found : Option ℕ ← os (.getProcAddress "ntdll" name)
      let result ← (match found with
        | some _ => do
            let ntStatus ← invoke proc
            pure (decide (ntStatus = 0))
        | none => pure false)
      os (.closeHandle proc)
      pure result

theorem suspendProcess_eq (pid : ℕ) : suspendProcess pid =
    throughNtdll "NtSuspendProcess" (fun proc => os (.ntSuspendProcess proc)) pid := rfl

theorem resumeProcess_eq (pid : ℕ) : resumeProcess pid =
    (os (.resumeProcess pid) >>= fun _ =>
      throughNtdll "NtResumeProcess" (fun proc => os (.ntResumeProcess proc)) pid) := rfl

/-- `execute_remote_thread`, returning its result and the final `*exit_code`. -/
def executeRemoteThread (hProcess : Option ℕ) (entryPoint param timeout : ℕ)
    (exitCode : UInt32) : Injector (Bool × UInt32) :=
  match hProcess with
  | none => pure (false, exitCode)
  | some hProcess => do
      let thread : Option ℕ ← os (.createRemoteThread hProcess entryPoint param)
      match thread with
      | none => pure (false, exitCode)
      | some thread => do
          os (.resumeThread thread)
          os (.beginWait thread timeout)
          os (.endWait thread)
          let queried : Option UInt32 ← os (.getExitCodeThread thread)
          os (.closeHandle thread)
          match queried with
          | some code => pure (decide (code ≠ stillActive), code)
          | none => pure (false, exitCode)

/-- The part of `inject_crt` which has a remote buffer, returning the remote base
address (0 for `NULL`). -/
def injectWithBuffer (proc remoteBuffer : ℕ) (dllPath : List UInt8) (pathLength : ℕ)
    (exitCode : UInt32) : Injector ℕ := do
  let bytesWritten : ℕ ← os (.writeProcessMemory proc remoteBuffer dllPath pathLength)
  let remoteBase ←
    (if bytesWritten = pathLength then do
      let remoteLoad : Option ℕ ← os (.getProcAddress "kernel32" "LoadLibraryA")
      match remoteLoad with
      | some remoteLoad => do
          let executed ← executeRemoteThread (some proc) remoteLoad remoteBuffer 3000 exitCode
          pure (if executed.1 then executed.2.toNat else 0)
      | none => pure 0
    else
      pure 0)
  os (.virtualFreeEx proc remoteBuffer pathLength)
  pure remoteBase

/-- `inject_crt`, returning the remote base address (0 for `NULL`). What the
uninitialized variable `exit_code` contains is a parameter. -/
def injectCrt (pid : ℕ) (dllPath : List UInt8) (exitCode : UInt32) : Injector ℕ := do
  let proc : Option ℕ ← os (.openProcess .allAccess pid)
  match proc with
  | none => pure 0
  | some proc => do
      let suspended ← suspendProcess pid
      let pathLength := strlen dllPath + 1
      let remoteBuffer : Option ℕ ← os (.virtualAllocEx proc pathLength)
      let remoteBase ← (match remoteBuffer with
        | some remoteBuffer => injectWithBuffer proc remoteBuffer dllPath pathLength exitCode
        | none => pure 0)
      os (.closeHandle proc)
      let _ ← (if suspended then resumeProcess pid else pure false)
      pure remoteBase

end Lucciefr.Processes
