/-
The captured output of `cldm_io.c`.

While output is captured, the descriptor of a standard stream leads to a file, and
`cldm_stdout` or `cldm_stderr` is a stream for the program's own messages.  The text
of an error number is a parameter.

* `ioRedirect2`, `ioRedirect3`, `ioRestore` — the helpers on descriptors;
* `ioCaptureStream`, `ioCaptureRestore` — capturing and restoring;
* `ioDumpToStream`, `ioCaptureDump` — what was captured, line by line.
-/
import Cldm.Argp
import Cldm.Stdio

namespace Cldm

open Prog Stdio

/-- The variables of `cldm_io.c`. -/
structure IoVars where
  stdout : Option ℕ
  stderr : Option ℕ
  stdoutfd : ℤ
  stderrfd : ℤ

abbrev IoState := World IoVars

/-- Which of the variables a pointer leads to: those of `stdout` or those of `stderr`. -/
inductive Replaced
  | out
  | err

namespace Replaced

/-- `FILE **`. -/
def setStream : Replaced → Option ℕ → IoVars → IoVars
  | out, fp, v => { v with stdout := fp }
  | err, fp, v => { v with stderr := fp }

/-- `int *`. -/
def setFd : Replaced → ℤ → IoVars → IoVars
  | out, fd, v => { v with stdoutfd := fd }
  | err, fd, v => { v with stderrfd := fd }

def stream : Replaced → IoVars → Option ℕ
  | out, v => v.stdout
  | err, v => v.stderr

def fd : Replaced → IoVars → ℤ
  | out, v => v.stdoutfd
  | err, v => v.stderrfd

end Replaced

/-- `CLDM_CAPTURE_STDOUT`. -/
def captureStdoutPath : List UInt8 := ascii "/tmp/cldm_out"

/-- `CLDM_CAPTURE_STDERR`. -/
def captureStderrPath : List UInt8 := ascii "/tmp/cldm_err"

/-- `'\n'`. -/
abbrev newline : UInt8 := 10

/-- `%d`. -/
def decimal (d : ℤ) : List UInt8 := ascii (toString d)

/-- The value of an `enum cldm_capture`. -/
def Capture.value : Capture → ℕ
  | captureNone => 0
  | captureStdout => 1
  | captureStderr => 2
  | captureAll => 3

/-- `capture & flag`. -/
def Capture.has (capture flag : Capture) : Bool := (capture.value &&& flag.value) ≠ 0

def modifyVars (f : IoVars → IoVars) : Prog IoState Unit :=
  modify fun s => { s with vars := f s.vars }

/-! ### Messages -/

/-- `cldm_log_stream`. -/
def logStream (stream : Option ℕ) (text : List UInt8) : Prog IoState Unit :=
  fprintf (stream.getD stdout) (text ++ [newline])

/-- `cldm_err`. -/
def ioErr (text : List UInt8) : Prog IoState Unit := do
  fprintf ((← get).vars.stderr.getD stderr) (ascii "Error: " ++ text ++ [newline])

/-- `cldm_warn`. -/
def ioWarn (text : List UInt8) : Prog IoState Unit := do
  fprintf ((← get).vars.stderr.getD stderr) (ascii "Warning: " ++ text ++ [newline])

section

variable (strerror : ℕ → List UInt8)

/-! ### Redirecting a stream -/

/-- `cldm_io_restore`. -/
def ioRestore (fp : ℕ) (fd : ℤ) : Prog IoState ℤ := do
  fflush fp
  let prevfd ← fileno fp
  close prevfd
  if (← dup2 fd (← fileno fp)) = -1 then
    ioErr (ascii "Could not restore file descriptor " ++ decimal fd ++ ascii ": " ++
      strerror (← get).errno)
    return -1
  return 0

/-- `cldm_io_redirect2`. -/
def ioRedirect2 (fp : ℕ) (path : List UInt8) : Prog IoState ℤ := do
  let fd ← openAppend path
  if fd = -1 then
    ioErr (ascii "Could not open " ++ path ++ ascii " for redirection: " ++
      strerror (← get).errno)
    return -1
  fflush fp
  let prevfd ← dup (← fileno fp)
  if (← dup2 fd (← fileno fp)) = -1 then
    ioErr (ascii "Could not redirect file descriptor " ++ decimal prevfd ++ ascii ": " ++
      strerror (← get).errno)
  if prevfd = (← fileno fp) then
    close fd
    return -1
  return prevfd

/-- `cldm_io_redirect3`. -/
def ioRedirect3 (fp : ℕ) (path : List UInt8) (replacement : ℕ) : Prog IoState ℤ := do
  let prevfd ← ioRedirect2 strerror fp path
  if prevfd = -1 then
    return prevfd
  if (← dup2 prevfd (← fileno replacement)) = -1 then
    ioErr (ascii "Could not replace stream associated with file descriptor " ++ decimal prevfd ++
      ascii ": " ++ strerror (← get).errno)
    let _ ← ioRestore strerror fp prevfd
    return -1
  return prevfd

/-- `cldm_io_capture_standard`. -/
def ioCaptureStandard (orig : ℕ) (path : List UInt8) (replaced : Replaced) :
    Prog IoState ℤ := do
  let replacement ← fopen path .write
  modifyVars (replaced.setStream replacement)
  match replacement with
  | none =>
    ioErr (ascii "Could not open " ++ path ++ ascii " for writing: " ++ strerror (← get).errno)
    return -1
  | some fp =>
    let fd ← ioRedirect3 strerror orig path fp
    modifyVars (replaced.setFd fd)
    if fd = -1 then
      ioErr (ascii "Redirection of " ++ decimal fd ++ ascii " failed")
      fclose fp
      return -1
    return 0

/-- `cldm_io_capture_stdout`. -/
def ioCaptureStdout : Prog IoState ℤ := ioCaptureStandard strerror stdout captureStdoutPath .out

/-- `cldm_io_capture_stderr`. -/
def ioCaptureStderr : Prog IoState ℤ := ioCaptureStandard strerror stderr captureStderrPath .err

/-! ### Restoring a stream -/

/-- `cldm_io_restore_stdout` and `cldm_io_restore_stderr`; the null pointer has no descriptor. -/
def ioRestoreStandard (replaced : Replaced) : Prog IoState ℤ := do
  let v := (← get).vars
  match replaced.stream v with
  | none => fun _ => none
  | some fp =>
    let status ← ioRestore strerror fp (replaced.fd v)
    fclose fp
    modifyVars (replaced.setStream none)
    return status

/-- `cldm_io_restore_stdout`. -/
def ioRestoreStdout : Prog IoState ℤ := ioRestoreStandard strerror .out

/-- `cldm_io_restore_stderr`. -/
def ioRestoreStderr : Prog IoState ℤ := ioRestoreStandard strerror .err

/-- `cldm_io_remove_captured_stdout` and `cldm_io_remove_captured_stderr`. -/
def ioRemoveCaptured (path : List UInt8) : Prog IoState ℤ := do
  if (← stat path) ≠ 0 then
    return 0
  let res ← remove path
  if res ≠ 0 then
    ioErr (ascii "Could not remove " ++ path ++ ascii ": " ++ strerror (← get).errno)
  return res

/-- `cldm_io_remove_captured_stdout`. -/
def ioRemoveCapturedStdout : Prog IoState ℤ := ioRemoveCaptured strerror captureStdoutPath

/-- `cldm_io_remove_captured_stderr`. -/
def ioRemoveCapturedStderr : Prog IoState ℤ := ioRemoveCaptured strerror captureStderrPath

/-! ### Capturing -/

/-- `cldm_io_capture_stream`; after an error it goes on. -/
def ioCaptureStream (capture : Capture) : Prog IoState Bool := do
  if capture.has .captureStdout then
    if (← ioCaptureStdout strerror) ≠ 0 then
      ioErr (ascii "Error redirecting stdout")
  if capture.has .captureStderr then
    if (← ioCaptureStderr strerror) ≠ 0 then
      ioErr (ascii "Error redirecting stderr")
  return true

/-- `cldm_io_capture_restore`. -/
def ioCaptureRestore (capture : Capture) : Prog IoState Unit := do
  if capture.has .captureStdout then
    let _ ← ioRemoveCapturedStdout strerror
    if (← get).vars.stdout.isSome then
      if (← ioRestoreStdout strerror) ≠ 0 then
        ioWarn (ascii "Failed to restore stdout")
  if capture.has .captureStderr then
    let _ ← ioRemoveCapturedStderr strerror
    if (← get).vars.stderr.isSome then
      if (← ioRestoreStderr strerror) ≠ 0 then
        ioWarn (ascii "Failed to restore stderr")

/-! ### Dumping what was captured -/

/-- The loop of `cldm_io_dump_to_stream`: a line is printed up to the byte before its first NUL
byte, and a store in front of the buffer is undefined. -/
def ioDumpBody (pgsize fp : ℕ) (dumpstream : Option ℕ) (_ : Unit) :
    Prog IoState (Unit ⊕ Unit) := do
  match ← fgets pgsize fp with
  | none => return .inr ()
  | some buffer =>
    let linelen := (buffer.takeWhile (· ≠ 0)).length
    if linelen = 0 then
      fun _ => none
    else
      logStream dumpstream (buffer.take (linelen - 1))
      return .inl ()

/-- `cldm_io_dump_to_stream`. -/
def ioDumpToStream (pgsize redirected : ℕ) (capture : List UInt8) (dumpstream : Option ℕ)
    (name : List UInt8) (fuel : ℕ) : Prog IoState ℤ := do
  fflush redirected
  match ← fopen capture .read with
  | none =>
    ioErr (ascii "Could not open " ++ capture ++ ascii " for reading: " ++
      strerror (← get).errno)
    return -1
  | some fp =>
    let fd ← fileno fp
    match ← fstat fd with
    | none =>
      ioErr (ascii "Could not stat captured " ++ name ++ ascii ": " ++ strerror (← get).errno)
    | some size =>
      if size ≠ 0 then
        logStream dumpstream (ascii "\nCaptured " ++ name ++ ascii ":")
        fuelLoop (ioDumpBody pgsize fp dumpstream) fuel ()
    fclose fp
    return 0

/-- `cldm_io_dump_captured_stdout`. -/
def ioDumpCapturedStdout (pgsize : ℕ) (fp : Option ℕ) (fuel : ℕ) : Prog IoState ℤ :=
  ioDumpToStream strerror pgsize stdout captureStdoutPath fp (ascii "stdout") fuel

/-- `cldm_io_dump_captured_stderr`. -/
def ioDumpCapturedStderr (pgsize : ℕ) (fp : Option ℕ) (fuel : ℕ) : Prog IoState ℤ :=
  ioDumpToStream strerror pgsize stderr captureStderrPath fp (ascii "stderr") fuel

/-- `cldm_io_capture_dump`. -/
def ioCaptureDump (pgsize : ℕ) (capture : Capture) (file : Option (List UInt8)) (fuel : ℕ) :
    Prog IoState Bool := do
  let mut fp := none
  if let some file := file then
    fp ← fopen file .write
    if fp.isNone then
      ioErr (ascii "Could not open " ++ file ++ ascii " for reading: " ++ strerror (← get).errno)
      return false
  let mut success := true
  if capture.has .captureStdout then
    let status ← ioDumpCapturedStdout strerror pgsize (fp.or (← get).vars.stdout) fuel
    if status ≠ 0 then
      ioWarn (ascii "Could not read captured stdout")
      success := false
  if capture.has .captureStderr then
    let status ← ioDumpCapturedStderr strerror pgsize (fp.or (← get).vars.stderr) fuel
    if status ≠ 0 then
      ioWarn (ascii "Could not read captured stderr")
      success := false
  return success

end

end Cldm
