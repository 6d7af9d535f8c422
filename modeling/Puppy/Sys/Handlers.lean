/-
System calls that take a descriptor or a pid (src/syscalls/impl/fs.cpp,
src/syscalls/impl/process.cpp).

A process names a file by an index into its descriptor table, and another
process by an index into the process table. It may pass any 32-bit number
for either; where the handler declares a 16-bit argument, the upper half is
dropped. There is no common place at which the number is checked.

What the filesystem answers to a call on an open file (how many bytes were
read, whether the position could be set) is up to the filesystem and a
parameter here. So are the buffers.
-/
import Puppy.Fs.Files
import Puppy.Proc.Priority

namespace Puppy.Sys

open Fs Proc Lib

/-- The error codes of the calls (include/syscalls/errors.h). -/
inductive Errno where
  | noSuchFile
  | notAFile
  | noSuchProcess
  | notAllowed
  deriving DecidableEq, Repr

/-- `syscall_response_t`. -/
inductive Response where
  | ok (value : Nat)
  | err (code : Errno)
  deriving DecidableEq, Repr

/-- What remains of a number passed as a `uint16_t`. -/
def toUInt16 (n : Nat) : Nat := n % 0x10000

-- ==== descriptors

section Descriptors

variable (s : Files) (pid fid : Nat)

/-- How every handler but that of `fclose` begins: an index without a handle
is no file. -/
def withHandle (k : FileHandle → Except Panic (Response × Files)) :
    Except Panic (Response × Files) := do
  let t ← s.proc pid
  match (← t.fds.is fid) with
  | none => .ok (.err .noSuchFile, s)
  | some file => k file

/-- `kind`, as far as `asFile` and `asDirectory` go. -/
def isDirectory : FileHandle → Except Panic Bool
  | .tty => .ok false
  | .opened o => do
    let object ← s.deref o
    .ok object.directory

/-- A call on a file (`directory = false`) or on a directory, and the answer
to it. -/
def onKind (directory : Bool) (answer : Response) : Except Panic (Response × Files) :=
  withHandle s pid fid fun file => do
    if (← isDirectory s file) = directory then .ok (answer, s)
    else .ok (.err .notAFile, s)

/-- The answer of an operation that can fail. -/
def answered (done : Bool) : Response :=
  if done then .ok 0 else .err .noSuchFile

/-- `fread_syscall_handler`. -/
def fread (sz : Nat) : Except Panic (Response × Files) :=
  onKind s pid fid false (.ok sz)

/-- `fwrite_syscall_handler`. -/
def fwrite (sz : Nat) : Except Panic (Response × Files) :=
  onKind s pid fid false (.ok sz)

/-- `fseek_syscall_handler`. -/
def fseek (done : Bool) : Except Panic (Response × Files) :=
  onKind s pid fid false (answered done)

/-- `ftell_syscall_handler`, with a descriptor of 16 bits. -/
def ftell (done : Bool) : Except Panic (Response × Files) :=
  onKind s pid (toUInt16 fid) false (answered done)

/-- `fioctl_syscall_handler`. -/
def fioctl (ret : Nat) : Except Panic (Response × Files) :=
  onKind s pid fid false (.ok ret)

/-- `freaddir_syscall_handler`, with a descriptor of 16 bits. -/
def freaddir (more : Bool) : Except Panic (Response × Files) :=
  onKind s pid (toUInt16 fid) true (answered more)

/-- `fstat_syscall_handler`, which takes both kinds. -/
def fstat (done : Bool) : Except Panic (Response × Files) :=
  withHandle s pid fid fun file => do
    let _ ← isDirectory s file
    .ok (answered done, s)

/-- `fclose_syscall_handler`. An index without a handle is cleared as
well. -/
def fclose : Except Panic (Response × Files) := do
  let t ← s.proc pid
  let response := match (← t.fds.is fid) with
    | some .tty => Response.err .noSuchFile
    | some (.opened _) => .ok 0
    | none => .ok 0
  let s ← s.fclose pid fid
  .ok (response, s)

/-- `fdup_syscall_handler`. -/
def fdup (minNewFid : Nat) : Except Panic (Response × Files) :=
  withHandle s pid fid fun _ => do
    let t ← s.proc pid
    let response := match t.fds.freeSlot minNewFid with
      | some newfid => Response.ok newfid
      | none => .err .noSuchFile
    let s ← s.fdup pid fid minNewFid
    .ok (response, s)

end Descriptors

/-- The calls on a descriptor, with what the filesystem answers. -/
inductive FileCall where
  | fclose
  | fread (sz : Nat)
  | fwrite (sz : Nat)
  | fstat (done : Bool)
  | fseek (done : Bool)
  | ftell (done : Bool)
  | fioctl (ret : Nat)
  | freaddir (more : Bool)
  | fdup (minNewFid : Nat)
  deriving DecidableEq, Repr

/-- What the process `pid` gets for a call on the descriptor `fid`. -/
def FileCall.handle (s : Files) (pid fid : Nat) : FileCall → Except Panic (Response × Files)
  | .fclose => Sys.fclose s pid fid
  | .fread sz => Sys.fread s pid fid sz
  | .fwrite sz => Sys.fwrite s pid fid sz
  | .fstat done => Sys.fstat s pid fid done
  | .fseek done => Sys.fseek s pid fid done
  | .ftell done => Sys.ftell s pid fid done
  | .fioctl ret => Sys.fioctl s pid fid ret
  | .freaddir more => Sys.freaddir s pid fid more
  | .fdup minNewFid => Sys.fdup s pid fid minNewFid

/-- The index that a call uses for the number it is passed. -/
def FileCall.index (fid : Nat) : FileCall → Nat
  | .ftell _ => toUInt16 fid
  | .freaddir _ => toUInt16 fid
  | _ => fid

-- ==== pids

section Pids

variable (s : State) (self : Ptr) (pid : Nat)

/-- `collect_syscall_handler`, up to the first switch. -/
def collect : Except Panic (Response × State) := do
  let s ← s.collect self (toUInt16 pid)
  .ok (.ok 0, s)

/-- `ProcessManager::kill`. What it does to another process is write to its
stack and its hardware context. The line that logs the call reads the pid
of the process before anything is known about it. -/
def kill (es : Nat) (closed : List QueueId) : Except Panic (Bool × State) := do
  let k ← s.deref self
  match (← s.gProcessTable.get (toUInt16 pid)) with
  | none => .error .fault
  | some task =>
    let t ← s.deref task
    if task = self then
      let s ← s.exit self es closed
      .ok (true, s)
    else if t.system && !k.system then .ok (false, s)
    else .ok (true, s)

/-- `kill_syscall_handler`. -/
def killHandler (es : Nat) (closed : List QueueId) : Except Panic (Response × State) := do
  let (done, s) ← kill s self pid es closed
  .ok (if done then .ok 0 else .err .notAllowed, s)

/-- `prioritize_syscall_handler`. -/
def prioritize (setmax : PrioritizeTarget) (prio_in : Option ExecPriority) :
    Except Panic (Response × State) := do
  let (response, s) ← s.prioritize self (toUInt16 pid) setmax prio_in
  .ok (match response with
    | .ok _ => .ok 0
    | .notAllowed => .err .notAllowed
    | .noSuchProcess => .err .noSuchProcess, s)

end Pids

/-- The calls on a pid. `closed` are the objects that a process which kills
itself leaves. -/
inductive ProcessCall where
  | collect
  | kill (es : Nat) (closed : List Nat)
  | prioritize (setmax : PrioritizeTarget) (prio_in : Option ExecPriority)
  deriving DecidableEq, Repr

/-- What the process `self` gets for a call on `pid`. -/
def ProcessCall.handle (s : State) (self : Ptr) (pid : Nat) :
    ProcessCall → Except Panic (Response × State)
  | .collect => Sys.collect s self pid
  | .kill es closed => Sys.killHandler s self pid es (closed.map QueueId.object)
  | .prioritize setmax prio_in => Sys.prioritize s self pid setmax prio_in

-- ==== what is asked of them

/-- A call stays inside the table, and answers with an error if what it is
asked for does not exist. -/
def Rejects {σ : Type} (result : Except Panic (Response × σ)) (missing : Prop) : Prop :=
  result ≠ .error .outOfBounds ∧ (missing → ∃ code s', result = .ok (.err code, s'))

/-- There is no open file with this index. -/
def NoFile (t : FileProcess) (idx : Nat) : Prop :=
  gNumFds ≤ idx ∨ t.fds.slots idx = none

/-- There is no process with this pid. -/
def NoProcess (s : State) (pid : Pid) : Prop :=
  s.gProcessTable.mTable pid = none

/-- There is no child of the process `k` with this pid. -/
def NoChild (s : State) (k : Process) (pid : Pid) : Prop :=
  ¬ ∃ p t, s.gProcessTable.mTable pid = some p ∧ s.procs p = some t ∧ t.ppid = k.pid

/-- What has to be rejected. Only a child can be collected. -/
def ProcessCall.Missing (s : State) (k : Process) (pid : Pid) : ProcessCall → Prop
  | .collect => NoChild s k pid
  | _ => NoProcess s pid

/-- The descriptors that do no harm. -/
def FileCall.Harmless (t : FileProcess) (idx : Nat) : FileCall → Prop
  | .fclose => idx < gNumFds ∧ t.fds.slots idx ≠ none
  | _ => idx < gNumFds

/-- The slot is free, and not below the one that `fdup` is asked for. -/
def Suits (t : FileProcess) (minNewFid i : Nat) : Prop :=
  minNewFid ≤ i ∧ i < gNumFds ∧ t.fds.slots i = none

/-- `fdup` puts the handle into the lowest slot that suits and leaves the
others as they are, and says which; it fails where nothing is open or
nothing suits, and nowhere else. -/
def DupsLowest (s : Files) (pid : Nat) (t : FileProcess) (fid minNewFid : Nat) : Prop :=
  (∃ file newfid s' fds, fdup s pid fid minNewFid = .ok (.ok newfid, s') ∧
    fid < gNumFds ∧ t.fds.slots fid = some file ∧
    IsLeast {i | Suits t minNewFid i} newfid ∧
    s'.procs pid = some { t with fds := fds } ∧
    fds.slots = Function.update t.fds.slots newfid (some file)) ∨
  ∃ code s', fdup s pid fid minNewFid = .ok (.err code, s') ∧
    (NoFile t fid ∨ ∀ i, ¬ Suits t minNewFid i)

/-- The pids that do no harm. -/
def ProcessCall.Harmless (s : State) (k : Process) (pid : Pid) : ProcessCall → Prop
  | .collect => pid < gNumProcesses ∧ ¬ NoChild s k pid
  | .kill _ _ => pid < gNumProcesses ∧ ¬ NoProcess s pid
  | .prioritize _ _ => pid < gNumProcesses

end Puppy.Sys
