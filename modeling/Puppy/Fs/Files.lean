/-
Open files (src/fs/filesystem.cpp, src/fs/vfs.cpp: `filehandle_t`, and
`fclose` and `fdup` in src/syscalls/impl/fs.cpp).

A filesystem object has a reference count. The slots of the processes'
descriptor tables refer to objects. Each system call keeps the count up to
date by itself: `incref` before a handle is copied, `close` when one goes
away.

# What is modelled

A reference to a deleted object is a `fault`. How often `doClose` has run
for an object is written down. What it does, which is up to the filesystem,
is left out, and so is the number of open objects that each filesystem
keeps. The file of a terminal belongs to no filesystem. It has a count too,
but nothing looks at it.

The calls that open objects, and the memory regions that files are mapped
to, are not modelled: a table is what it is when a call begins.
-/
import Puppy.Fs.Handletable

namespace Puppy.Fs

open Lib Function

-- ==== objects and handles

abbrev ObjectId := Nat

/-- `FilesystemObject`. -/
structure Object where
  mRefcount : Nat := 1
  /-- The kind is one of a directory (`DIR_LIKE` in file_kinds.tbl). -/
  directory : Bool := false
  deriving DecidableEq, Repr

/-- `filehandle_t`. -/
inductive FileHandle where
  /-- The file of a terminal, without a filesystem. -/
  | tty
  /-- An object of a filesystem. -/
  | opened (object : ObjectId)
  deriving DecidableEq, Repr, Inhabited

/-- The object of a handle that `operator bool` accepts. -/
def FileHandle.object : FileHandle → Option ObjectId
  | .tty => none
  | .opened object => some object

/-- The size of the table `fds`. -/
def gNumFds : Nat := 64

/-- What a process has of files. -/
structure FileProcess where
  fds : Handletable FileHandle gNumFds := .empty

structure Files where
  objects : ObjectId → Option Object
  /-- How often `doClose` has run. -/
  closed : ObjectId → Nat
  procs : Nat → Option FileProcess

namespace Files

def proc (s : Files) (pid : Nat) : Except Panic FileProcess :=
  match s.procs pid with
  | some t => .ok t
  | none => .error .disabled

def setProc (s : Files) (pid : Nat) (t : FileProcess) : Files :=
  { s with procs := update s.procs pid (some t) }

def deref (s : Files) (o : ObjectId) : Except Panic Object :=
  match s.objects o with
  | some object => .ok object
  | none => .error .fault

/-- `incref`, which stops at the largest count. -/
def incref (s : Files) (o : ObjectId) : Except Panic Files := do
  let object ← s.deref o
  let wanted :=
    if object.mRefcount = 0xFFFFFFFF then object.mRefcount
    else object.mRefcount + 1
  .ok { s with
    objects := update s.objects o (some { object with mRefcount := wanted }) }

/-- `Filesystem::close`, with `decref`. -/
def close (s : Files) (o : ObjectId) : Except Panic Files := do
  let object ← s.deref o
  if object.mRefcount - 1 = 0 then
    .ok { s with
      objects := update s.objects o none
      closed := update s.closed o (s.closed o + 1) }
  else
    .ok { s with
      objects := update s.objects o (some { object with mRefcount := object.mRefcount - 1 }) }

/-- `incref` on the object of a handle. That of a terminal is not
counted here. -/
def increfOf (s : Files) : Option ObjectId → Except Panic Files
  | some o => s.incref o
  | none => .ok s

-- ==== system calls

/-- `fclose_syscall_handler`. -/
def fclose (s : Files) (pid fid : Nat) : Except Panic Files := do
  let t ← s.proc pid
  match (← t.fds.is fid) with
  | some .tty => .ok s
  | some (.opened o) =>
    let s ← s.close o
    let fds ← t.fds.clear fid
    .ok (s.setProc pid { t with fds := fds })
  | none =>
    let fds ← t.fds.clear fid
    .ok (s.setProc pid { t with fds := fds })

/-- A handle is counted, and then copied into a table if there is a free
slot. -/
def duplicate (s : Files) (pid : Nat) (file : FileHandle) (idx0 : Nat) : Except Panic Files := do
  let s ← s.increfOf file.object
  let t ← s.proc pid
  match t.fds.set file idx0 with
  | some fds => .ok (s.setProc pid { t with fds := fds })
  | none => .ok s

/-- `fdup_syscall_handler`. -/
def fdup (s : Files) (pid fid minNewFid : Nat) : Except Panic Files := do
  let t ← s.proc pid
  match (← t.fds.is fid) with
  | some file => s.duplicate pid file minNewFid
  | none => .ok s

/-- One process, which has no files. -/
def initial : Files :=
  { objects := fun _ => none
    closed := fun _ => 0
    procs := update (fun _ => none) 0 (some {}) }

theorem proc_eq {s : Files} {pid : Nat} {t : FileProcess} (h : s.procs pid = some t) :
    s.proc pid = .ok t := by
  unfold proc
  rw [h]

end Files

end Puppy.Fs
