/-
Copying a process (src/process/process.cpp: the constructor,
`process_t::clone`, `copyArguments`; src/mm/memmgr.cpp:
`MemoryManager::clone`).

`clone` is called on the process that is copied, and gets the new one, which
has just been constructed. It goes through the fields one by one. Most of
them are written to the new process; `copyArguments` is a method as well,
and writes to the process it is called on, which is the old one.

# What is modelled

Both processes, with every field that `clone` reads or writes. A string is
its bytes up to the terminating zero, so that a copy of a string is equal to
it; the memory that old strings and argument lists take is left out, and
with it whether `copyArguments` frees them. A null pointer is `none`. What
the floating-point registers hold when they are saved comes in as a
parameter.
-/
import Puppy.Libc.Word
import Puppy.Mm.MemMgr
import Puppy.Proc.Priority

namespace Puppy.Proc

open Libc Mm

/-- `TaskStateSegment`, as far as the kernel sets it up for a process. -/
structure TaskStateSegment where
  esp0 : Nat := 0
  cr3 : Nat := 0
  eip : Nat := 0
  eflags : Nat := 0
  esp : Nat := 0
  cs : Nat := 0
  ss : Nat := 0
  deriving DecidableEq, Repr

/-- `memstats_t`. -/
structure MemStats where
  available : Nat := 0
  allocated : Nat := 0
  pagefaults : Nat := 0
  deriving DecidableEq, Repr

/-- `iostats_t`. -/
structure IoStats where
  read : Nat := 0
  written : Nat := 0
  deriving DecidableEq, Repr

/-- `runtimestats_t`. -/
structure RuntimeStats where
  runtime : Nat := 0
  ctxswitches : Nat := 0
  deriving DecidableEq, Repr

/-- `process_t`, as far as `clone` goes, with the values its constructor
leaves. -/
structure ProcessRecord where
  tss : TaskStateSegment := {}
  cr0 : Nat := 0
  path : Option CString := none
  args : Option (List CString) := none
  /-- The constructor's `"/"`. -/
  cwd : Option CString := some [0x2F]
  environ : Option (List CString) := none
  state : ProcessState := .new
  mmap : MemoryManager := .init
  quantum : Priority := {}
  scheduling : Priority := {}
  usedticks : Nat := 0
  fpstate : List UInt8 := []
  /-- `flags.system`. -/
  system : Bool := false
  memstats : MemStats := {}
  iostats : IoStats := {}
  runtimestats : RuntimeStats := {}
  sleeptill : Nat := 0
  deriving DecidableEq, Repr

namespace ProcessRecord

/-- The arguments. No array of them is the same as an empty one. -/
def argv (t : ProcessRecord) : List CString := t.args.getD []

/-- `copyArguments`: the process it is called on gets a new array, with
copies of the strings of the given one. -/
def copyArguments (t : ProcessRecord) (srcArgs : Option (List CString)) :
    ProcessRecord :=
  { t with args := some (srcArgs.getD []) }

/-- `fpsave`, with what the registers hold. -/
def fpsave (t : ProcessRecord) (fpu : List UInt8) : ProcessRecord :=
  { t with fpstate := fpu }

/-- `process_t::clone`, called on the process `self`: what it and the other
one are afterwards. -/
def clone (self other : ProcessRecord) (fpu : List UInt8) : ProcessRecord × ProcessRecord :=
  let other := { other with tss := self.tss, cr0 := self.cr0 }
  let other := { other with path := self.path }
  let self := self.copyArguments other.args
  let other := { other with cwd := self.cwd }
  let other := { other with environ := none }
  let other := { other with
    state := .new
    sleeptill := 0
    quantum := self.quantum
    scheduling := self.scheduling
    usedticks := 0 }
  let other := { other with mmap := self.mmap }
  let self := self.fpsave fpu
  let other := { other with fpstate := self.fpstate }
  let other := { other with system := self.system }
  let other := { other with
    memstats := { other.memstats with allocated := 0, pagefaults := 0 }
    iostats := { read := 0, written := 0 }
    runtimestats := { other.runtimestats with runtime := 0 } }
  let other := { other with
    quantum := self.quantum
    scheduling := self.scheduling }
  (self, other)

-- ==== what a copy is

/-- What a process keeps while it is copied. -/
structure Kept (t t' : ProcessRecord) : Prop where
  argv : t'.argv = t.argv
  path : t'.path = t.path
  cwd : t'.cwd = t.cwd
  quantum : t'.quantum = t.quantum
  scheduling : t'.scheduling = t.scheduling

/-- What the copy has in common with it. -/
structure CopyOf (t u : ProcessRecord) : Prop where
  argv : u.argv = t.argv
  path : u.path = t.path
  cwd : u.cwd = t.cwd
  regions : u.mmap.mRegions = t.mmap.mRegions

/-- `clone` leaves the one process alone and makes a copy of the other. -/
def ClonesCleanly (self other : ProcessRecord) (fpu : List UInt8) : Prop :=
  self.Kept (self.clone other fpu).1 ∧ self.CopyOf (self.clone other fpu).2

end ProcessRecord

end Puppy.Proc
