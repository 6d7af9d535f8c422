/-
`vmcheckreadable` and `vmcheckwritable` (src/syscalls/impl/mem.cpp): a
process asks beforehand whether it may read or write a range.

The answer is taken from the page tables, one page after the other, with the
bits as they are: whether the page is there or is going to be zeros, whether
it is the process's, and whether it is writable. An access is more than
that. A page that waits to be copied is not writable by its bits, and a page
that the clone has left out is not there at all; the process can use both.
What a page of zeros is going to be is decided by its region, which may have
a file.

The range is computed in 32 bits and may end before it starts.
-/
import Puppy.Mm.Access

namespace Puppy.Mm

open Libc PageFault

-- ==== the system calls

def isSamePage (start sz : Nat) : Bool :=
  decide (page start = page (sub32 (add32 start sz) 1))

/-- The loop of `checkPageRange`, for so many rounds. Behind the last page
of the address space it goes on with the first one. -/
def checkPages (checkf : Nat → Bool) (pg_stop : Nat) : Nat → Nat → Option Bool
  | 0, _ => none
  | n + 1, pg_start =>
    if pg_start ≤ pg_stop then
      if checkf pg_start then
        checkPages checkf pg_stop n (add32 pg_start gPageSize)
      else some false
    else some true

/-- `checkPageRange`: nothing if it has not come to an end when it has been
at every page. -/
def checkPageRange (address sz : Nat) (checkf : Nat → Bool) : Option Bool :=
  if isSamePage address sz then some (checkf (page address))
  else
    checkPages checkf (page (sub32 (add32 address sz) 1)) (gNumPages + 1) (page address)

namespace Vm

def isPageReadable (vm : Vm) (pg : Nat) : Bool :=
  match vm.mapped pg {} with
  | some options => options.user
  | none =>
    match vm.zeroPageMapped pg {} with
    | some options => options.user
    | none => false

def isPageWritable (vm : Vm) (pg : Nat) : Bool :=
  match vm.mapped pg {} with
  | some options => options.user && options.rw
  | none =>
    match vm.zeroPageMapped pg {} with
    | some options => options.user && options.rw
    | none => false

/-- `vmcheckreadable_syscall_handler`: whether it says `OK`. -/
def vmcheckreadable (vm : Vm) (address sz : Nat) : Option Bool :=
  checkPageRange address sz vm.isPageReadable

/-- `vmcheckwritable_syscall_handler`: whether it says `OK`. -/
def vmcheckwritable (vm : Vm) (address sz : Nat) : Option Bool :=
  checkPageRange address sz vm.isPageWritable

end Vm

-- ==== the truth

namespace System

/-- The system call for an access of the given kind. -/
def vmcheck (s : System) (t : Task) (write : Bool) (address sz : Nat) : Option Bool :=
  if write then (s.view t).vmcheckwritable address sz
  else (s.view t).vmcheckreadable address sz

/-- The access goes through, at once or after faults. -/
def Grants (s : System) (t : Task) (vaddr : Nat) (write : Bool) (file : FileRead) : Prop :=
  ∃ byte, s.outcome t vaddr write file = .ok (some byte)

/-- There is an answer, and it says of a range whether it is one and all of
it can be accessed. What files answer may depend on the address. -/
def TellsTruth (s : System) (t : Task) (write : Bool)
    (file : Nat → FileRead) (address sz : Nat) : Prop :=
  ∃ ok, s.vmcheck t write address sz = some ok ∧ (ok = true ↔ address + sz ≤ 0x100000000 ∧
      ∀ k < sz, s.Grants t (address + k) write (file (address + k)))

end System

-- ==== what the bits show

section

variable (room : Bool) (e : TableEntry) (region : Option Region) (vaddr : Nat) (write : Bool)
  (file : FileRead)

/-- The page is there, or is going to be zeros, and the bits of its entry
let the process in. -/
def TableEntry.shown : Bool :=
  (e.present || e.cow) && e.user && (e.rw || !write)

/-- What it takes to get a page that is not there: memory, a region with the
rights, and a file that has the page. -/
def granted : Bool :=
  room && match region with
    | none => false
    | some r =>
      r.permission.user && match r.mmap_data, file with
        | some (size + 1), .bytes _ => r.permission.rw && decide (vaddr - r.frm ≤ size + 1)
        | some (_ + 1), _ => false
        | _, _ => r.permission.rw || !write

/-- What it takes to get in: the rights of the entry, or memory for a copy;
or a page that is granted. -/
def admits : Bool :=
  if e.present then e.user && (e.rw || e.cow && room || !write)
  else granted room region vaddr write file

/-- What a page is to a process that asks. -/
inductive PageClass where
  /-- It shows the right, and there is one. -/
  | openly
  /-- There is a right that it does not show: the page waits to be copied, or
  is not there and its region has the right. -/
  | hidden
  /-- It shows a right that there is not: it is going to be zeros, and there
  is no memory for it, or its region or its file is against it. -/
  | hollow
  | barred
deriving DecidableEq

/-- The class of an address. A page that is there is never hollow. -/
def pageClass : PageClass :=
  if e.present then
    if !e.user then .barred
    else if e.rw || !write then .openly
    else if e.cow && room then .hidden
    else .barred
  else if e.cow && e.user && (e.rw || !write) then
    if granted room region vaddr write file then .openly else .hollow
  else if granted room region vaddr write file then .hidden
  else .barred

end

namespace System

variable (s : System) (t : Task) (write : Bool) (file : Nat → FileRead)

/-- The entry of an address shows the right to access it. -/
def shows (vaddr : Nat) : Bool :=
  ((s.view t).entry vaddr).shown write

/-- A process is admitted to an address. -/
def admitted (vaddr : Nat) : Bool :=
  admits s.pmm.alloc.isSome ((s.view t).entry vaddr)
    (t.mm.isWithinRegion (s.view t) vaddr) vaddr write (file vaddr)

def classOf (vaddr : Nat) : PageClass :=
  pageClass s.pmm.alloc.isSome ((s.view t).entry vaddr)
    (t.mm.isWithinRegion (s.view t) vaddr) vaddr write (file vaddr)

/-- A range with an address that is barred, or with none that is hidden or
hollow, or with both. A range that wraps around comes back to its first page,
whose entry does not show the right. -/
def Candid (address sz : Nat) : Prop :=
  if address + sz ≤ 0x100000000 then
    (∃ k < sz, s.classOf t write file (address + k) = .barred) ∨
    ((∃ k < sz, s.classOf t write file (address + k) = .hidden) ↔
      ∃ k < sz, s.classOf t write file (address + k) = .hollow)
  else
    page address = page (address + sz - 1 - 0x100000000) ∧ s.shows t write address = false

end System

end Puppy.Mm
