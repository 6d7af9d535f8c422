/-
Page faults (src/mm/pagefault.cpp) and the accesses that cause them.

The handler decides from the table entry alone whether a fault can be
recovered from: an entry that is not present and points nowhere is looked
up in the region list, a present read-only entry with the COW bit is
copied. The region that a copied page belongs to is not consulted.

# Accesses

A user access goes through if the entry allows it; otherwise it faults,
and if the handler recovers, the processor tries again. An access that is
not recovered from kills the process. The kernel runs with write
protection on, so its own accesses obey the same writable bit.

What a memory-mapped file answers when its page is read in is not
determined by the model, and comes in as a parameter.
-/
import Puppy.Mm.MemMgr

namespace Puppy.Mm

open Libc

/-- What reading a page of a file gives. -/
inductive FileRead where
  /-- The file cannot be positioned there. -/
  | noSeek
  /-- Nothing is read. -/
  | nothing
  | bytes (content : Nat → UInt8)

namespace PageFault

/-- `mmap_fault_recover`, for a region with a file of the given size. A
page that is not writable cannot be filled: the kernel's own write to it
faults. -/
def mmapFaultRecover (vm : Vm) (vaddr : Nat) (rgn : Region) (size : Nat)
    (file : FileRead) : Except Panic (Bool × Vm) :=
  if size < vaddr - rgn.frm then .ok (false, vm)
  else
    match file with
    | .noSeek => .ok (false, vm)
    | .nothing => do
      let vm ← vm.mapAnyPhysicalPage (page vaddr)
        { rgn.permission with clear := true }
      .ok (false, vm)
    | .bytes content => do
      let vm ← vm.mapAnyPhysicalPage (page vaddr)
        { rgn.permission with clear := true }
      if (vm.entry vaddr).rw then
        .ok (true, vm.setMemory (vm.entry vaddr).page content)
      else .ok (false, vm)

/-- `zeropage_recover`. -/
def zeropageRecover (mm : MemoryManager) (vm : Vm) (vaddr : Nat)
    (file : FileRead) : Except Panic (Bool × Vm) :=
  match mm.isWithinRegion vm vaddr with
  | none => .ok (false, vm)
  | some region =>
    match region.mmap_data with
    | some (size + 1) => mmapFaultRecover vm vaddr region (size + 1) file
    | _ => do
      let vm ← vm.mapAnyPhysicalPage (page vaddr) region.permission
      .ok (true, vm)

/-- `cow_recover`. -/
def cowRecover (vm : Vm) (vaddr : Nat) : Except Panic (Bool × Vm) :=
  match vm.mapped vaddr {} with
  | none => .ok (false, vm)
  | some opts => do
    match (← vm.clonePage vaddr opts) with
    | none => .ok (false, vm)
    | some vm => .ok (true, vm)

/-- `pageflt_handler`: whether the access may be tried again. -/
def pagefltHandler (mm : MemoryManager) (vm : Vm) (vaddr : Nat)
    (write : Bool) (file : FileRead) : Except Panic (Bool × Vm) :=
  if vm.isZeroPageAccess vaddr then zeropageRecover mm vm vaddr file
  else if vm.isCOWAccess write vaddr then cowRecover vm vaddr
  else .ok (false, vm)

/-- The processor lets a user access through. -/
def permits (e : TableEntry) (write : Bool) : Bool :=
  e.present && e.user && (e.rw || !write)

/-- A user access, tried up to so many times. -/
def access (mm : MemoryManager) (vaddr : Nat) (write : Bool)
    (file : FileRead) : Nat → Vm → Except Panic (Bool × Vm)
  | 0, vm => .ok (false, vm)
  | n + 1, vm =>
    if permits (vm.entry vaddr) write then .ok (true, vm)
    else do
      let (again, vm) ← pagefltHandler mm vm vaddr write file
      if again then access mm vaddr write file n vm else .ok (false, vm)

/-- A user access. A page that has been read in may have to be copied, and
after that there is nothing left to recover from. -/
def userAccess (mm : MemoryManager) (vm : Vm) (vaddr : Nat) (write : Bool)
    (file : FileRead) : Except Panic (Bool × Vm) :=
  access mm vaddr write file 3 vm

/-- An access of the kernel to a page of the process that may not have
memory yet. -/
def kernelTouch (mm : MemoryManager) (vm : Vm) (vaddr : Nat) : Except Panic (Bool × Vm) :=
  if (vm.entry vaddr).present then .ok ((vm.entry vaddr).rw, vm)
  else if vm.isZeroPageAccess vaddr then do
    let (again, vm) ← zeropageRecover mm vm vaddr .noSeek
    .ok (again && (vm.entry vaddr).rw, vm)
  else .ok (false, vm)

end PageFault

end Puppy.Mm
