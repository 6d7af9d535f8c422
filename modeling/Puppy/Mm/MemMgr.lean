/-
The memory manager of a process (src/mm/memmgr.cpp,
include/mm/memmgr.h): the list of its regions.

Page 0 and the kernel half stand in the list like regions of the process,
so that a search never hands them out. A region that a caller adds with
explicit bounds (a segment of an executable, a guard page) is not checked
against the list at all, and it gets the default permission, which is that
of kernel memory.
-/
import Puppy.Mm.Virt

namespace Puppy.Mm

open Libc

/-- `region_t`. -/
structure Region extends Interval where
  permission : MapOptions := .kernel
  /-- The size of the file mapped here, if there is one. -/
  mmap_data : Option Nat := none
  deriving DecidableEq, Repr

instance : IsInterval Region := ⟨Region.toInterval⟩

namespace Region

/-- The same addresses. -/
def sameBounds (r other : Region) : Bool :=
  r.frm == other.frm && r.upto == other.upto

end Region

/-- `toPage`: a size rounded up to whole pages. -/
def toPage (size : Nat) : Nat :=
  if size % gPageSize = 0 then size
  else add32 (size - size % gPageSize) gPageSize

/-- One round of the loop of `cleanupAllRegions`, over the regions as they
are by now. The loop's iterator survives the removal of the first element of
the list only. -/
def cleanupRound {σ α : Type} [IsInterval α] (regions : List α) (rgn : α)
    (removeRegion : Except Panic σ) (s : σ) : Except Panic σ :=
  if iskernel (ival rgn).frm then .ok s
  else
    match regions with
    | [] => .error .fault
    | first :: _ => if ival first = ival rgn then removeRegion else .error .fault

structure MemoryManager where
  mRegions : List Region
  mAllRegionsSize : Nat
  deriving DecidableEq, Repr

namespace MemoryManager

/-- The constructor. -/
def init : MemoryManager :=
  { mRegions := IntervalList.add { frm := 0xC0000000, upto := 0xFFFFFFFF }
      (IntervalList.add { frm := 0, upto := 0xFFF } [])
    mAllRegionsSize := 0 }

def isWithinRegion (mm : MemoryManager) (vm : Vm) (addr : Nat) : Option Region :=
  if page addr = 0 then none
  else if iskernel addr then
    match vm.isWithinKernelRegion addr with
    | some i => some { frm := i.frm + gKernelBase, upto := i.upto + gKernelBase }
    | none => none
  else IntervalList.contains addr mm.mRegions

-- ==== permissions

/-- The first region with these bounds gets another permission. -/
def setPermission (rgn : Region) (opts : MapOptions) : List Region → List Region
  | [] => []
  | r :: rest =>
    if r.sameBounds rgn then { r with permission := opts } :: rest
    else r :: setPermission rgn opts rest

/-- The loop body of `protectRegionAtAddress`: a COW page is left alone
when it should become writable. -/
def protectPage (new_opts : MapOptions) (vm : Vm) (pp : Nat) : Vm :=
  match vm.mapped pp {} with
  | some page_opts =>
    if new_opts.rw && page_opts.cow then vm
    else vm.newoptions pp { page_opts with rw := new_opts.rw }
  | none =>
    match vm.zeroPageMapped pp {} with
    | some page_opts => vm.newoptions pp { page_opts with rw := new_opts.rw }
    | none => vm

def protectRegionAtAddress (mm : MemoryManager) (vm : Vm) (addr : Nat)
    (new_opts : MapOptions) : Option (MemoryManager × Vm) :=
  match mm.isWithinRegion vm addr with
  | none => none
  | some rgn =>
    some ({ mm with mRegions := setPermission rgn new_opts mm.mRegions },
      (Vm.pagesUpto rgn.frm rgn.upto).foldl (protectPage new_opts) vm)

-- ==== adding and removing regions

def addRegion (mm : MemoryManager) (rgn : Region) : MemoryManager :=
  { mRegions := IntervalList.add rgn mm.mRegions
    mAllRegionsSize := add32 mm.mAllRegionsSize rgn.size }

def findRegionImpl (mm : MemoryManager) (size : Nat) : Option Interval :=
  IntervalList.findFree 0xFFFFFFFF (toPage size) mm.mRegions

/-- `findAndMapRegion`: every page gets memory at once. -/
def findAndMapRegion (mm : MemoryManager) (vm : Vm) (size : Nat) (opts : MapOptions) :
    Except Panic (Option (Region × MemoryManager × Vm)) :=
  match mm.findRegionImpl size with
  | none => .ok none
  | some range => do
    let rgn : Region := { toInterval := range, permission := opts }
    let vm ← (Vm.pagesBelow rgn.frm rgn.upto).foldlM
      (fun vm base => vm.mapAnyPhysicalPage base opts) vm
    .ok (some (rgn, mm.addRegion rgn, vm))

/-- `findAndZeroPageRegion`: a page gets memory when it is touched. -/
def findAndZeroPageRegion (mm : MemoryManager) (vm : Vm) (size : Nat)
    (opts : MapOptions) : Option (Region × MemoryManager × Vm) :=
  match mm.findRegionImpl size with
  | none => none
  | some range =>
    let rgn : Region := { toInterval := range, permission := opts }
    some (rgn, mm.addRegion rgn, vm.mapZeroPages rgn.frm rgn.upto opts)

/-- `findAndFileMapRegion`, for a valid file handle. -/
def findAndFileMapRegion (mm : MemoryManager) (vm : Vm) (size : Nat) :
    Option (Region × MemoryManager × Vm) :=
  match mm.findRegionImpl size with
  | none => none
  | some range =>
    let opts : MapOptions := { rw := true, user := true }
    let rgn : Region :=
      { toInterval := range, permission := opts, mmap_data := some size }
    some (rgn, mm.addRegion rgn, vm.mapZeroPages rgn.frm rgn.upto opts)

/-- `addMappedRegion` and `addUnmappedRegion`, which do the same. -/
def addUncheckedRegion (mm : MemoryManager) (frm upto : Nat) :
    MemoryManager :=
  mm.addRegion { frm := frm, upto := upto }

def removeRegion (mm : MemoryManager) (vm : Vm) (rgn : Region) :
    Except Panic (MemoryManager × Vm) :=
  match IntervalList.del rgn mm.mRegions with
  | none => .ok (mm, vm)
  | some regions => do
    let vm ← (Vm.pagesBelow rgn.frm rgn.upto).foldlM Vm.unmap vm
    .ok ({ mRegions := regions
           mAllRegionsSize := sub32 mm.mAllRegionsSize rgn.size }, vm)

def cleanupRegion (st : MemoryManager × Vm) (rgn : Region) : Except Panic (MemoryManager × Vm) :=
  let (mm, vm) := st
  cleanupRound mm.mRegions rgn (mm.removeRegion vm rgn) (mm, vm)

def cleanupAllRegions (mm : MemoryManager) (vm : Vm) : Except Panic (MemoryManager × Vm) :=
  mm.mRegions.foldlM cleanupRegion (mm, vm)

-- ==== what user code is told

/-- `syscall_error_code`. -/
def errorCode (code : Nat) : Nat := code * 32 + 1

/-- `mmap_syscall_handler`, for a file that is not mapped yet: the answer,
and what becomes of the memory. -/
def mmapHandler (mm : MemoryManager) (vm : Vm) (size : Nat) : Nat × MemoryManager × Vm :=
  match mm.findAndFileMapRegion vm size with
  | none => (errorCode 5, mm, vm)
  | some (rgn, mm, vm) => (if rgn.frm ≠ 0 then rgn.frm * 2 % 0x100000000 else errorCode 5, mm, vm)

/-- `mapregion_syscall_handler`. -/
def mapregionHandler (mm : MemoryManager) (vm : Vm) (size : Nat)
    (rw : Bool) : Nat × MemoryManager × Vm :=
  if offset size ≠ 0 then (errorCode 8, mm, vm)
  else
    match mm.findAndZeroPageRegion vm size
        { user := true, clear := true, cached := true, rw := rw } with
    | none => (errorCode 5, mm, vm)
    | some (rgn, mm, vm) => (if rgn.frm ≠ 0 then rgn.frm else errorCode 5, mm, vm)

/-- What newlib's `mmap` makes of the answer. -/
def mmapResult (ptr : Nat) : Nat :=
  if ptr % 2 = 1 then 0xFFFFFFFF else ptr / 2

/-- What newlib's `mapregion` makes of the answer. -/
def mapregionResult (mo : Nat) : Nat := if mo % 2 = 1 then 0 else mo

/-- A file mapped into the user half is where `mmap` says. -/
def MmapTells (mm : MemoryManager) (vm : Vm) (size : Nat) : Prop :=
  ∀ rgn mm' vm', mm.findAndFileMapRegion vm size = some (rgn, mm', vm') →
    rgn.frm < gKernelBase → mmapResult (mm.mmapHandler vm size).1 = rgn.frm

/-- The same for `mapregion`. -/
def MapregionTells (mm : MemoryManager) (vm : Vm) (size : Nat) (rw : Bool) :
    Prop :=
  ∀ rgn mm' vm', offset size = 0 → mm.findAndZeroPageRegion vm size
      { user := true, clear := true, cached := true, rw := rw }
        = some (rgn, mm', vm') → rgn.frm < gKernelBase →
    mapregionResult (mm.mapregionHandler vm size rw).1 = rgn.frm

/-- If there is room for `size` bytes in the user half, it starts at an
address with this property. -/
def RoomAt (P : Nat → Prop) (mm : MemoryManager) (size : Nat) : Prop :=
  ∀ range, mm.findRegionImpl size = some range → range.frm < gKernelBase → P range.frm

end MemoryManager

end Puppy.Mm
