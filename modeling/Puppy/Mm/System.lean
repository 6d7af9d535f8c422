/-
Processes and their memory (src/syscalls/impl/mem.cpp,
src/syscalls/impl/mmap.cpp, and the memory side of
src/process/manager.cpp and src/tasks/deleter.cpp).

Every process has an address space of its own, whose kernel half is shared
by all, and a memory manager. An action is something a process does that
concerns memory, from its creation to its deletion. Kernel code is not
preempted, so an action runs from its first effect to its last.

A system call that answers with an error leaves everything as it is. The
exception, an `exec` that is refused for its priority after its address
space has been made, is not a step here. A process that is killed for an
access exits, as one that exits by itself.

# The page directory

Every process can write to its own page directory, from user mode
(`AddressSpace.topEntry`), and make any memory its own. The tables of the
model are not in its memory, so it does not follow such a write: the run
ends there, and what holds in every run holds up to it.
-/
import Puppy.Mm.LoadElf
import Puppy.Proc.Process
import Puppy.Lib.Machine

namespace Puppy.Mm

open Libc Lib PageFault

inductive Status where
  /-- Spawned, with an executable still to be loaded. -/
  | created
  /-- Cloned, with its stack still to be made. -/
  | cloned
  | running
  /-- Exited, with its process object still to be freed. -/
  | exited
  deriving DecidableEq, Repr

/-- A process, as far as memory goes. -/
structure Task where
  status : Status
  space : AddressSpace
  table : Nat → TableEntry
  mm : MemoryManager
  /-- The addresses of the process object and of its two stacks. -/
  proc : Nat
  esp0start : Nat
  espstart : Nat

structure System where
  pmm : PhysicalPageManager
  memory : Nat → Nat → UInt8 := fun _ _ => 0
  /-- The entries of the shared half of the page tables. -/
  kernel : Nat → TableEntry := fun _ => {}
  mKernelRegions : List Interval := []
  mProcessPagesLow : Nat
  mProcessPagesHigh : Nat
  tasks : Nat → Option Task := fun _ => none

inductive MemAction where
  | spawn (p : Nat)
  | load (p : Nat) (image : Image)
  /-- `p` clones itself into `q`. -/
  | clone (p q : Nat)
  | cloneStart (p : Nat)
  | mapregion (p size perm : Nat)
  | mmap (p size : Nat)
  | unmapregion (p address : Nat)
  | setregionperms (p address perm : Nat)
  | read (p vaddr : Nat) (file : FileRead)
  | write (p vaddr : Nat) (byte : UInt8) (file : FileRead)
  | exit (p : Nat)
  | delete (p : Nat)

namespace System

-- ==== one process at a time

/-- What the manager reaches with a given user half. -/
def look (s : System) (table : Nat → TableEntry) : Vm :=
  { pmm := s.pmm
    memory := s.memory
    table := fun i => if i < gNumUserPages then table i else s.kernel i
    mKernelRegions := s.mKernelRegions }

/-- What the manager reaches while the process runs. -/
def view (s : System) (t : Task) : Vm := s.look t.table

/-- What the manager reaches when only the shared half matters. -/
def kernelView (s : System) : Vm := s.look fun _ => {}

/-- Take over what the manager has done to the shared half. -/
def storeKernel (s : System) (vm : Vm) : System :=
  { s with pmm := vm.pmm, memory := vm.memory, kernel := vm.table }

def setTask (s : System) (p : Nat) (t : Option Task) : System :=
  { s with tasks := Function.update s.tasks p t }

/-- Take over what the manager has done for the process. -/
def store (s : System) (p : Nat) (t : Task) (mm : MemoryManager) (vm : Vm) :
    System :=
  (s.storeKernel vm).setTask p (some { t with table := vm.table, mm := mm })

/-- The process with a pid, if it has the given status. -/
def find (s : System) (p : Nat) (status : Status) : Except Panic Task :=
  match s.tasks p with
  | some t => if t.status = status then .ok t else .error .disabled
  | none => .error .disabled

-- ==== creation

/-- The memory of the process object and of its stacks, and the place in
the process table. -/
def addTask (s : System) (p : Nat) (status : Status) (space : AddressSpace)
    (table : Nat → TableEntry) (mm : MemoryManager) : Except Panic System := do
  let opts : MapOptions := { clear := true, user := false, rw := true }
  let vm := s.kernelView
  let (proc, vm) ←
    vm.mapPageWithinRange s.mProcessPagesLow s.mProcessPagesHigh opts
  let (esp0, vm) ←
    vm.mapPageWithinRange s.mProcessPagesLow s.mProcessPagesHigh opts
  let (esp, vm) ←
    vm.mapPageWithinRange s.mProcessPagesLow s.mProcessPagesHigh opts
  .ok ((s.storeKernel vm).setTask p (some ⟨status, space, table, mm, proc, esp0, esp⟩))

/-- The pid is free. -/
def vacant (s : System) (p : Nat) : Bool :=
  decide (p < Proc.gNumProcesses) && (s.tasks p).isNone

/-- `exec` and `spawn`. -/
def spawn (s : System) (p : Nat) : Except Panic System :=
  if s.vacant p then do
    let (space, pmm) ← createAddressSpace s.pmm
    addTask { s with pmm := pmm } p .created space (fun _ => {}) MemoryManager.init
  else .error .disabled

/-- `cloneProcess`. -/
def clone (s : System) (p q : Nat) : Except Panic System :=
  if s.vacant q then do
    let t ← s.find p .running
    let (space, table, vm) ← cloneAddressSpace (s.view t)
    (s.store p t t.mm vm).addTask q .cloned space table t.mm
  else .error .disabled

-- ==== the end

/-- The memory side of `exit`. -/
def exitTask (s : System) (p : Nat) (t : Task) : Except Panic System := do
  let (mm, vm) ← t.mm.cleanupAllRegions (s.view t)
  let vm ← cleanAddressSpace vm t.space
  .ok (s.store p { t with status := .exited } mm vm)

/-- What the deleter does for one process. -/
def delete (s : System) (p : Nat) : Except Panic System := do
  let t ← s.find p .exited
  let pmm ← s.pmm.dealloc t.space.cr3
  let vm := { s.kernelView with pmm := pmm }
  let vm ← vm.unmap t.esp0start
  let vm ← vm.unmap t.espstart
  let vm ← vm.unmap t.proc
  .ok ((s.storeKernel vm).setTask p none)

/-- Go on with the process, or let it exit. -/
def proceed (s : System) (p : Nat) (t : Task) (alive : Bool)
    (mm : MemoryManager) (vm : Vm) : Except Panic System :=
  if alive then .ok (s.store p t mm vm)
  else exitTask (s.store p t mm vm) p { t with table := vm.table, mm := mm }

-- ==== system calls and accesses

/-- The loader, in a new process. -/
def load (s : System) (p : Nat) (image : Image) : Except Panic System := do
  let t ← s.find p .created
  let (started, l) ← Loading.loadBinary ⟨t.mm, s.view t⟩ image
  s.proceed p { t with status := .running } started l.mm l.vm

/-- `clone_start`, in a new process. -/
def cloneStart (s : System) (p : Nat) : Except Panic System := do
  let t ← s.find p .cloned
  let l := Loading.cloneStart ⟨t.mm, s.view t⟩
  .ok (s.store p { t with status := .running } l.mm l.vm)

/-- The permission bit that allows writing. -/
def allowsWrite (perm : Nat) : Bool := perm % 2 == 1

/-- `mapregion_syscall_handler`. -/
def mapregion (s : System) (p size perm : Nat) : Except Panic System := do
  let t ← s.find p .running
  if offset size ≠ 0 then .ok s
  else
    match t.mm.findAndZeroPageRegion (s.view t) size
        { user := true, clear := true, cached := true,
          rw := allowsWrite perm } with
    | none => .ok s
    | some (_, mm, vm) => .ok (s.store p t mm vm)

/-- `mmap_syscall_handler`, for a file that is not mapped yet. -/
def mmap (s : System) (p size : Nat) : Except Panic System := do
  let t ← s.find p .running
  match t.mm.findAndFileMapRegion (s.view t) size with
  | none => .ok s
  | some (_, mm, vm) => .ok (s.store p t mm vm)

/-- `unmapregion_syscall_handler`. -/
def unmapregion (s : System) (p address : Nat) : Except Panic System := do
  let t ← s.find p .running
  if iskernel address then .ok s
  else
    match t.mm.isWithinRegion (s.view t) address with
    | none => .ok s
    | some rgn => do
      let (mm, vm) ← t.mm.removeRegion (s.view t) rgn
      .ok (s.store p t mm vm)

/-- `setregionperms_syscall_handler`. -/
def setregionperms (s : System) (p address perm : Nat) : Except Panic System := do
  let t ← s.find p .running
  if iskernel address then .ok s
  else
    match t.mm.isWithinRegion (s.view t) address with
    | none => .ok s
    | some region =>
      match t.mm.protectRegionAtAddress (s.view t) address
          { region.permission with rw := allowsWrite perm } with
      | none => .ok s
      | some (mm, vm) => .ok (s.store p t mm vm)

/-- A user access to memory, and what it does when it goes through. A write
to the page directory would change the tables, and is not followed. -/
def accessMemory (s : System) (p vaddr : Nat) (write : Bool)
    (file : FileRead) (effect : Vm → Vm) : Except Panic System := do
  let t ← s.find p .running
  if permits (t.space.topEntry (pageNumber vaddr)) write then
    if write then .error .pageDirectory else .ok s
  else do
    let (alive, vm) ← userAccess t.mm (s.view t) vaddr write file
    s.proceed p t alive t.mm (if alive then effect vm else vm)

/-- Store a byte through the page tables. -/
def storeByte (vaddr : Nat) (byte : UInt8) (vm : Vm) : Vm :=
  let phys := (vm.entry vaddr).page
  vm.setMemory phys (Function.update (vm.memory (index phys)) (offset vaddr) byte)

/-- What an action does. -/
def step : MemAction → System → Except Panic System
  | .spawn p, s => s.spawn p
  | .load p image, s => s.load p image
  | .clone p q, s => s.clone p q
  | .cloneStart p, s => s.cloneStart p
  | .mapregion p size perm, s => s.mapregion p size perm
  | .mmap p size, s => s.mmap p size
  | .unmapregion p address, s => s.unmapregion p address
  | .setregionperms p address perm, s => s.setregionperms p address perm
  | .read p vaddr file, s => s.accessMemory p vaddr false file id
  | .write p vaddr byte file, s => s.accessMemory p vaddr true file (storeByte vaddr byte)
  | .exit p, s => do
    let t ← s.find p .running
    s.exitTask p t
  | .delete p, s => s.delete p

end System

/-- The system that starts from a given state. -/
def memSystem (s₀ : System) : Machine System MemAction Panic where
  boot s := s = s₀
  step := System.step

end Puppy.Mm
