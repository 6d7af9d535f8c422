/-
Starting a program (src/process/loadelf.cpp, src/process/fileloader.cpp,
src/process/clonestart.cpp).

The loader reads the whole file into a temporary region at the lowest free
address, copies the loadable segments to where they ask to be, and adds a
region for each without looking at those already in the list. A guard page
follows the last segment and another one the stack; their positions are
computed, not searched for.

# What is modelled

An executable is what the loader reads from it: the size of the file, a
few header fields and the program headers, with the bytes of a segment as
a function. Scripts, which name another executable to load, are left out,
and so are the bytes of the environment and of the arguments; only their
size matters to the memory map.
-/
import Puppy.Mm.PageFault

namespace Puppy.Mm

open Libc PageFault

/-- `elf_program_t`. -/
structure Program where
  loadable : Bool := true
  vaddr : Nat
  memsz : Nat
  filesz : Nat
  align : Nat := gPageSize
  writable : Bool := false
  content : Nat → UInt8 := fun _ => 0

/-- A list of strings: how many, and how many bytes without the
terminators. -/
structure Strings where
  num_vars : Nat := 0
  payload_size : Nat := 0
  deriving DecidableEq, Repr

/-- An executable file, and what its process is given. -/
structure Image where
  fileSize : Nat
  /-- `sanitycheck`. -/
  sane : Bool := true
  isDylib : Bool := false
  entry : Nat
  programs : List Program
  environ : Strings := {}
  args : Option Strings := none

def gDefaultStackSize : Nat := 0x400000

/-- A loading process: its memory manager, and what that works on. -/
structure Loading where
  mm : MemoryManager
  vm : Vm

namespace Loading

/-- Copy `count` bytes of a segment into a page, from `start` on. -/
def copyIn (vm : Vm) (vaddr count : Nat) (content : Nat → UInt8) : Vm :=
  let phys := (vm.entry vaddr).page
  vm.setMemory phys fun o =>
    if offset vaddr ≤ o ∧ o < offset vaddr + count then
      content (o - offset vaddr)
    else vm.memory (index phys) o

/-- The loop of `load_elf_image` over the pages of one segment, and whether
it got through. The options are read back from every page and used for the
next one. -/
def loadPages (writable : Bool) (mapopts : MapOptions) (len flen vaddr : Nat)
    (content : Nat → UInt8) (vm : Vm) : Except Panic (Bool × Vm) :=
  if _ : len = 0 then .ok (true, vm)
  else
    let vaddr_Page := page vaddr
    let residualPage := gPageSize - (vaddr - vaddr_Page)
    if iskernel vaddr_Page then .ok (false, vm)
    else
      match vm.mapAnyPhysicalPage vaddr_Page { mapopts with rw := true } with
      | .error e => .error e
      | .ok vm =>
        let chunk := min len residualPage
        let copied := min chunk flen
        -- the page may be there already, from another segment
        if 0 < copied ∧ (vm.entry vaddr).rw = false then .ok (false, vm)
        else
          let vm :=
            if 0 < copied then copyIn vm vaddr copied content else vm
          let mapopts :=
            { (vm.entry vaddr).options mapopts with rw := writable }
          let vm := vm.newoptions vaddr mapopts
          loadPages writable mapopts (len - chunk) (flen - copied)
            (vaddr + chunk) (fun o => content (o + chunk)) vm
termination_by len
decreasing_by
  have hmod : vaddr % gPageSize < gPageSize := Nat.mod_lt _ (by decide)
  have hpage : vaddr - vaddr_Page ≤ vaddr % gPageSize := by
    show vaddr - (vaddr - vaddr % gPageSize) ≤ vaddr % gPageSize
    omega
  have hres : 0 < residualPage := by
    omega
  have hchunk : 0 < min len residualPage := by omega
  omega

/-- The address after the last page of a segment, or its start if it has
no pages. -/
def segmentEnd (p : Program) : Nat :=
  if p.memsz = 0 then p.vaddr
  else page (p.vaddr + p.memsz - 1) + gPageSize

/-- The highest address so far, which only the copying of a page moves. -/
def maxAddr (maxprogaddr : Nat) (p : Program) : Nat :=
  if p.memsz = 0 then maxprogaddr else max maxprogaddr (p.vaddr + p.memsz)

/-- `load_elf_image`. -/
def loadPrograms (l : Loading) (maxprogaddr : Nat) :
    List Program → Except Panic (Bool × Loading × Nat)
  | [] => .ok (true, l, maxprogaddr)
  | p :: rest =>
    if !p.loadable then loadPrograms l maxprogaddr rest
    else if p.align ≠ gPageSize then .ok (false, l, maxprogaddr)
    else
      match loadPages p.writable { user := true, clear := true } p.memsz
          p.filesz p.vaddr p.content l.vm with
      | .error e => .error e
      | .ok (false, vm) => .ok (false, ⟨l.mm, vm⟩, maxprogaddr)
      | .ok (true, vm) =>
        let mm := l.mm.addUncheckedRegion p.vaddr (sub32 (segmentEnd p) 1)
        loadPrograms ⟨mm, vm⟩ (maxAddr maxprogaddr p) rest

/-- The size of a copy of a list of strings. -/
def stringsSize (a : Strings) : Nat :=
  (a.num_vars * 4 + a.payload_size + a.num_vars + 4) % 0x100000000

/-- `copyStringArrayToUserland`: whether the process survives it. -/
def copyStrings (l : Loading) (a : Strings) : Except Panic (Bool × Loading) :=
  match l.mm.findAndMapRegion l.vm (stringsSize a)
      { clear := true, rw := true, user := true } with
  | .error e => .error e
  | .ok none => .ok (decide (a.num_vars = 0), l)
  | .ok (some (_, mm, vm)) => .ok (true, ⟨mm, vm⟩)

/-- A guard page. -/
def guardPage (l : Loading) (addr : Nat) : Loading :=
  ⟨l.mm.addUncheckedRegion (page addr) (page addr + (gPageSize - 1)), l.vm⟩

/-- The stack of `load_main_binary`, with its guard page. Without a region
for it the loader writes below address 0. -/
def loadStack (l : Loading) (stacksize : Nat) : Except Panic (Nat × Loading) :=
  match l.mm.findAndZeroPageRegion l.vm stacksize
      { MapOptions.userspace with clear := true } with
  | none => .error .fault
  | some (stackregion, mm, vm) => .ok (stackregion.upto, guardPage ⟨mm, vm⟩ (stackregion.upto + 1))

/-- The end of `load_main_binary`: environment and arguments, whose
addresses go on the stack. -/
def loadStrings (l : Loading) (stackbegin : Nat) (environ : Strings)
    (args : Option Strings) : Except Panic (Bool × Loading) :=
  match l.copyStrings environ with
  | .error e => .error e
  | .ok (false, l) => .ok (false, l)
  | .ok (true, l) =>
    match kernelTouch l.mm l.vm (stackbegin - 20) with
    | .error e => .error e
    | .ok (false, vm) => .ok (false, ⟨l.mm, vm⟩)
    | .ok (true, vm) =>
      match args with
      | none => .ok (true, ⟨l.mm, vm⟩)
      | some a => copyStrings ⟨l.mm, vm⟩ a

/-- `load_main_binary`: whether there is something to start. -/
def loadMainBinary (l : Loading) (image : Image) (stacksize : Nat) :
    Except Panic (Bool × Loading) :=
  if image.isDylib then .ok (false, l)
  else if 10 < (image.programs.filter fun p => p.loadable).length then
    -- there is room for ten of them on the kernel's stack
    .error .outOfBounds
  else
    match l.loadPrograms image.entry image.programs with
    | .error e => .error e
    | .ok (false, l, _) => .ok (false, l)
    | .ok (true, l, max_load_addr) =>
      match (guardPage l max_load_addr).loadStack stacksize with
      | .error e => .error e
      | .ok (stackbegin, l) => loadStrings l stackbegin image.environ image.args

/-- Read the file into its buffer, which faults the pages in. -/
def readFile (l : Loading) : List Nat → Except Panic (Bool × Loading)
  | [] => .ok (true, l)
  | base :: rest =>
    match kernelTouch l.mm l.vm base with
    | .error e => .error e
    | .ok (false, vm) => .ok (false, ⟨l.mm, vm⟩)
    | .ok (true, vm) => readFile ⟨l.mm, vm⟩ rest

/-- `load_binary` and `fileloader`: whether the process starts. -/
def loadBinary (l : Loading) (image : Image) : Except Panic (Bool × Loading) :=
  if image.fileSize = 0 then .ok (false, l)
  else
    match l.mm.findAndZeroPageRegion l.vm image.fileSize
        { clear := true, rw := true, user := false } with
    | none => .ok (false, l)
    | some (file_rgn, mm, vm) =>
      match readFile ⟨mm, vm⟩ (Vm.pagesBelow file_rgn.frm file_rgn.upto) with
      | .error e => .error e
      | .ok (false, l) => .ok (false, l)
      | .ok (true, l) =>
        if !image.sane then .ok (false, l)
        else
          match l.loadMainBinary image gDefaultStackSize with
          | .error e => .error e
          | .ok (started, l) =>
            match l.mm.removeRegion l.vm file_rgn with
            | .error e => .error e
            | .ok (mm, vm) => .ok (started && decide (image.entry ≠ 0), ⟨mm, vm⟩)

/-- `clone_start`: the stack of a cloned process. -/
def cloneStart (l : Loading) : Loading :=
  match l.mm.findAndZeroPageRegion l.vm gDefaultStackSize
      { MapOptions.userspace with clear := true } with
  | none => l
  | some (_, mm, vm) => ⟨mm, vm⟩

end Loading

end Puppy.Mm
