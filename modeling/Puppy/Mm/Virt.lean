/-
The virtual page manager (src/mm/virt.cpp, include/mm/virt.h).

The manager works on the page tables of the current process, which it sees
through the recursive mapping at the top of the address space, and on the
physical page manager. `Vm` is what is in its reach: the physical pages,
their contents, and one table entry for each of the 2^20 virtual pages.
The entries below the kernel base belong to the process, those above are
shared by all of them.

# What is modelled

A table entry is its fields. Bit 10 is one bit with two names: COW in an
entry that is present, zero-page mapped in one that is not. Bits the
kernel never reads, the TLB and the statistics are left out. The kernel
reaches other processes' tables and unmapped pages through scratch
mappings; the model goes to the page itself.

Loops over the pages of a region run up to bounds below the last page of
the address space, so their counters do not wrap here. (The one exception
is the region of an empty segment at address 0, which ends at the last
address; the source's loops over it do not end.)
-/
import Puppy.Mm.Phys
import Puppy.Libc.Interval
import Mathlib.Logic.Function.Basic

namespace Puppy.Mm

open Libc Function

def gKernelBase : Nat := 0xC0000000

/-- Where every process finds its own page directory. -/
def gPageDirectoryAddress : Nat := 0xFFBFF000

/-- The number of virtual pages below the kernel. -/
def gNumUserPages : Nat := 0xC0000

/-- `VirtualPageManager::page`. -/
def page (addr : Nat) : Nat := addr - addr % gPageSize

/-- `VirtualPageManager::offset`. -/
def offset (addr : Nat) : Nat := addr % gPageSize

/-- The number of the virtual page of an address, which is a 32-bit word:
the directory index and the table index together. -/
def pageNumber (virt : Nat) : Nat := index virt % gNumPages

/-- `VirtualPageManager::iskernel`. -/
def iskernel (addr : Nat) : Bool := decide (gKernelBase ≤ addr)

/-- `map_options_t`, with the values its constructor leaves. -/
structure MapOptions where
  rw : Bool := true
  user : Bool := false
  clear : Bool := false
  frompmm : Bool := false
  cow : Bool := false
  cached : Bool := true
  global : Bool := false
  deriving DecidableEq, Repr

/-- `map_options_t::kernel`. -/
def MapOptions.kernel : MapOptions := {}

/-- `map_options_t::userspace`. -/
def MapOptions.userspace : MapOptions := { user := true }

structure TableEntry where
  present : Bool := false
  rw : Bool := false
  user : Bool := false
  cacheoff : Bool := false
  global : Bool := false
  frompmm : Bool := false
  /-- COW if the entry is present, zero-page mapped if it is not. -/
  cow : Bool := false
  page : Nat := 0
  deriving DecidableEq, Repr

namespace TableEntry

/-- The options that `mapped` reads from an entry, on top of those the
caller already has. -/
def options (e : TableEntry) (opts : MapOptions) : MapOptions :=
  { opts with
    rw := e.rw
    user := e.user
    frompmm := e.frompmm
    cached := !e.cacheoff
    global := e.global
    cow := e.cow }

/-- What `newoptions` writes to an entry. -/
def withOptions (e : TableEntry) (opts : MapOptions) : TableEntry :=
  { e with
    rw := opts.rw
    user := opts.user
    cacheoff := !opts.cached
    global := opts.global
    frompmm := opts.frompmm
    cow := opts.cow }

/-- What `map` writes to an entry. -/
def mapping (phys : Nat) (opts : MapOptions) : TableEntry :=
  { present := true
    rw := opts.rw
    user := opts.user
    cacheoff := !opts.cached
    global := opts.global
    frompmm := opts.frompmm
    cow := opts.cow
    page := phys }

/-- What `mapZeroPage` makes of an entry. -/
def zeroPage (e : TableEntry) (opts : MapOptions) : TableEntry :=
  { e with
    present := false
    rw := opts.rw
    user := opts.user
    page := 0
    cow := true
    frompmm := false }

/-- What `unmap` makes of an entry. -/
def unmapped (e : TableEntry) : TableEntry :=
  { e with
    present := false
    cow := false
    frompmm := false
    page := 0 }

/-- What `cloneAddressSpace` makes of an entry: only writable pages are
marked for copying. -/
def shared (e : TableEntry) : TableEntry :=
  if e.rw then { e with cow := true, rw := false } else e

end TableEntry

/-- What the manager reaches while a process runs. -/
structure Vm where
  pmm : PhysicalPageManager
  /-- The contents of the physical pages. -/
  memory : Nat → Nat → UInt8
  /-- The entries of the page tables, by the number of the virtual page. -/
  table : Nat → TableEntry
  /-- The kernel's own regions, as offsets from the kernel base. -/
  mKernelRegions : List Interval

namespace Vm

/-- The table entry for a virtual address. -/
def entry (vm : Vm) (virt : Nat) : TableEntry := vm.table (pageNumber virt)

/-- Replace the table entry for a virtual address. -/
def setEntry (vm : Vm) (virt : Nat) (e : TableEntry) : Vm :=
  { vm with table := update vm.table (pageNumber virt) e }

/-- Replace the contents of a physical page. -/
def setMemory (vm : Vm) (phys : Nat) (bytes : Nat → UInt8) : Vm :=
  { vm with memory := update vm.memory (index phys) bytes }

-- ==== single pages

/-- `map`. A page that has to be cleared is writable while it is. -/
def map (vm : Vm) (phys virt : Nat) (opts : MapOptions) : Vm :=
  let vm := if opts.clear then vm.setMemory phys fun _ => 0 else vm
  vm.setEntry virt (.mapping phys opts)

/-- `mapZeroPage`, for one page. -/
def mapZeroPage (vm : Vm) (opts : MapOptions) (virt : Nat) : Vm :=
  vm.setEntry virt ((vm.entry virt).zeroPage opts)

def isZeroPageAccess (vm : Vm) (virt : Nat) : Bool :=
  decide ((vm.entry virt).page = 0) && !(vm.entry virt).present

/-- `isCOWAccess`, for a fault that a write caused. -/
def isCOWAccess (vm : Vm) (write : Bool) (virt : Nat) : Bool :=
  (vm.entry virt).present && !(vm.entry virt).rw && (vm.entry virt).cow && write

def mapped (vm : Vm) (virt : Nat) (opts : MapOptions) : Option MapOptions :=
  if (vm.entry virt).present then some ((vm.entry virt).options opts)
  else none

def zeroPageMapped (vm : Vm) (virt : Nat) (opts : MapOptions) : Option MapOptions :=
  if !(vm.entry virt).present && (vm.entry virt).cow then
    some ((vm.entry virt).options opts)
  else none

def newoptions (vm : Vm) (virt : Nat) (opts : MapOptions) : Vm :=
  if (vm.entry virt).present || (vm.entry virt).cow then
    vm.setEntry virt ((vm.entry virt).withOptions opts)
  else vm

def markCOW (vm : Vm) (virt : Nat) : Vm :=
  match vm.mapped virt {} with
  | some opts => vm.newoptions virt { opts with rw := false, cow := true }
  | none => vm

def mapAnyPhysicalPage (vm : Vm) (virt : Nat) (opts : MapOptions) : Except Panic Vm :=
  if (vm.entry virt).present then .ok vm
  else
    match vm.pmm.alloc with
    | none => .error .resultOfFailure
    | some (phys, pmm) => .ok (map { vm with pmm := pmm } phys virt { opts with frompmm := true })

def unmap (vm : Vm) (virt : Nat) : Except Panic Vm :=
  let e := vm.entry virt
  let vm' := vm.setEntry virt e.unmapped
  if e.frompmm then
    if e.present then
      match vm.pmm.dealloc e.page with
      | .error err => .error err
      | .ok pmm => .ok { vm' with pmm := pmm }
    else .error .unmapNonPresent
  else .ok vm'

/-- `clonePage`; nothing if memory has run out. -/
def clonePage (vm : Vm) (virt : Nat) (opts : MapOptions) : Except Panic (Option Vm) :=
  match vm.pmm.alloc with
  | none => .ok none
  | some (phys, pmm) => do
    let bytes := vm.memory (index (vm.entry virt).page)
    let vm := setMemory { vm with pmm := pmm } phys bytes
    let vm ← vm.unmap virt
    .ok (some (vm.map phys (page virt) { opts with frompmm := true, cow := false, rw := true }))

-- ==== ranges

/-- The addresses a loop visits that starts at `frm` and goes page by page
while it is not beyond `upto`. -/
def pagesUpto (frm upto : Nat) : List Nat :=
  (List.range ((upto + gPageSize - frm) / gPageSize)).map fun k => frm + k * gPageSize

/-- The same for a loop that stops before `upto`. -/
def pagesBelow (frm upto : Nat) : List Nat :=
  (List.range ((upto + (gPageSize - 1) - frm) / gPageSize)).map fun k => frm + k * gPageSize

/-- `mapZeroPage`, for a range. -/
def mapZeroPages (vm : Vm) (frm upto : Nat) (opts : MapOptions) : Vm :=
  (pagesUpto frm upto).foldl (mapZeroPage · opts) vm

/-- `findPageWithinRange`: the first page that is not mapped. The loop of
the source is `searchPages`, below. -/
def findPageWithinRange (vm : Vm) (low high : Nat) : Option Nat :=
  ((pagesBelow (page low) (page high)).find? fun virt => !(vm.entry virt).present)

def mapPageWithinRange (vm : Vm) (low high : Nat) (opts : MapOptions) : Except Panic (Nat × Vm) :=
  match vm.findPageWithinRange low high with
  | none => .error .noProcessMemory
  | some virt => do
    let vm ← vm.mapAnyPhysicalPage virt opts
    .ok (virt, vm)

end Vm

structure PagingIndices where
  dir : Nat
  tbl : Nat
  deriving DecidableEq, Repr

namespace PagingIndices

/-- The indices of an address. -/
def ofAddress (virt : Nat) : PagingIndices :=
  ⟨virt / 0x400000, virt / 0x1000 % 1024⟩

/-- `operator++`. -/
def next (i : PagingIndices) : PagingIndices :=
  if i.tbl + 1 = 1024 then
    if i.dir + 1 = 1024 then ⟨0, 0⟩ else ⟨i.dir + 1, 0⟩
  else ⟨i.dir, i.tbl + 1⟩

/-- `operator<`, which is no order. -/
def lt (i j : PagingIndices) : Bool :=
  decide (i.dir < j.dir) || decide (i.tbl < j.tbl)

def address (i : PagingIndices) : Nat := 0x400000 * i.dir + 0x1000 * i.tbl

end PagingIndices

namespace Vm

/-- The loop of `findPageWithinRange`; nothing if it goes on after so many
rounds. -/
def searchPages (vm : Vm) (ihigh : PagingIndices) : Nat → PagingIndices → Option Nat
  | 0, _ => none
  | rounds + 1, ilow =>
    if ilow.lt ihigh then
      if (vm.entry ilow.address).present then
        searchPages vm ihigh rounds ilow.next
      else some ilow.address
    else some (gPageSize - 1)

/-- `findPageWithinRange`, with the value it returns on failure. -/
def findPageIn (vm : Vm) (low high rounds : Nat) : Option Nat :=
  vm.searchPages (.ofAddress high) rounds (.ofAddress low)

/-- `mapPageWithinRange`, when the search has returned `pg`. -/
def mapPageAt (vm : Vm) (pg : Nat) (opts : MapOptions) : Except Panic (Nat × Vm) := do
  if pg % 2 = 1 then .ok (pg, vm)
  else
    let vm ← vm.mapAnyPhysicalPage pg opts
    .ok (pg, vm)

/-- A page of the range that is not mapped. -/
def FreePage (vm : Vm) (low high p : Nat) : Prop :=
  p % gPageSize = 0 ∧ page low ≤ p ∧ p < page high ∧ (vm.entry p).present = false

def isWithinKernelRegion (vm : Vm) (addr : Nat) : Option Interval :=
  IntervalList.contains (addr - gKernelBase) vm.mKernelRegions

end Vm

-- ==== address spaces

/-- The physical pages of an address space's own page tables: the page
directory, and one table for each directory entry that is not the
kernel's (0 to 767, 1022 and 1023). -/
structure AddressSpace where
  cr3 : Nat
  tables : List Nat
  deriving DecidableEq, Repr

/-- Allocate so many pages, one after the other. -/
def allocPages : Nat → PhysicalPageManager → Except Panic (List Nat × PhysicalPageManager)
  | 0, pmm => .ok ([], pmm)
  | n + 1, pmm =>
    match pmm.alloc with
    | none => .error .resultOfFailure
    | some (phys, pmm) => do
      let (rest, pmm) ← allocPages n pmm
      .ok (phys :: rest, pmm)

/-- What user mode can reach through the two tables at the top, which are
not the kernel's: `createAddressSpace` maps the page directory there, and
for user mode; the entries for the tables it keeps from user mode. -/
def AddressSpace.topEntry (space : AddressSpace) (i : Nat) : TableEntry :=
  if i = pageNumber gPageDirectoryAddress then
    { present := true, rw := true, user := true, page := space.cr3 }
  else {}

/-- `createAddressSpace`. The new tables map no page below the kernel; for
those at the top, see `topEntry`. -/
def createAddressSpace (pmm : PhysicalPageManager) :
    Except Panic (AddressSpace × PhysicalPageManager) :=
  match pmm.alloc with
  | none => .error .resultOfFailure
  | some (cr3, pmm) => do
    let (tables, pmm) ← allocPages 770 pmm
    .ok (⟨cr3, tables⟩, pmm)

/-- One round of the loop of `cloneAddressSpace`: the new table, and the
manager working on the current one. -/
def cloneEntry (st : (Nat → TableEntry) × Vm) (i : Nat) : Except Panic ((Nat → TableEntry) × Vm) :=
  let (table, vm) := st
  let e := vm.table i
  if !e.present then .ok (table, vm)
  else
    let vm := if e.rw then vm.markCOW (i * gPageSize) else vm
    let table := update table i e.shared
    if e.shared.frompmm then
      match vm.pmm.allocAt e.shared.page with
      | .error err => .error err
      | .ok pmm => .ok (table, { vm with pmm := pmm })
    else .ok (table, vm)

/-- The loop of `cloneAddressSpace` over the user half. Irreducible, so
that no proof runs it. -/
@[irreducible]
def cloneEntries (vm : Vm) : Except Panic ((Nat → TableEntry) × Vm) :=
  (List.range gNumUserPages).foldlM cloneEntry (fun _ => {}, vm)

def cloneAddressSpace (vm : Vm) : Except Panic (AddressSpace × (Nat → TableEntry) × Vm) := do
  let (space, pmm) ← createAddressSpace vm.pmm
  let (table, vm) ← cloneEntries { vm with pmm := pmm }
  .ok (space, table, vm)

/-- The physical pages that one page table maps and owns. -/
def ownedPages (table : Nat → TableEntry) (dir : Nat) : List Nat :=
  (List.range 1024).filterMap fun j =>
    let e := table (1024 * dir + j)
    if e.present && e.frompmm then some e.page else none

/-- The pages that `cleanAddressSpace` releases, in its order: what each
table owns, then the table. The two tables of the recursive mapping own
nothing. -/
def spacePages (space : AddressSpace) (table : Nat → TableEntry) : List Nat :=
  (space.tables.take 768).zipIdx.flatMap
    (fun t => ownedPages table t.2 ++ [t.1]) ++ space.tables.drop 768

/-- `cleanAddressSpace`. The user half goes with its tables. -/
def cleanAddressSpace (vm : Vm) (space : AddressSpace) : Except Panic Vm := do
  let pmm ← (spacePages space vm.table).foldlM PhysicalPageManager.dealloc vm.pmm
  .ok { vm with
    pmm := pmm
    table := fun i => if i < gNumUserPages then {} else vm.table i }

end Puppy.Mm
