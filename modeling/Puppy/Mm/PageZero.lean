/-
Page 0, and the scratch pages (src/mm/virt.cpp, include/mm/virt.h).

No process has memory at address 0, so that a null pointer is never good
for anything. The constructor of the memory manager reserves the page in
the list of regions, and the page fault handler refuses it. Two places map
pages without asking either of them: the loader puts a segment where the
executable wants it, and a scratch page goes where a search found room, or
where the search said that it found none.

# Scratch pages

The kernel looks at a physical page by mapping it into a range set aside
for the purpose, in the half that all processes share. A search that fails
answers with an odd address. `getScratchPage` without a physical page
looks for that; with one it does not, and maps the page of the odd address
in whatever process runs.

# What is modelled

The scratch pages that the memory actions need for themselves (the tables
of another process, the copy of a page) are taken and given back around
them, as actions of their own. Bytes that are cleared through an odd
address are not followed; nothing here is about contents.
-/
import Puppy.Mm.Accounts

namespace Puppy.Mm

open Libc Lib

-- ==== scratch pages

/-- `mScratchPageInfo`. -/
structure ScratchPageInfo where
  low : Nat
  high : Nat
  deriving DecidableEq, Repr

/-- `scratch_page_t`. -/
structure ScratchPage where
  address : Nat
  owned : Bool
  deriving DecidableEq, Repr

/-- `scratch_page_t::operator bool`. -/
def ScratchPage.isValid (sp : ScratchPage) : Bool :=
  decide (sp.address ≠ 0) && decide (sp.address % 2 = 0)

namespace Vm

variable (vm : Vm) (info : ScratchPageInfo)

/-- What `findPageWithinRange` says about the scratch range: the address
of a page, or that there is none. -/
def scratchAddress : Nat :=
  (vm.findPageWithinRange info.low info.high).getD (gPageSize - 1)

/-- `getScratchPage`, for memory of its own (`mapPageWithinRange`). -/
def getScratchPage (op : MapOptions) : Except Panic (ScratchPage × Vm) :=
  let pg := vm.scratchAddress info
  if pg % 2 = 1 then .ok (⟨pg, true⟩, vm)
  else do
    let vm ← vm.mapAnyPhysicalPage pg { op with clear := true }
    .ok (⟨pg, true⟩, vm)

/-- `getScratchPage`, for a physical page. -/
def getScratchPageAt (phys : Nat) (op : MapOptions) : ScratchPage × Vm :=
  let vaddr := vm.scratchAddress info
  (⟨vaddr, false⟩, vm.map phys vaddr op)

/-- `~scratch_page_t`. -/
def dropScratchPage (sp : ScratchPage) : Except Panic Vm :=
  if sp.isValid then vm.unmap sp.address else .ok vm

end Vm

-- ==== the system

/-- The system together with the scratch pages in use. -/
structure ScratchSystem where
  system : System
  mScratchPageInfo : ScratchPageInfo
  pages : List ScratchPage := []

inductive ScratchAction where
  | mem (a : MemAction)
  /-- The kernel takes a scratch page while `p` runs. -/
  | get (p : Nat) (op : MapOptions)
  | getAt (p phys : Nat) (op : MapOptions)
  /-- A scratch page goes out of scope while `p` runs. -/
  | drop (p : Nat) (sp : ScratchPage)
  /-- Its owner keeps the mapping for good. -/
  | reset (sp : ScratchPage)

namespace ScratchSystem

/-- The process that runs. -/
def current (s : ScratchSystem) (p : Nat) : Except Panic Task :=
  match s.system.tasks p with
  | some t => if t.status = .exited then .error .disabled else .ok t
  | none => .error .disabled

def step : ScratchAction → ScratchSystem → Except Panic ScratchSystem
  | .mem a, s => do
    let system ← s.system.step a
    .ok { s with system := system }
  | .get p op, s => do
    let t ← s.current p
    let (sp, vm) ←
      (s.system.view t).getScratchPage s.mScratchPageInfo op
    .ok { s with
      system := s.system.store p t t.mm vm
      pages := sp :: s.pages }
  | .getAt p phys op, s => do
    let t ← s.current p
    let (sp, vm) :=
      (s.system.view t).getScratchPageAt s.mScratchPageInfo phys op
    .ok { s with
      system := s.system.store p t t.mm vm
      pages := sp :: s.pages }
  | .drop p sp, s => do
    let t ← s.current p
    if sp ∈ s.pages then do
      let vm ← (s.system.view t).dropScratchPage sp
      .ok { s with
        system := s.system.store p t t.mm vm
        pages := s.pages.erase sp }
    else .error .disabled
  | .reset sp, s =>
    if sp ∈ s.pages then .ok { s with pages := s.pages.erase sp }
    else .error .disabled

end ScratchSystem

/-- The system that starts from a given state. -/
def scratchSystem (s₀ : ScratchSystem) : Machine ScratchSystem ScratchAction Panic where
  boot s := s = s₀
  step := ScratchSystem.step

-- ==== page 0

/-- No process has memory at page 0. -/
def System.PageZeroClear (s : System) : Prop :=
  ∀ p t, s.tasks p = some t → (t.table 0).present = false

/-- A segment that stays clear of page 0 and of the kernel. One without
pages still adds a region, which ends with a page if it starts with one. -/
def Program.AbovePageZero (p : Program) : Prop :=
  gPageSize ≤ p.vaddr ∧ p.vaddr + p.memsz ≤ gKernelBase ∧ (p.memsz = 0 → p.vaddr % gPageSize = 0)

/-- An executable whose segments do, and whose entry point is not in the
last page there is, where its guard page would end with the address
space. -/
def Image.AbovePageZero (image : Image) : Prop :=
  image.entry < 0xFFFFF000 ∧ ∀ p ∈ image.programs, p.loadable = true → p.AbovePageZero

namespace ScratchSystem

/-- The steps that leave page 0 alone: executables do not ask for it, and
a physical page gets a scratch page only while there is one. -/
def SparesPageZero (s : ScratchSystem) : ScratchAction → Prop
  | .mem (.load _ image) => image.AbovePageZero
  | .getAt p _ _ =>
    ∀ t, s.system.tasks p = some t → ((s.system.view t).findPageWithinRange s.mScratchPageInfo.low
        s.mScratchPageInfo.high).isSome = true
  | _ => True

/-- The state in which the first process is created, with the kernel's
regions and the scratch range in its own half. -/
structure Booted (s : ScratchSystem) : Prop where
  system : s.system.Booted
  regions : ∀ i ∈ s.system.mKernelRegions, i.upto < 0x100000000 - gKernelBase
  low : gKernelBase ≤ page s.mScratchPageInfo.low
  high : s.mScratchPageInfo.high ≤ 0x100000000

end ScratchSystem

end Puppy.Mm
