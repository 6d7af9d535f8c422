/-
Regions that a process may not write to.

Every region records whether it is writable, `mapregion` and
`setregionperms` say so, and a page that gets memory on a fault takes its
rights from the region found for the address. That much makes a read-only
region read-only. But a table entry has rights of its own, and three
things set them without asking every region that holds the page: a COW
copy is always writable, a change of permission goes over all pages of one
region, and a fault looks at one region only.

Here is what it means for the regions to be obeyed, and the steps after
which they are.
-/
import Puppy.Mm.System

namespace Puppy.Mm

open Libc PageFault

/-- A region of the list holds the address and may not be written to. -/
def ReadOnly (regions : List Region) (addr : Nat) : Prop :=
  ∃ r ∈ regions, r.permission.rw = false ∧ r.toInterval.contains addr = true

/-- A page with an address of the process that may not be written to. -/
def ReadOnlyPage (regions : List Region) (i : Nat) : Prop :=
  ∃ addr < gKernelBase, pageNumber addr = i ∧ ReadOnly regions addr

namespace System

/-- No table entry lets a process write into a read-only region. -/
def WriteProtected (s : System) : Prop :=
  ∀ p t addr, s.tasks p = some t → addr < gKernelBase → ReadOnly t.mm.mRegions addr →
    permits (t.table (pageNumber addr)) true = false

/-- A write to the address does not go through, whatever the page fault
handler does about it. -/
def Refused (s : System) (t : Task) (vaddr : Nat) : Prop :=
  ∀ file vm, userAccess t.mm (s.view t) vaddr true file ≠ .ok (true, vm)

/-- A page that is touched through a writable region lies in no read-only
one. -/
def TouchesOpenly (s : System) (p vaddr : Nat) : Prop :=
  ∀ t region, s.tasks p = some t → t.mm.isWithinRegion (s.view t) vaddr = some region →
    region.permission.rw = true →
    ¬ ReadOnlyPage t.mm.mRegions (pageNumber vaddr)

/-- The steps that keep read-only regions read-only:

a segment without bytes starts with a page, so that all regions end with
one;

a region becomes read-only when none of its pages is waiting to be copied,
and writable when no other region that is read-only shares a page with it;

a page is touched through a writable region only if it lies in no
read-only one;

no process writes to its page directory. -/
def KeepsReadOnly (s : System) : MemAction → Prop
  | .load _ image =>
    ∀ prog ∈ image.programs, prog.loadable = true → prog.memsz = 0 → prog.vaddr % gPageSize = 0
  | .setregionperms p address perm =>
    ∀ t region, s.tasks p = some t → t.mm.isWithinRegion (s.view t) address = some region →
      ∀ pp ∈ Vm.pagesUpto region.frm region.upto, if allowsWrite perm then
          ¬ ReadOnlyPage (t.mm.mRegions.erase region) (pageNumber pp)
        else
          ¬ (((s.view t).entry pp).present = true ∧ ((s.view t).entry pp).cow = true)
  | .read p vaddr _ => s.TouchesOpenly p vaddr
  | .write p vaddr _ _ =>
    s.TouchesOpenly p vaddr ∧ pageNumber vaddr ≠ pageNumber gPageDirectoryAddress
  | _ => True

end System

end Puppy.Mm
