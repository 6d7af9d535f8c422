/-
Who holds which physical page.

A reference to a physical page is held by a table entry that is present
and marked as coming from the physical page manager, and by an address
space for its directory and its tables. `System.refs` adds all of them up.
The counters of the physical page manager are right when they are not
below these sums, and exactly right when they are equal to them.

Here are the sums, the properties that are stated with them, and the
conditions under which they hold.
-/
import Puppy.Mm.System
import Puppy.Mm.Proofs.Phys

namespace Puppy.Mm

open Libc Lib

-- ==== references

/-- The physical page that the entry holds a reference on. -/
def TableEntry.frame (e : TableEntry) : Option Nat :=
  if e.present && e.frompmm then some (index e.page) else none

/-- How many entries of the user half hold a page. -/
def userRefs (table : Nat → TableEntry) (f : Nat) : Nat :=
  tally (Finset.range gNumUserPages) TableEntry.frame table f

/-- How many entries of the kernel half hold a page. -/
def kernelRefs (table : Nat → TableEntry) (f : Nat) : Nat :=
  tally (Finset.Ico gNumUserPages gNumPages) TableEntry.frame table f

/-- How often an address space holds a page for its directory and its
tables. After the exit only the directory is left. -/
def Task.spaceRefs (t : Task) (f : Nat) : Nat :=
  (if t.status = .exited then 0 else (t.space.tables.map index).count f)
    + (if index t.space.cr3 = f then 1 else 0)

def Task.holds (t : Task) (f : Nat) : Nat :=
  userRefs t.table f + t.spaceRefs f

/-- What the owner of a place in the process table holds. -/
def weight (f : Nat) : Option Task → Nat
  | none => 0
  | some t => t.holds f

namespace System

/-- How often the processes hold a page. -/
@[irreducible]
def held (s : System) (f : Nat) : Nat :=
  ∑ p ∈ Finset.range Proc.gNumProcesses, weight f (s.tasks p)

/-- How often a page is held at all. -/
def refs (s : System) (f : Nat) : Nat := kernelRefs s.kernel f + s.held f

-- ==== what processes share

/-- A page that one process can write to is mapped once. -/
def Isolated (s : System) : Prop :=
  ∀ p t i q u j, s.tasks p = some t → i < gNumUserPages →
    (t.table i).present = true → (t.table i).rw = true →
    s.tasks q = some u → j < gNumUserPages → (u.table j).present = true →
    index (u.table j).page = index (t.table i).page → p = q ∧ i = j

/-- What a process finds at an address of its own half, if there is memory
mapped. -/
def peek (s : System) (p addr : Nat) : Option UInt8 :=
  match s.tasks p with
  | none => none
  | some t =>
    if (t.table (pageNumber addr)).present then
      some (s.memory (index (t.table (pageNumber addr)).page) (offset addr))
    else none

/-- What one process writes to its memory, no other one finds in its own. -/
def Unobserved (s : System) : Prop :=
  ∀ p vaddr byte file s', vaddr < gKernelBase → step (.write p vaddr byte file) s = .ok s' →
    ∀ q ≠ p, ∀ addr < gKernelBase, s'.peek q addr = s.peek q addr

/-- The steps that keep the books: no counter is full when its page is
shared once more. -/
def KeepsCounts (s : System) : MemAction → Prop
  | .clone p _ =>
    ∀ t, s.tasks p = some t → ∀ i < gNumUserPages, (t.table i).present = true →
      (s.pmm.mPages (index (t.table i).page)).refcnt < 255
  | _ => True

/-- The steps that keep processes apart: no counter is full when its page
is shared once more, a read-only page that others share as well is not
made writable, unless it is to be copied first, and no process writes to
its page directory. -/
def KeepsApart (s : System) : MemAction → Prop
  | .clone p _ =>
    ∀ t, s.tasks p = some t → ∀ i < gNumUserPages, (t.table i).present = true →
      (s.pmm.mPages (index (t.table i).page)).refcnt < 255
  | .setregionperms p address perm =>
    allowsWrite perm = true →
    ∀ t region, s.tasks p = some t → t.mm.isWithinRegion (s.view t) address = some region →
      ∀ pp ∈ Vm.pagesUpto region.frm region.upto, pageNumber pp < gNumUserPages →
        ((s.view t).entry pp).present = true →
        ((s.view t).entry pp).rw = false →
        ((s.view t).entry pp).cow = false →
        (s.pmm.mPages (index ((s.view t).entry pp).page)).refcnt < 2
  | .write _ vaddr _ _ => pageNumber vaddr ≠ pageNumber gPageDirectoryAddress
  | _ => True

/-- A failure that does not come from the books: none of the panics over a
page that is not held. -/
def Graceful (e : Panic) : Prop :=
  e ≠ .deallocFree ∧ e ≠ .unmapNonPresent ∧ e ≠ .allocNonUsable

/-- The state in which the first process is created. The kernel has mapped
what it needs, in its own half. -/
structure Booted (s : System) : Prop where
  kept : s.pmm.Kept
  none : ∀ p, s.tasks p = none
  backed : ∀ i, (s.kernel i).frompmm = true → (s.kernel i).present = true
  covered : ∀ f, kernelRefs s.kernel f ≤ (s.pmm.mPages f).refcnt
  low : gKernelBase ≤ page s.mProcessPagesLow
  high : s.mProcessPagesHigh ≤ 0x100000000

end System

end Puppy.Mm
