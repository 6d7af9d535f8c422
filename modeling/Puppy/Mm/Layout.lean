/-
Where the regions of a process lie.

The list of regions is meant to be sorted and disjoint, and a lookup
depends on it: it gives up at the first region that starts beyond the
address. Regions that come from a search keep the list in order as long as
the search does not wrap (Libc). Those that the loader adds at computed
positions do so only if the positions happen to be free, and nothing
checks that they are.

So the loader has a plan, which is fixed by the executable: the buffer for
the file at the lowest address, the segments where they ask to be, a guard
page after the last of them, then the stack in the first gap with room for
it and a guard page right after the stack. The condition on an executable
is that the parts of its plan do not meet.
-/
import Puppy.Mm.System

namespace Puppy.Mm

open Libc

-- ==== the plan of an executable

/-- The region of a segment. -/
def Program.range (p : Program) : Interval :=
  ⟨p.vaddr, Loading.segmentEnd p - 1⟩

namespace Image

/-- The segments that are loaded. -/
def segments (image : Image) : List Program :=
  image.programs.filter fun p => p.loadable

/-- The highest address that the loader knows of. -/
def highest (image : Image) : Nat :=
  image.segments.foldl Loading.maxAddr image.entry

/-- The buffer that the file is read into, in a process without regions of
its own. -/
def fileBuffer (image : Image) : Interval :=
  ⟨0x1000, 0xFFF + toPage image.fileSize⟩

/-- The guard page after the segments. -/
def segmentGuard (image : Image) : Interval :=
  ⟨page image.highest, page image.highest + (gPageSize - 1)⟩

/-- Page 0, the kernel half and what the loader puts between them before
it looks for a place for the stack. -/
def plan (image : Image) : List Interval :=
  ⟨0, 0xFFF⟩ :: ⟨gKernelBase, 0xFFFFFFFF⟩ :: image.fileBuffer ::
    image.segmentGuard :: image.segments.map Program.range

/-- An executable whose plan works out. -/
structure Planned (image : Image) : Prop where
  /-- Every segment has bytes. -/
  filled : ∀ p ∈ image.segments, 0 < p.memsz
  /-- The guard page is not the kernel's. -/
  below : image.highest < gKernelBase
  /-- No two parts meet. -/
  apart : image.plan.Pairwise Interval.Disjoint
  /-- A gap with room for the stack has room for its guard page too. -/
  roomy : ∀ i ∈ image.plan, ∀ j ∈ image.plan, i.upto + gDefaultStackSize < j.frm →
    i.upto + (gDefaultStackSize + gPageSize) < j.frm
  /-- Environment and arguments fit into the size of the kernel half. -/
  environ : toPage (Loading.stringsSize image.environ) ≤ 0x40000000
  args : ∀ a, image.args = some a → toPage (Loading.stringsSize a) ≤ 0x40000000

end Image

-- ==== lookups

/-- A lookup finds a region that holds the address, if there is one. -/
structure FindsRegions (mm : MemoryManager) (vm : Vm) : Prop where
  sound : ∀ addr r, addr < gKernelBase → mm.isWithinRegion vm addr = some r →
    r ∈ mm.mRegions ∧ r.toInterval.contains addr = true
  exact : ∀ addr < gKernelBase, page addr ≠ 0 → ((mm.isWithinRegion vm addr).isSome = true ↔
      ∃ r ∈ mm.mRegions, r.toInterval.contains addr = true)

namespace System

/-- The regions of every process that has not exited are sorted and
disjoint, and lookups are right. -/
def LaidOut (s : System) : Prop :=
  ∀ p t, s.tasks p = some t → t.status ≠ .exited →
    IntervalList.Sorted t.mm.mRegions ∧ IntervalList.Disjoint t.mm.mRegions ∧
      FindsRegions t.mm (s.view t)

/-- The steps that keep the layout: executables whose plan works out, and
requests that do not wrap around. -/
def KeepsLayout (s : System) : MemAction → Prop
  | .load _ image => image.Planned
  | .mapregion p size _ | .mmap p size =>
    ∀ t, s.tasks p = some t → IntervalList.SafeRequest 0xFFFFFFFF (toPage size) t.mm.mRegions
  | _ => True

end System

end Puppy.Mm
