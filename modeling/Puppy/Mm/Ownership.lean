/-
Who holds a reference on which physical page.

The page manager stores a count and trusts its callers. This module runs
it beside a ledger that the source does not have: for each page, the
references that have been taken and not given back. `Owned` says what the
callers rely on, and is about the two together.

# The two ways out

The stored count is a byte, so the 256th reference to one page makes it
look free. And `allocContiguousPages` probes forward from a candidate
without asking whether the page array goes on: if the last page of the
array is available and no run is long enough, it reads past the end.
`InRange` is the guard that rules out both.
-/
import Puppy.Mm.Phys
import Puppy.Lib.Machine
import Mathlib.Algebra.BigOperators.Group.Finset.Basic

namespace Puppy.Mm

open Lib

/-- What boot leaves behind: pages added, each once, and pages reserved. -/
inductive Booted : PhysicalPageManager → Prop
  | init : Booted {}
  | addpage {pmm : PhysicalPageManager} (base : Nat) : Booted pmm → index base < gNumPages →
      (pmm.mPages (index base)).usable = false → Booted (pmm.addpage base)
  | reserve {pmm pmm' : PhysicalPageManager} (base : Nat) :
      Booted pmm → pmm.reserve base = .ok pmm' → Booted pmm'

/-- The page manager and the references its callers hold. -/
structure Tracked where
  pmm : PhysicalPageManager
  refs : Nat → Nat := fun _ => 0

inductive PhysOp where
  | alloc
  | allocAt (base : Nat)
  | allocContiguousPages (num : Nat)
  | dealloc (base : Nat)
  deriving DecidableEq, Repr

namespace Tracked

/-- One more reference to each of the `num` pages from `idx` on. -/
def take (refs : Nat → Nat) (idx num : Nat) : Nat → Nat :=
  fun i => if idx ≤ i ∧ i < idx + num then refs i + 1 else refs i

/-- One reference to the page less. -/
def give (refs : Nat → Nat) (idx : Nat) : Nat → Nat :=
  fun i => if i = idx then refs i - 1 else refs i

/-- Perform one operation and note what it took or gave back. -/
def step : PhysOp → Tracked → Except Panic Tracked
  | .alloc, s =>
    match s.pmm.alloc with
    | none => .ok s
    | some (base, pmm) => .ok ⟨pmm, take s.refs (index base) 1⟩
  | .allocAt base, s =>
    match s.pmm.allocAt base with
    | .error e => .error e
    | .ok pmm => .ok ⟨pmm, take s.refs (index base) 1⟩
  | .allocContiguousPages num, s =>
    match s.pmm.allocContiguousPages num with
    | .error e => .error e
    | .ok (none, pmm) => .ok ⟨pmm, s.refs⟩
    | .ok (some base, pmm) => .ok ⟨pmm, take s.refs (index base) num⟩
  | .dealloc base, s =>
    match s.pmm.dealloc base with
    | .error e => .error e
    | .ok pmm => .ok ⟨pmm, give s.refs (index base)⟩

/-- Every `dealloc` gives back a reference that somebody holds. -/
def Matched (s : Tracked) : PhysOp → Prop
  | .dealloc base => 0 < s.refs (index base)
  | _ => True

/-- No `alloc(base)` on a page with 255 references out, and no search for
a run that the end of the page array cuts short. -/
def InRange (s : Tracked) : PhysOp → Prop
  | .allocAt base => s.refs (index base) < 0xFF
  | .allocContiguousPages num =>
    (s.pmm.mPages (gNumPages - 1)).available = false ∨ ∃ idx, idx + num ≤ gNumPages ∧
        ∀ u < num, (s.pmm.mPages (idx + u)).available = true
  | _ => True

/-- The operations, from any state boot can leave behind. -/
def machine : Machine Tracked PhysOp Panic where
  boot s := Booted s.pmm ∧ ∀ i, s.refs i = 0
  step := step

/-- What the holders of references rely on. -/
structure Owned (s : Tracked) : Prop where
  counted : ∀ i, (s.pmm.mPages i).usable = true → (s.pmm.mPages i).refcnt = s.refs i
  alloc_unheld : ∀ base pmm, s.pmm.alloc = some (base, pmm) → s.refs (index base) = 0
  contiguous_unheld : ∀ num base pmm, s.pmm.allocContiguousPages num = .ok (some base, pmm) →
    ∀ u < num, s.refs (index base + u) = 0
  dealloc_held : ∀ base, 0 < s.refs (index base) → ∃ pmm, s.pmm.dealloc base = .ok pmm
  total : s.pmm.mFreePages = ((Finset.range gNumPages).filter fun i =>
      (s.pmm.mPages i).usable = true ∧ s.refs i = 0).card

end Tracked

end Puppy.Mm
