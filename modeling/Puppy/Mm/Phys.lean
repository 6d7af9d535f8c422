/-
The physical page manager (src/mm/phys.cpp, include/mm/phys.h).

One record per physical page of the 4 GiB address space: whether the
page exists as memory (`usable`) and how many references are held on it.
The counter is a `uint8_t`. Copy-on-write cloning takes one more
reference to a page per address space that shares it, and no code stands
between the 255th reference and the 256th.

# What is modelled

The three ways to take references (`alloc()`, `alloc(base)` and
`allocContiguousPages`), the one to give a reference back (`dealloc`),
and the boot-time calls that say which pages exist. Logging is left out.
`mPages` is a function on page indices; an index past the end of the
source's array is an error where the source could reach one.
-/
import Puppy.Panic
import Puppy.Libc.Word

namespace Puppy.Mm

open Libc

def gPageSize : Nat := 0x1000

/-- `gNumPages`: the pages of a 4 GiB address space. -/
def gNumPages : Nat := 0x100000

/-- `phys_page_t`. -/
structure PhysPage where
  usable : Bool := false
  /-- A `uint8_t`. -/
  refcnt : Nat := 0
  deriving DecidableEq, Repr

namespace PhysPage

/-- `phys_page_t::free`. -/
def free (p : PhysPage) : Bool := p.refcnt == 0

/-- `phys_page_t::incref`: the counter wraps at 256. -/
def incref (p : PhysPage) : PhysPage :=
  { p with refcnt := (p.refcnt + 1) % 0x100 }

/-- `phys_page_t::decref`: a counter at zero stays there. -/
def decref (p : PhysPage) : PhysPage :=
  { p with refcnt := p.refcnt - 1 }

/-- A page that a search may hand out. -/
def available (p : PhysPage) : Bool := p.usable && p.free

end PhysPage

structure PhysicalPageManager where
  mPages : Nat → PhysPage := fun _ => {}
  mLastChecked : Nat := 0
  mTotalPages : Nat := 0
  mLowestPage : Nat := 0
  mHighestPage : Nat := 0
  mFreePages : Nat := 0

/-- The page index of an address. -/
def index (addr : Nat) : Nat := addr / gPageSize

namespace PhysicalPageManager

/-- Replace the record of one page. -/
def setPage (pmm : PhysicalPageManager) (idx : Nat) (p : PhysPage) :
    PhysicalPageManager :=
  { pmm with mPages := Function.update pmm.mPages idx p }

-- ==== boot

def addpage (pmm : PhysicalPageManager) (base : Nat) : PhysicalPageManager :=
  let i := index base
  { pmm.setPage i { pmm.mPages i with usable := true } with
    mLowestPage := if i < pmm.mLowestPage then i else pmm.mLowestPage
    mHighestPage := if pmm.mHighestPage < i then i else pmm.mHighestPage
    mTotalPages := add32 pmm.mTotalPages 1
    mFreePages := add32 pmm.mFreePages 1 }

/-- `reserve`, for one page. -/
def reserve (pmm : PhysicalPageManager) (base : Nat) : Except Panic PhysicalPageManager :=
  let idx := index base
  if (pmm.mPages idx).usable = false then .error .reserveNonUsable
  else
    .ok { pmm.setPage idx { pmm.mPages idx with usable := false } with
      mFreePages := sub32 pmm.mFreePages 1 }

-- ==== taking references

/-- The loop of `alloc()`: at most `n` more pages from `idx` on, going
round at the end of the array. -/
def allocScan (pmm : PhysicalPageManager) : Nat → Nat → Option Nat
  | 0, _ => none
  | n + 1, idx =>
    let idx := if idx = gNumPages then 0 else idx
    if (pmm.mPages idx).available then some idx
    else allocScan pmm n (idx + 1)

/-- `alloc()`: a page nobody holds a reference on, if there is one. -/
def alloc (pmm : PhysicalPageManager) : Option (Nat × PhysicalPageManager) :=
  match pmm.allocScan gNumPages pmm.mLastChecked with
  | none => none
  | some idx =>
    let page := (pmm.mPages idx).incref
    some (gPageSize * idx,
      { pmm.setPage idx page with
        mLastChecked := idx
        mFreePages :=
          if 0 < page.refcnt then sub32 pmm.mFreePages 1
          else pmm.mFreePages })

/-- `alloc(base)`: one more reference to a given page. -/
def allocAt (pmm : PhysicalPageManager) (base : Nat) : Except Panic PhysicalPageManager :=
  let idx := index base
  if (pmm.mPages idx).usable = false then .error .allocNonUsable
  else
    let page := (pmm.mPages idx).incref
    .ok { pmm.setPage idx page with
      mFreePages :=
        if page.refcnt = 1 then sub32 pmm.mFreePages 1
        else pmm.mFreePages }

/-- The inner loop of `allocContiguousPages`: whether the `num` pages from
`idx` on are available, and if not, the index after the first one that is
not. -/
def probe (pmm : PhysicalPageManager) : Nat → Nat → Except Panic (Option Nat)
  | 0, _ => .ok none
  | num + 1, idx =>
    if gNumPages ≤ idx then .error .outOfBounds
    else if (pmm.mPages idx).available then probe pmm num (idx + 1)
    else .ok (some (idx + 1))

/-- The loop that takes the pages once a run of them is found. -/
def allocRun (pmm : PhysicalPageManager) : Nat → Nat → Except Panic PhysicalPageManager
  | 0, _ => .ok pmm
  | num + 1, idx =>
    match pmm.allocAt (idx * gPageSize) with
    | .error e => .error e
    | .ok pmm' => allocRun pmm' num (idx + 1)

theorem probe_lt {pmm : PhysicalPageManager} {num idx next : Nat}
    (h : pmm.probe num idx = .ok (some next)) : idx < next := by
  induction num generalizing idx with
  | zero => simp [probe] at h
  | succ num ih =>
    unfold probe at h
    split_ifs at h with _ havail
    · have := ih h
      omega
    · injection h with h
      injection h with h
      omega

/-- The outer loop of `allocContiguousPages`: the index at which a run of
`num` available pages starts. It restarts after each page in the way. -/
def searchRun (pmm : PhysicalPageManager) (num page_idx : Nat) : Except Panic (Option Nat) :=
  match _hprobe : pmm.probe num page_idx with
  | .error e => .error e
  | .ok none => .ok (some page_idx)
  | .ok (some next) =>
    if _hlast : pmm.mHighestPage < next then .ok none
    else searchRun pmm num next
termination_by pmm.mHighestPage + 1 - page_idx
decreasing_by
  have := probe_lt _hprobe
  omega

def allocContiguousPages (pmm : PhysicalPageManager) (num : Nat) :
    Except Panic (Option Nat × PhysicalPageManager) :=
  match pmm.searchRun num pmm.mLowestPage with
  | .error e => .error e
  | .ok none => .ok (none, pmm)
  | .ok (some page_idx) =>
    match pmm.allocRun num page_idx with
    | .error e => .error e
    | .ok pmm' => .ok (some (page_idx * gPageSize), pmm')

-- ==== giving references back

def dealloc (pmm : PhysicalPageManager) (base : Nat) : Except Panic PhysicalPageManager :=
  let idx := index base
  if (pmm.mPages idx).free || !(pmm.mPages idx).usable then
    .error .deallocFree
  else
    let page := (pmm.mPages idx).decref
    .ok { pmm.setPage idx page with
      mFreePages :=
        if page.refcnt = 0 then add32 pmm.mFreePages 1
        else pmm.mFreePages }

-- ==== what is asked of allocContiguousPages

/-- What the boot-time calls say about memory, and no other call changes:
where there may be pages. -/
structure Surveyed (pmm : PhysicalPageManager) : Prop where
  lowest : pmm.mLowestPage = 0
  highest : ∀ i, (pmm.mPages i).usable = true → i ≤ pmm.mHighestPage
  top : pmm.mHighestPage < gNumPages
  word : pmm.mFreePages < 0x100000000

/-- There are `num` pages from `idx` on, and all of them are available. -/
def RunAt (pmm : PhysicalPageManager) (num idx : Nat) : Prop :=
  idx + num ≤ gNumPages ∧ ∀ u < num, (pmm.mPages (idx + u)).available = true

/-- The call stays inside the page array. It takes the lowest run of `num`
pages, one reference to each of them, or there is none and nothing
changes. -/
def TakesLowest (pmm : PhysicalPageManager) (num : Nat) : Prop :=
  (∃ idx pmm', pmm.allocContiguousPages num = .ok (some (idx * gPageSize), pmm') ∧
    IsLeast {idx | pmm.RunAt num idx} idx ∧
    (∀ i, pmm'.mPages i = if idx ≤ i ∧ i < idx + num then
      (pmm.mPages i).incref else pmm.mPages i) ∧
    add32 pmm'.mFreePages num = pmm.mFreePages) ∨
  pmm.allocContiguousPages num = .ok (none, pmm) ∧ ∀ idx, ¬ pmm.RunAt num idx

end PhysicalPageManager

end Puppy.Mm
