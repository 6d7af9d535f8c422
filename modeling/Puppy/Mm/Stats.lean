/-
How much memory a process has asked for (src/mm/memmgr.cpp: `addRegion`,
`removeRegion`, `clone`, `cleanupAllRegions`, src/process/process.cpp:
`process_t::clone`).

Two counters are kept of the total size of a process's regions: one in its
memory manager, which `sysinfo` reports, and `memstats.available` in the
process itself, which the process list does. `addRegion` and `removeRegion`
change both. They are always called by the process whose manager it is, so
`gCurrentProcess` is that process.

# The system

Of the memory of a process there are the regions and the counters; its
pages are in `Puppy.Mm.System`. The loader is taken apart into the calls it
makes: a region for the file, regions with given bounds for segments and
guard pages, regions wherever there is room, and the removal of the first
one. Two things are not in the kernel: `added`, the regions that were added
and are not removed yet, and `wrapped`, which says that a counter has gone
below zero.
-/
import Puppy.Lib.Machine
import Puppy.Mm.MemMgr

namespace Puppy.Mm

open Libc Lib

/-- A process, as far as its counters go. -/
structure Account where
  mm : MemoryManager := .init
  /-- `memstats.available`. -/
  available : Nat := 0
  exited : Bool := false
  /-- The region that the loader has read the file into. -/
  file_rgn : Option Region := none
  added : List Interval := []
  wrapped : Bool := false
  deriving DecidableEq, Repr

namespace Account

def addRegion (a : Account) (rgn : Region) : Account :=
  { a with
    mm := a.mm.addRegion rgn
    available := add32 a.available rgn.size
    added := rgn.toInterval :: a.added }

def removeRegion (a : Account) (rgn : Region) : Account :=
  match IntervalList.del rgn a.mm.mRegions with
  | none => a
  | some regions =>
    { a with
      mm :=
        { mRegions := regions
          mAllRegionsSize := sub32 a.mm.mAllRegionsSize rgn.size }
      available := sub32 a.available rgn.size
      added := a.added.erase rgn.toInterval
      wrapped := a.wrapped || decide (a.mm.mAllRegionsSize < rgn.size) ||
        decide (a.available < rgn.size) }

/-- What `findAndMapRegion`, `findAndZeroPageRegion` and
`findAndFileMapRegion` have in common. -/
def findAndAdd (a : Account) (size : Nat) : Option (Region × Account) :=
  (a.mm.findRegionImpl size).map fun range =>
    let rgn : Region := { toInterval := range }
    (rgn, a.addRegion rgn)

/-- The process with one more region, if there is room for it. -/
def grow (a : Account) (size : Nat) : Account :=
  match a.findAndAdd size with
  | some (_, a) => a
  | none => a

/-- `isWithinRegion`, for an address that is not in the kernel. -/
def userRegion (a : Account) (addr : Nat) : Option Region :=
  if page addr = 0 then none
  else IntervalList.contains addr a.mm.mRegions

/-- `process_t::clone`, with `MemoryManager::clone`. The new process has the
zeroes of its constructor in `memstats`. -/
def clone (a : Account) : Account :=
  { mm := a.mm, available := 0, added := a.added }

def cleanupRegion (a : Account) (rgn : Region) : Except Panic Account :=
  cleanupRound a.mm.mRegions rgn (.ok (a.removeRegion rgn)) a

def cleanupAllRegions (a : Account) : Except Panic Account :=
  a.mm.mRegions.foldlM cleanupRegion a

end Account

abbrev AccountTable := Nat → Option Account

inductive StatsAction where
  | create (p : Nat)
  /-- The loader makes room for the file, and gives it up again. -/
  | loadFile (p size : Nat)
  | unloadFile (p : Nat)
  /-- `addMappedRegion` and `addUnmappedRegion`. -/
  | addRegion (p frm upto : Nat)
  /-- The loader or `clone_start` asks for a stack, or for room for the
  environment and the arguments. -/
  | findRegion (p size : Nat)
  | mapregion (p size : Nat)
  | mmap (p size : Nat)
  | unmapregion (p address : Nat)
  | clone (p q : Nat)
  | exit (p : Nat)
  | delete (p : Nat)
  deriving DecidableEq, Repr

namespace AccountTable

/-- The process with a pid, unless it has exited. -/
def find (s : AccountTable) (p : Nat) : Except Panic Account :=
  match s p with
  | some a => if a.exited then .error .disabled else .ok a
  | none => .error .disabled

def store (s : AccountTable) (p : Nat) (a : Account) : AccountTable :=
  Function.update s p (some a)

def step : StatsAction → AccountTable → Except Panic AccountTable
  | .create p, s =>
    match s p with
    | none => .ok (s.store p {})
    | some _ => .error .disabled
  | .loadFile p size, s => do
    let a ← s.find p
    match a.findAndAdd size with
    | some (rgn, a) => .ok (s.store p { a with file_rgn := some rgn })
    | none => .ok s
  | .unloadFile p, s => do
    let a ← s.find p
    match a.file_rgn with
    | some rgn => .ok (s.store p { a.removeRegion rgn with file_rgn := none })
    | none => .error .disabled
  | .addRegion p frm upto, s => do
    let a ← s.find p
    .ok (s.store p (a.addRegion { frm := frm, upto := upto }))
  | .findRegion p size, s => do
    let a ← s.find p
    .ok (s.store p (a.grow size))
  | .mapregion p size, s => do
    let a ← s.find p
    if offset size ≠ 0 then .ok s else .ok (s.store p (a.grow size))
  | .mmap p size, s => do
    let a ← s.find p
    .ok (s.store p (a.grow size))
  | .unmapregion p address, s => do
    let a ← s.find p
    if iskernel address then .ok s
    else
      match a.userRegion address with
      | none => .ok s
      | some rgn => .ok (s.store p (a.removeRegion rgn))
  | .clone p q, s => do
    let a ← s.find p
    match s q with
    | none => .ok (s.store q a.clone)
    | some _ => .error .disabled
  | .exit p, s => do
    let a ← s.find p
    let a ← a.cleanupAllRegions
    .ok (s.store p { a with exited := true })
  | .delete p, s =>
    match s p with
    | some a => if a.exited then .ok (Function.update s p none)
        else .error .disabled
    | none => .error .disabled

end AccountTable

def statsSystem : Machine AccountTable StatsAction Panic where
  boot s := s = fun _ => none
  step := AccountTable.step

-- ==== right counters

namespace Account

/-- The total size of the regions added and not removed. -/
def total (a : Account) : Nat := (a.added.map Interval.size).sum

/-- Both counters are right, and have never been below zero. -/
structure Right (a : Account) : Prop where
  managed : a.mm.mAllRegionsSize = a.total
  listed : a.available = a.total
  kept : a.wrapped = false

end Account

/-- The step keeps the counters right. A region is added only if the total
has 32 bits, a process that clones itself has no memory, and none exits. -/
def AccountTable.Countable (s : AccountTable) : StatsAction → Prop
  | .loadFile p size | .findRegion p size | .mapregion p size | .mmap p size =>
    ∀ a, s p = some a → a.total + toPage size < 0x100000000
  | .addRegion p frm upto => ∀ a, s p = some a → a.total + Interval.size ⟨frm, upto⟩ < 0x100000000
  | .clone p _ => ∀ a, s p = some a → a.total = 0
  | .exit _ => False
  | _ => True

instance (priority := low) decidableForallSome {α : Type} {Q : α → Prop} [DecidablePred Q] :
    ∀ o : Option α, Decidable (∀ a, o = some a → Q a)
  | none => .isTrue fun _ h => nomatch h
  | some a => decidable_of_iff (Q a) ⟨fun h _ heq => Option.some.inj heq ▸ h, fun h => h a rfl⟩

instance (s : AccountTable) : ∀ act, Decidable (s.Countable act)
  | .loadFile p size | .findRegion p size | .mapregion p size | .mmap p size =>
    inferInstanceAs (Decidable (∀ a, s p = some a → a.total + toPage size < 0x100000000))
  | .addRegion p frm upto =>
    inferInstanceAs (Decidable (∀ a, s p = some a →
      a.total + Interval.size ⟨frm, upto⟩ < 0x100000000))
  | .clone p _ => inferInstanceAs (Decidable (∀ a, s p = some a → a.total = 0))
  | .exit _ => .isFalse id
  | .create _ | .unloadFile _ | .unmapregion _ _ | .delete _ => .isTrue trivial

end Puppy.Mm
