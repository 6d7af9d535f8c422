/-
The memory that the firmware reports (src/boot/earlyboot.cpp:
`setupPhysicalMemory`, src/mm/phys.cpp: `addpages`).

The boot loader hands over a list of blocks with 64-bit addresses. Blocks
of memory have type 1; their pages are given to the physical page manager,
except for the first megabyte. `addpages` takes 32-bit arguments.

The list is read from memory by its length in bytes, with a size in front
of each block. Here it is a list.
-/
import Puppy.Mm.Phys

namespace Puppy.Mm

open Libc

/-- `multiboot_memory_map_t`. -/
structure MemoryBlock where
  type : Nat
  addr : UInt64
  len : UInt64
  deriving DecidableEq, Repr

def offalignment (addr : Nat) : Nat := addr % gPageSize

namespace PhysicalPageManager

/-- The loop of `addpages`, which goes round once for each page that is
left. -/
def addRounds (pmm : PhysicalPageManager) (base : Nat) : Nat → PhysicalPageManager
  | 0 => pmm
  | rounds + 1 => (pmm.addpage base).addRounds (add32 base gPageSize) rounds

def addpages (pmm : PhysicalPageManager) (base len : Nat) :
    PhysicalPageManager :=
  let offset := offalignment base
  if 0 < offset then
    pmm.addRounds (add32 (sub32 base offset) gPageSize) (sub32 len (gPageSize - offset) / gPageSize)
  else pmm.addRounds base (len / gPageSize)

/-- One round of `setupPhysicalMemory`. -/
def addBlock (pmm : PhysicalPageManager) (mmap : MemoryBlock) :
    PhysicalPageManager :=
  if mmap.type = 1 then
    let threshold : UInt64 := 1048576
    let (start, len) :=
      if mmap.addr < threshold then
        if threshold ≤ mmap.len then
          (threshold, mmap.len - (mmap.addr - threshold))
        else (mmap.addr, mmap.len)
      else (mmap.addr, mmap.len)
    if threshold ≤ start then
      -- The arguments are a `uintptr_t` and a `size_t`.
      pmm.addpages (start.toNat % 0x100000000) (len.toNat % 0x100000000)
    else pmm
  else pmm

/-- `setupPhysicalMemory`, starting with a new manager. -/
def setupPhysicalMemory (mmap : List MemoryBlock) : PhysicalPageManager :=
  mmap.foldl addBlock {}

end PhysicalPageManager

-- ==== what it is for

namespace MemoryBlock

/-- The address after the last byte. -/
def stop (b : MemoryBlock) : Nat := b.addr.toNat + b.len.toNat

/-- A page of memory that the kernel may use: all of it is in the block, it
is not in the first megabyte, and it has a 32-bit address. -/
def Offers (b : MemoryBlock) (page : Nat) : Prop :=
  b.type = 1 ∧ b.addr.toNat ≤ page * gPageSize ∧ (page + 1) * gPageSize ≤ b.stop ∧
    0x100000 ≤ page * gPageSize ∧ (page + 1) * gPageSize ≤ 0x100000000

instance (b : MemoryBlock) (page : Nat) : Decidable (b.Offers page) :=
  inferInstanceAs (Decidable (b.type = 1 ∧ b.addr.toNat ≤ page * gPageSize ∧
    (page + 1) * gPageSize ≤ b.stop ∧
    0x100000 ≤ page * gPageSize ∧ (page + 1) * gPageSize ≤ 0x100000000))

/-- The blocks have no byte in common. -/
def Apart (b b' : MemoryBlock) : Prop :=
  b.stop ≤ b'.addr.toNat ∨ b'.stop ≤ b.addr.toNat

/-- The first page that a block can offer. -/
def first (b : MemoryBlock) : Nat := max ((b.addr.toNat + (gPageSize - 1)) / gPageSize) 256

/-- The number of pages that a block offers. -/
def full (b : MemoryBlock) : Nat := min b.stop 0x100000000 / gPageSize - b.first

/-- The number of pages that are taken from it. -/
def taken (b : MemoryBlock) : Nat :=
  if b.addr.toNat < 0x100000 then
    if b.len.toNat < 0x100000 then 0
    else (b.len.toNat + 0x100000 - b.addr.toNat) % 0x100000000 / gPageSize
  else if b.addr.toNat % gPageSize = 0 then b.len.toNat % 0x100000000 / gPageSize
  else
    (b.len.toNat + 0x100000000 - (gPageSize - b.addr.toNat % gPageSize)) % 0x100000000 / gPageSize

/-- A block that is handled well: as many pages are taken as there are. So it
is if the block is beyond the first megabyte, below 4 GB, and begins at a
page or reaches the next one; or if it begins in the first megabyte, is
smaller than one and has no full page beyond it. Else it is by accident. -/
def Plain (b : MemoryBlock) : Prop := b.taken = b.full

end MemoryBlock

/-- The pages that a memory map offers. -/
def Offered (mmap : List MemoryBlock) (page : Nat) : Prop :=
  ∃ b ∈ mmap, b.Offers page

instance (mmap : List MemoryBlock) (page : Nat) : Decidable (Offered mmap page) :=
  inferInstanceAs (Decidable (∃ b ∈ mmap, b.Offers page))

/-- The manager has the pages that the memory map offers, and their
number. -/
structure PhysicalPageManager.Has (mmap : List MemoryBlock)
    (pmm : PhysicalPageManager) : Prop where
  usable : ∀ page, (pmm.mPages page).usable = true ↔ Offered mmap page
  total : pmm.mTotalPages = ((Finset.range gNumPages).filter (Offered mmap)).card

end Puppy.Mm
