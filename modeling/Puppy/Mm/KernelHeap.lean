/-
The kernel heap's own memory (src/mm/heap.cpp, `KernelHeap` in
src/mm/virt.cpp).

A heap is a range of addresses and a break, below which it has memory.
`sbrk` moves the break up by whole blocks, and `oneblock` finds the memory
for each of them: here a physical page, which is cleared and mapped at the
break.

# What can go wrong on the way

The loop of `sbrk` takes one block after the other, and only then looks
whether there is room for the next one. If there is not, it returns 0, and
the blocks it has taken so far stay where they are. Nothing looks at the
break again once the last block has been taken. The amount is rounded up in
32-bit arithmetic, so that the largest amounts become 0.

# What is modelled

The heap starts at a page boundary (`setupKernelHeap`) and its blocks are
pages, which is part of the type. Addresses are 32-bit words, and the break
wraps where the source's does. The start of the range is left out, as
`sbrk` never looks at it.
-/
import Puppy.Mm.Virt
import Puppy.Libc.Malloc

namespace Puppy.Mm

open Libc

/-- `VirtualPageManager::KernelHeap`. -/
structure KernelHeap extends Heap where
  aligned : mCurrent % gPageSize = 0
  current_lt : mCurrent < 0x100000000
  high_lt : high < 0x100000000
  deriving DecidableEq

namespace KernelHeap

theorem aligned_add32 {current : Nat} (h : current % gPageSize = 0) :
    add32 current Heap.blocksize % gPageSize = 0 := by
  unfold add32 Heap.blocksize
  unfold gPageSize at *
  omega

theorem add32_lt (a b : Nat) : add32 a b < 0x100000000 :=
  Nat.mod_lt _ (by decide)

/-- `mCurrent += blksz`. -/
def advance (h : KernelHeap) : KernelHeap where
  high := h.high
  mCurrent := add32 h.mCurrent Heap.blocksize
  aligned := aligned_add32 h.aligned
  current_lt := add32_lt _ _
  high_lt := h.high_lt

/-- `KernelHeap::oneblock`: a page of memory at the break. -/
def oneblock (h : KernelHeap) (vm : Vm) : Except Panic (Nat × Vm) :=
  match vm.pmm.alloc with
  | none => .error .resultOfFailure
  | some (block, pmm) =>
    .ok (h.mCurrent, Vm.map { vm with pmm := pmm } block h.mCurrent
      { rw := true, user := false, clear := true })

/-- The loop of `sbrk`, over the blocks that are missing: whether it gets
to its end. -/
def sbrkLoop : Nat → KernelHeap → Vm → Except Panic (Bool × KernelHeap × Vm)
  | 0, h, vm => .ok (true, h, vm)
  | n + 1, h, vm =>
    if h.high ≤ h.mCurrent then .ok (false, h, vm)
    else do
      let (more, vm) ← h.oneblock vm
      if more = 0 then .ok (false, h, vm)
      else sbrkLoop n h.advance vm

/-- `Heap::sbrk`. -/
def sbrk (h : KernelHeap) (vm : Vm) (amount : Nat) : Except Panic (Nat × KernelHeap × Vm) :=
  if amount = 0 then .ok (h.mCurrent, h, vm)
  else do
    let (enough, h', vm) ←
      sbrkLoop (Heap.roundUp amount / Heap.blocksize) h vm
    .ok (if enough then h.mCurrent else 0, h', vm)

-- ==== all or nothing

/-- How many blocks an amount needs. -/
def blocksFor (amount : Nat) : Nat :=
  (amount + (Heap.blocksize - 1)) / Heap.blocksize

/-- An address in the blocks between two breaks. -/
def Between (h h' : KernelHeap) (a : Nat) : Prop :=
  h.mCurrent ≤ a ∧ a < h'.mCurrent

/-- The break has moved up by so many blocks, each of them has a page of
its own that nobody used before, and nothing else has changed. -/
structure Grown (h h' : KernelHeap) (vm vm' : Vm) (blocks : Nat) : Prop where
  high : h'.high = h.high
  moved : h'.mCurrent = h.mCurrent + blocks * Heap.blocksize
  within : h'.mCurrent ≤ h.high + 1
  backed : ∀ a, h.Between h' a → (vm'.entry a).present = true ∧
    (vm.pmm.mPages (index (vm'.entry a).page)).available = true
  apart : ∀ a b, h.Between h' a → h.Between h' b → index a ≠ index b →
    (vm'.entry a).page ≠ (vm'.entry b).page
  others : ∀ a < 0x100000000, ¬ h.Between h' a → vm'.entry a = vm.entry a

/-- `sbrk` returns, and the heap has either grown by the whole amount or
not at all. -/
def AllOrNothing (h : KernelHeap) (vm : Vm) (amount : Nat) : Prop :=
  ∃ ptr h' vm', h.sbrk vm amount = .ok (ptr, h', vm') ∧
    (ptr = h.mCurrent ∧ Grown h h' vm vm' (blocksFor amount) ∨ ptr = 0 ∧ h' = h ∧ vm' = vm)

/-- The blocks fit below the end of the range, which is not the end of the
address space, and there are pages for them. -/
def Fits (h : KernelHeap) (vm : Vm) (blocks : Nat) : Prop :=
  0 < h.mCurrent ∧ h.mCurrent + blocks * Heap.blocksize ≤ h.high + 1 ∧
    h.mCurrent + blocks * Heap.blocksize < 0x100000000 ∧
    ∃ taken, allocPages blocks vm.pmm = .ok taken

/-- What the heap and the amount have to be like. The first two lines are
about requests that need no block or are too large to be rounded. -/
def Whole (h : KernelHeap) (vm : Vm) (amount : Nat) : Prop :=
  amount = 0 ∧ h.mCurrent ≤ h.high + 1 ∨
  0xFFFFF000 < amount ∧ h.mCurrent = 0 ∨
  (0 < amount ∧ amount ≤ 0xFFFFF000) ∧ (h.high ≤ h.mCurrent ∨ h.Fits vm (blocksFor amount))

end KernelHeap

end Puppy.Mm
