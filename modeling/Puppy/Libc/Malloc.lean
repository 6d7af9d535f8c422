/-
The kernel heap (src/libc/malloc.cpp, src/mm/heap.cpp).

Free memory is a circular list of blocks in order of address. Each block
starts with a header that has its length, counted in headers, and the
address of the next free block; a header of length 0, `list`, is always in
the list. `first` remembers where the last search ended. Blocks in use keep
their header, so that `free` knows how long they are.

# What is modelled

Memory is what stands in the headers, by address. The bytes between them
belong to whoever asked for them. The memory that the kernel heap gives out
lies below the end of the address space, so that no address and no length
wraps; only the sizes that callers ask for are 32-bit words to begin with.

A request for more memory can come back with none: when its size has
wrapped on the way, `sbrk` has nothing to do and returns the break. The
header that `malloc` then writes there is a page fault of the kernel inside
its own region, and `zeropage_recover` maps a page for it. So headers can
be written at any address here.

The loops of `malloc` and `free` are given a number of rounds. A call that
needs more ends in `spinning`, and that there is always a number that is
enough is something to be proven.

# Memory from the kernel

`ksbrk` panics when it has no memory left, so the test of `malloc` for a
failure never fires and is left out. That a page of the heap gets a frame,
or panics for want of one, is left out too. `ksbrk` can be called by others
than `malloc`, and then the memory of `malloc` has gaps.
-/
import Mathlib.Data.Finset.Basic
import Mathlib.Algebra.BigOperators.Group.Finset.Defs
import Puppy.Lib.Machine
import Puppy.Lib.Circle
import Puppy.Libc.Word
import Puppy.Panic

namespace Puppy.Libc

open Lib Function

-- ==== the kernel heap

/-- `Heap`: where its range ends, and how far it has been used. -/
structure Heap where
  high : Nat
  mCurrent : Nat
  deriving DecidableEq, Repr

namespace Heap

/-- `blocksize`: the size of a page. -/
def blocksize : Nat := 4096

/-- The loop of `sbrk`, over the blocks that are missing. -/
def sbrkLoop : Nat → Heap → Option Heap
  | 0, h => some h
  | n + 1, h =>
    if h.high ≤ h.mCurrent then none
    else sbrkLoop n { h with mCurrent := h.mCurrent + blocksize }

/-- An amount rounded up to whole blocks, as a 32-bit word: above the last
block of the address space, it becomes 0. -/
def roundUp (amount : Nat) : Nat :=
  if amount % blocksize = 0 then amount
  else add32 (amount - amount % blocksize) blocksize

def sbrk (h : Heap) (amount : Nat) : Option (Nat × Heap) :=
  if amount = 0 then some (h.mCurrent, h)
  else (sbrkLoop (roundUp amount / blocksize) h).map (h.mCurrent, ·)

end Heap

-- ==== headers

/-- `union header`. -/
structure Header where
  next : Nat
  len : Nat
  deriving DecidableEq, Repr

namespace Header

/-- `sizeof(union header)`. -/
def size : Nat := 8

end Header

/-- The headers in memory. -/
abbrev Headers := Nat → Header

namespace Headers

def setNext (m : Headers) (a next : Nat) : Headers :=
  update m a { m a with next := next }

def setLen (m : Headers) (a len : Nat) : Headers :=
  update m a { m a with len := len }

/-- The address after a block. -/
def endOf (m : Headers) (a : Nat) : Nat := a + Header.size * (m a).len

/-- The loop of `free` that looks for the place of a block. -/
def place (m : Headers) (block : Nat) : Nat → Nat → Option Nat
  | 0, _ => none
  | n + 1, iter =>
    if block ≤ iter ∨ (m iter).next ≤ block then
      if (iter < block ∨ block < (m iter).next) ∧ (m iter).next ≤ iter then
        some iter
      else place m block n (m iter).next
    else some iter

/-- The first half of the merging in `free`: with the block after it. -/
def mergeNext (m : Headers) (iter block : Nat) : Headers :=
  if m.endOf block = (m iter).next then
    let m := m.setLen block ((m block).len + (m (m iter).next).len)
    m.setNext block (m (m iter).next).next
  else m.setNext block (m iter).next

/-- The second half: with the block before it. -/
def mergePrev (m : Headers) (iter block : Nat) : Headers :=
  if m.endOf iter = block then
    let m := m.setLen iter ((m iter).len + (m block).len)
    m.setNext iter (m block).next
  else m.setNext iter block

end Headers

-- ==== malloc and free

/-- What `malloc` and `free` work on. -/
structure Malloc where
  /-- The address of `list`. -/
  list : Nat
  headers : Headers
  first : Option Nat
  heap : Heap
  /-- The blocks in use. Nothing reads this. -/
  live : Finset Nat
  /-- What has been requested from `ksbrk`, in headers. Nothing reads it. -/
  requested : Nat

namespace Malloc

def NALLOC : Nat := 1024

def free (s : Malloc) (ptr rounds : Nat) : Except Panic Malloc :=
  if ptr = 0 then .ok s
  else
    let block := ptr - Header.size
    match s.first with
    | none => .error .fault
    | some first =>
      match s.headers.place block rounds first with
      | none => .error .spinning
      | some iter =>
        let headers := s.headers.mergeNext iter block
        .ok { s with
          headers := headers.mergePrev iter block
          first := some iter }

/-- The length of a block for so many bytes, with its header. -/
def trueSize (size : Nat) : Nat :=
  add32 size (Header.size - 1) / Header.size + 1

/-- How much is asked for when no block is long enough. -/
def sbrkSize (true_size : Nat) : Nat :=
  if NALLOC ≤ true_size then true_size else NALLOC

/-- The same in bytes. -/
def kernelAskSize (true_size : Nat) : Nat :=
  sbrkSize true_size * Header.size % 0x100000000

def ksbrk (s : Malloc) (amount : Nat) : Except Panic (Nat × Malloc) :=
  match s.heap.sbrk amount with
  | none => .error .heapExhausted
  | some (ptr, heap) => .ok (ptr, { s with heap := heap })

/-- The branch of `malloc` that requests memory. It is given back as if it
had been in use. -/
def request (s : Malloc) (true_size rounds : Nat) : Except Panic Malloc :=
  match s.ksbrk (kernelAskSize true_size) with
  | .error e => .error e
  | .ok (page, s) =>
    let s := { s with
      headers := s.headers.setLen page (sbrkSize true_size)
      requested := s.requested + sbrkSize true_size }
    s.free (page + Header.size) rounds

/-- The branch of `malloc` for a block that is long enough. If it is too
long, its end is used. -/
def take (s : Malloc) (true_size prev p : Nat) : Nat × Malloc :=
  if (s.headers p).len = true_size then
    (p, { s with
      headers := s.headers.setNext prev (s.headers p).next
      first := some prev })
  else
    let headers := s.headers.setLen p ((s.headers p).len - true_size)
    let p := headers.endOf p
    (p, { s with
      headers := headers.setLen p true_size
      first := some prev })

/-- The loop of `malloc`. -/
def search (true_size : Nat) : Nat → Malloc → Nat → Nat → Except Panic (Nat × Malloc)
  | 0, _, _, _ => .error .spinning
  | n + 1, s, prev, p =>
    if true_size ≤ (s.headers p).len then .ok (s.take true_size prev p)
    else if s.first = some p then
      match s.request true_size n with
      | .error e => .error e
      | .ok s =>
        match s.first with
        | none => .error .fault
        | some first => search true_size n s first (s.headers first).next
    else search true_size n s p (s.headers p).next

/-- The first call of `malloc` makes the list. -/
def firstCall (s : Malloc) : Malloc :=
  match s.first with
  | some _ => s
  | none =>
    { s with
      headers := update s.headers s.list { next := s.list, len := 0 }
      first := some s.list }

/-- `malloc`: the address of the new memory. -/
def malloc (s : Malloc) (size rounds : Nat) : Except Panic (Nat × Malloc) :=
  let s := s.firstCall
  match s.first with
  | none => .error .fault
  | some prev =>
    match search (trueSize size) rounds s prev (s.headers prev).next with
    | .error e => .error e
    | .ok (p, s) => .ok (p + Header.size, s)

def bzero (bytes : Nat → UInt8) (ptr n : Nat) : Nat → UInt8 := fun a =>
  if ptr ≤ a ∧ a < ptr + n then 0 else bytes a

/-- `calloc`, over the bytes between the headers. -/
def calloc (s : Malloc) (bytes : Nat → UInt8) (num len rounds : Nat) :
    Except Panic (Nat × Malloc × (Nat → UInt8)) :=
  let size := num * len % 0x100000000
  match s.malloc size rounds with
  | .error e => .error e
  | .ok (ptr, s) => .ok (ptr, s, if ptr = 0 then bytes else bzero bytes ptr size)

-- ==== calls in any order

inductive Action where
  | malloc (size rounds : Nat)
  /-- A pointer to a block in use is given back. -/
  | free (block rounds : Nat)
  /-- Somebody else uses the kernel heap. -/
  | ksbrk (amount : Nat)
  deriving DecidableEq, Repr

def step (a : Action) (s : Malloc) : Except Panic Malloc :=
  match a with
  | .malloc size rounds =>
    match s.malloc size rounds with
    | .error e => .error e
    | .ok (ptr, s) => .ok { s with live := insert (ptr - Header.size) s.live }
  | .free block rounds =>
    if block ∈ s.live then
      match s.free (block + Header.size) rounds with
      | .error e => .error e
      | .ok s => .ok { s with live := s.live.erase block }
    else .error .disabled
  | .ksbrk amount =>
    match s.ksbrk amount with
    | .error e => .error e
    | .ok (_, s) => .ok s

/-- The heap before its first use: there are no blocks, and the memory of
the kernel heap begins above the header `list`. -/
def Fresh (s : Malloc) : Prop :=
  s.first = none ∧ s.live = ∅ ∧ s.requested = 0 ∧ s.list + Header.size ≤ s.heap.mCurrent

end Malloc

/-- The kernel's allocator, under any sequence of calls. -/
def allocator : Machine Malloc Malloc.Action Panic where
  boot := Malloc.Fresh
  step := Malloc.step

namespace Malloc

/-- The sizes that are asked for. -/
def SmallSizes (_ : Malloc) : Action → Prop
  | .malloc size _ => size < 0x80000000
  | _ => True

instance (s : Malloc) (a : Action) : Decidable (SmallSizes s a) := by
  unfold SmallSizes
  split <;> infer_instance

-- ==== what is asked of the sizes

/-- The allocator with a heap whose memory begins at `low`. -/
def allocatorFrom (low : Nat) : Machine Malloc Action Panic where
  boot s := s.Fresh ∧ s.heap.mCurrent = low
  step := step

/-- The sizes for which nothing wraps: neither the length of the block, nor
the number of bytes to ask for, nor that number rounded up to pages. -/
def Modest (_ : Malloc) : Action → Prop
  | .malloc size _ => size ≤ 0xFFFFEFF8
  | _ => True

instance (s : Malloc) (a : Action) : Decidable (Modest s a) := by
  unfold Modest
  split <;> infer_instance

/-- The block has so many bytes after its header, and all of it is memory
that the kernel heap has given out. -/
def HasBytes (low : Nat) (s : Malloc) (ptr n : Nat) : Prop :=
  ptr + n ≤ s.headers.endOf (ptr - Header.size) ∧ low ≤ ptr - Header.size ∧
    s.headers.endOf (ptr - Header.size) ≤ s.heap.mCurrent

instance (low : Nat) (s : Malloc) (ptr n : Nat) : Decidable (s.HasBytes low ptr n) :=
  inferInstanceAs (Decidable (_ ∧ _ ∧ _))

-- ==== what is asked of the heap

/-- `free` are the blocks of the free list, apart from `list` itself. -/
structure FreeList (s : Malloc) (free : Finset Nat) : Prop where
  /-- The list is circular, in order of address, and begins at `list`. -/
  circle : Circle (fun a => (s.headers a).next) (insert s.list free)
  lowest : ∀ a ∈ free, s.list < a
  first : ∃ first ∈ insert s.list free, s.first = some first
  /-- No two of its blocks touch. -/
  merged : ∀ a ∈ free, ∀ b ∈ free, s.headers.endOf a ≠ b

/-- Two blocks have no byte in common. -/
def Separate (s : Malloc) (a b : Nat) : Prop :=
  s.headers.endOf a ≤ b ∨ s.headers.endOf b ≤ a

/-- The free list is in order, no two blocks overlap, and no memory has
been lost. -/
def Intact (s : Malloc) : Prop :=
  ∃ free : Finset Nat, (s.first = none → free = ∅) ∧ (s.first ≠ none → s.FreeList free) ∧
    Disjoint free s.live ∧
    (∀ a ∈ free ∪ s.live, s.list < a ∧ 0 < (s.headers a).len ∧
      s.headers.endOf a ≤ s.heap.mCurrent) ∧
    (∀ a ∈ free ∪ s.live, ∀ b ∈ free ∪ s.live, a ≠ b → s.Separate a b) ∧
    ∑ a ∈ free, (s.headers a).len + ∑ a ∈ s.live, (s.headers a).len = s.requested

/-- `free` returns, if it is given enough rounds. -/
def FreeEnds (s : Malloc) : Prop :=
  ∀ block ∈ s.live, ∃ n, ∀ rounds ≥ n, ∃ s', step (.free block rounds) s = .ok s'

/-- So does `malloc`, if `ksbrk` would. -/
def MallocEnds (s : Malloc) : Prop :=
  ∀ size < 0x80000000, s.heap.sbrk (kernelAskSize (trueSize size)) ≠ none →
      ∃ n, ∀ rounds ≥ n, ∃ s', step (.malloc size rounds) s = .ok s'

end Malloc

end Puppy.Libc
