/-
The descriptor table (src/process/manager.cpp: `fillGDT` and the
constructor, src/tasks/deleter.cpp, src/boot/loader.s).

A process is switched to through a descriptor that points to its process
object. The descriptor's place in the table, `gdtidx`, comes from a bitmap
of its own, next to the one for pids. The first six places belong to the
kernel, so the two bitmaps run six apart as long as neither has wrapped
around. The deleter counts on it: the place it clears is computed from the
pid, and only then is `gdtidx` returned to its bitmap.

# What is modelled

The table itself, with the values that birth and deletion write to it, and
the two functions that do so. What a process does in between changes
neither its pid nor its place, so the actions are births and deletions, in
any order.
-/
import Puppy.Proc.Tasks

namespace Puppy.Proc

open Libc Lib Function

/-- `__numsysgdtentries`. -/
def numsysgdtentries : Nat := 6

/-- The descriptor of a process object, whose size is a number the
compiler knows. -/
def descriptor (sizeofProcess : Nat) (process : Ptr) : Nat :=
  sizeofProcess &&& 0xFFFF ||| (process &&& 0xFFFFFF) <<< 16
    ||| 0xE90000000000 ||| (process &&& 0xFF000000) <<< 32

/-- The part of `__gdt` that the loader fills, and the task gate, which
the constructor of the process manager rewrites. -/
def systemDescriptors : Nat → Nat
  | 1 => 0x00CF9A000000FFFF
  | 2 => 0x00CF92000000FFFF
  | 3 => 0x00CFFA000000FFFF
  | 4 => 0x00CFF2000000FFFF
  | 5 => 0x300000 ||| 0x1E50000000000
  | _ => 0

/-- The scheduling state with the descriptor table. -/
structure Described where
  sched : State
  /-- `addr_gdt`. -/
  dtbl : Nat → Nat

inductive TableAction where
  | spawn (parent page : Ptr) (si : State.SpawnInfo)
  | delete (proc : Ptr)
  deriving DecidableEq, Repr

namespace Described

variable (sizeofProcess : Nat)

/-- `fillGDT`, for a process that has been given its place. -/
def fillGDT (dtbl : Nat → Nat) (process : Ptr) (gdtidx : Nat) : Nat → Nat :=
  update dtbl gdtidx (descriptor sizeofProcess process)

/-- `spawn`. A request that is refused leaves no process on the page. -/
def spawn (s : Described) (parent page : Ptr) (si : State.SpawnInfo) : Except Panic Described := do
  let sched ← s.sched.spawn parent page si
  match s.sched.procs page, sched.procs page with
  | none, some process => .ok ⟨sched, fillGDT sizeofProcess s.dtbl page process.gdtidx⟩
  | _, _ => .ok ⟨sched, s.dtbl⟩

/-- A round of the deleter's inner loop. -/
def delete (s : Described) (proc : Ptr) : Except Panic Described := do
  let t ← s.sched.deref proc
  let sched ← s.sched.delete proc
  .ok ⟨sched, update s.dtbl (t.pid + numsysgdtentries) 0⟩

/-- What an action does. -/
def step : TableAction → Described → Except Panic Described
  | .spawn parent page si, s => s.spawn sizeofProcess parent page si
  | .delete proc, s => s.delete proc

/-- The state that the constructor of the process manager leaves. -/
def initial : Described :=
  ⟨State.initial, fillGDT sizeofProcess systemDescriptors 0 6⟩

-- ==== what is asked of the table

/-- No two processes share a pid or a place in the table. -/
structure Distinct (s : Described) : Prop where
  pids : ∀ p t p' t', s.sched.procs p = some t → s.sched.procs p' = some t' →
    t.pid = t'.pid → p = p'
  gdts : ∀ p t p' t', s.sched.procs p = some t → s.sched.procs p' = some t' →
    t.gdtidx = t'.gdtidx → p = p'

/-- Every process has its descriptor. -/
def Intact (s : Described) : Prop :=
  ∀ p t, s.sched.procs p = some t → s.dtbl t.gdtidx = descriptor sizeofProcess p

/-- The descriptor at a place is cleared, and no other. -/
def ClearsExactly (s s' : Described) (gdtidx : Nat) : Prop :=
  s'.dtbl = update s.dtbl gdtidx 0

/-- A process is deleted only while its place is its pid, moved up by the
kernel's own descriptors. -/
def InStep (s : Described) : TableAction → Prop
  | .delete proc => ∀ t, s.sched.procs proc = some t → t.gdtidx = t.pid + numsysgdtentries
  | _ => True

end Described

/-- Births and deletions, in any order. -/
def descriptorTable (sizeofProcess : Nat) : Machine Described TableAction Panic where
  boot s := s = Described.initial sizeofProcess
  step := Described.step sizeofProcess

end Puppy.Proc
