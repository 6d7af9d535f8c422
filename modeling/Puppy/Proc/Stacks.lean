/-
The kernel pages of a process, and what `kill` does with them
(src/process/manager.cpp: `process_pages_t`, `spawn`, `kill`, `resumeat`;
src/tasks/deleter.cpp).

Every process has three pages in a range of kernel memory: its process
object, its kernel stack, and a stack for its first steps. They are the
first pages of the range that are not mapped, so the pages of different
processes stand side by side.

`kill` makes another process go to `reaper` when it runs next. It puts the
exit status on the kernel stack as the argument, and one word below it
begins the stack that `reaper` gets.

# What is modelled

The page tables are those of the virtual page manager, and words are written
through them. A process that kills itself exits, which leaves the pages to
the deleter and is left out.
-/
import Puppy.Mm.System
import Puppy.Proc.Clone

namespace Puppy.Proc

open Libc Lib Mm

/-- A process, as far as its kernel pages go. -/
structure StackTask where
  /-- The address of the process object. -/
  proc : Nat
  esp0start : Nat
  espstart : Nat
  tss : TaskStateSegment
  /-- `flags.system`. -/
  system : Bool
  deriving DecidableEq, Repr

namespace StackTask

/-- The pages of a process. -/
def pages (t : StackTask) : List Nat := [t.proc, t.esp0start, t.espstart]

/-- A byte of them. -/
def OwnsByte (t : StackTask) (a : Nat) : Prop :=
  ∃ v ∈ t.pages, v ≤ a ∧ a < v + gPageSize

end StackTask

structure Stacks where
  vm : Vm
  mProcessPagesLow : Nat
  mProcessPagesHigh : Nat
  /-- The address of `reaper`. -/
  reaper : Nat
  tasks : Pid → Option StackTask := fun _ => none

/-- Store a 32-bit word through the page tables. -/
def storeWord (vm : Vm) (virt word : Nat) : Vm :=
  [0, 1, 2, 3].foldl (fun vm k =>
    System.storeByte (virt + k) (UInt8.ofNat (word / 0x100 ^ k)) vm) vm

/-- The byte at an address. -/
def byteAt (vm : Vm) (a : Nat) : UInt8 :=
  vm.memory (index (vm.entry a).page) (offset a)

/-- `process_exit_status_t::toWord`, for `killed`. -/
def killedWord : Nat := 3 * 0x1000000

def resumeat (t : StackTask) (eip esp cs ss : Nat) : StackTask :=
  { t with tss := { t.tss with eip := eip, esp := esp, cs := cs, ss := ss } }

namespace Stacks

def setTask (s : Stacks) (p : Pid) (t : Option StackTask) : Stacks :=
  { s with tasks := Function.update s.tasks p t }

/-- `process_pages_t::find`. Three odd answers are a panic of `spawn`. -/
def findPages (s : Stacks) : Except Panic ((Nat × Nat × Nat) × Vm) := do
  let opts : MapOptions := { clear := true, user := false, rw := true }
  let (pp, vm) ←
    s.vm.mapPageWithinRange s.mProcessPagesLow s.mProcessPagesHigh opts
  let (e0, vm) ←
    vm.mapPageWithinRange s.mProcessPagesLow s.mProcessPagesHigh opts
  let (ep, vm) ←
    vm.mapPageWithinRange s.mProcessPagesLow s.mProcessPagesHigh opts
  .ok ((pp, e0, ep), vm)

/-- `spawn`, with the address to start at and the argument for it. -/
def spawn (s : Stacks) (p : Pid) (cr3 eip argument : Nat) (system : Bool) : Except Panic Stacks :=
  if (s.tasks p).isSome then .error .disabled
  else do
    let ((pp, e0, ep), vm) ← s.findPages
    -- the argument is the last word of the page
    let vm := storeWord vm (ep + 4 * 1023) argument
    .ok (setTask { s with vm := vm } p (some
      { proc := pp
        esp0start := e0
        espstart := ep
        tss :=
          { cr3 := cr3
            eip := eip
            cs := 0x08
            ss := 0x10
            esp0 := gPageSize - 1 + e0
            eflags := 512
            esp := ep + 4 * 1022 }
        system := system }))

/-- `kill`, by the process `self`. The line that logs the call reads the pid
of a process that may not be there. -/
def kill (s : Stacks) (self pid : Pid) : Except Panic (Bool × Stacks) :=
  match s.tasks self, s.tasks pid with
  | none, _ => .error .disabled
  | some _, none => .error .fault
  | some current, some task =>
    if pid = self then .ok (true, s)
    else if task.system && !current.system then .ok (false, s)
    else
      let stack := task.esp0start
      let vm := storeWord s.vm stack killedWord
      let stack := sub32 stack 4
      .ok (true, setTask { s with vm := vm } pid (some (resumeat task s.reaper stack 0x08 0x10)))

/-- What the deleter does with the pages. -/
def delete (s : Stacks) (p : Pid) : Except Panic Stacks :=
  match s.tasks p with
  | none => .error .disabled
  | some t => do
    let vm ← s.vm.unmap t.esp0start
    let vm ← vm.unmap t.espstart
    let vm ← vm.unmap t.proc
    .ok (setTask { s with vm := vm } p none)

end Stacks

inductive StackAction where
  | spawn (p : Pid) (cr3 eip argument : Nat) (system : Bool)
  | kill (self pid : Pid)
  | delete (p : Pid)
  deriving DecidableEq, Repr

/-- Processes come, kill each other and go. At first there are none. -/
def stackSystem : Machine Stacks StackAction Panic where
  boot s := s.tasks = (fun _ => none) ∧ s.mProcessPagesHigh < 0x100000000
  step
    | .spawn p cr3 eip argument system, s => s.spawn p cr3 eip argument system
    | .kill self pid, s => do
      let (_, s) ← s.kill self pid
      .ok s
    | .delete p, s => s.delete p

namespace Stacks

-- ==== unwinding at home

/-- The call makes another process go to `reaper`. -/
def Redirects (s : Stacks) (self pid : Pid) : Prop :=
  ∃ current task, s.tasks self = some current ∧ s.tasks pid = some task ∧
    pid ≠ self ∧ (task.system && !current.system) = false

/-- What is written for the process is on its own kernel stack, and the
pages of the others are left alone. -/
structure WritesAtHome (s s' : Stacks) (pid : Pid) (t : StackTask) :
    Prop where
  own : ∀ a, t.OwnsByte a → byteAt s'.vm a ≠ byteAt s.vm a →
    t.esp0start ≤ a ∧ a ≤ t.esp0start + 4095
  others : ∀ q u, q ≠ pid → s.tasks q = some u → s'.tasks q = some u ∧
    ∀ a, u.OwnsByte a → byteAt s'.vm a = byteAt s.vm a

/-- The stack that it goes on with is there as well, with room for at least
one word. -/
structure UnwindsAtHome (s s' : Stacks) (pid : Pid) (t t' : StackTask) : Prop
    extends WritesAtHome s s' pid t where
  pointer : t.esp0start ≤ t'.tss.esp ∧ t'.tss.esp ≤ t.esp0start + 4095
  room : t.esp0start + 4 ≤ t'.tss.esp

/-- Whoever is killed by the call unwinds on its own stack. -/
def KillsAtHome (s : Stacks) (self pid : Pid) : Prop :=
  ∀ answer s', s.kill self pid = .ok (answer, s') → s.Redirects self pid →
    ∃ t t', s.tasks pid = some t ∧ s'.tasks pid = some t' ∧ UnwindsAtHome s s' pid t t'

end Stacks

end Puppy.Proc
