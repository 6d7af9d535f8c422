/-
Priorities (src/process/manager.cpp: `exec`, `cloneProcess`,
src/syscalls/impl/process.cpp: `prioritize`).

A process has two priorities, and for each a ceiling. A new process gets
the ceilings of the one that starts it. Whoever may set a priority may set
it up to the ceiling, and ceilings are only ever lowered. `spawn` checks
what it is asked for, unless it is a system process that asks.

# The system

A step is one call, made by any process. The state that it starts in is
the one that `task0` leaves: the first process, the kernel tasks and
`init`, all of them system processes.
-/
import Puppy.Proc.Tasks

namespace Puppy.Proc

open Lib

/-- `exec_priority_t`. -/
structure ExecPriority where
  quantum : Nat
  scheduling : Nat
  deriving DecidableEq, Repr

def gDefaultBasePriority : ExecPriority := ⟨10, 20⟩

-- ==== setting one priority

namespace Priority

/-- What `prioritize_current` does to one of the two. -/
def setCurrent (p : Priority) (value : Nat) : Option Priority :=
  if value ≠ 0 then
    if p.max < value then none else some { p with current := value }
  else some p

/-- What `prioritize_max` does to one of the two. -/
def setMax (p : Priority) (value : Nat) : Option Priority :=
  if value ≠ 0 then
    if value ≤ p.max then
      some
        { max := value
          current := if value < p.current then value else p.current }
    else none
  else some p

/-- The value in use is not above the ceiling. -/
def Within (p : Priority) : Prop := p.current ≤ p.max

end Priority

-- ==== setting both

/-- The answer to `prioritize`, with what `prio_out` gets. -/
inductive PrioritizeResponse where
  | ok (prio_out : ExecPriority)
  | notAllowed
  | noSuchProcess
  deriving DecidableEq, Repr

/-- The quantum is set first, and stays set when the other is refused. -/
def setBoth (set : Priority → Nat → Option Priority) (get : Priority → Nat) (process : Process)
    (prio_in : Option ExecPriority) : PrioritizeResponse × Process :=
  match prio_in with
  | none => (.ok ⟨get process.quantum, get process.scheduling⟩, process)
  | some prio =>
    match set process.quantum prio.quantum with
    | none => (.notAllowed, process)
    | some quantum =>
      match set process.scheduling prio.scheduling with
      | none => (.notAllowed, { process with quantum })
      | some scheduling => (.ok ⟨get quantum, get scheduling⟩, { process with quantum, scheduling })

/-- `prioritize_current`. -/
def prioritizeCurrent : Process → Option ExecPriority → PrioritizeResponse × Process :=
  setBoth Priority.setCurrent Priority.current

/-- `prioritize_max`. -/
def prioritizeMax : Process → Option ExecPriority → PrioritizeResponse × Process :=
  setBoth Priority.setMax Priority.max

/-- `prioritize_target`. -/
inductive PrioritizeTarget where
  | current
  | maximum
  deriving DecidableEq, Repr

-- ==== the calls

namespace State

/-- What `exec` asks `spawn` for. -/
def execInfo (k : Process) (inheritsSystem : Bool) (prio : ExecPriority) :
    SpawnInfo :=
  { quantum := ⟨k.quantum.max, prio.quantum⟩
    scheduling := ⟨k.scheduling.max, prio.scheduling⟩
    system := if inheritsSystem then k.system else false }

/-- What `cloneProcess` asks `spawn` for. -/
def cloneInfo (k : Process) : SpawnInfo :=
  { quantum := k.quantum
    scheduling := k.scheduling
    system := k.system }

def exec (s : State) (parent page : Ptr) (inheritsSystem : Bool)
    (prio : ExecPriority := gDefaultBasePriority) : Except Panic State := do
  let k ← s.deref parent
  s.spawn parent page (execInfo k inheritsSystem prio)

def cloneProcess (s : State) (parent page : Ptr) : Except Panic State := do
  let k ← s.deref parent
  s.spawn parent page (cloneInfo k)

/-- `prioritize_syscall_handler`, for the process `self` that runs. -/
def prioritize (s : State) (self : Ptr) (pid : Pid)
    (setmax : PrioritizeTarget) (prio_in : Option ExecPriority) :
    Except Panic (PrioritizeResponse × State) := do
  let k ← s.deref self
  match (← s.gProcessTable.get pid) with
  | none => .ok (.noSuchProcess, s)
  | some p =>
    let process ← s.deref p
    if process.system && !k.system && prio_in.isSome then
      .ok (.notAllowed, s)
    else
      let (response, process) :=
        match setmax with
        | .current => prioritizeCurrent process prio_in
        | .maximum => prioritizeMax process prio_in
      .ok (response, s.setProc p process)

/-- `gSystemTasks`, in order: scheduler, collector, awaker, deleter and
keybqueue. -/
def gSystemTasks : List SpawnInfo :=
  [0, 5, 20, 5, 30].map fun sched =>
    { quantum := if 0 < sched then ⟨1, 1⟩ else ⟨0, 0⟩
      scheduling := ⟨sched, sched⟩
      schedulable := decide (0 < sched)
      system := true }

/-- `task0`. The processes are at the addresses 0 to 6. -/
def task0 : Except Panic State := do
  let s ← (gSystemTasks.zipIdx 1).foldlM
    (fun s (si, page) => s.spawn 0 page si) State.initial
  let s ← s.exec 0 6 false
  let gInitTask ← s.deref 6
  .ok (s.setProc 6 { gInitTask with system := true })

end State

inductive PriorityAction where
  | exec (self page : Ptr) (inheritsSystem : Bool) (prio : ExecPriority)
  | clone (self page : Ptr)
  | prioritize (self : Ptr) (pid : Pid) (setmax : PrioritizeTarget) (prio_in : Option ExecPriority)
  deriving DecidableEq, Repr

/-- The process that makes the call. -/
def PriorityAction.self : PriorityAction → Ptr
  | .exec self _ _ _ => self
  | .clone self _ => self
  | .prioritize self _ _ _ => self

def prioritySystem : Machine State PriorityAction Panic where
  boot s := State.task0 = .ok s
  step
    | .exec self page inheritsSystem prio, s => s.exec self page inheritsSystem prio
    | .clone self page, s => s.cloneProcess self page
    | .prioritize self pid setmax prio_in, s => do
      let (_, s) ← s.prioritize self pid setmax prio_in
      .ok s

-- ==== ceilings

/-- Both values in use are within their ceilings. -/
def Process.WithinLimits (t : Process) : Prop :=
  t.quantum.Within ∧ t.scheduling.Within

def State.WithinLimits (s : State) : Prop :=
  ∀ p t, s.procs p = some t → t.WithinLimits

/-- The ceilings of a process are not above those of another. -/
def Process.CeilingsLe (t k : Process) : Prop :=
  t.quantum.max ≤ k.quantum.max ∧ t.scheduling.max ≤ k.scheduling.max

/-- No process has got a higher ceiling, and a new one has none above those
of the process that made the call. -/
def State.NotRaised (s : State) (self : Ptr) (s' : State) : Prop :=
  ∀ p t', s'.procs p = some t' → (∃ t, s.procs p = some t ∧ t'.CeilingsLe t) ∨
      (s.procs p = none ∧ ∃ k, s.procs self = some k ∧ t'.CeilingsLe k)

/-- A system process starts another one only with priorities that are
within its own ceilings. Nobody checks. -/
def State.AsksWithin (s : State) : PriorityAction → Prop
  | .exec self _ _ prio => ∀ k, s.procs self = some k → k.system = true →
      prio.quantum ≤ k.quantum.max ∧ prio.scheduling ≤ k.scheduling.max
  | _ => True

end Puppy.Proc
