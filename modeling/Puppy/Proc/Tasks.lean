/-
The kernel's own tasks, and the system they and the processes make up
(src/tasks/awaker.cpp, collector.cpp, deleter.cpp, scheduler.cpp).

Each task is an endless loop. One round of the loop is one step here: it
ends where the source's loop body ends or switches to the scheduler, and
the task takes its next round when it runs again.

# The actions

An action is what happens between two points at which somebody else may
act: a call of a process into the kernel, a round of a kernel task, a
choice of the scheduler, an interrupt that wakes a queue, or the clock. An
action that the current process cannot perform is `disabled`. A process
that has been blocked in `collect` tries again when it runs; the model
lets it do anything then, which includes that.
-/
import Puppy.Proc.Manager
import Puppy.Lib.Machine

namespace Puppy.Proc

open Libc Lib

namespace State

-- ==== awaker

/-- Take the top entry off the sleep queue. -/
def popSleeper (s : State) : Except Panic (QEntry × State) :=
  match s.gSleepQueue with
  | [] => .error .fault
  | top :: rest => do
    let queue ← PQueue.pop s.sleepCompare rest
    .ok (top, { s with gSleepQueue := queue })

/-- A round of the awaker's inner loop, or its wait for work. -/
def awaker (s : State) (self : Ptr) : Except Panic State :=
  match s.gSleepQueue with
  | [] => s.waitYield .awaker self 0
  | top :: _ => do
    let t ← s.deref top.process
    if t.state = .exited then
      let (e, s) ← s.popSleeper
      s.enqueueForDeath e.process
    else if t.sleeptill ≤ s.millisUptime then
      if t.waitToken = top.token then
        let (e, s) ← s.popSleeper
        s.wake e.process
      else
        -- the mismatch is logged; the entry stays where it is
        .ok s
    else .ok s.switchtoscheduler

-- ==== collector and deleter

/-- A round of the collector's inner loop, or its wait for work. -/
def collector (s : State) (self : Ptr) : Except Panic State := do
  let k ← s.deref self
  match k.children with
  | [] => s.waitYield .collector self 0
  | child :: _ =>
    let t ← s.deref child
    s.collect self t.pid

/-- Free a process: its pid, its descriptor and the object itself. -/
def delete (s : State) (proc : Ptr) : Except Panic State := do
  let t ← s.deref proc
  .ok { s with
    gPidBitmap := s.gPidBitmap.free t.pid
    gGDTBitmap := s.gGDTBitmap.free t.gdtidx
    gProcessTable := s.gProcessTable.free t.pid
    procs := Function.update s.procs proc none }

/-- A round of the deleter's inner loop, or its wait for work. -/
def deleter (s : State) (self : Ptr) : Except Panic State :=
  match s.gCollectedProcessList with
  | [] => s.waitYield .deleter self 0
  | proc :: rest => delete { s with gCollectedProcessList := rest } proc

-- ==== scheduler

/-- The first loop of `lottery::next`: EXITED processes leave the ready
queue, one at a time and from the front, with a restart after each. -/
def purge : Nat → State → Except Panic State
  | 0, s => .ok s
  | n + 1, s => do
    match (← s.firstExited s.gReadyQueue) with
    | none => .ok s
    | some p =>
      let s ← s.enqueueForDeath p
      purge n { s with gReadyQueue := s.gReadyQueue.erase p }

/-- The tickets of the AVAILABLE processes. -/
def totalTickets (s : State) : List Ptr → Except Panic Nat
  | [] => .ok 0
  | p :: rest => do
    let t ← s.deref p
    let others ← totalTickets s rest
    .ok (if t.state = .available then
      (t.scheduling.current + others) % 0x10000000000000000 else others)

/-- The second loop of `lottery::next`. -/
def pickWinner (s : State) (currentWinner : Nat) : Nat → List Ptr → Except Panic Ptr
  | _, [] => .error .noWinner
  | counted, p :: rest => do
    let t ← s.deref p
    let counted := (counted + t.scheduling.current) % 0x10000000000000000
    if currentWinner ≤ counted ∧ t.state = .available then .ok p
    else pickWinner s currentWinner counted rest

/-- `lottery::next` and the switch to the winner. `draw` is the random
number drawn. -/
def schedule (s : State) (draw : Nat) : Except Panic State := do
  let s ← purge s.gReadyQueue.length s
  let total ← s.totalTickets s.gReadyQueue
  if total = 0 then .error .divideError
  else
    let winner ← s.pickWinner (draw % total) 0 s.gReadyQueue
    .ok { s with current := some winner }

end State

-- ==== the system

/-- The kernel tasks that the kernel keeps a pointer to. -/
inductive KernelTask where
  | collector
  | awaker
  | deleter
  deriving DecidableEq, Repr

inductive Action where
  /-- Boot spawns a kernel task. -/
  | kspawn (task : KernelTask) (page : Ptr) (si : State.SpawnInfo)
  | spawn (page : Ptr) (si : State.SpawnInfo)
  /-- Wait on an object, with a time limit if it is not zero. -/
  | waitYield (id : Nat) (timeout : Nat)
  | sleep (durationMs : Nat)
  /-- Give up the processor, or lose it to the timer. -/
  | yield
  | collect (pid : Pid)
  | collectany (wait : Bool)
  | exit (es : Nat) (closed : List Nat)
  /-- A signal to an object, from the current process or an interrupt. -/
  | wakeone (id : Nat)
  | wakeall (id : Nat)
  /-- A round of a kernel task. -/
  | round (task : KernelTask)
  | schedule (draw : Nat)
  /-- Time passes. -/
  | tick (ms : Nat)
  deriving DecidableEq, Repr

namespace State

/-- The process in a kernel task's role. -/
def taskOf (s : State) : KernelTask → Option Ptr
  | .collector => s.gCollectorTask
  | .awaker => s.gAwakerTask
  | .deleter => s.gDeleterTask

def setTask (s : State) (p : Ptr) : KernelTask → State
  | .collector => { s with gCollectorTask := some p }
  | .awaker => { s with gAwakerTask := some p }
  | .deleter => { s with gDeleterTask := some p }

/-- The current process, unless it is a kernel task. -/
def caller (s : State) : Except Panic Ptr :=
  match s.current with
  | none => .error .disabled
  | some c =>
    if s.gCollectorTask = some c ∨ s.gAwakerTask = some c ∨
        s.gDeleterTask = some c then .error .disabled
    else .ok c

/-- `spawnSystemTasks`, for one task. -/
def kspawn (s : State) (parent : Ptr) (task : KernelTask) (page : Ptr)
    (si : SpawnInfo) : Except Panic State := do
  let k ← s.deref parent
  if k.system = false ∨ s.taskOf task ≠ none then .error .disabled
  else
    let s ← s.spawn parent page { si with system := true }
    .ok (s.setTask page task)

/-- A round of a kernel task, when it is the one that runs. -/
def round (s : State) (task : KernelTask) : Except Panic State :=
  match s.taskOf task with
  | none => .error .disabled
  | some self =>
    if s.current ≠ some self then .error .disabled
    else
      match task with
      | .collector => s.collector self
      | .awaker => s.awaker self
      | .deleter => s.deleter self

/-- What an action does. -/
def step : Action → State → Except Panic State
  | .kspawn task page si, s => do s.kspawn (← s.caller) task page si
  | .spawn page si, s => do s.spawn (← s.caller) page si
  | .waitYield id timeout, s => do
    s.waitYield (.object id) (← s.caller) timeout
  | .sleep ms, s => do s.sleep (← s.caller) ms
  | .yield, s => do
    let _ ← s.caller
    .ok s.switchtoscheduler
  | .collect pid, s => do s.collect (← s.caller) pid
  | .collectany wait, s => do s.collectany (← s.caller) wait
  | .exit es closed, s => do
    s.exit (← s.caller) es (closed.map QueueId.object)
  | .wakeone id, s => s.wakeone (.object id)
  | .wakeall id, s => s.wakeall (.object id)
  | .round task, s => s.round task
  | .schedule draw, s => if s.current = none then s.schedule draw else .error .disabled
  | .tick ms, s => .ok { s with millisUptime := s.millisUptime + ms }

/-- The first process, which boot makes by hand. -/
def gDummyProcess : Process :=
  { pid := 0
    gdtidx := 6
    state := .available
    quantum := ⟨128, 1⟩
    scheduling := ⟨128, 1⟩
    system := true }

/-- The state that the constructor of the process manager leaves. -/
def initial : State :=
  { procs := Function.update (fun _ => none) 0 (some gDummyProcess)
    current := some 0
    gReadyQueue := [0]
    gPidBitmap := { mBitmap := fun i => i == 0, mFirstIndexToTry := 1 }
    gGDTBitmap := { mBitmap := fun i => decide (i ≤ 6), mFirstIndexToTry := 7 }
    gProcessTable := { mTable := fun i => if i = 0 then some 0 else none, mSize := 1 } }

end State

/-- Processes and kernel tasks in any order the scheduler allows. -/
def system : Machine State Action Panic where
  boot s := s = State.initial
  step := State.step

end Puppy.Proc
