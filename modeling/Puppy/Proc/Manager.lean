/-
The process manager and wait queues (src/process/manager.cpp,
src/synch/waitqueue.cpp).

# Who runs

Kernel code is not preempted: it gives up the processor only by calling
`yield`, which switches to the scheduler task. So the state has one
current process, or none while the scheduler decides, and everything a
process does between two switches is one step. A function below that ends
in a switch leaves `current` empty.

# Tokens

Every entry of a wait queue or of the sleep queue carries the value the
process's `waitToken` had when it was queued, and `reschedule` moves the
token on. An entry whose token is not the process's is out of date.

A process is reached through its pointer, and reading through the pointer
of a process that has been deleted is an error (`deref`).
-/
import Puppy.Proc.Process
import Puppy.Libc.PQueue

namespace Puppy.Proc

open Libc Function

/-- The kernel's scheduling state. -/
structure State where
  /-- The process objects that exist. -/
  procs : Ptr → Option Process
  /-- `gCurrentProcess`; nothing while the scheduler task runs. -/
  current : Option Ptr
  gReadyQueue : List Ptr
  gSleepQueue : List QEntry := []
  waitQueues : QueueId → List QEntry := fun _ => []
  gPidBitmap : ProcessBitmap := {}
  gGDTBitmap : ProcessBitmap := {}
  gProcessTable : ProcessTable := {}
  gExitedProcesses : ProcessTable := {}
  gCollectedProcessList : List Ptr := []
  gCollectorTask : Option Ptr := none
  gAwakerTask : Option Ptr := none
  gDeleterTask : Option Ptr := none
  millisUptime : Nat := 0
  /-- Not in the kernel, and read by nothing: how often each process has
  been put on the exited table since it was spawned. -/
  deaths : Ptr → Nat := fun _ => 0

namespace State

/-- Read a process through its pointer. -/
def deref (s : State) (p : Ptr) : Except Panic Process :=
  match s.procs p with
  | some t => .ok t
  | none => .error .fault

/-- Write a process through its pointer. -/
def setProc (s : State) (p : Ptr) (t : Process) : State :=
  { s with procs := update s.procs p (some t) }

/-- Replace the entries of one wait queue. -/
def setQueue (s : State) (q : QueueId) (entries : List QEntry) : State :=
  { s with waitQueues := update s.waitQueues q entries }

def switchtoscheduler (s : State) : State := { s with current := none }

-- ==== ready and not ready

def reschedule (s : State) (task : Ptr) : Except Panic State := do
  let t ← s.deref task
  let t := { t with
    waitToken := (t.waitToken + 1) % 0x10000000000000000
    state := .available }
  .ok { s.setProc task t with gReadyQueue := s.gReadyQueue ++ [task] }

/-- `deschedule`: only a process found in the ready queue changes its
state. -/
def deschedule (s : State) (task : Ptr) (newstate : ProcessState)
    (waitable : Option QueueId) : Except Panic State :=
  let numfound := s.gReadyQueue.count task
  if numfound = 0 then .ok s
  else do
    let t ← s.deref task
    if 1 < numfound then .error .enqueuedTwice
    else
      let t := { t with
        state := newstate
        wakeReason := { t.wakeReason with waitable := waitable } }
      .ok { s.setProc task t with
        gReadyQueue := s.gReadyQueue.filter fun p => p != task }

/-- `ready`: a wait queue wakes a process. -/
def ready (s : State) (task : Ptr) (waitable : QueueId) : Except Panic State := do
  let t ← s.deref task
  if t.state = .available then .ok s
  else
    let t := { t with wakeReason := ⟨false, some waitable⟩ }
    (s.setProc task t).reschedule task

/-- `WaitQueue::remove`. -/
def removeWaiter (s : State) (q : QueueId) (task : Ptr) : State :=
  s.setQueue q ((s.waitQueues q).filter fun e => e.process != task)

/-- Take the process off the queue it waits in, if there is one. -/
def leaveQueue (s : State) (task : Ptr) : Option QueueId → State
  | some q => s.removeWaiter q task
  | none => s

/-- `wake`: the end of a sleep wakes a process. -/
def wake (s : State) (task : Ptr) : Except Panic State := do
  let t ← s.deref task
  if t.state = .available then .ok s
  else
    let s := s.leaveQueue task t.wakeReason.waitable
    let t := { t with wakeReason := ⟨true, none⟩ }
    (s.setProc task t).reschedule task

-- ==== wait queues

/-- `WaitQueue::wait`: queue the process, then take it off the ready
queue. -/
def wait (s : State) (q : QueueId) (task : Ptr) : Except Panic State := do
  let t ← s.deref task
  let s := s.setQueue q (s.waitQueues q ++ [⟨t.waitToken, task⟩])
  s.deschedule task .waiting (some q)

/-- `WaitQueue::wake`: an entry that has been taken off the queue wakes
its process if the process still waits for it. -/
def wakeEntry (s : State) (q : QueueId) (e : QEntry) : Except Panic (Bool × State) := do
  let t ← s.deref e.process
  if t.state = .waiting ∧ t.waitToken = e.token then
    let s ← s.ready e.process q
    .ok (true, s)
  else .ok (false, s)

/-- The loop of `WaitQueue::wakeone`. -/
def wakeoneLoop (q : QueueId) : Nat → State → Except Panic State
  | 0, s => .ok s
  | n + 1, s =>
    match s.waitQueues q with
    | [] => .ok s
    | e :: rest => do
      let (woken, s) ← (s.setQueue q rest).wakeEntry q e
      if woken then .ok s else wakeoneLoop q n s

/-- `WaitQueue::wakeone`. -/
def wakeone (s : State) (q : QueueId) : Except Panic State :=
  wakeoneLoop q (s.waitQueues q).length s

/-- The loop of `WaitQueue::wakeall`. -/
def wakeallLoop (q : QueueId) : Nat → State → Except Panic State
  | 0, s => .ok s
  | n + 1, s =>
    match s.waitQueues q with
    | [] => .ok s
    | e :: rest => do
      let (_, s) ← (s.setQueue q rest).wakeEntry q e
      wakeallLoop q n s

/-- `WaitQueue::wakeall`. -/
def wakeall (s : State) (q : QueueId) : Except Panic State :=
  wakeallLoop q (s.waitQueues q).length s

-- ==== the sleep queue

/-- `sleep_queue_helper::compare`. -/
def sleepCompare (s : State) (p1 p2 : QEntry) : Except Panic Int := do
  let t1 ← s.deref p1.process
  let t2 ← s.deref p2.process
  .ok (if t2.sleeptill ≤ t1.sleeptill then -1 else 1)

/-- `sleep`, by the process `task` that runs. -/
def sleep (s : State) (task : Ptr) (durationMs : Nat) : Except Panic State := do
  let t ← s.deref task
  let s := s.setProc task { t with sleeptill := s.millisUptime + durationMs }
  let s ← s.deschedule task .sleeping none
  let t ← s.deref task
  let queue ← PQueue.insert s.sleepCompare ⟨t.waitToken, task⟩ s.gSleepQueue
  let s ← wakeall { s with gSleepQueue := queue } .awaker
  .ok s.switchtoscheduler

/-- `WaitQueue::yield`, by the process `task` that runs. -/
def waitYield (s : State) (q : QueueId) (task : Ptr) (timeout : Nat) : Except Panic State := do
  let s ← s.wait q task
  if timeout = 0 then .ok s.switchtoscheduler else s.sleep task timeout

-- ==== death

def enqueueForDeath (s : State) (task : Ptr) : Except Panic State := do
  let t ← s.deref task
  if t.state ≠ .exited then .error .notExited
  else
    let table ← s.gExitedProcesses.set t.pid task
    .ok { s with
      gExitedProcesses := table
      deaths := update s.deaths task (s.deaths task + 1) }

/-- One round of the loop of `exit` that hands the children over. -/
def reparent (collector : Ptr) (s : State) (child : Ptr) : Except Panic State := do
  let c ← s.deref child
  let k ← s.deref collector
  let s := s.setProc child { c with ppid := k.pid }
  let k ← s.deref collector
  let s := s.setProc collector { k with children := k.children ++ [child] }
  s.wakeall .collector

/-- The loop of `exit` that hands the children over. -/
def reparentLoop (s : State) (children : List Ptr) : Except Panic State :=
  match children, s.gCollectorTask with
  | [], _ => .ok s
  | _ :: _, none => .error .fault
  | children, some collector => children.foldlM (reparent collector) s

/-- The part of `exit` that hands the children to the collector. -/
def reparentAll (s : State) (task : Ptr) : Except Panic State := do
  let t ← s.deref task
  let s ← s.reparentLoop t.children
  let t ← s.deref task
  .ok (s.setProc task { t with children := [] })

/-- `exit`, by the process `task` that runs. `closed` are the wait queues
that closing the process's file handles wakes. Memory is returned
elsewhere. -/
def exit (s : State) (task : Ptr) (es : Nat) (closed : List QueueId) : Except Panic State := do
  let t ← s.deref task
  if t.system then .error .killSystem
  else
    let s ← s.reparentAll task
    let s ← closed.foldlM wakeall s
    let u ← s.deref task
    let s := s.setProc task { u with state := .exited, exitstatus := es }
    let s ← s.wakeall t.tty
    let parent ← s.gProcessTable.get u.ppid
    match parent with
    | none => .error .fault
    | some parent =>
      let p ← s.deref parent
      let s ← if p.state = .collecting then s.reschedule parent else .ok s
      .ok s.switchtoscheduler

def enqueueForCollection (s : State) (task : Ptr) : Except Panic State := do
  let t ← s.deref task
  if t.state ≠ .collected then .error .notCollected
  else
    let collected := s.gCollectedProcessList ++ [task]
    wakeall { s with gCollectedProcessList := collected } .deleter

/-- The part of `collect` after the child is known to be dead. -/
def collectDead (s : State) (parent task : Ptr) : Except Panic State := do
  let k ← s.deref parent
  if task ∈ k.children then
    let s := s.setProc parent { k with children := k.children.erase task }
    let t ← s.deref task
    let s := { s with gExitedProcesses := s.gExitedProcesses.free t.pid }
    (s.setProc task { t with state := .collected }).enqueueForCollection task
  else .error .notAChild

/-- `collect`, by the process `parent` that runs, up to its first switch:
a child that is not dead yet leaves the caller COLLECTING, and it will try
again when it runs next. -/
def collect (s : State) (parent : Ptr) (pid : Pid) : Except Panic State := do
  match (← s.gProcessTable.get pid) with
  | none => .error .collectNone
  | some task =>
    let t ← s.deref task
    if (← s.gProcessTable.get t.ppid) ≠ some parent then
      .error .collectOther
    else if t.state ≠ .exited then
      let s ← s.deschedule parent .collecting none
      .ok s.switchtoscheduler
    else s.collectDead parent task

/-- The first EXITED process of a list. -/
def firstExited (s : State) : List Ptr → Except Panic (Option Ptr)
  | [] => .ok none
  | p :: rest => do
    let t ← s.deref p
    if t.state = .exited then .ok (some p) else firstExited s rest

/-- `collectany`, by the process `parent` that runs, up to its first
switch. -/
def collectany (s : State) (parent : Ptr) (wait : Bool) : Except Panic State := do
  let k ← s.deref parent
  match (← s.firstExited k.children) with
  | some child =>
    let t ← s.deref child
    s.collect parent t.pid
  | none =>
    if wait then
      let s ← s.deschedule parent .collecting none
      .ok s.switchtoscheduler
    else .ok s

-- ==== birth

/-- `spawninfo_t`, as far as scheduling goes. -/
structure SpawnInfo where
  quantum : Priority := {}
  scheduling : Priority := {}
  schedulable : Bool := true
  system : Bool := false
  deriving DecidableEq, Repr

/-- Whether the priorities asked for are more than the spawning process
may give. -/
def excessive (parent : Process) (si : SpawnInfo) : Bool :=
  !parent.system && (decide (parent.quantum.max < si.quantum.max)
      || decide (parent.scheduling.max < si.scheduling.max)
      || decide (si.quantum.max < si.quantum.current)
      || decide (si.scheduling.max < si.scheduling.current))

/-- `spawn`, by the process `parent` that runs, with the process object at
`page`. -/
def spawn (s : State) (parent page : Ptr) (si : SpawnInfo) : Except Panic State := do
  let k ← s.deref parent
  if excessive k si then .ok s
  else if (s.procs page).isSome then .error .noProcessMemory
  else
    let (pid, pids) ← s.gPidBitmap.next
    let (gdtidx, gdts) ← s.gGDTBitmap.next
    let process : Process :=
      { pid := pid
        ppid := k.pid
        gdtidx := gdtidx
        tty := k.tty
        quantum := si.quantum
        scheduling := si.scheduling
        system := si.system }
    let table ← s.gProcessTable.set pid page
    let s := { s.setProc page process with
      gPidBitmap := pids
      gGDTBitmap := gdts
      gProcessTable := table
      deaths := update s.deaths page 0 }
    let s ← if si.schedulable then s.reschedule page else .ok s
    let k ← s.deref parent
    .ok (s.setProc parent { k with children := k.children ++ [page] })

end State

end Puppy.Proc
