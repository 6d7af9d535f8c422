/-
The lottery (src/tasks/scheduler.cpp): what it is for.

Every AVAILABLE process of the ready queue has tickets, and `lottery::next`
draws one of them. The model of the two loops is `State.schedule`; here is
what is asked of it, for any ready queue.

# The draw

The winner is a number below the total, the draw modulo the total. The
second loop adds up the tickets along the queue and stops at the first
AVAILABLE process at which the sum is not below the winner. So the first
process wins with one number more than it has tickets: with 0, and with
every number up to its tickets.

# The dead

A process that has exited stays in the ready queue until the first loop
sees it. The loop starts over after each one, and the table it puts them on
has one slot for each pid.
-/
import Puppy.Proc.Tasks

namespace Puppy.Proc

namespace State

/-- A process that exists, and is in that state. -/
def inState (s : State) (state : ProcessState) (p : Ptr) : Bool :=
  match s.procs p with
  | some t => decide (t.state = state)
  | none => false

/-- `priority.scheduling.current`. -/
def tickets (s : State) (p : Ptr) : Nat :=
  match s.procs p with
  | some t => t.scheduling.current
  | none => 0

/-- All tickets of some processes. -/
def allTickets (s : State) (l : List Ptr) : Nat := (l.map s.tickets).sum

-- ==== the dead

/-- The EXITED processes of the ready queue are there once, and none of
their pids is on the exited table yet. -/
structure Purgeable (s : State) : Prop where
  live : ∀ p ∈ s.gReadyQueue, ∃ t, s.procs p = some t
  once : ∀ p ∈ s.gReadyQueue, s.inState .exited p = true → s.gReadyQueue.count p = 1
  unlisted : ∀ p ∈ s.gReadyQueue, ∀ t, s.procs p = some t →
    t.state = .exited → s.gExitedProcesses.mTable t.pid = none
  pids : ∀ p ∈ s.gReadyQueue, ∀ q ∈ s.gReadyQueue, ∀ t u,
    s.procs p = some t → s.procs q = some u → t.state = .exited →
    u.state = .exited → t.pid = u.pid → p = q

/-- The EXITED processes have moved from the ready queue to the exited
table, each of them once, and everything else is as it was, apart from who
runs. -/
structure Buried (s s' : State) : Prop where
  queue : s'.gReadyQueue =
    s.gReadyQueue.filter fun p => !s.inState .exited p
  listed : ∀ p ∈ s.gReadyQueue, ∀ t, s.procs p = some t →
    t.state = .exited → s'.gExitedProcesses.mTable t.pid = some p
  others : ∀ pid, (∀ p ∈ s.gReadyQueue, ∀ t, s.procs p = some t → t.state = .exited → t.pid ≠ pid) →
      s'.gExitedProcesses.mTable pid = s.gExitedProcesses.mTable pid
  deaths : ∀ p, s'.deaths p = s.deaths p + if p ∈ s.gReadyQueue ∧ s.inState .exited p then 1 else 0
  rest : s' = { s with
    gReadyQueue := s'.gReadyQueue
    gExitedProcesses := s'.gExitedProcesses
    deaths := s'.deaths
    current := s'.current }

-- ==== the winner

/-- `lottery::next` returns, and it is an AVAILABLE process of the queue
that runs next. -/
def Picks (s : State) (draw : Nat) : Prop :=
  ∃ winner s', s.schedule draw = .ok s' ∧ s'.current = some winner ∧
    winner ∈ s.gReadyQueue ∧ s.inState .available winner = true ∧
    s.Buried s'

/-- The first loop comes to its own end: more rounds than there are
processes make no difference. -/
def PurgeEnds (s : State) : Prop :=
  ∀ n ≥ s.gReadyQueue.length, purge n s = purge s.gReadyQueue.length s

-- ==== fairness

/-- The AVAILABLE processes of the ready queue, in order. -/
def contenders (s : State) : List Ptr :=
  s.gReadyQueue.filter (s.inState .available)

/-- `totalTickets`, a `uint64_t`. -/
def total (s : State) : Nat :=
  s.allTickets s.contenders % 0x10000000000000000

/-- A process runs next for a given winner. -/
def selects (s : State) (p : Ptr) (winner : Nat) : Bool :=
  match s.schedule winner with
  | .ok s' => s'.current == some p
  | .error _ => false

/-- For how many of the possible winners a process runs next. -/
def wins (s : State) (p : Ptr) : Nat :=
  (List.range s.total).countP (s.selects p)

/-- Every AVAILABLE process wins as often as it has tickets. -/
def Fair (s : State) : Prop :=
  ∀ p ∈ s.contenders, s.wins p = s.tickets p

/-- The first AVAILABLE process of the queue has all the tickets. (It could
be in the queue twice, and then its tickets count twice.) -/
def SoleHolder (s : State) : Prop :=
  match s.contenders with
  | [] => True
  | first :: rest => s.total = s.tickets first ∧ ∀ p ∈ rest, p ≠ first → s.tickets p = 0

end State

end Puppy.Proc
