/-
Where a process stands.

A process pointer is copied into the ready queue, the sleep queue, wait
queues, the exited table, the collected list and children lists. What the
order of those queues is matters to nobody; what matters is how often each
of them names a process, and whether that agrees with the state the
process is in. `Standing` is that count for one process, and `Proper` the
agreement.

# Three strengths

Not every agreement holds in every run. An entry of the sleep queue is
left behind when a timed wait is signalled before its deadline, and from
there things go wrong in two directions: the awaker spins on the entry, or
the entry outlives its process. `Level` says how much is asked for:

* `ready`: the ready queue and the wait queues only. Holds in every run
  without deletions.
* `fresh`: no entry of the sleep queue is out of date. Holds in the runs
  where no signal reaches a queue with a timed waiter in it.
* `once`: no entry of the sleep queue names a dead process. Holds in the
  runs where no process exits with such an entry left behind.

# Phases

Between two steps either a process runs or the scheduler does (`idle`).
In the middle of a step there is a third possibility: an exiting process
is handing its children over, and its own list of them is already wrong.
-/
import Puppy.Proc.Tasks

namespace Puppy.Proc

/-- What names a process, and how often. -/
structure Standing where
  proc : Option Process
  /-- Occurrences in the ready queue. -/
  ready : Nat
  /-- Entries in each wait queue. -/
  waits : QueueId → Nat
  /-- Entries in the sleep queue, by token. -/
  sleeps : Nat → Nat
  /-- Occurrences in the collected list. -/
  collected : Nat

namespace State

def readyCount (s : State) (p : Ptr) : Nat := s.gReadyQueue.count p

def waitCount (s : State) (p : Ptr) (q : QueueId) : Nat :=
  (s.waitQueues q).countP fun e => e.process == p

def sleepCount (s : State) (p : Ptr) (token : Nat) : Nat :=
  s.gSleepQueue.count ⟨token, p⟩

def collectedCount (s : State) (p : Ptr) : Nat :=
  s.gCollectedProcessList.count p

def standing (s : State) (p : Ptr) : Standing :=
  { proc := s.procs p
    ready := s.readyCount p
    waits := s.waitCount p
    sleeps := s.sleepCount p
    collected := s.collectedCount p }

end State

inductive Level where
  | ready
  | fresh
  | once
  deriving DecidableEq, Repr

/-- What a process with `n` entries of the given token in the sleep queue
must look like. -/
def MaySleep (lvl : Level) (t : Process) (token n : Nat) : Prop :=
  match lvl with
  | .ready => True
  | .fresh => (t.state = .sleeping ∨ t.state = .waiting) ∧ t.waitToken = token ∧ n = 1
  | .once => t.state ≠ .exited ∧ t.state ≠ .collected

/-- The counts agree with the state of the process. Only while the
scheduler runs may an EXITED process be in the ready queue. -/
structure Standing.Proper (lvl : Level) (idle : Bool) (st : Standing) :
    Prop where
  absent : st.proc = none → st.ready = 0
  available : ∀ t, st.proc = some t → t.state = .available → st.ready = 1
  exited : ∀ t, st.proc = some t → t.state = .exited → st.ready ≤ 1 ∧ (idle = false → st.ready = 0)
  blocked : ∀ t, st.proc = some t → t.state ≠ .available → t.state ≠ .exited → st.ready = 0
  asleep : lvl ≠ .ready → ∀ token, st.sleeps token ≠ 0 →
    ∃ t, st.proc = some t ∧ MaySleep lvl t token (st.sleeps token)
  collected : lvl ≠ .ready → st.collected ≠ 0 →
    st.collected = 1 ∧ ∃ t, st.proc = some t ∧ t.state = .collected
  waiting : ∀ q, st.waits q ≠ 0 → st.waits q = 1 ∧ ∃ t, st.proc = some t ∧ t.state = .waiting ∧
      t.wakeReason.waitable = some q

inductive Phase where
  /-- A process runs. -/
  | running (p : Ptr)
  /-- An exiting process has these children left to hand over. -/
  | leaving (p : Ptr) (rest : List Ptr)
  /-- The scheduler runs. -/
  | idle
  deriving DecidableEq, Repr

namespace Phase

def isIdle : Phase → Bool
  | idle => true
  | _ => false

/-- The process at work. -/
def actor : Phase → Option Ptr
  | running p => some p
  | leaving p _ => some p
  | idle => none

/-- The phase between two steps. -/
def ofCurrent : Option Ptr → Phase
  | some p => running p
  | none => idle

end Phase

/-- How often a process in this state has been put on the exited table, if
death happens once. -/
def deathsOf (t : Process) (ready : Nat) : Nat :=
  if t.state = .collected ∨ (t.state = .exited ∧ ready = 0) then 1 else 0

/-- The tables name the processes that exist, and the exited table those
that are dead and off the ready queue. -/
structure Books (s : State) : Prop where
  named : ∀ pid p, s.gProcessTable.mTable pid = some p ↔ ∃ t, s.procs p = some t ∧ t.pid = pid
  reserved : ∀ p t, s.procs p = some t → s.gPidBitmap.mBitmap t.pid = true
  slot : ∀ pid p, s.gExitedProcesses.mTable pid = some p →
    ∃ t, s.procs p = some t ∧ t.pid = pid ∧ t.state = .exited ∧ s.readyCount p = 0
  dead : ∀ p t, s.procs p = some t → t.state = .exited →
    s.readyCount p = 0 → s.gExitedProcesses.mTable t.pid = some p
  counted : ∀ p t, s.procs p = some t → s.deaths p = deathsOf t (s.readyCount p)

/-- A child in good standing of the process with the given pid. -/
def ChildOf (s : State) (pid : Pid) (p : Ptr) : Prop :=
  ∃ t, s.procs p = some t ∧ t.ppid = pid ∧ t.state ≠ .collected

/-- The children lists name living children, each once. An exiting process
is excused; its children still to be handed over are not. -/
structure Family (ph : Phase) (s : State) : Prop where
  listed : ∀ k t, s.procs k = some t → (∀ rest, ph ≠ .leaving k rest) →
    ∀ p ∈ t.children, ChildOf s t.pid p
  nodup : ∀ k t, s.procs k = some t → (∀ rest, ph ≠ .leaving k rest) → t.children.Nodup
  pending : ∀ k t rest, ph = .leaving k rest → s.procs k = some t →
    rest.Nodup ∧ ∀ p ∈ rest, ChildOf s t.pid p

/-- No process in one of these queues has an entry in the sleep queue. -/
def Quiet (Q : List QueueId) (s : State) : Prop :=
  ∀ q ∈ Q, ∀ p, s.waitCount p q ≠ 0 → ∀ token, s.sleepCount p token = 0

/-- The invariant of the system, at a given strength. `Q` are the queues
that the step under way may still signal. -/
structure Inv (lvl : Level) (ph : Phase) (Q : List QueueId) (s : State) :
    Prop where
  proper : ∀ p, (s.standing p).Proper lvl ph.isIdle
  actor : ∀ c, ph.actor = some c → ∃ t, s.procs c = some t ∧ t.state = .available
  quiet : lvl = .fresh → Quiet Q s
  books : lvl = .once → Books s
  family : lvl = .once → Family ph s

/-- The errors that a level does not rule out. -/
def Tolerated (lvl : Level) (e : Panic) : Prop :=
  e ≠ .enqueuedTwice ∧ (lvl = .once → e ≠ .slotOccupied ∧ e ≠ .notExited)

-- ==== conditions on steps

/-- The queues that an action may signal. -/
def Action.signals (s : State) : Action → List QueueId
  | .waitYield _ timeout => if timeout = 0 then [] else [.awaker]
  | .sleep _ => [.awaker]
  | .collect _ | .collectany _ => [.deleter]
  | .exit _ closed =>
    .collector :: closed.map QueueId.object ++ ((s.current.bind s.procs).map Process.tty).toList
  | .wakeone id | .wakeall id => [.object id]
  | .round .collector => [.deleter]
  | _ => []

/-- No queue is signalled while a process in it has an entry in the sleep
queue. -/
def Undisturbed (s : State) (a : Action) : Prop :=
  ∀ q ∈ a.signals s, ∀ e ∈ s.waitQueues q, ∀ sleeper ∈ s.gSleepQueue, sleeper.process ≠ e.process

/-- A process has no entry in the sleep queue when it exits. -/
def ExitsSleepless (s : State) (a : Action) : Prop :=
  match a, s.current with
  | .exit _ _, some c => ∀ e ∈ s.gSleepQueue, e.process ≠ c
  | _, _ => True

/-- The deleter frees nothing. -/
def NoDeletion (s : State) (a : Action) : Prop :=
  a = .round .deleter → s.gCollectedProcessList = []

instance (s : State) (a : Action) : Decidable (Undisturbed s a) :=
  inferInstanceAs (Decidable (∀ q ∈ a.signals s, ∀ e ∈ s.waitQueues q,
    ∀ sleeper ∈ s.gSleepQueue, sleeper.process ≠ e.process))

instance (s : State) (a : Action) : Decidable (ExitsSleepless s a) := by
  unfold ExitsSleepless
  split <;> infer_instance

instance (s : State) (a : Action) : Decidable (NoDeletion s a) :=
  inferInstanceAs (Decidable (_ → _))

/-- The condition under which a step keeps the invariant of a level. -/
def Level.Allows (lvl : Level) (s : State) (a : Action) : Prop :=
  match lvl with
  | .ready => NoDeletion s a
  | .fresh => Undisturbed s a
  | .once => ExitsSleepless s a

-- ==== what is asked of the system

/-- A round of the awaker removes an entry or gives up the processor. -/
def Progress (s s' : State) : Prop :=
  s'.gSleepQueue.length < s.gSleepQueue.length ∨ s'.current = none

/-- The top entry of the sleep queue is due and out of date, and its
process lives. -/
def Stuck (s : State) : Prop :=
  ∃ top rest t, s.gSleepQueue = top :: rest ∧ s.procs top.process = some t ∧ t.state ≠ .exited ∧
    t.sleeptill ≤ s.millisUptime ∧ t.waitToken ≠ top.token

/-- Some queue or children list names the process. -/
def Named (s : State) (p : Ptr) : Prop :=
  p ∈ s.gReadyQueue ∨ (∃ e ∈ s.gSleepQueue, e.process = p) ∨
    (∃ q, ∃ e ∈ s.waitQueues q, e.process = p) ∨
    ∃ k t, s.procs k = some t ∧ p ∈ t.children

/-- How far the death of a process has got, and that it has been put on
the exited table as often as that takes. -/
def DeathOnce (s : State) (p : Ptr) (t : Process) : Prop :=
  match t.state with
  | .exited =>
    -- still in the ready queue, or on the table
    (p ∈ s.gReadyQueue ∧ s.deaths p = 0 ∧ s.gExitedProcesses.mTable t.pid = none) ∨
    (p ∉ s.gReadyQueue ∧ s.deaths p = 1 ∧ s.gExitedProcesses.mTable t.pid = some p)
  | .collected => s.deaths p = 1
  | _ => s.deaths p = 0

end Puppy.Proc
