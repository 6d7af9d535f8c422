/-
Blocked until a time, or until a child dies.

A process that sleeps, or waits with a time limit, has an entry in the sleep
queue, which is a heap by the times at which the processes are to be woken
up. The times are not in the entries. They are read through the pointer
whenever two entries are compared, so the order of the queue depends on
records that change while the queue does not.

A process that collects a child which has not died yet is COLLECTING until
one of its children dies. Nobody else wakes it up.
-/
import Puppy.Lib.Heap
import Puppy.Proc.Tree
import Puppy.Proc.Waiting

namespace Puppy.Proc

open Lib

-- ==== the sleep queue

namespace State

/-- When the process of an entry is to be woken up, as its record says
now. -/
def deadline (s : State) (e : QEntry) : Nat :=
  ((s.procs e.process).map Process.sleeptill).getD 0

end State

/-- The sleep queue is a heap by the current deadlines. So its top is the
entry that is due first, and no entry that is due is behind one that is
not. -/
structure SleepOrder (s : State) : Prop where
  present : ∀ e ∈ s.gSleepQueue, ∃ t, s.procs e.process = some t
  heap : Heap.IsHeap s.deadline s.gSleepQueue
  earliest : ∀ top rest, s.gSleepQueue = top :: rest →
    ∀ e ∈ s.gSleepQueue, s.deadline top ≤ s.deadline e
  prompt : ∀ top rest, s.gSleepQueue = top :: rest →
    ∀ e ∈ s.gSleepQueue, s.deadline e ≤ s.millisUptime → s.deadline top ≤ s.millisUptime

/-- The process that a step puts to sleep, or deletes. -/
def Action.upsets (s : State) : Action → Option Ptr
  | .sleep _ => s.current
  | .waitYield _ timeout => if timeout = 0 then none else s.current
  | .round .deleter => s.gCollectedProcessList.head?
  | _ => none

/-- Nobody goes to sleep, or is deleted, while there is an entry for them in
the sleep queue. -/
def SleepsOnce (s : State) (a : Action) : Prop :=
  ∀ p ∈ a.upsets s, ∀ e ∈ s.gSleepQueue, e.process ≠ p

instance (s : State) (a : Action) : Decidable (SleepsOnce s a) :=
  inferInstanceAs (Decidable (∀ p ∈ a.upsets s, ∀ e ∈ s.gSleepQueue, e.process ≠ p))

-- ==== collecting

/-- Every COLLECTING process has a child that is alive, and will be ready to
run when that child exits. -/
def NoVainWait (s : State) : Prop :=
  ∀ p t, s.procs p = some t → t.state = .collecting →
    ∃ c u, c ∈ t.children ∧ s.procs c = some u ∧ u.state ≠ .exited ∧ u.state ≠ .collected ∧
      ∀ es closed s', s.current = some c → s.step (.exit es closed) = .ok s' → s'.isReady p

/-- Nobody waits for a process that has been collected already, for any
child without having one, or for the first process, which is its own
parent. -/
def WaitsForSomebody (s : State) : Action → Prop
  | .collect pid => ∀ p ∈ s.gProcessTable.mTable pid, p ≠ 0 ∧ ∀ t ∈ s.procs p, t.state ≠ .collected
  | .collectany wait => wait = true → ∀ t ∈ s.current.bind s.procs, t.children ≠ []
  | _ => True

instance (s : State) (a : Action) : Decidable (WaitsForSomebody s a) := by
  unfold WaitsForSomebody
  split <;> infer_instance

-- ==== the collector

/-- The process is EXITED. -/
def State.exited (s : State) (p : Ptr) : Bool :=
  (s.procs p).any fun t => decide (t.state = .exited)

/-- While the collector is blocked, on its queue or COLLECTING, none of its
children is EXITED. -/
def NoZombie (s : State) : Prop :=
  ∀ k t, s.gCollectorTask = some k → s.procs k = some t →
    t.state = .waiting ∨ t.state = .collecting →
    ∀ x ∈ t.children, s.exited x = false

/-- The collector makes a round when its first child is EXITED, or none is,
and nobody leaves it an EXITED child while it waits for another one to
exit. -/
def Prompt (s : State) : Action → Prop
  | .round .collector => ∀ k ∈ s.gCollectorTask, ∀ t ∈ s.procs k,
      (∀ x ∈ t.children.head?, s.exited x = true) ∨ ∀ x ∈ t.children, s.exited x = false
  | .exit _ _ => ∀ c ∈ s.current, ∀ u ∈ s.procs c,
      ∀ k ∈ s.gCollectorTask, ∀ t ∈ s.procs k, t.state = .collecting →
        c ∈ t.children ∨ ∀ x ∈ u.children, s.exited x = false
  | _ => True

instance (s : State) : ∀ a, Decidable (Prompt s a)
  | .round .collector =>
    inferInstanceAs (Decidable (∀ k ∈ s.gCollectorTask, ∀ t ∈ s.procs k,
      (∀ x ∈ t.children.head?, s.exited x = true) ∨ ∀ x ∈ t.children, s.exited x = false))
  | .exit _ _ =>
    inferInstanceAs (Decidable (∀ c ∈ s.current, ∀ u ∈ s.procs c,
      ∀ k ∈ s.gCollectorTask, ∀ t ∈ s.procs k, t.state = .collecting →
        c ∈ t.children ∨ ∀ x ∈ u.children, s.exited x = false))
  | .kspawn _ _ _ | .spawn _ _ | .waitYield _ _ | .sleep _ | .yield | .collect _ | .collectany _
  | .wakeone _ | .wakeall _ | .round .awaker | .round .deleter | .schedule _ | .tick _ =>
    .isTrue trivial

end Puppy.Proc
