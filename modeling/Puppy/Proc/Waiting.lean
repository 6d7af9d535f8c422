/-
Waiting and being woken up.

A process that waits stands in the queue it waits on, with its current
token, and nowhere else; a process that does not wait stands in none. So a
signal finds everybody it is meant for.

# Who has waited longest

A queue is served from its front, and processes join it at the end. To say
that this is the order of waiting, the system is run together with a count
of the steps taken, and the count at which each process began to wait is
noted down. Nothing reads the notes.
-/
import Puppy.Proc.Standing

namespace Puppy.Proc

open Lib

namespace State

/-- The process is WAITING. -/
def waits (s : State) (p : Ptr) : Bool :=
  (s.procs p).any fun t => decide (t.state = .waiting)

/-- The process is WAITING on this queue. -/
def waitsOn (s : State) (p : Ptr) (q : QueueId) : Prop :=
  ∃ t, s.procs p = some t ∧ t.state = .waiting ∧ t.wakeReason.waitable = some q

/-- The process is AVAILABLE, and in the ready queue once. -/
def isReady (s : State) (p : Ptr) : Prop :=
  (∃ t, s.procs p = some t ∧ t.state = .available) ∧ s.readyCount p = 1

end State

-- ==== the system, with notes

structure Watched where
  state : State
  /-- The steps taken so far. -/
  now : Nat := 0
  /-- When each process began to wait. -/
  since : Ptr → Nat := fun _ => 0

namespace Watched

def step (a : Action) (w : Watched) : Except Panic Watched := do
  let s ← w.state.step a
  .ok { state := s
        now := w.now + 1
        since := fun p => if s.waits p && !w.state.waits p then w.now + 1 else w.since p }

end Watched

/-- The system, with notes of who has begun to wait when. -/
def watched : Machine Watched Action Panic where
  boot w := w = ⟨State.initial, 0, fun _ => 0⟩
  step := Watched.step

-- ==== what is asked of wait queues

/-- Each WAITING process has one entry with its token, in the queue that
it waits on; the others have none that a signal would accept, or any. -/
structure Queued (s : State) : Prop where
  waiting : ∀ p t, s.procs p = some t → t.state = .waiting → ∃ q, t.wakeReason.waitable = some q ∧
      ∀ q', (s.waitQueues q').count ⟨t.waitToken, p⟩ = if q' = q then 1 else 0
  others : ∀ p, s.waits p = false → ∀ q, ∀ e ∈ s.waitQueues q, e.process ≠ p

/-- `wakeall` makes everybody AVAILABLE who waits on the queue, and
enqueues them for execution once. -/
def WakesAll (s : State) (q : QueueId) : Prop :=
  ∃ s', s.wakeall q = .ok s' ∧ s'.waitQueues q = [] ∧
    (∀ p, s.waitsOn p q → s.readyCount p = 0 ∧ s'.isReady p) ∧
    ∀ p, ¬ s.waitsOn p q → s'.procs p = s.procs p ∧ s'.readyCount p = s.readyCount p

/-- `wakeone` wakes the process up that has waited longest, and nobody
else. -/
def WakesLongest (w : Watched) (q : QueueId) : Prop :=
  (∃ p, w.state.waitsOn p q) → ∃ p s', w.state.waitsOn p q ∧
      (∀ p', w.state.waitsOn p' q → w.since p ≤ w.since p') ∧
      w.state.wakeone q = .ok s' ∧ w.state.readyCount p = 0 ∧ s'.isReady p ∧
      ∀ p' ≠ p, s'.procs p' = w.state.procs p' ∧ s'.readyCount p' = w.state.readyCount p'

end Puppy.Proc
