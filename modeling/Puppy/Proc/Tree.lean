/-
The process tree.

A process remembers its parent by pid and its children by pointer. A
process that exits hands its children to the collector, a kernel task, and
stays until its parent has collected its exit status. Seen that way the
processes are a family with a guardian, and what the process manager does
to them is what may happen in one.

# What is delivered

The exit status of a process is delivered by the step that makes it
COLLECTED. To say that this happens once, the system is run together with
a list, for each process, of what has been delivered. Nothing reads it.
-/
import Puppy.Lib.Genealogy
import Puppy.Proc.Standing

namespace Puppy.Proc

open Lib

namespace Process

/-- How far its life has got. -/
def stage (t : Process) : Stage :=
  match t.state with
  | .exited => .dead
  | .collected => .settled
  | _ => .living

/-- A process as the member of a family. -/
def member (t : Process) : Member Ptr :=
  { id := t.pid
    parent := t.ppid
    children := t.children
    stage := t.stage
    lasting := t.system
    legacy := t.exitstatus }

end Process

namespace State

/-- The processes as a family. -/
def family (s : State) : Genealogy Ptr := fun p =>
  (s.procs p).map Process.member

end State

-- ==== conditions on runs

/-- A step that puts nobody to sleep. -/
def Untimed : Action → Prop
  | .sleep _ => False
  | .waitYield _ timeout => timeout = 0
  | _ => True

instance (a : Action) : Decidable (Untimed a) := by
  unfold Untimed
  split <;> infer_instance

-- ==== the system, with what it delivers

structure Tended where
  state : State
  /-- The exit statuses delivered for each process. -/
  delivered : Ptr → List Nat := fun _ => []

namespace Tended

/-- What has been delivered for a process, when its record changes. -/
def deliver (delivered : List Nat) : Option Process → Option Process → List Nat
  | some t, some t' =>
    if t.state = .exited ∧ t'.state = .collected then
      delivered ++ [t.exitstatus]
    else delivered
  | none, some _ => []
  | _, none => delivered

def step (a : Action) (w : Tended) : Except Panic Tended := do
  let s ← w.state.step a
  .ok { state := s
        delivered := fun p => deliver (w.delivered p) (w.state.procs p) (s.procs p) }

end Tended

/-- The system, with what it delivers. -/
def tended : Machine Tended Action Panic where
  boot w := w = ⟨State.initial, fun _ => []⟩
  step := Tended.step

-- ==== what is asked of the tree

/-- A process is in the list of exactly one process. That one is alive, it
is the one named by the `ppid`, and looking that up finds it. -/
def HasParent (s : State) (p : Ptr) (t : Process) : Prop :=
  ∃ k u, s.procs k = some u ∧ u.stage = .living ∧ u.pid = t.ppid ∧ u.children.count p = 1 ∧
    (∀ k' u', s.procs k' = some u' → p ∈ u'.children → k' = k) ∧
    s.gProcessTable.get t.ppid = .ok (some k)

/-- Everybody who has not been collected, other than the first process,
has a parent. -/
def NoOrphans (s : State) : Prop :=
  ∀ p t, s.procs p = some t → t.state ≠ .collected → p ≠ 0 → HasParent s p t

/-- The exit status of a process has been delivered just once if it has
been collected, and not yet if it has not. -/
def DeliversOnce (w : Tended) : Prop :=
  ∀ p t, w.state.procs p = some t →
    w.delivered p = if t.state = .collected then [t.exitstatus] else []

/-- Nobody who collects finds a child missing from the list. -/
def FindsChildren (s : State) : Prop :=
  (∀ pid, s.step (.collect pid) ≠ .error .notAChild) ∧
    (∀ wait, s.step (.collectany wait) ≠ .error .notAChild) ∧
    s.step (.round .collector) ≠ .error .notAChild

/-- A process that may exit does so, once the collector is there. -/
def ExitsFreely (s : State) : Prop :=
  ∀ c t, s.current = some c → s.procs c = some t → t.system = false → s.gCollectorTask ≠ none →
    ∀ es closed, ∃ s', s.step (.exit es closed) = .ok s'

end Puppy.Proc
