/-
What `prioritize` is asked for (src/syscalls/impl/process.cpp).

A request names a process and new values for its two priorities, either for
the ones in use or for the ceilings; 0 stands for no change. A value above
the ceiling is refused. The two values are looked at one after the other,
and the first has been set by the time the second is refused.
-/
import Puppy.Proc.Priority

namespace Puppy.Proc

namespace Priority

/-- What a request for one of the two should do: nothing for 0; otherwise
the value is set, and below a new ceiling the one in use as well. -/
def SetTo (target : PrioritizeTarget) (value : Nat) (p q : Priority) : Prop :=
  if value = 0 then q = p
  else
    match target with
    | .current => q = { p with current := value }
    | .maximum => q = { max := value, current := min p.current value }

/-- The request is refused. -/
def Refuses (p : Priority) (value : Nat) : Prop := value ≠ 0 ∧ p.max < value

/-- The request is granted, and makes a difference. -/
def Moves (target : PrioritizeTarget) (p : Priority) (value : Nat) : Prop :=
  (value ≠ 0 ∧ value ≤ p.max) ∧ match target with
    | .current => value ≠ p.current
    | .maximum => value ≠ p.max ∨ value < p.current

end Priority

/-- What a request should do to the process: nothing else changes. -/
def Process.Prioritized (target : PrioritizeTarget)
    (prio_in : Option ExecPriority) (t t' : Process) : Prop :=
  t' = { t with quantum := t'.quantum, scheduling := t'.scheduling } ∧ match prio_in with
    | none => t' = t
    | some prio =>
      Priority.SetTo target prio.quantum t.quantum t'.quantum ∧
        Priority.SetTo target prio.scheduling t.scheduling t'.scheduling

namespace State

/-- `prioritize_syscall_handler`, for any value of `setmax`. Nothing in
place of a response is `UNIMPLEMENTED`. -/
def prioritizeSyscall (s : State) (self : Ptr) (pid : Pid)
    (setmax : Option PrioritizeTarget) (prio_in : Option ExecPriority) :
    Except Panic (Option PrioritizeResponse × State) :=
  match setmax with
  | some target => do
    let (response, s) ← s.prioritize self pid target prio_in
    .ok (some response, s)
  | none => do
    let k ← s.deref self
    match (← s.gProcessTable.get pid) with
    | none => .ok (some .noSuchProcess, s)
    | some p =>
      let process ← s.deref p
      if process.system && !k.system && prio_in.isSome then
        .ok (some .notAllowed, s)
      else .ok (none, s)

/-- The process that a request is about, if the caller may ask for it. -/
def Addresses (s : State) (self : Ptr) (pid : Pid)
    (prio_in : Option ExecPriority) (p : Ptr) (t : Process) : Prop :=
  s.gProcessTable.get pid = .ok (some p) ∧ s.procs p = some t ∧ ∃ k, s.procs self = some k ∧
      (t.system && !k.system && prio_in.isSome) = false

/-- After an error no process has changed, and after a success only the one
that was asked for, as it was asked for. -/
def Answered (s : State) (self : Ptr) (pid : Pid)
    (setmax : Option PrioritizeTarget) (prio_in : Option ExecPriority)
    (s' : State) : Option PrioritizeResponse → Prop
  | some (.ok _) => ∃ target p t t', setmax = some target ∧
      s.Addresses self pid prio_in p t ∧ s'.procs p = some t' ∧
      t.Prioritized target prio_in t' ∧
      ∀ q ≠ p, s'.procs q = s.procs q
  | _ => s'.procs = s.procs

/-- The call does all of what it is asked for or nothing. -/
def PrioritizesWhole (s : State) (self : Ptr) (pid : Pid)
    (setmax : Option PrioritizeTarget) (prio_in : Option ExecPriority) :
    Prop :=
  ∀ answer s', s.prioritizeSyscall self pid setmax prio_in =
    .ok (answer, s') → s.Answered self pid setmax prio_in s' answer

/-- The request for the quantum makes a difference and the other one is
refused. -/
def HalfRefused (s : State) (self : Ptr) (pid : Pid)
    (setmax : Option PrioritizeTarget) (prio_in : Option ExecPriority) :
    Prop :=
  ∃ target prio p t, setmax = some target ∧ prio_in = some prio ∧ s.Addresses self pid prio_in p t ∧
    Priority.Moves target t.quantum prio.quantum ∧
    t.scheduling.Refuses prio.scheduling

end State

end Puppy.Proc
