/-
Semaphores (src/synch/semaphore.cpp, src/synch/semaphorefs.cpp,
src/syscalls/impl/synch/wait1.cpp).

As with mutexes, a process waits for a semaphore through an `ioctl` or
through `wait1`, and both end in `Semaphore::wait`. Its loop waits at most
once unless there is a timeout, and the `ioctl` answers 1 whatever came of
it.

# The system

Any number of processes wait for one semaphore and signal it, and its
limits stay as they are, or are set by `ioctl` (`limited`). `acquired` and
`signals` are not in the kernel: they count how often a process has been
told that its wait succeeded, and how often the semaphore has been
signalled.
-/
import Puppy.Lib.Blocking
import Puppy.Lib.Machine
import Puppy.Libc.Word
import Puppy.Panic

namespace Puppy.Synch

open Lib Libc

structure Semaphore where
  mValue : Nat
  mMaxValue : Nat
  deriving DecidableEq, Repr

namespace Semaphore

/-- The part of `Semaphore::signal` after the wake-up. -/
def signal (sem : Semaphore) : Semaphore :=
  let value := add32 sem.mValue 1
  if sem.mMaxValue < value then { sem with mValue := sem.mMaxValue }
  else { sem with mValue := value }

/-- The end of a round of the loop of `Semaphore::wait`: take one, if there
is one. -/
def take (sem : Semaphore) : Option Semaphore :=
  if 0 < sem.mValue then some { sem with mValue := sem.mValue - 1 } else none

end Semaphore

/-- The calls that may block. -/
inductive SemaphoreCall where
  /-- `IOCTL_SEMAPHORE_WAIT`. -/
  | wait
  | wait1 (timeout : Nat)
  deriving DecidableEq, Repr

namespace SemaphoreCall

/-- What the call passes to `Semaphore::wait`. -/
def timeout : SemaphoreCall → Nat
  | wait => 0
  | wait1 timeout => timeout

def timed (call : SemaphoreCall) : Bool := decide (0 < call.timeout)

/-- Whether the process is told that it got through. -/
def reports (answer : Bool) : SemaphoreCall → Bool
  | wait => true
  | wait1 _ => answer

end SemaphoreCall

inductive SemaphoreAction where
  /-- A call that may block begins. -/
  | call (p : Nat) (call : SemaphoreCall)
  | signal (p : Nat)
  /-- A process that has been woken up goes on. -/
  | resume (p : Nat)
  /-- The time of a process is up. -/
  | expire (p : Nat)
  deriving DecidableEq, Repr

/-- A semaphore and the processes that use it. -/
structure Signalling where
  semaphore : Semaphore
  places : Places SemaphoreCall := fun _ => .outside
  acquired : Nat := 0
  signals : Nat := 0

namespace Signalling

/-- A call ends. -/
def answer (s : Signalling) (p : Nat) (success : Bool) : Signalling :=
  { s with
    places := s.places.put p .outside
    acquired := if success then s.acquired + 1 else s.acquired }

/-- The process has to wait. -/
def block (s : Signalling) (p : Nat) (call : SemaphoreCall) : Signalling :=
  { s with places := s.places.put p (.blocked call) }

/-- `Semaphore::wait` begins. -/
def wait (s : Signalling) (p : Nat) (call : SemaphoreCall) : Signalling :=
  match s.semaphore.take with
  | some semaphore => answer { s with semaphore := semaphore } p (call.reports true)
  | none => s.block p call

/-- `Semaphore::wait` goes on after its `yield`. -/
def resume (s : Signalling) (p : Nat) (call : SemaphoreCall) (timeout : Bool) : Signalling :=
  if timeout then s.answer p (call.reports false)
  else
    match s.semaphore.take with
    | some semaphore => answer { s with semaphore := semaphore } p (call.reports true)
    | none =>
      -- only a wait with a timeout goes round again
      if call.timed then s.block p call else s.answer p (call.reports false)

/-- `Semaphore::signal`. -/
def signal (s : Signalling) : Signalling :=
  { s with
    semaphore := s.semaphore.signal
    places := s.places.wakeall fun _ => true
    signals := s.signals + 1 }

/-- What an action does. -/
def step : SemaphoreAction → Signalling → Except Panic Signalling
  | .call p call, s => if s.places p = .outside then .ok (s.wait p call) else .error .disabled
  | .signal p, s => if s.places p = .outside then .ok s.signal else .error .disabled
  | .resume p, s =>
    match s.places p with
    | .woken call timeout => .ok (s.resume p call timeout)
    | _ => .error .disabled
  | .expire p, s =>
    match s.places.expire SemaphoreCall.timed p with
    | some places => .ok { s with places := places }
    | none => .error .disabled

/-- A process that has waited in `IOCTL_SEMAPHORE_WAIT` goes on only while
there is something to take. -/
def Prompt (s : Signalling) : SemaphoreAction → Prop
  | .resume p => ∀ timeout, s.places p = .woken .wait timeout → 0 < s.semaphore.mValue
  | _ => True

instance (s : Signalling) (a : SemaphoreAction) : Decidable (Prompt s a) := by
  unfold Prompt
  split <;> infer_instance

end Signalling

/-- Any number of processes and one semaphore. -/
def signalling (initial max : Nat) : Machine Signalling SemaphoreAction Panic where
  boot s := s = { semaphore := ⟨initial, max⟩ }
  step := Signalling.step

-- ==== limits that change

inductive LimitAction where
  | plain (a : SemaphoreAction)
  /-- `IOCTL_SEMAPHORE_SET_MAX`. -/
  | setMax (p max : Nat)
  deriving DecidableEq, Repr

namespace Signalling

def stepMax : LimitAction → Signalling → Except Panic Signalling
  | .plain a, s => step a s
  | .setMax p max, s =>
    if s.places p = .outside ∧ max < 2 ^ 32 then
      .ok { s with semaphore := { s.semaphore with mMaxValue := max } }
    else .error .disabled

/-- The maximum is never set below the value, and there is no signal when the
value is the last of its 32 bits. -/
def Roomy (s : Signalling) : LimitAction → Prop
  | .plain (.signal _) => s.semaphore.mValue ≠ 0xFFFFFFFF
  | .setMax _ max => s.semaphore.mValue ≤ max
  | _ => True

instance (s : Signalling) (a : LimitAction) : Decidable (Roomy s a) := by
  unfold Roomy
  split <;> infer_instance

end Signalling

/-- The same system, in which the maximum may be set. -/
def limited (initial max : Nat) : Machine Signalling LimitAction Panic where
  boot s := s = { semaphore := ⟨initial, max⟩ }
  step := Signalling.stepMax

end Puppy.Synch
