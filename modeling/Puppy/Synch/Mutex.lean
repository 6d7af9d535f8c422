/-
Mutexes (src/synch/mutex.cpp, src/synch/mutexfs.cpp,
src/syscalls/impl/synch/wait1.cpp).

A process locks a mutex through an `ioctl` of its file, or waits for it
with `wait1`. Both end in `Mutex::wait`, whose loop waits at most once
unless there is a timeout. What the loop answers is what `wait1` tells the
process; the `ioctl` drops it and always answers 1.

# The system

Any number of processes use one mutex. A step is what one of them does up
to its next switch, which is at the end of its call or where it starts to
wait. `holds` is not in the kernel: it records whether a process has been
told that it has the mutex, and has not unlocked it since.
-/
import Puppy.Lib.Blocking
import Puppy.Lib.Machine
import Puppy.Panic

namespace Puppy.Synch

open Lib

structure Mutex where
  mLocked : Bool := false
  mPid : Nat := 0
  deriving DecidableEq, Repr

namespace Mutex

def dolock (_ : Mutex) (pid : Nat) : Mutex := ⟨true, pid⟩

def trylock (m : Mutex) (pid : Nat) : Bool × Mutex :=
  if m.mLocked then (false, m) else (true, m.dolock pid)

/-- `Mutex::unlock`, and whether it wakes those who wait. -/
def unlock (m : Mutex) (pid : Nat) : Bool × Mutex :=
  if m.mLocked && m.mPid == pid then (true, { m with mLocked := false })
  else (false, m)

/-- A round of the loop of `Mutex::wait`: its answer, or nothing if the
process has to wait. -/
def waitRound (m : Mutex) (pid : Nat) (wait : Bool) : Option Bool × Mutex :=
  if m.mLocked then
    if !wait then (some false, m) else (none, m)
  else (some true, m.dolock pid)

end Mutex

/-- The calls that may block. -/
inductive MutexCall where
  /-- `IOCTL_MUTEX_LOCK`. -/
  | lock
  | wait1 (timeout : Nat)
  deriving DecidableEq, Repr

namespace MutexCall

/-- What the call passes to `Mutex::wait`. -/
def timeout : MutexCall → Nat
  | lock => 0
  | wait1 timeout => timeout

def timed (call : MutexCall) : Bool := decide (0 < call.timeout)

/-- Whether the process is told that it has the mutex. -/
def reports (answer : Bool) : MutexCall → Bool
  | lock => true
  | wait1 _ => answer

end MutexCall

inductive MutexAction where
  /-- A call that may block begins. -/
  | call (p : Nat) (call : MutexCall)
  | trylock (p : Nat)
  | unlock (p : Nat)
  /-- A process that has been woken up goes on. -/
  | resume (p : Nat)
  /-- The time of a process is up. -/
  | expire (p : Nat)
  deriving DecidableEq, Repr

/-- A mutex and the processes that use it. -/
structure Locking where
  mutex : Mutex := {}
  places : Places MutexCall := fun _ => .outside
  holds : Nat → Bool := fun _ => false

namespace Locking

/-- A call ends. -/
def answer (s : Locking) (p : Nat) (success : Bool) : Locking :=
  { s with
    places := s.places.put p .outside
    holds := if success then Function.update s.holds p true else s.holds }

/-- A round of the loop of `Mutex::wait`. -/
def waitRound (s : Locking) (p : Nat) (call : MutexCall) (wait : Bool) :
    Locking :=
  match s.mutex.waitRound p wait with
  | (some ok, mutex) => answer { s with mutex := mutex } p (call.reports ok)
  | (none, mutex) => { s with mutex := mutex, places := s.places.put p (.blocked call) }

/-- `Mutex::wait` goes on after its `yield`. -/
def resume (s : Locking) (p : Nat) (call : MutexCall) (timeout : Bool) :
    Locking :=
  -- the wake-up is the mutex's own unless the time was up
  if timeout then s.answer p (call.reports false)
  else s.waitRound p call call.timed

/-- `IOCTL_MUTEX_UNLOCK`. -/
def unlock (s : Locking) (p : Nat) : Locking :=
  let (wakes, mutex) := s.mutex.unlock p
  { mutex := mutex
    places := if wakes then s.places.wakeall fun _ => true else s.places
    holds := Function.update s.holds p false }

/-- What an action does. -/
def step : MutexAction → Locking → Except Panic Locking
  | .call p call, s =>
    if s.places p = .outside then .ok (s.waitRound p call true)
    else .error .disabled
  | .trylock p, s =>
    if s.places p = .outside then
      let (ok, mutex) := s.mutex.trylock p
      .ok (answer { s with mutex := mutex } p ok)
    else .error .disabled
  | .unlock p, s => if s.places p = .outside then .ok (s.unlock p) else .error .disabled
  | .resume p, s =>
    match s.places p with
    | .woken call timeout => .ok (s.resume p call timeout)
    | _ => .error .disabled
  | .expire p, s =>
    match s.places.expire MutexCall.timed p with
    | some places => .ok { s with places := places }
    | none => .error .disabled

/-- Whoever has been told so is the owner of the mutex. -/
def Owned (s : Locking) : Prop :=
  ∀ p, s.holds p = true → s.mutex.mLocked = true ∧ s.mutex.mPid = p

/-- A process that has waited in `IOCTL_MUTEX_LOCK` goes on only while the
mutex is free. -/
def Prompt (s : Locking) : MutexAction → Prop
  | .resume p => ∀ timeout, s.places p = .woken .lock timeout → s.mutex.mLocked = false
  | _ => True

instance (s : Locking) (a : MutexAction) : Decidable (Prompt s a) := by
  unfold Prompt
  split <;> infer_instance

end Locking

/-- Any number of processes and one mutex. -/
def locking : Machine Locking MutexAction Panic where
  boot s := s = {}
  step := Locking.step

end Puppy.Synch
