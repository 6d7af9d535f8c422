/-
Processes and the tables that name them (include/process/process.h,
include/process/table.h, include/process/bitmap.h).

# Pointers

The kernel passes `process_t*` around and stores copies of it in queues,
lists and tables. A pointer is a number here, and the heap of process
objects a function from pointers to what lives there, if anything does.
The deleter unmaps a process object and a later spawn may be given the
same page, so a pointer that outlives its process may come to name
another one.

Of `process_t` the model keeps what scheduling reads or writes. The
hardware context, file handles, memory map, paths and statistics are not
part of it.
-/
import Puppy.Panic
import Puppy.Libc.Word

namespace Puppy.Proc

open Libc Function

/-- The address of a `process_t`. -/
abbrev Ptr := Nat

/-- `kpid_t`. -/
abbrev Pid := Nat

/-- `process_state_t`. -/
inductive ProcessState where
  | new
  | available
  | waiting
  | sleeping
  | exited
  | collected
  | collecting
  deriving DecidableEq, Repr

/-- The wait queues: one for each kernel task that has one, and those of
the objects processes synchronize on. -/
inductive QueueId where
  | awaker
  | collector
  | deleter
  | object (id : Nat)
  deriving DecidableEq, Repr

/-- An entry of a wait queue or of the sleep queue. -/
structure QEntry where
  token : Nat
  process : Ptr
  deriving DecidableEq, Repr

structure WakeReason where
  timeout : Bool := false
  waitable : Option QueueId := none
  deriving DecidableEq, Repr

/-- A bound and a value in use. -/
structure Priority where
  max : Nat := 0
  current : Nat := 0
  deriving DecidableEq, Repr

/-- `process_t`, with the values its constructor leaves. -/
structure Process where
  gdtidx : Nat := 0
  pid : Pid := 0
  ppid : Pid := 0
  state : ProcessState := .new
  /-- The foreground queue of the process's terminal. -/
  tty : QueueId := .object 0
  quantum : Priority := {}
  scheduling : Priority := {}
  exitstatus : Nat := 0
  children : List Ptr := []
  /-- `flags.system`. -/
  system : Bool := false
  sleeptill : Nat := 0
  /-- A `uint64_t`. -/
  waitToken : Nat := 0
  wakeReason : WakeReason := {}
  deriving DecidableEq, Repr

def gNumProcesses : Nat := 2000

-- ==== bitmaps

structure ProcessBitmap where
  mBitmap : Nat → Bool := fun _ => false
  mFirstIndexToTry : Nat := 0

namespace ProcessBitmap

def reserve (b : ProcessBitmap) (p : Nat) : ProcessBitmap :=
  { b with mBitmap := update b.mBitmap p true }

def free (b : ProcessBitmap) (p : Nat) : ProcessBitmap :=
  { b with mBitmap := update b.mBitmap p false }

/-- The loop of `next`, with `left` indices to try from the `i`-th on. -/
def nextFrom (b : ProcessBitmap) : Nat → Nat → Except Panic Nat
  | 0, _ => .error .outOfEntries
  | left + 1, i =>
    let idx := (b.mFirstIndexToTry + i) % gNumProcesses
    if b.mBitmap idx = false then .ok idx else nextFrom b left (i + 1)

def next (b : ProcessBitmap) : Except Panic (Nat × ProcessBitmap) :=
  match b.nextFrom gNumProcesses 0 with
  | .error e => .error e
  | .ok idx => .ok (idx, { b.reserve idx with mFirstIndexToTry := idx + 1 })

theorem nextFrom_free {b : ProcessBitmap} {left i idx : Nat} (h : b.nextFrom left i = .ok idx) :
    b.mBitmap idx = false ∧ idx < gNumProcesses := by
  induction left generalizing i with
  | zero => cases h
  | succ left ih =>
    unfold nextFrom at h
    dsimp only at h
    split at h
    next hfree =>
      cases h
      exact ⟨hfree, Nat.mod_lt _ (by decide)⟩
    · exact ih h

/-- `next` hands out an index that was free, and reserves it. -/
theorem next_ok {b b' : ProcessBitmap} {idx : Nat} (h : b.next = .ok (idx, b')) :
    b.mBitmap idx = false ∧ idx < gNumProcesses ∧ b'.mBitmap = update b.mBitmap idx true := by
  unfold next at h
  cases hfrom : b.nextFrom gNumProcesses 0 with
  | error e =>
    rw [hfrom] at h
    cases h
  | ok found =>
    rw [hfrom] at h
    cases h
    obtain ⟨hfree, hlt⟩ := nextFrom_free hfrom
    exact ⟨hfree, hlt, rfl⟩

end ProcessBitmap

-- ==== tables

/-- `ProcessTable`: the process with a given pid. -/
structure ProcessTable where
  mTable : Pid → Option Ptr := fun _ => none
  mSize : Nat := 0

namespace ProcessTable

/-- `ProcessTable::set`, for a process `proc` with pid `pid`. -/
def set (t : ProcessTable) (pid : Pid) (proc : Ptr) : Except Panic ProcessTable :=
  match t.mTable pid with
  | some _ => .error .slotOccupied
  | none =>
    .ok { mTable := update t.mTable pid (some proc)
          mSize := add32 t.mSize 1 }

/-- `ProcessTable::free`, for a process with pid `pid`. -/
def free (t : ProcessTable) (pid : Pid) : ProcessTable :=
  { mTable := update t.mTable pid none
    mSize := sub32 t.mSize 1 }

/-- `ProcessTable::get`. A pid past the end is read from whatever lies
behind the table. -/
def get (t : ProcessTable) (pid : Pid) : Except Panic (Option Ptr) :=
  if gNumProcesses ≤ pid then .error .outOfBounds else .ok (t.mTable pid)

theorem get_ok {t : ProcessTable} {pid : Pid} {found : Option Ptr}
    (h : t.get pid = .ok found) : t.mTable pid = found := by
  unfold get at h
  split at h
  · cases h
  · injection h with h

end ProcessTable

end Puppy.Proc
