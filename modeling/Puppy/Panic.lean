/-
The ways the kernel stops.

`PANIC` prints a message and halts the machine, so a modelled function
that may panic returns `Except Panic _`. The last entries are not messages
of the source. `outOfBounds` stands for an access past the end of an array
and `fault` for a reference to an object that has been freed: the source
goes on with whatever it finds there, and no statement about the program
survives that, so the model stops as well.
-/
import Mathlib.Tactic

namespace Puppy

inductive Panic where
  /-- "trying to reserve a non-usable page" -/
  | reserveNonUsable
  /-- "trying to allocate a non-usable page" -/
  | allocNonUsable
  /-- "trying to deallocate a free/unusable page" -/
  | deallocFree
  /-- "non-present page cannot be backed by physical memory" -/
  | unmapNonPresent
  /-- "result extracted out of failure result" -/
  | resultOfFailure
  /-- "unable to find memory for a new process" -/
  | noProcessMemory
  /-- "attempting to kill a system process" -/
  | killSystem
  /-- "process enqueued for execution multiple times" -/
  | enqueuedTwice
  /-- "only EXITED processes can go on exited list" -/
  | notExited
  /-- "only COLLECTED processes can go on collected list" -/
  | notCollected
  /-- "cannot collect a non-existant process" -/
  | collectNone
  /-- "cannot collect another process' child - that's creepy" -/
  | collectOther
  /-- "process not listed in children of parent" -/
  | notAChild
  /-- "null process insertion in process table" -/
  | nullInsertion
  /-- "process slot already occupied" -/
  | slotOccupied
  /-- "out of process entries" -/
  | outOfEntries
  /-- "lottery did not select a winner - scheduler aborted" -/
  | noWinner
  /-- "msgqueue has no client left but memory was leaked" -/
  | queueLeaked
  /-- "kernel heap allocation failed" -/
  | heapExhausted
  /-- "VFS state corrupt" -/
  | vfsCorrupt
  /-- "unable to mount more than 10 FAT devices" -/
  | tooManyFat
  /-- A division by zero. -/
  | divideError
  /-- A write of the kernel to a page that the process may not write to. -/
  | writeProtected
  /-- An access past the end of an array. -/
  | outOfBounds
  /-- A reference to an object that does not exist any more. -/
  | fault
  /-- Not a way to stop: a process writes to its own page directory, and
  what its memory is from then on is not followed. -/
  | pageDirectory
  /-- Not a way to stop: a loop has not ended within the rounds that the
  model gives it. -/
  | spinning
  /-- Not a way to stop: the step asked for is none that the program can
  take in this state. -/
  | disabled
  deriving DecidableEq, Repr

end Puppy
