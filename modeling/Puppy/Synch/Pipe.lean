/-
Pipes (src/synch/pipe.cpp).

A pipe is a ring buffer of bytes with a read end and a write end. A reader
waits while there is nothing to read, a writer while there is no room, and
neither waits for an end that is closed.

# The system

A process has an end open as often as it has descriptors for it, and
passes them on to others. The file behind an end is closed with its last
descriptor. A process that waits keeps its descriptor, and one that has
been killed meanwhile does not come back to its call.

`sent` and `received` are not in the kernel: the bytes that writers have
put into the pipe while somebody had its read end open, and those that
readers have taken out.
-/
import Puppy.Lib.Blocking
import Puppy.Lib.Machine
import Puppy.Lib.Ring
import Puppy.Panic

namespace Puppy.Synch

open Lib

def gBufferSize : Nat := 4096

/-- `PipeBuffer`. The ring is `mBuffer` with `mReadPointer`,
`mWritePointer` and `mFreeSpace`. -/
structure PipeBuffer where
  ring : RingBuffer UInt8 := .empty gBufferSize fun _ => 0
  mReadFileOpen : Bool := true
  mWriteFileOpen : Bool := true

namespace PipeBuffer

def mFreeSpace (b : PipeBuffer) : Nat := b.ring.free

def tryPutchar (b : PipeBuffer) (c : UInt8) : Option PipeBuffer :=
  (b.ring.tryPut c).map fun ring => { b with ring := ring }

def tryGetchar (b : PipeBuffer) : Option (UInt8 × PipeBuffer) :=
  b.ring.tryGet.map fun (c, ring) => (c, { b with ring := ring })

/-- The second loop of `read`: up to `n` bytes. -/
def readLoop : Nat → PipeBuffer → List UInt8 × PipeBuffer
  | 0, b => ([], b)
  | n + 1, b =>
    match b.tryGetchar with
    | none => ([], b)
    | some (c, b) =>
      let (data, b) := readLoop n b
      (c :: data, b)

/-- The second loop of `write`: how many bytes there was room for. -/
def writeLoop : List UInt8 → PipeBuffer → Nat × PipeBuffer
  | [], b => (0, b)
  | c :: data, b =>
    match b.tryPutchar c with
    | none => (0, b)
    | some b =>
      let (count, b) := writeLoop data b
      (count + 1, b)

end PipeBuffer

/-- The calls that may block. -/
inductive PipeCall where
  | read (n : Nat)
  | write (data : List UInt8)
  deriving DecidableEq, Repr

namespace PipeCall

/-- The call waits in `mEmptyWQ`. -/
def isRead : PipeCall → Bool
  | read _ => true
  | write _ => false

/-- The call waits in `mFullWQ`. -/
def isWrite (call : PipeCall) : Bool := !call.isRead

end PipeCall

/-- The ends of a pipe. -/
inductive PipeEnd where
  | reading
  | writing
  deriving DecidableEq, Repr

inductive PipeAction where
  | call (p : Nat) (call : PipeCall)
  /-- A process that has been woken up goes on. -/
  | resume (p : Nat)
  /-- A process that has been woken up was killed. -/
  | abandon (p : Nat)
  /-- Another process, or the same, gets a descriptor for an end. -/
  | share (p q : Nat) (side : PipeEnd)
  | close (p : Nat) (side : PipeEnd)
  deriving DecidableEq, Repr

/-- A pipe and the processes that use it. -/
structure Piping where
  buffer : PipeBuffer := {}
  places : Places PipeCall := fun _ => .outside
  /-- Who has a descriptor for an end, as often as it has one. -/
  readers : List Nat
  writers : List Nat
  sent : List UInt8 := []
  received : List UInt8 := []

namespace Piping

/-- The processes with a descriptor for an end. -/
def users (s : Piping) : PipeEnd → List Nat
  | .reading => s.readers
  | .writing => s.writers

def setUsers (s : Piping) (users : List Nat) : PipeEnd → Piping
  | .reading => { s with readers := users }
  | .writing => { s with writers := users }

/-- The end that a call needs. -/
def needs : PipeCall → PipeEnd
  | .read _ => .reading
  | .write _ => .writing

/-- `PipeBuffer::read`, from the test of its first loop on. -/
def read (s : Piping) (p n : Nat) : Piping :=
  if s.buffer.mFreeSpace = gBufferSize ∧ s.buffer.mWriteFileOpen = true then
    { s with places := s.places.put p (.blocked (.read n)) }
  else
    let (data, buffer) := s.buffer.readLoop n
    let places := s.places.put p .outside
    { s with
      buffer := buffer
      places := if 0 < data.length then places.wakeall PipeCall.isWrite else places
      received := s.received ++ data }

/-- `PipeBuffer::write`, from the test of its first loop on. -/
def write (s : Piping) (p : Nat) (data : List UInt8) : Piping :=
  if s.buffer.mFreeSpace = 0 then
    if s.buffer.mReadFileOpen then
      { s with places := s.places.put p (.blocked (.write data)) }
    else { s with places := s.places.put p .outside }
  else
    let (count, buffer) := s.buffer.writeLoop data
    let places := s.places.put p .outside
    { s with
      buffer := buffer
      places := if 0 < count then places.wakeall PipeCall.isRead else places
      sent := if s.readers = [] then s.sent else s.sent ++ data.take count }

/-- Begin a call, or go round its first loop once more. -/
def proceed (s : Piping) (p : Nat) : PipeCall → Piping
  | .read n => s.read p n
  | .write data => s.write p data

/-- `closeReadFile` and `closeWriteFile`. -/
def closeFile (s : Piping) : PipeEnd → Piping
  | .reading =>
    { s with
      buffer := { s.buffer with mReadFileOpen := false }
      places := s.places.wakeall PipeCall.isWrite }
  | .writing =>
    { s with
      buffer := { s.buffer with mWriteFileOpen := false }
      places := s.places.wakeall PipeCall.isRead }

/-- A descriptor is closed, and the file with the last one. -/
def close (s : Piping) (p : Nat) (side : PipeEnd) : Piping :=
  let users := (s.users side).erase p
  let s := s.setUsers users side
  if users = [] then s.closeFile side else s

/-- What an action does. -/
def step : PipeAction → Piping → Except Panic Piping
  | .call p call, s =>
    if s.places p = .outside ∧ p ∈ s.users (needs call) then
      .ok (s.proceed p call)
    else .error .disabled
  | .resume p, s =>
    match s.places p with
    | .woken call _ => .ok (s.proceed p call)
    | _ => .error .disabled
  | .abandon p, s =>
    match s.places p with
    | .woken _ _ => .ok { s with places := s.places.put p .outside }
    | _ => .error .disabled
  | .share p q side, s =>
    if s.places p = .outside ∧ p ∈ s.users side then
      .ok (s.setUsers (q :: s.users side) side)
    else .error .disabled
  | .close p side, s =>
    if s.places p = .outside ∧ p ∈ s.users side then .ok (s.close p side)
    else .error .disabled

-- ==== what is asked of a pipe

/-- Nobody waits for what is there, or for an end that nobody has open any
more. -/
structure Unblocked (s : Piping) : Prop where
  readers : ∀ p n, s.places p = .blocked (.read n) → s.buffer.ring.contents = [] ∧ s.writers ≠ []
  writers : ∀ p data, s.places p = .blocked (.write data) → s.buffer.mFreeSpace = 0 ∧ s.readers ≠ []

end Piping

/-- A pipe that process `p` has made, and any number of processes. -/
def piping (p : Nat) : Machine Piping PipeAction Panic where
  boot s := s = { readers := [p], writers := [p] }
  step := Piping.step

end Puppy.Synch
