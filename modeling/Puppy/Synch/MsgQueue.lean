/-
Message queues (src/synch/msgueue.cpp).

A message queue is a ring buffer of messages. It is opened for reading or
for writing, any number of times, and counts the files. A reader waits
while there is no message and somebody could still write one; a writer
waits while there is no room. Whether they wait or give up is a property of
the file, which may change between calls.

Closing a writer only counts: those who wait for a message are not told.

# The system

A file is closed when the last descriptor for it is, so `readers` and
`writers` have an entry for each open file, which says who has a descriptor
for it. The queue goes with its last file; the next one to open it gets
another queue. `accepted` and `delivered` are not in the kernel: the
messages that writes have put into the queue, and those that reads have
returned.
-/
import Puppy.Lib.Blocking
import Puppy.Lib.Machine
import Puppy.Lib.Ring
import Puppy.Panic

namespace Puppy.Synch

open Lib

/-- `message_t`. Of the payload, the bytes that were written. -/
structure Message where
  sender : Nat := 0
  timestamp : Nat := 0
  payload_size : Nat := 0
  payload : List UInt8 := []
  deriving DecidableEq, Repr

/-- `sizeof(message_t)`. -/
def gTotalSize : Nat := 4096

/-- `message_t::gBodySize`; the header takes sixteen bytes. -/
def gBodySize : Nat := gTotalSize - 16

/-- The size that `MessageQueueFS::Store::makeNew` asks for. -/
def gNumMessages : Nat := 256

/-- `FILE_OPEN_READ` or `FILE_OPEN_WRITE`. -/
inductive QueueMode where
  | reading
  | writing
  deriving DecidableEq, Repr

/-- `MessageQueueBuffer`. The ring is `mBuffer` with `mReadPointer`,
`mWritePointer`, `mTotalSize` and `mFreeSize`. -/
structure MessageQueueBuffer where
  ring : RingBuffer Message := .empty gNumMessages fun _ => {}
  mNumReaders : Nat := 0
  mNumWriters : Nat := 0

namespace MessageQueueBuffer

def mFreeSize (b : MessageQueueBuffer) : Nat := b.ring.free

def mTotalSize (b : MessageQueueBuffer) : Nat := b.ring.total

def tryWrite (b : MessageQueueBuffer) (msg : Message) : Option MessageQueueBuffer :=
  (b.ring.tryPut msg).map fun ring => { b with ring := ring }

def tryRead (b : MessageQueueBuffer) : Option (Message × MessageQueueBuffer) :=
  b.ring.tryGet.map fun (msg, ring) => (msg, { b with ring := ring })

def openReader (b : MessageQueueBuffer) : MessageQueueBuffer :=
  { b with mNumReaders := b.mNumReaders + 1 }

def openWriter (b : MessageQueueBuffer) : MessageQueueBuffer :=
  { b with mNumWriters := b.mNumWriters + 1 }

def closeReader (b : MessageQueueBuffer) : MessageQueueBuffer :=
  { b with
    mNumReaders := if 0 < b.mNumReaders then b.mNumReaders - 1 else b.mNumReaders }

def closeWriter (b : MessageQueueBuffer) : MessageQueueBuffer :=
  { b with
    mNumWriters := if 0 < b.mNumWriters then b.mNumWriters - 1 else b.mNumWriters }

def openFile (b : MessageQueueBuffer) : QueueMode → MessageQueueBuffer
  | .reading => b.openReader
  | .writing => b.openWriter

def closeFile (b : MessageQueueBuffer) : QueueMode → MessageQueueBuffer
  | .reading => b.closeReader
  | .writing => b.closeWriter

end MessageQueueBuffer

/-- The calls that may block, once their size has been checked. A message
is put together before the wait. -/
inductive QueueCall where
  | read (allowBlock : Bool)
  | write (msg : Message) (allowBlock : Bool)
  deriving DecidableEq, Repr

namespace QueueCall

/-- The call waits in `mEmptyWQ`. -/
def isRead : QueueCall → Bool
  | read _ => true
  | write _ _ => false

/-- The call waits in `mFullWQ`. -/
def isWrite (call : QueueCall) : Bool := !call.isRead

end QueueCall

inductive QueueAction where
  | openFile (p : Nat) (mode : QueueMode)
  /-- A process, perhaps the same, gets a descriptor for the `i`-th file
  of process `p`. -/
  | share (p q : Nat) (mode : QueueMode) (i : Nat)
  /-- A process closes a descriptor for the `i`-th file. -/
  | close (p : Nat) (mode : QueueMode) (i : Nat)
  | read (p n : Nat) (allowBlock : Bool)
  | write (p : Nat) (src : List UInt8) (timestamp : Nat) (allowBlock : Bool)
  /-- A process that has been woken up goes on. -/
  | resume (p : Nat)
  /-- A process that has been woken up was killed. -/
  | abandon (p : Nat)
  deriving DecidableEq, Repr

/-- A message queue and the processes that use it. -/
structure Queueing where
  buffer : MessageQueueBuffer := {}
  /-- The count of the `KeyedStore` that the queue is in. -/
  clients : Nat := 0
  places : Places QueueCall := fun _ => .outside
  /-- The open files, each with those who have a descriptor for it. -/
  readers : List (List Nat) := []
  writers : List (List Nat) := []
  accepted : List Message := []
  delivered : List Message := []

namespace Queueing

/-- The open files. -/
def files (s : Queueing) : QueueMode → List (List Nat)
  | .reading => s.readers
  | .writing => s.writers

def setFiles (s : Queueing) (files : List (List Nat)) : QueueMode → Queueing
  | .reading => { s with readers := files }
  | .writing => { s with writers := files }

/-- The file that a call needs. -/
def needs : QueueCall → QueueMode
  | .read _ => .reading
  | .write _ _ => .writing

-- ==== opening and closing

/-- `MessageQueueFS::doOpen`. -/
def doOpen (s : Queueing) (p : Nat) (mode : QueueMode) : Queueing :=
  let s := s.setFiles ([p] :: s.files mode) mode
  { s with buffer := s.buffer.openFile mode, clients := s.clients + 1 }

/-- `MessageQueueFS::doClose`. -/
def doClose (s : Queueing) (mode : QueueMode) : Except Panic Queueing :=
  let buffer := s.buffer.closeFile mode
  if s.clients = 1 then
    -- the queue is erased, and there will be a new one
    .ok { places := s.places, readers := s.readers, writers := s.writers }
  else if buffer.mNumReaders = 0 ∧ buffer.mNumWriters = 0 then
    .error .queueLeaked
  else .ok { s with buffer := buffer, clients := s.clients - 1 }

/-- A descriptor for the `i`-th file is closed, and the file with the last
one. -/
def close (s : Queueing) (p : Nat) (mode : QueueMode) (i : Nat)
    (users : List Nat) : Except Panic Queueing :=
  if users.erase p = [] then
    (s.setFiles ((s.files mode).eraseIdx i) mode).doClose mode
  else .ok (s.setFiles ((s.files mode).set i (users.erase p)) mode)

-- ==== messages

/-- A call ends without a message. -/
def giveUp (s : Queueing) (p : Nat) : Queueing :=
  { s with places := s.places.put p .outside }

/-- `MessageQueueBuffer::read`, from the test of its loop on. -/
def read (s : Queueing) (p : Nat) (allowBlock : Bool) : Queueing :=
  if s.buffer.mFreeSize = s.buffer.mTotalSize ∧ s.buffer.mNumWriters ≠ 0 then
    if allowBlock then
      { s with places := s.places.put p (.blocked (.read allowBlock)) }
    else s.giveUp p
  else
    match s.buffer.tryRead with
    | none => s.giveUp p
    | some (msg, buffer) =>
      { s with
        buffer := buffer
        places := (s.places.put p .outside).wakeall QueueCall.isWrite
        delivered := s.delivered ++ [msg] }

/-- `MessageQueueBuffer::write`, from the test of its loop on. -/
def write (s : Queueing) (p : Nat) (msg : Message) (allowBlock : Bool) :
    Queueing :=
  if s.buffer.mFreeSize = 0 then
    if allowBlock then
      { s with places := s.places.put p (.blocked (.write msg allowBlock)) }
    else s.giveUp p
  else
    match s.buffer.tryWrite msg with
    | none => s.giveUp p
    | some buffer =>
      { s with
        buffer := buffer
        places := (s.places.put p .outside).wakeall QueueCall.isRead
        accepted := s.accepted ++ [msg] }

/-- Begin a call, or go round its loop once more. -/
def proceed (s : Queueing) (p : Nat) : QueueCall → Queueing
  | .read allowBlock => s.read p allowBlock
  | .write msg allowBlock => s.write p msg allowBlock

/-- What an action does. -/
def step : QueueAction → Queueing → Except Panic Queueing
  | .openFile p mode, s =>
    if s.places p = .outside then .ok (s.doOpen p mode)
    else .error .disabled
  | .share p q mode i, s =>
    match (s.files mode)[i]? with
    | none => .error .disabled
    | some users =>
      if s.places p = .outside ∧ p ∈ users then
        .ok (s.setFiles ((s.files mode).set i (q :: users)) mode)
      else .error .disabled
  | .close p mode i, s =>
    match (s.files mode)[i]? with
    | none => .error .disabled
    | some users =>
      if s.places p = .outside ∧ p ∈ users then s.close p mode i users
      else .error .disabled
  | .read p n allowBlock, s =>
    if s.places p = .outside ∧ p ∈ s.readers.flatten then
      if n ≠ gTotalSize then .ok s else .ok (s.read p allowBlock)
    else .error .disabled
  | .write p src timestamp allowBlock, s =>
    if s.places p = .outside ∧ p ∈ s.writers.flatten then
      if gBodySize < src.length then .ok s
      else
        .ok (s.write p ⟨p, timestamp, src.length, src⟩ allowBlock)
    else .error .disabled
  | .resume p, s =>
    match s.places p with
    | .woken call _ => .ok (s.proceed p call)
    | _ => .error .disabled
  | .abandon p, s =>
    match s.places p with
    | .woken _ _ => .ok (s.giveUp p)
    | _ => .error .disabled

-- ==== what is asked of a message queue

/-- The counters and positions of the buffer agree. -/
structure Consistent (s : Queueing) : Prop where
  free : 0 ≤ s.buffer.mFreeSize ∧ s.buffer.mFreeSize ≤ s.buffer.mTotalSize
  readPointer : s.buffer.ring.readPointer < s.buffer.mTotalSize
  writePointer : s.buffer.ring.writePointer = (s.buffer.ring.readPointer
        + (s.buffer.mTotalSize - s.buffer.mFreeSize)) % s.buffer.mTotalSize

/-- Nobody waits for what is there, or for writers when there are none. -/
structure Unblocked (s : Queueing) : Prop where
  readers : ∀ p allowBlock, s.places p = .blocked (.read allowBlock) →
    s.buffer.ring.contents = [] ∧ s.writers ≠ []
  writers : ∀ p msg allowBlock,
    s.places p = .blocked (.write msg allowBlock) → s.buffer.mFreeSize = 0

/-- The last file for writing is not closed while somebody waits for a
message. -/
def KeepsWriter (s : Queueing) : QueueAction → Prop
  | .close p .writing _ => s.writers = [[p]] →
      ∀ q allowBlock, s.places q ≠ .blocked (.read allowBlock)
  | _ => True

end Queueing

/-- A message queue that has just been made, and any number of
processes. -/
def queueing : Machine Queueing QueueAction Panic where
  boot s := s = {}
  step := Queueing.step

end Puppy.Synch
