/-
The filesystem of message queues (src/synch/msgueue.cpp: `MessageQueueFS`).

Opening a file looks its queue up by name, or makes it, and the store
counts that. Closing the file gives the queue back. The queue itself counts
its readers and its writers, and a file is one or the other, so that the
store's count is the sum of the two; `doClose` panics when it finds that
they disagree.

# The system

The files that are open are part of the state. What is done with a queue
between opening and closing a file does not matter here; it is in
`Puppy.Synch.MsgQueue`. Of the name of a file, the buffer's own copy is
what `doClose` uses. `QueueFile.name` is not in the kernel: the name that
the file was opened by.

A file is an object on the kernel's heap and takes more than sixteen bytes,
so fewer than `2 ^ 28` of them are open at a time. The allocator panics
before there are more.
-/
import Puppy.Libc.KeyedStore
import Puppy.Synch.MsgQueue

namespace Puppy.Synch

open Lib Libc

def FILE_OPEN_READ : UInt32 := 1
def FILE_OPEN_WRITE : UInt32 := 2
def FILE_OPEN_APPEND : UInt32 := 16

/-- `FORBIDDEN_MODE`: the mode has all of the flags. -/
def forbiddenMode (mode flags : UInt32) : Bool := mode &&& flags == flags

/-- A test `mode & flag`. -/
def hasMode (mode flag : UInt32) : Bool := mode &&& flag != 0

/-- `MessageQueueBuffer`, with its name. -/
structure NamedQueue extends MessageQueueBuffer where
  mName : CString

namespace NamedQueue

/-- The constructors of `MessageQueueReadFile` and
`MessageQueueWriteFile`. -/
def openFile (q : NamedQueue) (mode : QueueMode) : NamedQueue :=
  { q with toMessageQueueBuffer := q.toMessageQueueBuffer.openFile mode }

def closeFile (q : NamedQueue) (mode : QueueMode) : NamedQueue :=
  { q with toMessageQueueBuffer := q.toMessageQueueBuffer.closeFile mode }

end NamedQueue

/-- `MessageQueueFile`. -/
structure QueueFile where
  mode : QueueMode
  mBuffer : Nat
  name : CString
  deriving DecidableEq, Repr

structure MessageQueueFS where
  mQueues : KeyedStore NamedQueue := {}
  /-- The open files. -/
  files : List QueueFile := []

namespace MessageQueueFS

/-- `getIfExisting`, and `makeNew` if there is none. -/
def getOrMakeNew (fs : MessageQueueFS) (name : CString) :
    Except Panic (Option (Nat × MessageQueueFS)) := do
  match (← fs.mQueues.getOrNull name) with
  | some (buffer, store) => .ok (some (buffer, { fs with mQueues := store }))
  | none =>
    match fs.mQueues.makeOrNull name { mName := name } with
    | some (buffer, store) => .ok (some (buffer, { fs with mQueues := store }))
    | none => .ok none

/-- `new MessageQueueReadFile` or `new MessageQueueWriteFile`. -/
def newFile (fs : MessageQueueFS) (name : CString) (buffer : Nat)
    (mode : QueueMode) : Except Panic MessageQueueFS :=
  if fs.files.length + 1 < 0x10000000 then
    .ok
      { mQueues := fs.mQueues.modify buffer (·.openFile mode)
        files := { mode, mBuffer := buffer, name } :: fs.files }
  else .error .heapExhausted

/-- `doOpen`. A file that is opened is added to `files`; nothing is, when
the answer is null. -/
def doOpen (fs : MessageQueueFS) (name : CString) (mode : UInt32) :
    Except Panic MessageQueueFS := do
  if forbiddenMode mode (FILE_OPEN_READ ||| FILE_OPEN_WRITE) then .ok fs
  else if forbiddenMode mode FILE_OPEN_APPEND then .ok fs
  else
    match (← fs.getOrMakeNew name) with
    | none => .ok fs
    | some (buffer, fs) =>
      if hasMode mode FILE_OPEN_READ then fs.newFile name buffer .reading
      else if hasMode mode FILE_OPEN_WRITE then
        fs.newFile name buffer .writing
      -- The look-up has been counted, and there is no file to undo it.
      else .ok fs

/-- `doClose`, for a file that the caller takes off `files`. -/
def doClose (fs : MessageQueueFS) (file : QueueFile) : Except Panic MessageQueueFS := do
  let store := fs.mQueues.modify file.mBuffer (·.closeFile file.mode)
  match store.pointers file.mBuffer with
  | none => .error .fault
  | some (buffer, _) =>
    let (erased, store) ← store.release buffer.mName
    if buffer.mNumReaders = 0 ∧ buffer.mNumWriters = 0 ∧ erased = false then
      .error .queueLeaked
    else .ok { fs with mQueues := store }

/-- The number of files that are open by a name. -/
def openFiles (fs : MessageQueueFS) (name : CString) : Nat :=
  fs.files.countP fun file => file.name = name

end MessageQueueFS

inductive QueueFsAction where
  | open (name : CString) (mode : UInt32)
  /-- The `i`-th of the open files is closed. -/
  | close (i : Nat)
  deriving DecidableEq, Repr

def queueFs : Machine MessageQueueFS QueueFsAction Panic where
  boot fs := fs = {}
  step
    | .open name mode, fs => fs.doOpen name mode
    | .close i, fs =>
      match fs.files[i]? with
      | none => .error .disabled
      | some file => { fs with files := fs.files.eraseIdx i }.doClose file

/-- The queues are where they should be. -/
structure MessageQueueFS.Owned (fs : MessageQueueFS) : Prop where
  /-- The store counts the files. -/
  counted : ∀ name, fs.mQueues.count name = fs.openFiles name
  /-- A queue exists as long as a file of it is open. -/
  kept : ∀ buffer, (fs.mQueues.pointers buffer).isSome ↔ ∃ file ∈ fs.files, file.mBuffer = buffer
  /-- The next step does not find that one was leaked. -/
  notLeaked : ∀ a, queueFs.step a fs ≠ .error .queueLeaked

/-- Whoever opens a file says that it is for reading or for writing, or is
turned away before the look-up, for a mode with `FILE_OPEN_APPEND`. (One
with both flags is turned away too.) -/
def QueueFsAction.saysWhatFor : QueueFsAction → Bool
  | .open _ mode =>
    hasMode mode FILE_OPEN_READ || hasMode mode FILE_OPEN_WRITE ||
      forbiddenMode mode FILE_OPEN_APPEND
  | .close _ => true

end Puppy.Synch
