/-
The ramdisk image (initrd/gen.py) and the filesystem that reads it
(src/fs/initrd/fs.cpp, file.cpp, directory.cpp, include/fs/initrd/fs.h).

An image is a header of 16 bytes, the number of its files, a table with
room for 64 of them and then their contents, one after the other. An entry
of the table has 80 bytes: 64 for the name, then the size, the offset of
the contents from the start of the image, and the time. `struct.pack` cuts
a name to the width of its field and fills a shorter one up with zeros;
the kernel reads it as a string, which ends at the first zero, in the
field or after it.

# What is modelled

Both sides, byte by byte. A file is its base name and its contents; what
the clock says is a parameter. The filesystem finds the image at some
address in memory and never leaves it behind, so its memory is a function
from addresses to bytes. The total size, which only `fillInfo` reports,
and what only `doStat` reports are left out.
-/
import Puppy.Lib.Bytes
import Puppy.Libc.Word

namespace Puppy.Fs

open Lib Libc

-- ==== writing an image

/-- A file for the image. Base names have neither zeros nor slashes. -/
structure InputFile where
  name : List UInt8
  content : List UInt8
  clean : ∀ b ∈ name, b ≠ 0 ∧ b ≠ 47

def InputFile.size (f : InputFile) : Nat := f.content.length

/-- Why there is no image. -/
inductive GenError where
  /-- `--file` is required. -/
  | noFile
  | tooManyFiles
  | emptyFile
  /-- `struct.error`: a number is too large for its field. -/
  | struct
  deriving DecidableEq, Repr

namespace Gen

/-- The size of a name field. -/
def gNameSize : Nat := 64

/-- What `unixnow` returns lies before the year 10000, where `datetime`
ends. -/
def gTimeLimit : Nat := 253402300800

/-- `struct.pack('<64s')`. -/
def pack64s (s : List UInt8) : List UInt8 :=
  s.take gNameSize ++ List.replicate (gNameSize - s.length) 0

/-- `struct.pack('<I')`. -/
def packI (v : Nat) : Except GenError (List UInt8) :=
  if v < 0x100000000 then .ok (leBytes 4 v) else .error .struct

/-- `struct.pack('<Q')`, for a number that is not too large for it. -/
def packQ (v : Nat) : List UInt8 := leBytes 8 v

/-- `timeserial` is 64 bits wide; its value is not looked at. -/
def writeHeader (timeserial : UInt64) : List UInt8 :=
  [0x80, 0x49, 0x52, 0x44, 3, 0, 0, 0] ++ packQ timeserial.toNat

/-- `writeFile`, for a file and its offset. -/
def writeFile (f : InputFile) (offset : Nat) (now : Fin gTimeLimit) :
    Except GenError (List UInt8) := do
  let size ← packI f.size
  let offset ← packI offset
  .ok (pack64s f.name ++ (size ++ (offset ++ packQ now)))

def writeNullFile : List UInt8 :=
  pack64s [] ++ (leBytes 4 0 ++ (leBytes 4 0 ++ packQ 0))

/-- The first loop of `writeTable`; `i` is the number of entries so far. -/
def writeEntries (unixnow : Nat → Fin gTimeLimit) (i : Nat) :
    List (InputFile × Nat) → Except GenError (List UInt8)
  | [] => .ok []
  | (f, offset) :: rest => do
    let entry ← writeFile f offset (unixnow i)
    let entries ← writeEntries unixnow (i + 1) rest
    .ok (entry ++ entries)

def writeTable (unixnow : Nat → Fin gTimeLimit)
    (files : List (InputFile × Nat)) : Except GenError (List UInt8) := do
  let count ← packI files.length
  let entries ← writeEntries unixnow 0 files
  .ok (count ++ (entries ++ (List.replicate (64 - files.length) writeNullFile).flatten))

def writeFiles (files : List InputFile) : List UInt8 :=
  files.flatMap InputFile.content

/-- `genInputFiles`: every file with its offset. -/
def genInputFiles (offset : Nat) : List InputFile → List (InputFile × Nat)
  | [] => []
  | f :: rest => (f, offset) :: genInputFiles (offset + f.size) rest

/-- The script. -/
def image (timeserial : UInt64) (unixnow : Nat → Fin gTimeLimit)
    (files : List InputFile) : Except GenError (List UInt8) :=
  if files = [] then .error .noFile
  else if 64 < files.length then .error .tooManyFiles
  else if files.any fun f => f.size == 0 then .error .emptyFile
  else do
    let table ← writeTable unixnow (genInputFiles 5140 files)
    .ok (writeHeader timeserial ++ (table ++ writeFiles files))

end Gen

-- ==== reading it

structure Initrd where
  mBase : Nat
  deriving DecidableEq, Repr

structure InitrdFile where
  mPointer : Nat
  mSizeLeft : Nat
  deriving DecidableEq, Repr

structure InitrdDirectory where
  mFiles : Nat
  mIndex : Nat := 0
  deriving DecidableEq, Repr

/-- `fileinfo_t`, for a file. -/
structure FileInfo where
  name : List UInt8
  size : Nat
  time : Nat
  deriving DecidableEq, Repr

def gMaxPathSize : Nat := 255

section Kernel

variable (mem : Nat → UInt8)

namespace Initrd

/-- The address of an entry in a table of files. -/
def fileAt (mFiles idx : Nat) : Nat := mFiles + 4 + 80 * idx

def tryget (address : Nat) : Option Initrd :=
  if Bytes.block mem address 4 ≠ [0x80, 0x49, 0x52, 0x44] then none
  else if mem (address + 4) ≠ 3 then none
  else some ⟨address⟩

variable (fs : Initrd)

def mFiles : Nat := fs.mBase + 16

def count : Nat := Bytes.word mem fs.mFiles 4

/-- The modes that change a file. -/
def gWriteModes : Nat := 2 ||| 16 ||| 4

def doOpen (path : List UInt8) (mode : Nat) : Option InitrdFile :=
  if mode &&& gWriteModes ≠ 0 then none
  else
    match (List.range (fs.count mem)).find? fun i =>
        Bytes.spells mem (fileAt fs.mFiles i) (stripSlash path) with
    | none => none
    | some i =>
      let f := fileAt fs.mFiles i
      some ⟨add32 fs.mBase (Bytes.word mem (f + 68) 4), Bytes.word mem (f + 64) 4⟩

def doOpendir (path : List UInt8) : Option InitrdDirectory :=
  if path = [47] ∨ path = [] then some { mFiles := fs.mFiles } else none

end Initrd

/-- `InitrdFile::read`: the bytes, and the file after that. -/
def InitrdFile.read (f : InitrdFile) (n : Nat) : List UInt8 × InitrdFile :=
  let n := if f.mSizeLeft < n then f.mSizeLeft else n
  (Bytes.block mem f.mPointer n, ⟨add32 f.mPointer n, f.mSizeLeft - n⟩)

/-- What reads of the given sizes return, one after the other. -/
def InitrdFile.readAll (f : InitrdFile) : List Nat → List UInt8
  | [] => []
  | n :: rest => (f.read mem n).1 ++ readAll (f.read mem n).2 rest

namespace InitrdDirectory

def next (d : InitrdDirectory) : Option (FileInfo × InitrdDirectory) :=
  if Bytes.word mem d.mFiles 4 ≤ d.mIndex then none
  else
    let f := Initrd.fileAt d.mFiles d.mIndex
    some (⟨Bytes.string mem f gMaxPathSize, Bytes.word mem (f + 64) 4,
      Bytes.word mem (f + 72) 8⟩, { d with mIndex := d.mIndex + 1 })

/-- One entry less is left after `next`. -/
theorem next_lt {d d' : InitrdDirectory} {info : FileInfo} (h : d.next mem = some (info, d')) :
    Bytes.word mem d'.mFiles 4 - d'.mIndex < Bytes.word mem d.mFiles 4 - d.mIndex := by
  obtain ⟨_, h⟩ := Option.ite_none_left_eq_some.1 h
  rw [← (Prod.mk.inj (Option.some.inj h)).2]
  show Bytes.word mem d.mFiles 4 - (d.mIndex + 1) < _
  omega

/-- What `next` returns until it returns nothing. -/
def listing (d : InitrdDirectory) : List FileInfo :=
  match _hnext : d.next mem with
  | none => []
  | some (info, d') => info :: listing d'
termination_by Bytes.word mem d.mFiles 4 - d.mIndex
decreasing_by exact next_lt mem _hnext

end InitrdDirectory

end Kernel

-- ==== what the image is for

namespace Gen

/-- The image stands in memory, below the top of the address space. -/
def Loaded (mem : Nat → UInt8) (base : Nat) (bytes : List UInt8) : Prop :=
  Bytes.Holds mem base bytes ∧ base + bytes.length < 0x100000000

/-- The filesystem gives every file back under its base name, however it is
read, and lists every base name once. -/
def RoundTrip (mem : Nat → UInt8) (base : Nat) (files : List InputFile) :
    Prop :=
  ∃ fs, Initrd.tryget mem base = some fs ∧ (∀ f ∈ files, ∀ mode, mode &&& Initrd.gWriteModes = 0 →
      ∃ file, fs.doOpen mem f.name mode = some file ∧
        ∀ sizes, file.readAll mem sizes = f.content.take sizes.sum) ∧
    ∃ d, fs.doOpendir [] = some d ∧
      ∀ f ∈ files, ((d.listing mem).map FileInfo.name).count f.name = 1

/-- An entry of the table. -/
structure Entry where
  file : InputFile
  offset : Nat
  time : Fin gTimeLimit

/-- The entries for the files from the `i`-th on. -/
def table (unixnow : Nat → Fin gTimeLimit) (offset i : Nat) : List InputFile → List Entry
  | [] => []
  | f :: rest => ⟨f, offset, unixnow i⟩ :: table unixnow (offset + f.size) (i + 1) rest

/-- What the kernel takes for the name in an entry. A name that fills its
field goes on with the bytes of the numbers after it, up to a zero. -/
def Entry.storedName (e : Entry) : List UInt8 :=
  if e.file.name.length < gNameSize then e.file.name
  else e.file.name.take gNameSize ++ (leBytes 4 e.file.size ++
    (leBytes 4 e.offset ++ leBytes 8 e.time)).takeWhile (· ≠ 0)

/-- Every base name is what the kernel takes for the name in one entry, and
in no other, and the contents there are the file's. -/
def NamesKept (unixnow : Nat → Fin gTimeLimit) (files : List InputFile) :
    Prop :=
  ∀ f ∈ files, ∃ e, ((table unixnow 5140 0 files).filter fun e =>
      decide (e.storedName = f.name)) = [e] ∧ e.file.content = f.content

end Gen

end Puppy.Fs
