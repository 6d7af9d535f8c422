/-
Mounts (src/fs/vfs.cpp, src/fs/filesystem.cpp, src/fs/fatfs/trymount.cpp).

The VFS has a list of mount entries. A volume that is mounted for the first
time gets a filesystem, and every further mount of it is an alias: another
entry with the same filesystem. A filesystem counts its entries
(`mRefcount`) and the objects that were opened from it and are not closed
(`mOpenObjcts`). `unmount` decides from the two whether it may take an
entry away, and deletes the filesystem with the last one.

# What is modelled

Filesystems are numbered in the order they are made, and a number is not
used again; a reference to a deleted filesystem is a `fault`. So are
objects. What the disk has in its first sector, and whether a path names
something in its filesystem, come in with the action.

Every entry of the list and every open object takes some of the kernel's
heap, which has room for fewer than 2^28 of either. The directory of the
mounts (the one at /) belongs to a filesystem that is in no entry.

The table of the filesystem types is searched up to an entry that is not
there (its last one has the type 0xFF instead of 0), so a volume that
nothing can mount lets the search run past its end.
-/
import Puppy.Lib.Machine
import Puppy.Libc.KeyedStore

namespace Puppy.Fs

open Lib Libc Function

-- ==== what there is

/-- `Volume`, as far as mounting goes. -/
structure VolumeInfo where
  id : Nat
  sysid : UInt8
  deriving DecidableEq, Repr

/-- `Filesystem`, with the volume of a `FATFileSystem`. -/
structure Filesystem where
  volume : Option VolumeInfo
  mRefcount : Nat := 1
  mOpenObjcts : Nat := 0
  deriving DecidableEq, Repr

/-- `mount_t`. -/
structure Mount where
  path : CString
  volume : Option VolumeInfo
  fs : Nat
  deriving DecidableEq, Repr

/-- A `FilesystemObject` that is open. -/
structure OpenObject where
  id : Nat
  fs : Nat
  mRefcount : Nat := 1
  deriving DecidableEq, Repr

structure VFS where
  mMounts : List Mount
  /-- The filesystems that exist. -/
  filesystems : Nat → Option Filesystem
  /-- How many there have been. -/
  made : Nat
  objects : List OpenObject
  /-- How many objects have been opened. -/
  opened : Nat
  /-- The counter of `gNextId`. -/
  gId : Nat

def gVFSFilesystem : Nat := 0

/-- The types of `gKnownFilesystemTypes`, and whether there is a function
that mounts them. -/
def gKnownFilesystemTypes : List (UInt8 × Bool) :=
  [(0x00, false), (0x01, false), (0x04, true), (0x05, false), (0x06, true),
   (0x07, false), (0x0B, true), (0x0C, true), (0x0E, false), (0x0F, false),
   (0x3C, false), (0x42, false), (0x82, false), (0x83, false), (0x84, false),
   (0x8E, false), (0xA8, false), (0xAB, false), (0xAF, false), (0xEE, false),
   (0xEF, false), (0xFA, false), (0xFB, false), (0xFC, false), (0xFF, false)]

namespace Filesystem

/-- `incref`, which stops at the largest count. -/
def incref (fs : Filesystem) : Filesystem :=
  { fs with
    mRefcount := if fs.mRefcount = 0xFFFFFFFF then fs.mRefcount
      else fs.mRefcount + 1 }

def decref (fs : Filesystem) : Filesystem :=
  { fs with mRefcount := fs.mRefcount - 1 }

def openObject (fs : Filesystem) : Filesystem :=
  { fs with mOpenObjcts := (fs.mOpenObjcts + 1) % 2 ^ 64 }

def closeObject (fs : Filesystem) : Except Panic Filesystem :=
  if fs.mOpenObjcts = 0 then .error .vfsCorrupt
  else .ok { fs with mOpenObjcts := fs.mOpenObjcts - 1 }

end Filesystem

/-- The entry is for the path, which goes on with a slash or not at
all. -/
def Mount.covers (m : Mount) (root : CString) : Bool :=
  m.path.isPrefixOf root && match root.drop m.path.length with
    | [] => true
    | c :: _ => c == 47

namespace VFS

def deref (s : VFS) (f : Nat) : Except Panic Filesystem :=
  match s.filesystems f with
  | some fs => .ok fs
  | none => .error .fault

def setFs (s : VFS) (f : Nat) (fs : Option Filesystem) : VFS :=
  { s with filesystems := update s.filesystems f fs }

-- ==== mounting

/-- A new node in the list. -/
def addMount (s : VFS) (m : Mount) : Except Panic VFS :=
  if s.mMounts.length + 1 < 0x10000000 then
    .ok { s with mMounts := s.mMounts ++ [m] }
  else .error .heapExhausted

/-- `mount`, for a filesystem that has just been made. -/
def mountFs (s : VFS) (path : CString) (volume : Option VolumeInfo) : Except Panic VFS :=
  addMount
    { s with
      filesystems := update s.filesystems s.made (some { volume := volume })
      made := s.made + 1 }
    { path := stripSlash path, volume := volume, fs := s.made }

def findMountInfo (s : VFS) (vol : VolumeInfo) : Option Mount :=
  s.mMounts.find? fun m => decide (m.volume = some vol)

/-- One of the signatures of `fatfs_trymount` is right. -/
def hasSignature (sector : List UInt8) : Bool :=
  [sector.getD 38 0, sector.getD 66 0].any fun b => b == 0x28 || b == 0x29

/-- `fatfs_trymount`, with the first sector of the volume if it can be
read. -/
def fatfsTrymount (s : VFS) (vol : VolumeInfo) (path : CString)
    (sector : Option (List UInt8)) : Except Panic VFS :=
  match sector with
  | none => .ok s
  | some bytes =>
    if hasSignature bytes then
      -- the constructor takes a drive number
      if s.gId = 10 then .error .tooManyFat
      else mountFs { s with gId := s.gId + 1 } path (some vol)
    else .ok s

def doMountVolume (s : VFS) (vol : VolumeInfo) (path : CString)
    (sector : Option (List UInt8)) : Except Panic VFS :=
  if gKnownFilesystemTypes.any fun t => t.1 == vol.sysid && t.2 then
    s.fatfsTrymount vol path sector
  else .error .outOfBounds

/-- `mount`, for a volume. -/
def mount (s : VFS) (vol : VolumeInfo) (path : CString)
    (sector : Option (List UInt8)) : Except Panic VFS :=
  match s.findMountInfo vol with
  | none => s.doMountVolume vol path sector
  | some previous => do
    let fs ← s.deref previous.fs
    (s.setFs previous.fs (some fs.incref)).addMount
      { path := path, volume := some vol, fs := previous.fs }

def unmount (s : VFS) (path : CString) : Except Panic VFS :=
  match s.mMounts.find? fun m => decide (m.path = stripSlash path) with
  | none => .ok s
  | some m => do
    let fs ← s.deref m.fs
    let unmountable := 1 < fs.mRefcount ∨
      (fs.mRefcount = 1 ∧ fs.mOpenObjcts = 0)
    if ¬ unmountable then .ok s
    else
      let left := if fs.decref.mRefcount = 0 then none else some fs.decref
      .ok { s.setFs m.fs left with mMounts := s.mMounts.erase m }

-- ==== opening and closing

/-- `isAbsolutePath`: a slash at the start, and none in front of a dot. -/
def isAbsolutePath (path : CString) : Bool :=
  [47].isPrefixOf path &&
    !path.tails.any fun rest => [47, 46].isPrefixOf rest

/-- `getfs`: the filesystem, and the rest of the path. -/
def getfs (s : VFS) (root : CString) : Option (Nat × CString) :=
  if root = [] then none
  else
    (s.mMounts.find? fun m => m.covers (stripSlash root)).map fun m =>
      (m.fs, (stripSlash root).drop m.path.length)

/-- `Filesystem::open` and `Filesystem::opendir`. -/
def openIn (s : VFS) (f : Nat) (found : Bool) : Except Panic VFS := do
  let fs ← s.deref f
  if !found then .ok s
  else if s.objects.length + 1 < 0x10000000 then
    .ok { s.setFs f (some fs.openObject) with
      objects := { id := s.opened, fs := f } :: s.objects
      opened := s.opened + 1 }
  else .error .heapExhausted

/-- `open`. -/
def openPath (s : VFS) (path : CString) (found : Bool) : Except Panic VFS :=
  if !isAbsolutePath path then .ok s
  else
    match s.getfs path with
    | none => .ok s
    | some (f, _) => s.openIn f found

def opendir (s : VFS) (path : CString) (found : Bool) : Except Panic VFS :=
  if !isAbsolutePath path then .ok s
  else if path = [47] then s.openIn gVFSFilesystem true
  else
    match s.getfs (stripSlash path) with
    | none => .ok s
    | some (f, _) => s.openIn f found

def findObject (s : VFS) (o : Nat) : Option OpenObject :=
  s.objects.find? fun object => decide (object.id = o)

/-- `FilesystemObject::incref`, when a handle is copied. -/
def share (s : VFS) (o : Nat) : Except Panic VFS :=
  match s.findObject o with
  | none => .error .disabled
  | some object =>
    let wanted := if object.mRefcount = 0xFFFFFFFF then object.mRefcount
      else object.mRefcount + 1
    .ok { s with
      objects := { object with mRefcount := wanted } :: s.objects.erase object }

/-- `Filesystem::close`. -/
def close (s : VFS) (o : Nat) : Except Panic VFS :=
  match s.findObject o with
  | none => .error .disabled
  | some object => do
    let fs ← s.deref object.fs
    if object.mRefcount - 1 = 0 then do
      let fs ← fs.closeObject
      .ok { s.setFs object.fs (some fs) with
        objects := s.objects.erase object }
    else
      .ok { s with
        objects := { object with mRefcount := object.mRefcount - 1 } :: s.objects.erase object }

end VFS

-- ==== in any order

inductive MountAction where
  /-- The kernel mounts a filesystem of its own at boot. -/
  | mountFs (path : CString)
  | mount (vol : VolumeInfo) (path : CString) (sector : Option (List UInt8))
  | unmount (path : CString)
  | openPath (path : CString) (found : Bool)
  | opendir (path : CString) (found : Bool)
  | share (o : Nat)
  | close (o : Nat)
  deriving DecidableEq, Repr

namespace VFS

def step : MountAction → VFS → Except Panic VFS
  | .mountFs path, s => s.mountFs path none
  | .mount vol path sector, s => s.mount vol path sector
  | .unmount path, s => s.unmount path
  | .openPath path found, s => s.openPath path found
  | .opendir path found, s => s.opendir path found
  | .share o, s => s.share o
  | .close o, s => s.close o

/-- Nothing is mounted yet. -/
def initial : VFS :=
  { mMounts := []
    filesystems := update (fun _ => none) gVFSFilesystem (some { volume := none })
    made := 1
    objects := []
    opened := 0
    gId := 0 }

end VFS

def mountSystem : Machine VFS MountAction Panic where
  boot s := s = VFS.initial
  step := VFS.step

-- ==== what is asked of the counts

namespace VFS

/-- The number of mount entries that name a filesystem. -/
def entries (s : VFS) (f : Nat) : Nat :=
  s.mMounts.countP fun m => decide (m.fs = f)

/-- The number of its open objects. -/
def openObjects (s : VFS) (f : Nat) : Nat :=
  s.objects.countP fun o => decide (o.fs = f)

/-- A filesystem of a volume counts its mount entries. -/
def CountsEntries (s : VFS) : Prop :=
  ∀ f fs, s.filesystems f = some fs → fs.volume.isSome = true → fs.mRefcount = s.entries f

/-- What is open, and what is mounted, has its filesystem. -/
def InUse (s : VFS) : Prop :=
  (∀ o ∈ s.objects, (s.filesystems o.fs).isSome = true) ∧
    ∀ m ∈ s.mMounts, (s.filesystems m.fs).isSome = true

/-- A step deletes a filesystem only together with its last mount entry,
and only when none of its objects is open. -/
def DeletesUnused (s : VFS) : Prop :=
  ∀ a s' f, step a s = .ok s' → (s.filesystems f).isSome = true → s'.filesystems f = none →
    s.entries f = 1 ∧ s'.entries f = 0 ∧ s.openObjects f = 0

/-- No step refers to a filesystem that is gone, or finds the counts of
open objects wrong. -/
def Sane (s : VFS) : Prop :=
  ∀ a, step a s ≠ .error .fault ∧ step a s ≠ .error .vfsCorrupt

end VFS

-- ==== looking a path up

/-- The first component of a path that has no slash in front. -/
def component (path : CString) : CString := path.takeWhile (· ≠ 47)

namespace VFS

/-- `printf` of a `buffer`, with `%.*s`. It tells the bounded print that
there is room for one character less than there is, and that one keeps one
less again, for the NUL. -/
def bufferPrint (size precision : Nat) (text : CString) : CString :=
  (text.take precision).take (size - 1 - 1)

def fsForPath (s : VFS) (path : CString) : Option Nat :=
  if path = [] then none
  else
    let path_len := (component (stripSlash path)).length
    let buf := bufferPrint (path_len + 2) (path_len + 1) (stripSlash path)
    (s.mMounts.find? fun m => decide (m.path = buf)).map Mount.fs

end VFS

end Puppy.Fs
