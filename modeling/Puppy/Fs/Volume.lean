/-
Sectors of a volume (src/fs/vol/volume.cpp, include/fs/vol/lru.h).

A volume reads and writes its disk by the sector, and keeps the sectors it
has seen last in a cache: a hash table with their contents, and a list with
their numbers in the order they were used. A full cache forgets the last
one of that list.

# The disk

What the disk does is up to the driver (`doRead`, `doWrite`). Here it has
contents, which a write that succeeds replaces and a read that succeeds
returns, and the accesses that fail are given by a function. A failed write
changes nothing, and nobody else writes.

`gCurrentProcess->iostats` is left out. The flags `tryReadCache` and
`updateCache` have one value in all calls.
-/
import Puppy.Lib.Machine
import Puppy.Libc.Hash
import Puppy.Libc.Word
import Puppy.Panic

namespace Puppy.Fs

open Lib Libc

-- ==== the cache

/-- `LRUCache`. The index of a sector is its number. -/
structure LRUCache (SectorData : Type) (gCacheSize : Nat) where
  /-- The numbers, the one used last in front. -/
  mData : List Nat := []
  mHash : Hash Nat SectorData id gCacheSize := .empty

namespace LRUCache

variable {SectorData : Type} {gCacheSize : Nat}

/-- `removeAll` of an `slist`. -/
def removeAll (mData : List Nat) (sid : Nat) : List Nat :=
  mData.filter (· ≠ sid)

def find (c : LRUCache SectorData gCacheSize) (sid : Nat) (update : Bool := true) :
    Option SectorData × LRUCache SectorData gCacheSize :=
  match c.mHash.find sid with
  | some data =>
    if update then
      (some data, { c with mData := sid :: removeAll c.mData sid })
    else (some data, c)
  | none => (none, c)

/-- The eviction at the start of `insert`. -/
def evict (c : LRUCache SectorData gCacheSize) : LRUCache SectorData gCacheSize :=
  if gCacheSize ≤ c.mData.length then
    match c.mData.getLast? with
    | some back => { mData := removeAll c.mData back, mHash := c.mHash.erase back }
    | none => c
  else c

def insert (c : LRUCache SectorData gCacheSize) (sid : Nat)
    (value : SectorData) : LRUCache SectorData gCacheSize :=
  let c := c.evict
  { mData := sid :: removeAll c.mData sid
    mHash := c.mHash.insert sid value }

end LRUCache

-- ==== the disk

/-- `LRUCache::gSectorSize`, which is what `sectorsize` answers too. -/
def gSectorSize : Nat := 512

/-- `LRUCache::gCacheSize`. -/
def gCacheSize : Nat := 512

abbrev Sector := Vector UInt8 gSectorSize

structure Device where
  medium : Nat → Sector
  /-- The accesses that fail. -/
  fails : Nat → Bool
  /-- How many there have been. -/
  accesses : Nat := 0

namespace Device

/-- `doRead`, of one sector. -/
def doRead (d : Device) (sector : Nat) : Option Sector × Device :=
  let d' := { d with accesses := d.accesses + 1 }
  if d.fails d.accesses then (none, d') else (some (d.medium sector), d')

/-- `doWrite`, of one sector. -/
def doWrite (d : Device) (sector : Nat) (buffer : Sector) : Bool × Device :=
  let d' := { d with accesses := d.accesses + 1 }
  if d.fails d.accesses then (false, d')
  else (true, { d' with medium := Function.update d.medium sector buffer })

end Device

-- ==== the volume

structure Volume where
  device : Device
  mCache : LRUCache Sector gCacheSize := {}
  mNumSectorsRead : Nat := 0
  mNumSectorsWritten : Nat := 0
  mNumSectorCacheHits : Nat := 0

namespace Volume

/-- `tryReadSector`: what it puts into the buffer, if it succeeds. -/
def tryReadSector (v : Volume) (sector : Nat) : Option Sector × Volume :=
  match v.mCache.find sector with
  | (some payload, mCache) =>
    (some payload, { v with mCache, mNumSectorCacheHits := v.mNumSectorCacheHits + 1 })
  | (none, mCache) =>
    match v.device.doRead sector with
    | (none, device) => (none, { v with device, mCache })
    | (some payload, device) =>
      (some payload, { v with device, mCache := mCache.insert sector payload })

def tryWriteSector (v : Volume) (sector : Nat) (buffer : Sector) : Bool × Volume :=
  match v.device.doWrite sector buffer with
  | (false, device) => (false, { v with device })
  | (true, device) => (true, { v with device, mCache := v.mCache.insert sector buffer })

def readAccounting (v : Volume) (sectors : Nat) : Volume :=
  { v with mNumSectorsRead := v.mNumSectorsRead + sectors }

def writeAccounting (v : Volume) (sectors : Nat) : Volume :=
  { v with mNumSectorsWritten := v.mNumSectorsWritten + sectors }

/-- `read`: the bytes in the buffer, if it succeeds. -/
def read (v : Volume) (sector : Nat) : Nat → Option (List UInt8) × Volume
  | 0 => (some [], v)
  | count + 1 =>
    match v.tryReadSector sector with
    | (none, v) => (none, v)
    | (some payload, v) =>
      match (v.readAccounting 1).read (add32 sector 1) count with
      | (none, v) => (none, v)
      | (some rest, v) => (some (payload.toList ++ rest), v)

/-- `write`, of a buffer that has one sector after the other. -/
def write (v : Volume) (sector : Nat) : List Sector → Bool × Volume
  | [] => (true, v)
  | payload :: buffer =>
    match v.tryWriteSector sector payload with
    | (false, v) => (false, v)
    | (true, v) => (v.writeAccounting 1).write (add32 sector 1) buffer

end Volume

/-- What is on the disk from a sector on: what a read of as many sectors
returns that goes to the disk for each of them and does not fail. -/
def Device.contents (d : Device) (sector count : Nat) : List UInt8 :=
  (List.range count).flatMap fun i => (d.medium (add32 sector i)).toList

inductive VolumeAction where
  | read (sector : UInt32) (count : UInt16)
  /-- The buffer has fewer than `2 ^ 16` sectors. -/
  | write (sector : UInt32) (buffer : List Sector)

/-- A volume that is used by nobody else, with a disk that has anything on
it and fails whenever it likes. -/
def volumeSystem : Machine Volume VolumeAction Panic where
  boot v := ∃ medium fails, v = { device := { medium, fails } }
  step
    | .read sector count, v => .ok (v.read sector.toNat count.toNat).2
    | .write sector buffer, v => .ok (v.write sector.toNat buffer).2

end Puppy.Fs
