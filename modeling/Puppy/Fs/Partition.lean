/-
Partitions (src/fs/vol/partition.cpp, src/fs/vol/scanner.cpp).

The volumes of a disk are made from the four entries of its table. A
partition compares a sector with its size and then adds the sector it
begins at, both as the table has them, in 32 bits. An entry that goes
beyond the last 32-bit number of a sector therefore has its last sectors
at the start of the disk, where the table itself is.

The cache in front of a volume decides which sectors of a call reach the
disk. It has no part in the argument: what one access keeps, any number of
them keeps (`Driver.run_keeps`). What a call leaves in its buffer is left
out.
-/
import Puppy.Fs.Volume

namespace Puppy.Fs

open Libc

-- ==== volumes of any kind

/-- What a kind of volume overrides, for one sector. -/
structure Driver (D : Type) where
  doRead : D → Nat → Option Sector × D
  doWrite : D → Nat → Sector → Bool × D

/-- The loop of `Volume::read` and `Volume::write`, up to the first sector
that fails. -/
def sweep {V A : Type} (access : Nat → A → V → Bool × V) : Nat → List A → V → V
  | _, [], v => v
  | sector, a :: rest, v =>
    match access sector a v with
    | (false, v) => v
    | (true, v) => sweep access (add32 sector 1) rest v

theorem sweep_keeps {V A : Type} {access : Nat → A → V → Bool × V}
    {P : V → Prop} (h : ∀ sector a v, P v → P (access sector a v).2) :
    ∀ (l : List A) (sector : Nat) (v : V), P v → P (sweep access sector l v) := by
  intro l
  induction l with
  | nil => exact fun _ _ hv => hv
  | cons a rest ih =>
    intro sector v hv
    have hnext := h sector a v hv
    unfold sweep
    split <;> simp_all

namespace Driver

variable {D : Type} (driver : Driver D)

/-- `Volume::tryReadSector`. -/
def tryReadSector (sector : Nat) (_ : Unit) (v : D × LRUCache Sector gCacheSize) :
    Bool × D × LRUCache Sector gCacheSize :=
  match v.2.find sector with
  | (some _, mCache) => (true, v.1, mCache)
  | (none, mCache) =>
    match driver.doRead v.1 sector with
    | (none, d) => (false, d, mCache)
    | (some payload, d) => (true, d, mCache.insert sector payload)

/-- `Volume::tryWriteSector`. -/
def tryWriteSector (sector : Nat) (buffer : Sector) (v : D × LRUCache Sector gCacheSize) :
    Bool × D × LRUCache Sector gCacheSize :=
  match driver.doWrite v.1 sector buffer with
  | (false, d) => (false, d, v.2)
  | (true, d) => (true, d, v.2.insert sector buffer)

/-- `Volume::read` and `Volume::write`. -/
def perform (v : D × LRUCache Sector gCacheSize) : VolumeAction → D × LRUCache Sector gCacheSize
  | .read sector count => sweep driver.tryReadSector sector.toNat (.replicate count.toNat ()) v
  | .write sector buffer => sweep driver.tryWriteSector sector.toNat buffer v

/-- Calls one after the other, on a new volume. -/
def run (d : D) (calls : List VolumeAction) : D :=
  (calls.foldl driver.perform (d, {})).1

/-- What the driver keeps, all calls keep. -/
theorem run_keeps {driver : Driver D} {P : D → Prop}
    (hread : ∀ d sector, P d → P (driver.doRead d sector).2)
    (hwrite : ∀ d sector buffer, P d → P (driver.doWrite d sector buffer).2)
    {d : D} (h : P d) (calls : List VolumeAction) :
    P (driver.run d calls) := by
  have hstep : ∀ (calls : List VolumeAction) v, P v.1 → P (calls.foldl driver.perform v).1 := by
    intro calls
    induction calls with
    | nil => exact fun _ hv => hv
    | cons a rest ih =>
      intro v hv
      refine ih _ ?_
      cases a with
      | read sector count =>
        refine sweep_keeps (P := fun v => P v.1) ?_ _ _ v hv
        intro sector _ v hv
        have hdo := hread v.1 sector hv
        unfold tryReadSector
        split
        · exact hv
        · split <;> simp_all
      | write sector buffer =>
        refine sweep_keeps (P := fun v => P v.1) ?_ _ _ v hv
        intro sector buffer v hv
        have hdo := hwrite v.1 sector buffer hv
        unfold tryWriteSector
        split <;> simp_all
  exact hstep calls (d, {}) h

end Driver

-- ==== the partition

/-- `diskpart_t`. -/
structure Diskpart where
  sysid : UInt8
  sector : UInt32
  size : UInt32
  deriving DecidableEq

/-- A disk, and which of its sectors have been moved from or to it. -/
structure Disk where
  device : Device
  transferred : List Nat := []

namespace Disk

/-- `Disk::read`, of one sector. -/
def read (disk : Disk) (sector : Nat) : Option Sector × Disk :=
  match disk.device.doRead sector with
  | (none, device) => (none, { disk with device })
  | (some payload, device) => (some payload, ⟨device, sector :: disk.transferred⟩)

/-- `Disk::write`, of one sector. -/
def write (disk : Disk) (sector : Nat) (buffer : Sector) : Bool × Disk :=
  match disk.device.doWrite sector buffer with
  | (false, device) => (false, { disk with device })
  | (true, device) => (true, ⟨device, sector :: disk.transferred⟩)

end Disk

namespace Diskpart

/-- `Partition::doRead` and `Partition::doWrite`. -/
def driver (mPartition : Diskpart) : Driver Disk where
  doRead mDisk sector :=
    if mPartition.size.toNat ≤ sector then (none, mDisk)
    else mDisk.read (add32 sector mPartition.sector.toNat)
  doWrite mDisk sector buffer :=
    if mPartition.size.toNat ≤ sector then (false, mDisk)
    else mDisk.write (add32 sector mPartition.sector.toNat) buffer

/-- The sectors of the disk that are the partition's. -/
def Has (part : Diskpart) (s : Nat) : Prop :=
  part.sector.toNat ≤ s ∧ s < part.sector.toNat + part.size.toNat

/-- Only sectors of the partition have been moved since the disk had this
on it, and no others have changed. -/
def Spares (part : Diskpart) (medium : Nat → Sector) (disk : Disk) : Prop :=
  (∀ s ∈ disk.transferred, part.Has s) ∧ ∀ s, ¬ part.Has s → disk.device.medium s = medium s

/-- Whatever is read and written through the partition's volume. -/
def Isolated (part : Diskpart) : Prop :=
  ∀ (device : Device) (calls : List VolumeAction),
    part.Spares device.medium (part.driver.run { device } calls)

/-- The partition ends where 32-bit numbers of sectors do, or before. -/
def Fits (part : Diskpart) : Prop :=
  part.sector.toNat + part.size.toNat ≤ 0x100000000

variable {part : Diskpart} {medium : Nat → Sector} {disk : Disk} {s : Nat}

theorem Spares.read (h : part.Spares medium disk) (hs : part.Has s) :
    part.Spares medium (disk.read s).2 := by
  unfold Spares at *
  cases hfails : disk.device.fails disk.device.accesses <;> simp_all [Disk.read, Device.doRead]

theorem Spares.write (h : part.Spares medium disk) (hs : part.Has s)
    (buffer : Sector) : part.Spares medium (disk.write s buffer).2 := by
  have hother : ∀ s', ¬ part.Has s' → s' ≠ s := by
    rintro s' hs' rfl
    exact hs' hs
  unfold Spares at *
  cases hfails : disk.device.fails disk.device.accesses <;> simp_all [Disk.write, Device.doWrite]

theorem Fits.has (h : part.Fits) (hs : ¬ part.size.toNat ≤ s) :
    part.Has (add32 s part.sector.toNat) := by
  unfold Fits at h
  rw [add32_of_lt (by omega)]
  exact ⟨by omega, by omega⟩

theorem Fits.isolated (h : part.Fits) : part.Isolated := by
  intro device calls
  refine Driver.run_keeps ?_ ?_ ⟨by simp, fun _ _ => rfl⟩ calls
  · intro disk sector hdisk
    unfold driver
    dsimp only
    split
    · exact hdisk
    next hs => exact hdisk.read (h.has hs)
  intro disk sector buffer hdisk
  unfold driver
  dsimp only
  split
  · exact hdisk
  next hs => exact hdisk.write (h.has hs) buffer

/-- The sector that would be number `2 ^ 32` of the disk is number 0. -/
theorem Isolated.fits (h : part.Isolated) : part.Fits := by
  by_contra hfits
  have hstart := part.sector.toNat_lt
  have hsize := part.size.toNat_lt
  unfold Fits at hfits
  obtain ⟨n, hn⟩ : ∃ n : UInt32, n.toNat + part.sector.toNat = 0x100000000 := by
    refine ⟨.ofNatLT (0x100000000 - part.sector.toNat) ?_, ?_⟩
    · show _ < 2 ^ 32
      omega
    · rw [UInt32.toNat_ofNatLT]
      omega
  have hmoved : ¬ part.size.toNat ≤ n.toNat := by omega
  have hspares := h ⟨fun _ => .replicate gSectorSize 0, fun _ => false, 0⟩
    [.write n [.replicate gSectorSize 0]]
  simp [Driver.run, Driver.perform, sweep, Driver.tryWriteSector, driver,
    Disk.write, Device.doWrite, Spares, Has, hmoved, add32, hn] at hspares
  omega

end Diskpart

-- ==== the table

/-- The entries of `x86_mbr_t`. -/
structure X86Mbr where
  partition0 : Diskpart
  partition1 : Diskpart
  partition2 : Diskpart
  partition3 : Diskpart

/-- `DiskScanner::scan`: the entries a volume is made from. `known` are the
numbers that the search in `gKnownFilesystemTypes` finds. The last entry of
that table is not the one that the search stops at, so what it finds for a
number the table does not have depends on what lies behind it. -/
def X86Mbr.scan (mbr : X86Mbr) (known : UInt8 → Bool) : List Diskpart :=
  [mbr.partition0, mbr.partition1, mbr.partition2, mbr.partition3].filter
    fun dp => !(dp.sysid == 0 || dp.size == 0) && known dp.sysid

/-- Every volume of a disk keeps to its partition, whatever is read and
written through it, exactly when no entry that a volume is made from goes
beyond the last 32-bit number of a sector. -/
theorem X86Mbr.isolated_iff_fits (mbr : X86Mbr) (known : UInt8 → Bool) :
    (∀ part ∈ mbr.scan known, part.Isolated) ↔ ∀ part ∈ mbr.scan known, part.Fits :=
  ⟨fun h part hpart => (h part hpart).fits, fun h part hpart => (h part hpart).isolated⟩

/-- A partition that begins at the last sector and has two: sector 1 of it
is sector 0 of the disk, and a write to it replaces the table. -/
theorem X86Mbr.scan_beyond_last : let part : Diskpart := ⟨0x0C, 0xFFFFFFFF, 2⟩
    let empty : Diskpart := ⟨0, 0, 0⟩
    let blank : Sector := .replicate gSectorSize 0
    let written : Sector := .replicate gSectorSize 0xAA
    let disk := part.driver.run
      { device := { medium := fun _ => blank, fails := fun _ => false } }
      [.write 1 [written]]
    part ∈ X86Mbr.scan ⟨part, empty, empty, empty⟩ (· == 0x0C) ∧
      disk.transferred = [0] ∧ disk.device.medium 0 = written ∧
      ¬ part.Isolated := by
  refine ⟨by decide +kernel, by decide +kernel, rfl, ?_⟩
  intro h
  have hfits := h.fits
  unfold Diskpart.Fits at hfits
  exact absurd hfits (by decide)

end Puppy.Fs
