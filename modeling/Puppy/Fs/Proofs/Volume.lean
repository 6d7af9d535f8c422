/-
Nobody can tell that there is a cache.

What the cache has for a sector is what the disk has (`Coherent`). A read
that finds its sector in the cache then returns what the disk would, one
that does not returns what the disk has and keeps that, and a write that
succeeds replaces both. A failure touches neither, and where it happens
among the sectors of a call makes no difference, because each sector is
done before the next is begun.

Which sectors the cache forgets does not enter: erasing an entry takes
nothing from a statement about all entries.
-/
import Puppy.Fs.Volume

namespace Puppy.Fs

open Lib Libc Function Machine

-- ==== the cache

namespace LRUCache

variable {SectorData : Type} {gCacheSize : Nat}

/-- What the cache has is so. -/
def Agrees (c : LRUCache SectorData gCacheSize) (medium : Nat → SectorData) :
    Prop :=
  ∀ sid data, c.mHash.find sid = some data → data = medium sid

variable {c : LRUCache SectorData gCacheSize} {medium : Nat → SectorData}

theorem agrees_empty : ({} : LRUCache SectorData gCacheSize).Agrees medium := by
  intro sid data h
  cases h

/-- Looking a sector up changes only the order. -/
theorem find_mHash (c : LRUCache SectorData gCacheSize) (sid : Nat) :
    (c.find sid).2.mHash = c.mHash := by
  unfold find
  split
  · rfl
  · rfl

theorem find_fst (c : LRUCache SectorData gCacheSize) (sid : Nat) :
    (c.find sid).1 = c.mHash.find sid := by
  unfold find
  split
  next h => exact h.symm
  next h => exact h.symm

/-- To forget is not to be wrong. -/
theorem Agrees.evict (h : c.Agrees medium) : c.evict.Agrees medium := by
  unfold LRUCache.evict
  split
  · split
    next back _ =>
      intro sid data hfind
      have hfind : (c.mHash.erase back).find sid = some data := hfind
      rw [Hash.find_erase] at hfind
      obtain ⟨_, hfind⟩ := Option.ite_none_left_eq_some.1 hfind
      exact h sid data hfind
    · exact h
  · exact h

/-- An entry for what has just been written. -/
theorem Agrees.insert (h : c.Agrees medium) (sid : Nat) (value : SectorData) :
    (c.insert sid value).Agrees (update medium sid value) := by
  intro other data hfind
  have hfind : (c.evict.mHash.insert sid value).find other = some data := hfind
  rw [Hash.find_insert] at hfind
  split at hfind
  next heq =>
    injection hfind with hfind
    rw [heq, update_self, hfind]
  next hne =>
  rw [update_of_ne hne]
  exact h.evict other data hfind

end LRUCache

-- ==== one sector

namespace Volume

/-- The cache and the disk agree. -/
def Coherent (v : Volume) : Prop := v.mCache.Agrees v.device.medium

variable {v : Volume}

/-- Reading one sector: the disk stays as it is, and so it is what was
read. -/
theorem Coherent.tryReadSector (h : v.Coherent) (sector : Nat) :
    (v.tryReadSector sector).2.Coherent ∧
      (v.tryReadSector sector).2.device.medium = v.device.medium ∧
      ∀ payload, (v.tryReadSector sector).1 = some payload → payload = v.device.medium sector := by
  have hmHash := v.mCache.find_mHash sector
  have hfst := v.mCache.find_fst sector
  have hfound : (v.mCache.find sector).2.Agrees v.device.medium := by
    unfold LRUCache.Agrees
    rw [hmHash]
    exact h
  unfold Volume.tryReadSector Device.doRead
  cases hfind : v.mCache.find sector with
  | mk found mCache =>
    rw [hfind] at hfst hfound
    cases found with
    | some payload =>
      refine ⟨hfound, rfl, ?_⟩
      intro payload' heq
      cases heq
      exact h sector payload hfst.symm
    | none =>
      dsimp only
      split
      next device heq =>
        split at heq
        · cases heq
          refine ⟨hfound, rfl, ?_⟩
          intro payload hnone
          cases hnone
        · cases heq
      next payload device heq =>
      split at heq
      · cases heq
      cases heq
      refine ⟨?_, rfl, ?_⟩
      · have hinsert := hfound.insert sector (v.device.medium sector)
        rw [update_eq_self] at hinsert
        exact hinsert
      · intro payload' heq
        injection heq with heq
        exact heq.symm

/-- Writing one sector. -/
theorem Coherent.tryWriteSector (h : v.Coherent) (sector : Nat)
    (buffer : Sector) : (v.tryWriteSector sector buffer).2.Coherent := by
  unfold Volume.tryWriteSector Device.doWrite
  split
  next device heq =>
    split at heq
    · cases heq
      exact h
    · cases heq
  next device heq =>
  split at heq
  · cases heq
  · cases heq
    exact LRUCache.Agrees.insert h sector buffer

-- ==== many sectors

theorem contents_succ (d : Device) (sector count : Nat) : d.contents sector (count + 1) =
      (d.medium (add32 sector 0)).toList ++ d.contents (add32 sector 1) count := by
  unfold Device.contents
  rw [List.range_succ_eq_map, List.flatMap_cons, List.flatMap_map]
  congr 2
  funext i
  congr 2
  unfold add32
  omega

theorem contents_congr {d d' : Device} (h : d.medium = d'.medium)
    (sector count : Nat) : d.contents sector count = d'.contents sector count := by
  unfold Device.contents
  rw [h]

/-- Reading any number of sectors. -/
theorem Coherent.read : ∀ (count : Nat) {v : Volume}, v.Coherent →
    ∀ sector < 0x100000000, (v.read sector count).2.Coherent ∧
      (v.read sector count).2.device.medium = v.device.medium ∧
      ∀ bytes, (v.read sector count).1 = some bytes → bytes = v.device.contents sector count := by
  intro count
  induction count with
  | zero =>
    intro v h sector _
    refine ⟨h, rfl, ?_⟩
    intro bytes heq
    injection heq with heq
    exact heq.symm
  | succ count ih =>
    intro v h sector hsector
    obtain ⟨hcoherent, hmedium, hpayload⟩ := h.tryReadSector sector
    unfold Volume.read
    cases htry : v.tryReadSector sector with
    | mk found v₁ =>
      rw [htry] at hcoherent hmedium hpayload
      cases found with
      | none =>
        refine ⟨hcoherent, hmedium, ?_⟩
        intro bytes heq
        cases heq
      | some payload =>
        obtain ⟨hcoherent₂, hmedium₂, hrest⟩ :=
          ih (v := v₁.readAccounting 1) hcoherent (add32 sector 1) (Nat.mod_lt _ (by decide))
        dsimp only
        cases hread : (v₁.readAccounting 1).read (add32 sector 1) count with
        | mk found₂ v₂ =>
          rw [hread] at hcoherent₂ hmedium₂ hrest
          cases found₂ with
          | none =>
            refine ⟨hcoherent₂, hmedium₂.trans hmedium, ?_⟩
            intro bytes heq
            cases heq
          | some rest =>
            have hfirst : add32 sector 0 = sector := add32_of_lt hsector
            refine ⟨hcoherent₂, hmedium₂.trans hmedium, ?_⟩
            intro bytes heq
            cases heq
            rw [hpayload payload rfl, hrest rest rfl, contents_succ, hfirst]
            congr 1
            exact contents_congr hmedium _ _

/-- Writing any number of sectors, all of them or those before the first
failure. -/
theorem Coherent.write : ∀ (buffer : List Sector) {v : Volume}, v.Coherent →
    ∀ sector, (v.write sector buffer).2.Coherent := by
  intro buffer
  induction buffer with
  | nil =>
    intro v h sector
    exact h
  | cons payload buffer ih =>
    intro v h sector
    have hcoherent := h.tryWriteSector sector payload
    unfold Volume.write
    cases htry : v.tryWriteSector sector payload with
    | mk written v₁ =>
      rw [htry] at hcoherent
      cases written with
      | false => exact hcoherent
      | true => exact ih (v := v₁.writeAccounting 1) hcoherent _

-- ==== over whole runs

theorem coherent_of_reach (h : volumeSystem.Reach anyStep v) : v.Coherent := by
  refine Machine.Reach.invariant (I := Coherent) ?_ ?_ h
  · rintro v ⟨medium, fails, rfl⟩
    exact LRUCache.agrees_empty
  intro v v' a hcoherent _ hstep
  cases a with
  | read sector count =>
    exact of_ok hstep ((hcoherent.read count.toNat sector.toNat sector.toNat_lt).1)
  | write sector buffer =>
    exact of_ok hstep (hcoherent.write buffer sector.toNat)

/-- **The cache is transparent.** Whatever was read and written before, and
whichever accesses to the disk have failed, a read that succeeds returns
what is on the disk, which it leaves as it is. -/
theorem read_eq_contents (h : volumeSystem.Reach anyStep v) (sector : UInt32) (count : UInt16) :
    (v.read sector.toNat count.toNat).2.device.medium = v.device.medium ∧
      ∀ bytes, (v.read sector.toNat count.toNat).1 = some bytes →
        bytes = v.device.contents sector.toNat count.toNat :=
  ((coherent_of_reach h).read count.toNat sector.toNat sector.toNat_lt).2

/-- A disk full of zeroes whose second access fails. -/
def faultyDisk : Volume :=
  { device :=
      { medium := fun _ => Vector.replicate gSectorSize 0
        fails := fun n => n = 1 } }

/-- Of two sectors only the first gets written. Both are read back, the
first from the cache. -/
theorem read_eq_contents_faulty : ∃ v, volumeSystem.run [.write 7 [Vector.replicate gSectorSize 1,
      Vector.replicate gSectorSize 2]] faultyDisk = .ok v ∧
    (v.read 7 2).1 = some (List.replicate 512 1 ++ List.replicate 512 0) ∧
    List.replicate 512 1 ++ List.replicate 512 0 = v.device.contents 7 2 := by
  obtain ⟨v, hrun, hread⟩ := endsWith_iff.1
    (show volumeSystem.endsWith [.write 7 [Vector.replicate gSectorSize 1,
        Vector.replicate gSectorSize 2]] faultyDisk
      (fun v => (v.read 7 2).1 = some (List.replicate 512 1 ++ List.replicate 512 0)) = true
      by decide +kernel)
  have hread := of_decide_eq_true hread
  have hreach : volumeSystem.Reach anyStep v := reach_run ⟨_, _, rfl⟩ hrun
  exact ⟨v, hrun, hread, (read_eq_contents hreach 7 2).2 _ hread⟩

end Volume

end Puppy.Fs
