/-
The counts of a filesystem are right, so it goes when it should.

`Balanced` is the whole argument: a filesystem that exists counts its mount
entries and its open objects, and no entry and no object refers to one that
does not exist. Every step changes a count together with the list it counts,
so the steps keep it (`Balanced.step`). The answer of `unmount` is then
about the lists and not about the counts, which is what the results say.
-/
import Puppy.Fs.Mount
import Puppy.Lib.Except

namespace Puppy.Fs.VFS

open Lib Libc Function List

variable {s s' t : VFS} {f g : Nat} {fs : Filesystem} {m : Mount}
  {object : OpenObject} {path : CString} {o n : Nat} {a : MountAction}

/-- How many entries the count of a filesystem stands for. The one that no
entry names is never given up. -/
def claimed (s : VFS) (f : Nat) : Nat :=
  s.entries f + if f = gVFSFilesystem then 1 else 0

/-- The counts are right. -/
structure Balanced (s : VFS) : Prop where
  refcount : ∀ f fs, s.filesystems f = some fs → fs.mRefcount = s.claimed f
  openObjcts : ∀ f fs, s.filesystems f = some fs → fs.mOpenObjcts = s.openObjects f
  mounts : ∀ m ∈ s.mMounts, (s.filesystems m.fs).isSome = true ∧ m.fs ≠ gVFSFilesystem
  objects : ∀ o ∈ s.objects, (s.filesystems o.fs).isSome = true
  root : ∃ fs, s.filesystems gVFSFilesystem = some fs ∧ fs.volume = none
  fresh : ∀ f, s.made ≤ f → s.filesystems f = none
  roomMounts : s.mMounts.length < 0x10000000
  roomObjects : s.objects.length < 0x10000000

-- ==== the lists

theorem entries_append (f : Nat) : { s with mMounts := s.mMounts ++ [m] }.entries f
      = s.entries f + if m.fs = f then 1 else 0 := by
  unfold entries
  rw [countP_append, countP_singleton]
  simp only [decide_eq_true_eq]

/-- An entry that is taken away. -/
theorem entries_erase (hm : m ∈ s.mMounts) (f : Nat) :
    s.entries f = (s.mMounts.erase m).countP (fun m => decide (m.fs = f))
      + if m.fs = f then 1 else 0 := by
  unfold entries
  rw [(perm_cons_erase hm).countP_eq, countP_cons]
  simp only [decide_eq_true_eq]

theorem openObjects_erase (ho : object ∈ s.objects) (f : Nat) : s.openObjects f
      = (s.objects.erase object).countP (fun o => decide (o.fs = f))
        + if object.fs = f then 1 else 0 := by
  unfold openObjects
  rw [(perm_cons_erase ho).countP_eq, countP_cons]
  simp only [decide_eq_true_eq]

theorem openObjects_pos (ho : object ∈ s.objects) : 0 < s.openObjects object.fs := by
  unfold openObjects
  rw [countP_pos_iff]
  exact ⟨object, ho, decide_eq_true rfl⟩

theorem findObject_mem (h : s.findObject o = some object) : object ∈ s.objects :=
  mem_of_find?_eq_some h

-- ==== one filesystem

theorem deref_eq (h : s.filesystems f = some fs) : s.deref f = .ok fs := by
  unfold deref
  rw [h]

theorem deref_ok (h : s.deref f = .ok fs) : s.filesystems f = some fs := by
  unfold deref at h
  split at h
  next fs' hfs =>
    injection h with h
    rw [hfs, h]
  · cases h

theorem setFs_self (o : Option Filesystem) : (s.setFs f o).filesystems f = o :=
  update_self _ _ _

theorem setFs_other (o : Option Filesystem) (hg : g ≠ f) :
    (s.setFs f o).filesystems g = s.filesystems g :=
  update_of_ne hg _ _

/-- Replacing a filesystem by another takes none away. -/
theorem isSome_setFs (hf : (s.filesystems g).isSome = true) :
    ((s.setFs f (some fs)).filesystems g).isSome = true := by
  by_cases hg : g = f
  · rw [hg, setFs_self]
    rfl
  · rw [setFs_other _ hg]
    exact hf

/-- Nothing refers to a filesystem that is not there. -/
theorem Balanced.unnamed (h : Balanced s) (hf : s.filesystems f = none) :
    s.entries f = 0 ∧ s.openObjects f = 0 := by
  refine ⟨countP_eq_zero.2 ?_, countP_eq_zero.2 ?_⟩
  · intro m hm hfs
    have hex := (h.mounts m hm).1
    rw [of_decide_eq_true hfs, hf] at hex
    cases hex
  intro o ho hfs
  have hex := h.objects o ho
  rw [of_decide_eq_true hfs, hf] at hex
  cases hex

namespace Balanced

theorem initial : Balanced VFS.initial := by
  have hroot : VFS.initial.filesystems gVFSFilesystem = some { volume := none } := by
    unfold VFS.initial
    dsimp only
    rw [update_self]
  have hother : ∀ f ≠ gVFSFilesystem, VFS.initial.filesystems f = none := by
    intro f hf
    unfold VFS.initial
    dsimp only
    rw [update_of_ne hf]
  have hfs : ∀ f fs, VFS.initial.filesystems f = some fs →
      f = gVFSFilesystem ∧ fs = { volume := none } := by
    intro f fs h
    unfold VFS.initial at h
    dsimp only at h
    rcases update_eq_some h with ⟨hf, h⟩ | ⟨_, h⟩
    · exact ⟨hf, (Option.some.inj h).symm⟩
    · cases h
  refine ⟨?_, ?_, nofun, nofun, ⟨_, hroot, rfl⟩, ?_, by decide, by decide⟩
  · intro f fs h
    obtain ⟨rfl, rfl⟩ := hfs f fs h
    rfl
  · intro f fs h
    obtain ⟨rfl, rfl⟩ := hfs f fs h
    rfl
  · intro f hf
    have hf : 1 ≤ f := hf
    exact hother f (by unfold gVFSFilesystem; omega)

-- ==== a filesystem that changes

/-- What a step may do to the two lists on account of one filesystem. -/
structure About (s : VFS) (f : Nat) (ms : List Mount)
    (os : List OpenObject) : Prop where
  entries : ∀ g ≠ f, ms.countP (fun m => decide (m.fs = g)) = s.entries g
  openObjects : ∀ g ≠ f, os.countP (fun o => decide (o.fs = g)) = s.openObjects g
  mounts : ∀ m ∈ ms, m ∈ s.mMounts ∨ m.fs = f ∧ f ≠ gVFSFilesystem
  objects : ∀ o ∈ os, o ∈ s.objects ∨ o.fs = f
  roomMounts : ms.length < 0x10000000
  roomObjects : os.length < 0x10000000

variable {fs' : Filesystem} {volume : Option VolumeInfo} {vol : VolumeInfo}
  {sector : Option (List UInt8)}

section

variable (h : Balanced s)
include h

/-- The counts of the filesystem follow the lists. -/
theorem replace {ms : List Mount} {os : List OpenObject}
    (hf : s.filesystems f = some fs) (habout : About s f ms os)
    (hvolume : fs'.volume = fs.volume) (hcount : fs'.mRefcount
      = ms.countP (fun m => decide (m.fs = f)) + if f = gVFSFilesystem then 1 else 0)
    (hopen : fs'.mOpenObjcts = os.countP (fun o => decide (o.fs = f))) :
    Balanced { s.setFs f (some fs') with
      mMounts := ms, objects := os, opened := n } := by
  have hkept : ∀ g, (s.filesystems g).isSome = true →
      ((s.setFs f (some fs')).filesystems g).isSome = true :=
    fun g hg => isSome_setFs hg
  have hself : ((s.setFs f (some fs')).filesystems f).isSome = true := by
    rw [setFs_self]
    rfl
  refine ⟨?_, ?_, ?_, ?_, ?_, ?_, habout.roomMounts, habout.roomObjects⟩
  · intro g fs₁ hg
    rcases update_eq_some hg with ⟨rfl, ⟨⟩⟩ | ⟨hgf, hg⟩
    · exact hcount
    · rw [h.refcount g fs₁ hg]
      exact congrArg (· + if g = gVFSFilesystem then 1 else 0) (habout.entries g hgf).symm
  · intro g fs₁ hg
    rcases update_eq_some hg with ⟨rfl, ⟨⟩⟩ | ⟨hgf, hg⟩
    · exact hopen
    · rw [h.openObjcts g fs₁ hg]
      exact (habout.openObjects g hgf).symm
  · intro m hm
    rcases habout.mounts m hm with hm | ⟨hm, hroot⟩
    · exact ⟨hkept _ (h.mounts m hm).1, (h.mounts m hm).2⟩
    · rw [hm]
      exact ⟨hself, hroot⟩
  · intro o ho
    rcases habout.objects o ho with ho | ho
    · exact hkept _ (h.objects o ho)
    · rw [ho]
      exact hself
  · obtain ⟨fs₁, hroot, hnone⟩ := h.root
    by_cases hgf : gVFSFilesystem = f
    · rw [hgf] at hroot ⊢
      rw [hf] at hroot
      refine ⟨fs', setFs_self _, hvolume.trans ?_⟩
      rw [Option.some.inj hroot]
      exact hnone
    · exact ⟨fs₁, (setFs_other _ hgf).trans hroot, hnone⟩
  · intro g hg
    have hgf : g ≠ f := (ne_of_entry hf (h.fresh g hg)).symm
    exact (setFs_other _ hgf).trans (h.fresh g hg)

-- ==== mounting

/-- A new filesystem with its first entry. -/
theorem mountFs (hs : VFS.mountFs { s with gId := n } path volume = .ok s') : Balanced s' := by
  unfold VFS.mountFs addMount at hs
  obtain ⟨hroom, hs⟩ := check_eq_ok.1 hs
  injection hs with hs
  have hnew : s.filesystems s.made = none := h.fresh s.made le_rfl
  obtain ⟨hnone, hnoObject⟩ := h.unnamed hnew
  have hold : ∀ g, (s.filesystems g).isSome = true → g ≠ s.made := by
    intro g hg hmade
    rw [hmade, hnew] at hg
    cases hg
  have hroot : s.made ≠ gVFSFilesystem := by
    obtain ⟨fs, hroot, _⟩ := h.root
    exact (hold _ (by rw [hroot]; rfl)).symm
  have hentries : ∀ g, s'.entries g = s.entries g + if s.made = g then 1 else 0 := by
    intro g
    rw [← hs]
    exact @entries_append s _ g
  subst hs
  refine ⟨?_, ?_, ?_, ?_, ?_, ?_, ?_, h.roomObjects⟩
  · intro g fs hg
    unfold claimed
    rw [hentries]
    rcases update_eq_some hg with ⟨hmade, hg⟩ | ⟨hmade, hg⟩
    · rw [hmade, ← Option.some.inj hg, hnone, if_pos rfl, if_neg hroot]
    · rw [h.refcount g fs hg, if_neg (Ne.symm hmade)]
      rfl
  · intro g fs hg
    rcases update_eq_some hg with ⟨rfl, ⟨⟩⟩ | ⟨_, hg⟩
    · exact hnoObject.symm
    · exact h.openObjcts g fs hg
  · intro m hm
    dsimp only at hm ⊢
    rcases mem_append.1 hm with hm | hm
    · obtain ⟨hex, hne⟩ := h.mounts m hm
      rw [update_of_ne (hold m.fs hex)]
      exact ⟨hex, hne⟩
    · rw [mem_singleton.1 hm, update_self]
      exact ⟨rfl, hroot⟩
  · intro o ho
    dsimp only at ho ⊢
    rw [update_of_ne (hold o.fs (h.objects o ho))]
    exact h.objects o ho
  · obtain ⟨fs, hfs, hvolume⟩ := h.root
    exact ⟨fs, (update_of_ne hroot.symm _ _).trans hfs, hvolume⟩
  · intro g hg
    dsimp only at hg ⊢
    rw [update_of_ne (by omega)]
    exact h.fresh g (by omega)
  · rw [length_append]
    exact hroom

/-- The first mount of a volume. -/
theorem doMountVolume (hs : s.doMountVolume vol path sector = .ok s') : Balanced s' := by
  obtain ⟨_, hs⟩ := check_eq_ok.1 hs
  unfold fatfsTrymount at hs
  split at hs
  · injection hs with hs
    exact hs ▸ h
  split at hs
  · obtain ⟨_, hs⟩ := reject_eq_ok.1 hs
    exact h.mountFs hs
  · injection hs with hs
    exact hs ▸ h

/-- An alias: one entry more, and one in the count. -/
theorem addAlias (hf : s.filesystems f = some fs) (hroot : f ≠ gVFSFilesystem)
    (hs : (s.setFs f (some fs.incref)).addMount ⟨path, volume, f⟩ = .ok s') :
    Balanced s' := by
  obtain ⟨hroom, hs⟩ := check_eq_ok.1 hs
  cases hs
  have hcount := h.refcount f fs hf
  have hlimit : s.entries f ≤ s.mMounts.length := countP_le_length
  have hsmall := h.roomMounts
  unfold claimed at hcount
  rw [if_neg hroot] at hcount
  refine h.replace hf (n := s.opened) ⟨?_, fun _ _ => rfl, ?_,
    fun o ho => .inl ho, ?_, h.roomObjects⟩ rfl ?_
    (h.openObjcts f fs hf)
  · intro g hg
    have happend := @entries_append s ⟨path, volume, f⟩ g
    rw [if_neg (Ne.symm hg)] at happend
    exact happend
  · intro m hm
    rcases mem_append.1 hm with hm | hm
    · exact .inl hm
    · rw [mem_singleton.1 hm]
      exact .inr ⟨rfl, hroot⟩
  · rw [length_append]
    exact hroom
  have happend := @entries_append s ⟨path, volume, f⟩ f
  rw [if_pos rfl] at happend
  rw [if_neg hroot]
  refine Eq.trans ?_ happend.symm
  show (if fs.mRefcount = 0xFFFFFFFF then _ else _) = _
  rw [if_neg (by omega), hcount]

theorem mount (hs : s.mount vol path sector = .ok s') : Balanced s' := by
  unfold VFS.mount at hs
  split at hs
  · exact h.doMountVolume hs
  next previous hfind =>
  obtain ⟨fs, hderef, hs⟩ := ok_bind hs
  have hprevious := h.mounts previous (mem_of_find?_eq_some hfind)
  exact h.addAlias (deref_ok hderef) hprevious.2 hs

-- ==== unmounting

/-- The last entry goes, with a filesystem that has no open objects. -/
theorem delete (hm : m ∈ s.mMounts) (hlast : s.entries m.fs = 1)
    (hunused : s.openObjects m.fs = 0) :
    Balanced { s.setFs m.fs none with mMounts := s.mMounts.erase m } := by
  have hnone : (s.mMounts.erase m).countP (fun x => decide (x.fs = m.fs)) = 0 := by
    have herase := entries_erase hm m.fs
    rw [if_pos rfl] at herase
    omega
  have hother : ∀ {g : Nat} {fs : Filesystem}, (s.setFs m.fs none).filesystems g = some fs →
        g ≠ m.fs ∧ s.filesystems g = some fs := by
    intro g fs hg
    rcases update_eq_some hg with ⟨_, ⟨⟩⟩ | hg
    · exact hg
  have hkept : ∀ {g : Nat}, (s.filesystems g).isSome = true → g ≠ m.fs →
      ((s.setFs m.fs none).filesystems g).isSome = true := by
    intro g hg hgf
    rw [setFs_other _ hgf]
    exact hg
  refine ⟨?_, ?_, ?_, ?_, ?_, ?_, ?_, h.roomObjects⟩
  · intro g fs hg
    obtain ⟨hgf, hg⟩ := hother hg
    have herase := entries_erase hm g
    rw [if_neg (Ne.symm hgf), add_zero] at herase
    rw [h.refcount g fs hg]
    exact congrArg (· + if g = gVFSFilesystem then 1 else 0) herase
  · intro g fs hg
    exact h.openObjcts g fs (hother hg).2
  · intro x hx
    obtain ⟨hex, hroot⟩ := h.mounts x (mem_of_mem_erase hx)
    refine ⟨hkept hex ?_, hroot⟩
    intro hsame
    exact countP_eq_zero.1 hnone x hx (decide_eq_true hsame)
  · intro o ho
    refine hkept (h.objects o ho) ?_
    intro hsame
    exact countP_eq_zero.1 hunused o ho (decide_eq_true hsame)
  · obtain ⟨fs, hroot, hvolume⟩ := h.root
    exact ⟨fs, (setFs_other _ (h.mounts m hm).2.symm).trans hroot, hvolume⟩
  · intro g hg
    have hgf : g ≠ m.fs := by
      rintro rfl
      have hex := (h.mounts m hm).1
      rw [h.fresh _ hg] at hex
      cases hex
    exact (setFs_other _ hgf).trans (h.fresh g hg)
  · exact lt_of_le_of_lt length_erase_le h.roomMounts

/-- One entry of several goes. -/
theorem forget (hm : m ∈ s.mMounts) (hf : s.filesystems m.fs = some fs) :
    Balanced { s.setFs m.fs (some fs.decref) with
      mMounts := s.mMounts.erase m } := by
  have hroot := (h.mounts m hm).2
  have hcount := h.refcount m.fs fs hf
  unfold claimed at hcount
  rw [if_neg hroot] at hcount
  refine h.replace hf (n := s.opened) ⟨?_, fun _ _ => rfl, ?_,
    fun o ho => .inl ho, ?_, h.roomObjects⟩ rfl ?_
    (h.openObjcts m.fs fs hf)
  · intro g hg
    have herase := entries_erase hm g
    rw [if_neg (Ne.symm hg), add_zero] at herase
    exact herase.symm
  · intro x hx
    exact .inl (mem_of_mem_erase hx)
  · exact lt_of_le_of_lt length_erase_le h.roomMounts
  have herase := entries_erase hm m.fs
  rw [if_pos rfl] at herase
  rw [if_neg hroot]
  show fs.mRefcount - 1 = _
  omega

/-- What `unmount` does: nothing, or it takes an entry away, and the
filesystem if that was the last and nothing is open. -/
theorem unmount_cases (hs : s.unmount path = .ok s') :
    s' = s ∨ ∃ m fs, m ∈ s.mMounts ∧ s.filesystems m.fs = some fs ∧
      ((s.entries m.fs = 1 ∧ s.openObjects m.fs = 0 ∧
          s' = { s.setFs m.fs none with mMounts := s.mMounts.erase m }) ∨
        s' = { s.setFs m.fs (some fs.decref) with
          mMounts := s.mMounts.erase m }) := by
  unfold VFS.unmount at hs
  split at hs
  · injection hs with hs
    exact .inl hs.symm
  next m hfind =>
  have hm := mem_of_find?_eq_some hfind
  obtain ⟨fs, hderef, hs⟩ := ok_bind hs
  have hf := deref_ok hderef
  dsimp only at hs
  split at hs
  · injection hs with hs
    exact .inl hs.symm
  next hallowed =>
  rw [not_not] at hallowed
  injection hs with hs
  refine .inr ⟨m, fs, hm, hf, ?_⟩
  by_cases hzero : fs.decref.mRefcount = 0
  · rw [if_pos hzero] at hs
    have hcount := h.refcount m.fs fs hf
    have hopen := h.openObjcts m.fs fs hf
    have hzero : fs.mRefcount - 1 = 0 := hzero
    unfold claimed at hcount
    rw [if_neg (h.mounts m hm).2] at hcount
    refine .inl ⟨by omega, ?_, hs.symm⟩
    rcases hallowed with hmany | ⟨_, hnone⟩
    · omega
    · rw [← hopen, hnone]
  · rw [if_neg hzero] at hs
    exact .inr hs.symm

theorem unmount (hs : s.unmount path = .ok s') : Balanced s' := by
  rcases h.unmount_cases hs with rfl | ⟨m, fs, hm, hf, hcase⟩
  · exact h
  · rcases hcase with ⟨hlast, hunused, rfl⟩ | rfl
    · exact h.delete hm hlast hunused
    · exact h.forget hm hf

-- ==== opening and closing

theorem openIn {found : Bool} (hs : s.openIn f found = .ok s') : Balanced s' := by
  obtain ⟨fs, hderef, hs⟩ := ok_bind hs
  have hf := deref_ok hderef
  split at hs
  · injection hs with hs
    exact hs ▸ h
  obtain ⟨hroom, hs⟩ := check_eq_ok.1 hs
  cases hs
  have hopen := h.openObjcts f fs hf
  have hlimit : s.openObjects f ≤ s.objects.length := countP_le_length
  refine h.replace hf ⟨fun _ _ => rfl, ?_, fun m hm => .inl hm, ?_,
    h.roomMounts, hroom⟩ rfl (h.refcount f fs hf) ?_
  · intro g hg
    rw [countP_cons_of_neg (by simpa using Ne.symm hg)]
    rfl
  · intro o ho
    rcases mem_cons.1 ho with rfl | ho
    · exact .inr rfl
    · exact .inl ho
  · rw [countP_cons, if_pos (decide_eq_true rfl)]
    show (fs.mOpenObjcts + 1) % 2 ^ 64 = s.openObjects f + 1
    rw [Nat.mod_eq_of_lt (by omega), hopen]

/-- The count of one object changes. -/
theorem recount (ho : object ∈ s.objects) : Balanced { s with
      objects := { object with mRefcount := n } :: s.objects.erase object } := by
  have hcount : ∀ g, ({ object with mRefcount := n } ::
      s.objects.erase object).countP (fun o => decide (o.fs = g)) = s.openObjects g := by
    intro g
    rw [openObjects_erase ho g, countP_cons]
    simp only [decide_eq_true_eq]
  refine ⟨h.refcount, ?_, h.mounts, ?_, h.root, h.fresh, h.roomMounts, ?_⟩
  · intro g fs hg
    exact (h.openObjcts g fs hg).trans (hcount g).symm
  · intro o hin
    rcases mem_cons.1 hin with rfl | hin
    · exact h.objects object ho
    · exact h.objects o (mem_of_mem_erase hin)
  · rw [length_cons, length_erase_of_mem ho, Nat.sub_add_cancel (length_pos_of_mem ho)]
    exact h.roomObjects

/-- The last reference to an object is given up. -/
theorem closeLast (ho : object ∈ s.objects) (hf : s.filesystems object.fs = some fs)
    (hclose : fs.closeObject = .ok fs') :
    Balanced { s.setFs object.fs (some fs') with
      objects := s.objects.erase object } := by
  have hopen := h.openObjcts object.fs fs hf
  have herase := openObjects_erase ho object.fs
  rw [if_pos rfl] at herase
  obtain ⟨_, hclose⟩ := reject_eq_ok.1 hclose
  cases hclose
  refine h.replace hf (n := s.opened) ⟨fun _ _ => rfl, ?_,
    fun m hm => .inl hm, ?_, h.roomMounts, ?_⟩ rfl
    (h.refcount object.fs fs hf) ?_
  · intro g hg
    have herase := openObjects_erase ho g
    rw [if_neg (Ne.symm hg), add_zero] at herase
    exact herase.symm
  · intro o hin
    exact .inl (mem_of_mem_erase hin)
  · exact lt_of_le_of_lt length_erase_le h.roomObjects
  · show fs.mOpenObjcts - 1 = _
    omega

theorem close (hs : s.close o = .ok s') : Balanced s' := by
  unfold VFS.close at hs
  split at hs
  · cases hs
  next object hfind =>
  have ho := findObject_mem hfind
  obtain ⟨fs, hderef, hs⟩ := ok_bind hs
  split at hs
  · obtain ⟨fs', hclose, hs⟩ := ok_bind hs
    injection hs with hs
    exact hs ▸ h.closeLast ho (deref_ok hderef) hclose
  · injection hs with hs
    exact hs ▸ h.recount ho

theorem share (hs : s.share o = .ok s') : Balanced s' := by
  unfold VFS.share at hs
  split at hs
  · cases hs
  next object hfind =>
  injection hs with hs
  exact hs ▸ h.recount (findObject_mem hfind)

/-- What `open` and `opendir` come to: nothing, or an object of a
filesystem that is there. -/
theorem open_cases (ha : (∃ path found, a = .openPath path found) ∨
      ∃ path found, a = .opendir path found) :
    step a s = .ok s ∨ ∃ f found, (s.filesystems f).isSome = true ∧
      step a s = s.openIn f found := by
  have hgetfs : ∀ {root rest : CString} {f : Nat}, s.getfs root = some (f, rest) →
      (s.filesystems f).isSome = true := by
    intro root rest f hroot
    obtain ⟨_, hroot⟩ := Option.ite_none_left_eq_some.1 hroot
    obtain ⟨m, hfind, hm⟩ := Option.map_eq_some_iff.1 hroot
    obtain ⟨rfl, _⟩ := Prod.mk.inj hm
    exact (h.mounts m (mem_of_find?_eq_some hfind)).1
  rcases ha with ⟨path, found, rfl⟩ | ⟨path, found, rfl⟩
  · dsimp only [step]
    unfold openPath
    split
    · exact .inl rfl
    · split
      · exact .inl rfl
      next f _ hf => exact .inr ⟨f, found, hgetfs hf, rfl⟩
  dsimp only [step]
  unfold opendir
  split
  · exact .inl rfl
  split
  · obtain ⟨fs, hroot, _⟩ := h.root
    exact .inr ⟨gVFSFilesystem, true, by rw [hroot]; rfl, rfl⟩
  · split
    · exact .inl rfl
    next f _ hf => exact .inr ⟨f, found, hgetfs hf, rfl⟩

theorem step (hs : VFS.step a s = .ok s') : Balanced s' := by
  have hopened : ((∃ path found, a = .openPath path found) ∨
      ∃ path found, a = .opendir path found) → Balanced s' := by
    intro ha
    rcases h.open_cases ha with heq | ⟨f, found, _, heq⟩ <;> rw [heq] at hs
    · injection hs with hs
      exact hs ▸ h
    · exact h.openIn hs
  cases a with
  | mountFs path => exact @Balanced.mountFs s s' path s.gId none h hs
  | mount vol path sector => exact h.mount hs
  | unmount path => exact h.unmount hs
  | openPath path found => exact hopened (.inl ⟨path, found, rfl⟩)
  | opendir path found => exact hopened (.inr ⟨path, found, rfl⟩)
  | share o => exact h.share hs
  | close o => exact h.close hs

end

end Balanced

/-- The counts are right in every run. -/
theorem balanced_of_reach (h : mountSystem.Reach Machine.anyStep s) : Balanced s := by
  refine Machine.Reach.invariant (I := Balanced) ?_ (fun s s' a hs _ hs' => hs.step hs') h
  rintro s rfl
  exact Balanced.initial

-- ==== the results

/-- The count of a volume's filesystem is the number of its entries. -/
theorem Balanced.countsEntries (h : Balanced s) : s.CountsEntries := by
  intro f fs hf hvolume
  have hne : f ≠ gVFSFilesystem := by
    rintro rfl
    obtain ⟨fs₁, hroot, hnone⟩ := h.root
    rw [hf] at hroot
    rw [Option.some.inj hroot, hnone] at hvolume
    cases hvolume
  have hcount := h.refcount f fs hf
  unfold claimed at hcount
  rwa [if_neg hne] at hcount

theorem Balanced.inUse (h : Balanced s) : s.InUse :=
  ⟨h.objects, fun m hm => (h.mounts m hm).1⟩

/-- No filesystem has gone. -/
def Stays (s s' : VFS) : Prop :=
  ∀ f, (s.filesystems f).isSome = true → (s'.filesystems f).isSome = true

/-- Not for want of a filesystem, or of open objects. -/
def Harmless (e : Panic) : Prop := e ≠ .fault ∧ e ≠ .vfsCorrupt

theorem addMount_sat (h : s.Stays t) : Sat (t.addMount m) s.Stays Harmless := by
  unfold addMount
  split
  · exact Sat.ok h
  · exact ⟨nofun, nofun⟩

theorem mountFs_sat {volume : Option VolumeInfo} (h : Balanced s)
    (hfs : t.filesystems = s.filesystems) (hmade : t.made = s.made) :
    Sat (t.mountFs path volume) s.Stays Harmless := by
  refine addMount_sat (fun f hf => ?_)
  have hne : f ≠ t.made := by
    rintro rfl
    rw [hmade, h.fresh s.made le_rfl] at hf
    cases hf
  show (update t.filesystems t.made _ f).isSome = true
  rwa [update_of_ne hne, hfs]

theorem openIn_sat {found : Bool} (hf : (s.filesystems f).isSome = true) :
    Sat (s.openIn f found) s.Stays Harmless := by
  obtain ⟨fs, hfs⟩ := Option.isSome_iff_exists.1 hf
  refine Sat.step (deref_eq hfs) ?_
  split
  · exact Sat.ok (fun _ => id)
  · split
    · exact Sat.ok (fun _ => isSome_setFs)
    · exact ⟨nofun, nofun⟩

theorem mount_sat {vol : VolumeInfo} {sector : Option (List UInt8)}
    (h : Balanced s) : Sat (s.mount vol path sector) s.Stays Harmless := by
  unfold mount
  split
  · unfold doMountVolume fatfsTrymount
    split
    · split
      · exact Sat.ok (fun _ => id)
      split
      · split
        · exact ⟨nofun, nofun⟩
        · exact mountFs_sat h rfl rfl
      · exact Sat.ok (fun _ => id)
    · exact ⟨nofun, nofun⟩
  next previous hfind =>
  obtain ⟨fs, hfs⟩ := Option.isSome_iff_exists.1 (h.mounts previous (mem_of_find?_eq_some hfind)).1
  exact Sat.step (deref_eq hfs) (addMount_sat fun _ => isSome_setFs)

/-- Closing deletes no filesystem that is in use. -/
theorem close_sat (h : Balanced s) : Sat (s.close o) s.Stays Harmless := by
  unfold close
  split
  · exact ⟨nofun, nofun⟩
  next object hfind =>
  have ho := findObject_mem hfind
  obtain ⟨fs, hfs⟩ := Option.isSome_iff_exists.1 (h.objects object ho)
  refine Sat.step (deref_eq hfs) ?_
  split
  · unfold Filesystem.closeObject
    have hpos := openObjects_pos ho
    rw [← h.openObjcts object.fs fs hfs] at hpos
    rw [if_neg (ne_of_gt hpos)]
    exact Sat.ok (fun _ => isSome_setFs)
  · exact Sat.ok (fun _ => id)

/-- Only `unmount` can make a filesystem go, and nobody looks for one that
has gone. -/
theorem step_sat (h : Balanced s) (a : MountAction) : Sat (step a s)
    (fun s' => (∀ path, a ≠ .unmount path) → s.Stays s') Harmless := by
  have hopened : ∀ {a}, ((∃ path found, a = .openPath path found) ∨
      ∃ path found, a = .opendir path found) →
      Sat (step a s) s.Stays Harmless := by
    intro a hopen
    rcases h.open_cases hopen with heq | ⟨g, found, hg, heq⟩ <;> rw [heq]
    · exact Sat.ok (fun _ => id)
    · exact openIn_sat hg
  cases a with
  | mountFs path => exact (mountFs_sat h rfl rfl).mono (fun _ hs _ => hs)
  | mount vol path sector => exact (mount_sat h).mono (fun _ hs _ => hs)
  | unmount path =>
    dsimp only [step]
    unfold unmount
    split
    · exact Sat.ok (fun hne => absurd rfl (hne path))
    next m hfind =>
    obtain ⟨fs, hfs⟩ := Option.isSome_iff_exists.1 (h.mounts m (mem_of_find?_eq_some hfind)).1
    refine Sat.step (deref_eq hfs) ?_
    dsimp only
    split <;> exact Sat.ok (fun hne => absurd rfl (hne path))
  | openPath path found => exact (hopened (.inl ⟨path, found, rfl⟩)).mono (fun _ hs _ => hs)
  | opendir path found => exact (hopened (.inr ⟨path, found, rfl⟩)).mono (fun _ hs _ => hs)
  | share o =>
    dsimp only [step]
    unfold share
    split
    · exact ⟨nofun, nofun⟩
    · exact Sat.ok (fun _ _ => id)
  | close o => exact (close_sat h).mono (fun _ hs _ => hs)

theorem Balanced.deletesUnused (h : Balanced s) : s.DeletesUnused := by
  intro a s' f hs hf hgone
  by_cases ha : ∃ path, a = .unmount path
  · obtain ⟨path, rfl⟩ := ha
    rcases h.unmount_cases hs with rfl | ⟨m, fs, hm, hfs, hcase⟩
    · rw [hgone] at hf
      cases hf
    rcases hcase with ⟨hlast, hunused, rfl⟩ | rfl
    · have hsame : f = m.fs := by
        by_contra hne
        have hkept := (@setFs_other s m.fs f none hne).symm.trans hgone
        rw [hkept] at hf
        cases hf
      subst hsame
      have herase := entries_erase hm m.fs
      rw [if_pos rfl] at herase
      refine ⟨hlast, ?_, hunused⟩
      show (s.mMounts.erase m).countP _ = 0
      omega
    · have hkept := @isSome_setFs s m.fs f fs.decref hf
      rw [show (s.setFs m.fs (some fs.decref)).filesystems f = none from hgone] at hkept
      cases hkept
  · have hkept := (step_sat h a).result hs (fun path hp => ha ⟨path, hp⟩) f hf
    rw [hgone] at hkept
    cases hkept

/-- No step fails badly. -/
theorem sane_of_balanced (h : Balanced s) : s.Sane := by
  intro a
  refine ⟨fun heq => ?_, fun heq => ?_⟩
  · exact ((step_sat h a).failure heq).1 rfl
  · exact ((step_sat h a).failure heq).2 rfl

/-- In every state that mounts, unmounts, opens and closes lead to, the
filesystem of a volume counts its entries, whatever is open or mounted has
its filesystem, and no step takes one away that is still of use. -/
theorem mountLifetime_of_reach (h : mountSystem.Reach Machine.anyStep s) :
    s.CountsEntries ∧ s.InUse ∧ s.DeletesUnused ∧ s.Sane :=
  have hb := balanced_of_reach h
  ⟨hb.countsEntries, hb.inUse, hb.deletesUnused, sane_of_balanced hb⟩

/-- A sector with the signature of a FAT volume. -/
def fatSector : List UInt8 := replicate 38 0 ++ [0x29]

/-- A volume is mounted as a and as b, a file is opened through b, and b is
unmounted. -/
def aliasRun : List MountAction :=
  [.mount ⟨1, 0x0B⟩ [97] (some fatSector), .mount ⟨1, 0x0B⟩ [98] (some fatSector),
   .openPath [47, 98, 47, 120] true, .unmount [47, 98]]

theorem mountLifetime_of_reach_alias : ∃ s, mountSystem.Reach Machine.anyStep s ∧
      s.objects = [{ id := 0, fs := 1 }] ∧
      s.mMounts = [⟨[97], some ⟨1, 0x0B⟩, 1⟩] ∧
      s.CountsEntries ∧ s.InUse ∧ s.DeletesUnused ∧ s.Sane := by
  obtain ⟨s, hreach, hobjects, hmounts⟩ := Machine.exists_reach
    (M := mountSystem) (P := fun s => s.objects = [{ id := 0, fs := 1 }] ∧
      s.mMounts = [⟨[97], some ⟨1, 0x0B⟩, 1⟩]) rfl aliasRun
    (by decide +kernel)
  exact ⟨s, hreach, hobjects, hmounts, mountLifetime_of_reach hreach⟩

-- ==== looking a path up

/-- A name without a slash covers the paths whose first component it is. -/
theorem covers_eq (h : 47 ∉ m.path) (root : CString) :
    m.covers root = decide (m.path = component root) := by
  obtain ⟨path, volume, fs⟩ := m
  unfold Mount.covers
  induction path generalizing root with
  | nil => cases root <;> simp [component, takeWhile_cons, Bool.beq_eq_decide_eq]
  | cons c path ih =>
    simp only [mem_cons, not_or] at h
    cases root with
    | nil => simp [component]
    | cons d root =>
      by_cases hcd : c = d
      · subst hcd
        simp_all [component, Ne.symm h.1]
      · by_cases hd : d = 47 <;> simp_all [component]

theorem bufferPrint_component (path : CString) :
    bufferPrint ((component path).length + 2) ((component path).length + 1)
      path = component path := by
  have hprefix : component path <+: path := takeWhile_prefix _
  unfold bufferPrint
  rw [take_take, Nat.min_eq_left (by omega)]
  exact (prefix_iff_eq_take.1 hprefix).symm

/-- Both ways of looking a path up find the entry whose name is the first
component, and what is left is the rest of the path. -/
theorem fsForPath_eq_getfs (h : ∀ m ∈ s.mMounts, 47 ∉ m.path) (root : CString) :
    s.fsForPath (47 :: root) = (s.getfs (47 :: root)).map Prod.fst ∧ s.getfs (47 :: root) =
        (s.mMounts.find? fun m => decide (m.path = component root)).map
          fun m => (m.fs, root.dropWhile (· ≠ 47)) := by
  have hcovers : (s.mMounts.find? fun m => m.covers root) =
      s.mMounts.find? fun m => decide (m.path = component root) :=
    find?_congr fun m hm => covers_eq (h m hm) root
  have hrest : root.drop (component root).length = root.dropWhile (· ≠ 47) := by
    have happend := congrArg (drop (component root).length)
      (takeWhile_append_dropWhile (p := (· ≠ 47)) (l := root))
    rw [← happend]
    exact drop_left
  constructor
  · simp [fsForPath, getfs, stripSlash, bufferPrint_component, hcovers, Function.comp_def]
  simp only [getfs, stripSlash, reduceCtorEq, if_false, if_true, hcovers]
  refine Option.map_congr ?_
  intro m hm
  have hpath : m.path = component root := by simpa using find?_some hm
  rw [hpath, hrest]

/-- One name begins with the other. -/
theorem fsForPath_eq_getfs_two :
    let s : VFS := ⟨[⟨[97], none, 1⟩, ⟨[97, 98], none, 2⟩], fun _ => none, 3,
      [], 0, 0⟩
    s.fsForPath [47, 97, 98, 47, 99] = some 2 ∧
      s.getfs [47, 97, 98, 47, 99] = some (2, [47, 99]) := by
  intro s
  obtain ⟨hfs, hgetfs⟩ := fsForPath_eq_getfs (s := s) (by decide) [97, 98, 47, 99]
  exact ⟨hfs.trans (by decide), hgetfs.trans (by decide)⟩

end Puppy.Fs.VFS
