/-
The counters of a process's memory.

The list of a memory manager has the two reserved regions and those that
were added (`Kept`), so what `removeRegion` finds in it and is not reserved
was counted when it was added. That is the whole argument, and it shows
where the source does not follow it.

- A cloned process has the regions of its parent and zero in
  `memstats.available`. (The line that should copy it copies
  `memstats.allocated`, which the next line sets to zero.)
- `cleanupAllRegions` skips the kernel's region and removes the one for page
  zero, which was never counted. Both counters are below zero when the last
  region is gone.
- Regions with given bounds may overlap, and a request that makes the search
  wrap may have any size, so the total may be more than 32 bits can hold.
-/
import Puppy.Lib.Except
import Puppy.Libc.Proofs.Interval
import Puppy.Mm.Stats

namespace Puppy.Mm

open Libc Lib IntervalList List

-- ==== sizes

variable {size max : Nat}

section

variable (hsize : size < 0x100000000)
include hsize

/-- A range that begins after an interval has the size asked for, even when
its bounds wrap. -/
theorem size_after (u : Nat) : Interval.size ⟨add32 u 1, add32 size u⟩ = size := by
  unfold Interval.size add32 sub32
  dsimp only
  omega

theorem findGap_size : ∀ {l : List Region} {range : Interval},
      findGap size l = some range → range.size = size := by
  intro l
  induction l with
  | nil =>
    intro range h
    cases h
  | cons i0 rest ih =>
    intro range h
    cases rest with
    | nil => cases h
    | cons i1 rest =>
      unfold findGap at h
      split at h
      · rw [← Option.some.inj h]
        exact size_after hsize _
      · exact ih h

theorem findAfter_size {i range : Interval}
    (h : findAfter max size i = some range) : range.size = size := by
  obtain ⟨_, h⟩ := Option.ite_none_right_eq_some.1 h
  rw [← Option.some.inj h]
  exact size_after hsize _

theorem findFree_size {l : List Region} {range : Interval}
    (h : findFree max size l = some range) : range.size = size := by
  obtain ⟨hpos, h⟩ := Option.ite_none_left_eq_some.1 h
  have hfirst : Interval.size ⟨0, size - 1⟩ = size := by
    unfold Interval.size add32 sub32
    dsimp only
    omega
  split at h
  · rw [← Option.some.inj h]
    exact hfirst
  next i =>
    split at h
    · rw [← Option.some.inj h]
      exact hfirst
    · exact findAfter_size hsize h
  next i0 i1 rest =>
  split at h
  next range' hgap =>
    rw [← Option.some.inj h]
    exact findGap_size hsize hgap
  · exact findAfter_size hsize h

end

-- ==== one process

namespace Account

/-- The regions of the constructor: page zero and the kernel. -/
def reserved : List Interval := [⟨0, 0xFFF⟩, ⟨0xC0000000, 0xFFFFFFFF⟩]

/-- The counters are right and have 32 bits, and the list has what was added
to the reserved regions. -/
structure Kept (a : Account) : Prop where
  right : a.Right
  small : a.total < 0x100000000
  regions : (a.mm.mRegions.map ival).Perm (reserved ++ a.added)

variable {a a' : Account} {rgn : Region} {size : Nat}

theorem kept_init : Kept {} where
  right := ⟨rfl, rfl, rfl⟩
  small := by decide
  regions := by decide

/-- The loader's variable does not matter. -/
theorem Kept.withFile (h : a.Kept) (file_rgn : Option Region) : { a with file_rgn }.Kept where
  right := ⟨h.right.managed, h.right.listed, h.right.kept⟩
  small := h.small
  regions := h.regions

theorem Kept.addRegion (h : a.Kept) (hroom : a.total + rgn.size < 0x100000000) :
    (a.addRegion rgn).Kept := by
  have htotal : (a.addRegion rgn).total = a.total + rgn.size := by
    show (map Interval.size (rgn.toInterval :: a.added)).sum = _
    rw [map_cons, sum_cons, add_comm]
    rfl
  constructor
  · refine ⟨?_, ?_, h.right.kept⟩
    · rw [htotal]
      show add32 a.mm.mAllRegionsSize rgn.size = _
      rw [h.right.managed, add32_of_lt hroom]
    · rw [htotal]
      show add32 a.available rgn.size = _
      rw [h.right.listed, add32_of_lt hroom]
  · rw [htotal]
    exact hroom
  · have hadd : ((add rgn a.mm.mRegions).map ival).Perm
        (rgn.toInterval :: a.mm.mRegions.map ival) :=
      (add_perm rgn a.mm.mRegions).map ival
    refine hadd.trans ((h.regions.cons _).trans ?_)
    exact perm_middle.symm

/-- What was added, or is not reserved, may be removed. -/
theorem Kept.removeRegion (h : a.Kept)
    (hrgn : rgn.toInterval ∈ a.added ∨ rgn.toInterval ∉ reserved) :
    (a.removeRegion rgn).Kept := by
  unfold Account.removeRegion
  cases hdel : del rgn a.mm.mRegions with
  | none => exact h
  | some regions =>
    obtain ⟨j, hj, l₁, l₂, hl, hl', _⟩ := del_some hdel
    have hlist : (a.mm.mRegions.map ival).Perm (rgn.toInterval :: regions.map ival) := by
      rw [hl, hl', map_append, map_cons, map_append, hj]
      exact perm_middle
    have hmem : rgn.toInterval ∈ a.added := by
      rcases hrgn with hadded | hfree
      · exact hadded
      · have hin := (hlist.symm.trans h.regions).subset mem_cons_self
        exact (mem_append.1 hin).resolve_left hfree
    have herase := perm_cons_erase hmem
    have htotal : a.total = rgn.size + ((a.added.erase rgn.toInterval).map Interval.size).sum := by
      have hsum := (herase.map Interval.size).sum_eq
      rw [map_cons, sum_cons] at hsum
      exact hsum
    have hsmall := h.small
    have hmanaged := h.right.managed
    have hlisted := h.right.listed
    constructor
    · refine ⟨?_, ?_, ?_⟩
      · show sub32 a.mm.mAllRegionsSize rgn.size = (map _ _).sum
        rw [hmanaged, sub32_of_le hsmall (by omega), htotal, Nat.add_sub_cancel_left]
      · show sub32 a.available rgn.size = (map _ _).sum
        rw [hlisted, sub32_of_le hsmall (by omega), htotal, Nat.add_sub_cancel_left]
      · rw [h.right.kept, hmanaged, hlisted, decide_eq_false (by omega : ¬ a.total < rgn.size)]
        rfl
    · show ((a.added.erase rgn.toInterval).map Interval.size).sum < _
      omega
    · have hcons : (reserved ++ a.added).Perm
          (rgn.toInterval :: (reserved ++ a.added.erase rgn.toInterval)) :=
        (herase.append_left reserved).trans perm_middle
      exact (hlist.symm.trans (h.regions.trans hcons)).cons_inv

/-- A request that is met has the size asked for. -/
theorem findAndAdd_cases (hsize : toPage size < 0x100000000)
    (h : a.findAndAdd size = some (rgn, a')) :
    a' = a.addRegion rgn ∧ rgn.size = toPage size := by
  obtain ⟨range, hrange, heq⟩ := Option.map_eq_some_iff.1 h
  cases heq
  exact ⟨rfl, findFree_size hsize hrange⟩

theorem Kept.findAndAdd (h : a.Kept) (hroom : a.total + toPage size < 0x100000000)
    (hfind : a.findAndAdd size = some (rgn, a')) :
    a'.Kept ∧ a' = a.addRegion rgn := by
  obtain ⟨heq, hsize⟩ := findAndAdd_cases (by omega) hfind
  rw [← hsize] at hroom
  exact ⟨by rw [heq]; exact h.addRegion hroom, heq⟩

theorem Kept.grow (h : a.Kept) (hroom : a.total + toPage size < 0x100000000) :
    (a.grow size).Kept := by
  unfold Account.grow
  split
  next hfind => exact (h.findAndAdd hroom hfind).1
  · exact h

/-- A region that holds a user address outside page zero is not
reserved. -/
theorem userRegion_not_reserved {addr : Nat} (huser : iskernel addr = false)
    (h : a.userRegion addr = some rgn) : rgn.toInterval ∉ reserved := by
  obtain ⟨hpage, h⟩ := Option.ite_none_left_eq_some.1 h
  obtain ⟨_, hcontains⟩ := contains_some h
  obtain ⟨hfrm, hupto⟩ := Interval.contains_iff.1 hcontains
  have hfrm : rgn.frm ≤ addr := hfrm
  have hupto : addr ≤ rgn.upto := hupto
  have hlow : addr < 0xC0000000 := by
    exact Nat.lt_of_not_le (of_decide_eq_false huser)
  have hhigh : 0x1000 ≤ addr := by
    unfold page gPageSize at hpage
    omega
  intro hmem
  rcases mem_cons.1 hmem with heq | hmem
  · rw [heq] at hupto
    exact absurd (le_trans hhigh hupto) (by decide)
  · rw [mem_singleton.1 hmem] at hfrm
    exact absurd (lt_of_le_of_lt hfrm hlow) (by decide)

/-- The region of the file was added, or it is not reserved. -/
def Buffered (a : Account) : Prop :=
  ∀ rgn, a.file_rgn = some rgn → rgn.toInterval ∈ a.added ∨ rgn.toInterval ∉ reserved

theorem Buffered.addRegion (h : a.Buffered) : (a.addRegion rgn).Buffered := by
  intro file hfile
  rcases h file hfile with hadded | hfree
  · exact .inl (mem_cons_of_mem _ hadded)
  · exact .inr hfree

theorem Buffered.grow (h : a.Buffered) : (a.grow size).Buffered := by
  unfold Account.grow Account.findAndAdd
  cases a.mm.findRegionImpl size with
  | none => exact h
  | some range => exact h.addRegion

theorem Buffered.removeRegion (h : a.Buffered)
    (hrgn : rgn.toInterval ∉ reserved) : (a.removeRegion rgn).Buffered := by
  unfold Account.removeRegion
  cases del rgn a.mm.mRegions with
  | none => exact h
  | some regions =>
    intro file hfile
    by_cases hsame : file.toInterval = rgn.toInterval
    · exact .inr (hsame ▸ hrgn)
    · rcases h file hfile with hadded | hfree
      · exact .inl ((mem_erase_of_ne hsame).2 hadded)
      · exact .inr hfree

end Account

-- ==== all processes

namespace AccountTable

open Account

/-- Every process has its counters right. -/
def AllKept (s : AccountTable) : Prop := ∀ p a, s p = some a → a.Kept ∧ a.Buffered

variable {s s' : AccountTable} {p : Nat} {a : Account}

theorem find_some (h : s.find p = .ok a) : s p = some a := by
  unfold find at h
  split at h
  next found heq =>
    obtain ⟨_, h⟩ := reject_eq_ok.1 h
    injection h with h
    rw [heq, h]
  · cases h

/-- The process that an action is about has its counters right. -/
theorem AllKept.find {f : Account → Except Panic AccountTable} (h : s.AllKept)
    (hbind : (s.find p >>= f) = .ok s') :
    ∃ a, s p = some a ∧ a.Kept ∧ a.Buffered ∧ f a = .ok s' := by
  obtain ⟨a, ha, hf⟩ := ok_bind hbind
  obtain ⟨hkept, hbuffered⟩ := h p a (find_some ha)
  exact ⟨a, find_some ha, hkept, hbuffered, hf⟩

theorem AllKept.store (h : s.AllKept) (ha : a.Kept ∧ a.Buffered) : (s.store p a).AllKept := by
  intro q b hb
  rcases update_eq_some hb with ⟨_, hb⟩ | ⟨_, hb⟩
  · exact Option.some.inj hb ▸ ha
  · exact h q b hb

/-- A cloned process, when there is nothing to count. -/
theorem kept_clone (h : a.Kept) (hzero : a.total = 0) : a.clone.Kept where
  right := ⟨h.right.managed, hzero.symm, rfl⟩
  small := h.small
  regions := h.regions

theorem AllKept.step (h : s.AllKept) {act : StatsAction}
    (hok : s.Countable act) (hstep : AccountTable.step act s = .ok s') :
    s'.AllKept := by
  cases act with
  | create p =>
    dsimp only [AccountTable.step] at hstep
    split at hstep
    · refine of_ok hstep ?_
      refine h.store ⟨kept_init, ?_⟩
      intro rgn hrgn
      cases hrgn
    · cases hstep
  | loadFile p size =>
    obtain ⟨a, ha, hkept, hbuffered, hstep⟩ := h.find hstep
    split at hstep
    next rgn a' hfind =>
      refine of_ok hstep ?_
      obtain ⟨hkept', heq⟩ := hkept.findAndAdd (hok a ha) hfind
      refine h.store ⟨hkept'.withFile _, ?_⟩
      intro file hfile
      cases hfile
      rw [heq]
      exact .inl mem_cons_self
    · exact of_ok hstep h
  | unloadFile p =>
    obtain ⟨a, ha, hkept, hbuffered, hstep⟩ := h.find hstep
    split at hstep
    next rgn hfile =>
      refine of_ok hstep ?_
      have hkept' := hkept.removeRegion (hbuffered rgn hfile)
      refine h.store ⟨hkept'.withFile _, ?_⟩
      intro file hnone
      cases hnone
    · cases hstep
  | addRegion p frm upto =>
    obtain ⟨a, ha, hkept, hbuffered, hstep⟩ := h.find hstep
    exact of_ok hstep (h.store ⟨hkept.addRegion (hok a ha), hbuffered.addRegion⟩)
  | findRegion p size =>
    obtain ⟨a, ha, hkept, hbuffered, hstep⟩ := h.find hstep
    exact of_ok hstep (h.store ⟨hkept.grow (hok a ha), hbuffered.grow⟩)
  | mapregion p size =>
    obtain ⟨a, ha, hkept, hbuffered, hstep⟩ := h.find hstep
    split at hstep
    · exact of_ok hstep h
    · exact of_ok hstep (h.store ⟨hkept.grow (hok a ha), hbuffered.grow⟩)
  | mmap p size =>
    obtain ⟨a, ha, hkept, hbuffered, hstep⟩ := h.find hstep
    exact of_ok hstep (h.store ⟨hkept.grow (hok a ha), hbuffered.grow⟩)
  | unmapregion p address =>
    obtain ⟨a, ha, hkept, hbuffered, hstep⟩ := h.find hstep
    split at hstep
    · exact of_ok hstep h
    next huser =>
    split at hstep
    · exact of_ok hstep h
    next rgn hrgn =>
    refine of_ok hstep ?_
    have hfree := userRegion_not_reserved (Bool.not_eq_true _ ▸ huser) hrgn
    exact h.store ⟨hkept.removeRegion (.inr hfree), hbuffered.removeRegion hfree⟩
  | clone p q =>
    obtain ⟨a, ha, hkept, _, hstep⟩ := h.find hstep
    split at hstep
    · refine of_ok hstep ?_
      refine h.store ⟨kept_clone hkept (hok a ha), ?_⟩
      intro rgn hrgn
      cases hrgn
    · cases hstep
  | exit p => exact hok.elim
  | delete p =>
    dsimp only [AccountTable.step] at hstep
    split at hstep
    · obtain ⟨_, ⟨⟩⟩ := check_eq_ok.1 hstep
      intro q b hb
      rcases update_eq_some hb with ⟨_, ⟨⟩⟩ | ⟨_, hb⟩
      · exact h q b hb
    · cases hstep

/-- **The counters are right** in every run that adds regions only while
the total has 32 bits, in which nobody with memory clones itself, and
nobody exits. -/
theorem right_of_countable (h : statsSystem.Reach AccountTable.Countable s) :
    ∀ p a, s p = some a → a.Right := by
  have hkept : s.AllKept := by
    refine Machine.Reach.invariant (I := AllKept) ?_ ?_ h
    · intro s hs p a ha
      rw [show s = fun _ => none from hs] at ha
      cases ha
    · intro s s' act hs hok hstep
      exact hs.step hok hstep
  exact fun p a ha => (hkept p a ha).1.right

/-- A process that is loaded, asks for three pages and gives them back. -/
theorem right_of_countable_loaded : ∃ s a, statsSystem.run [.create 1, .loadFile 1 5000,
      .addRegion 1 0x8048000 0x8049FFF, .findRegion 1 0x400000, .unloadFile 1,
      .mapregion 1 0x3000, .unmapregion 1 0x403000] (fun _ => none) = .ok s ∧
    s 1 = some a ∧ a.total = 0x402000 ∧ a.Right := by
  obtain ⟨s, hrun, htotal⟩ := Machine.exists_run (M := statsSystem)
    (P := fun s => (s 1).map total = some 0x402000) [.create 1,
      .loadFile 1 5000, .addRegion 1 0x8048000 0x8049FFF,
      .findRegion 1 0x400000, .unloadFile 1, .mapregion 1 0x3000,
      .unmapregion 1 0x403000] (fun _ => none) (by decide +kernel)
  obtain ⟨a, ha, htotal⟩ := Option.map_eq_some_iff.1 htotal
  have hreach : statsSystem.Reach AccountTable.Countable s :=
    Machine.Reach.run (.boot rfl) (by decide +kernel) hrun
  exact ⟨s, a, hrun, ha, htotal, right_of_countable hreach 1 a ha⟩

/-- A process with one page clones itself. The new process has a region of
one page and nothing in `memstats.available`. -/
theorem clone_forgets_available : ¬ ∀ s, statsSystem.Reach Machine.anyStep s →
      ∀ p a, s p = some a → a.Right := by
  intro hall
  obtain ⟨s, hreach, hchild⟩ := Machine.exists_reach (M := statsSystem)
    (P := fun s => (s 2).map (fun a => (a.total, a.available)) = some (0x1000, 0)) rfl
    [.create 1, .mapregion 1 0x1000, .clone 1 2] (by decide +kernel)
  obtain ⟨a, ha, heq⟩ := Option.map_eq_some_iff.1 hchild
  injection heq with htotal havailable
  have hlisted := (hall s hreach 2 a ha).listed
  rw [htotal, havailable] at hlisted
  cases hlisted

end AccountTable

end Puppy.Mm
