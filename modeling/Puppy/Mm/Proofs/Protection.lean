/-
Read-only regions stay read-only.

`Locked` is the invariant: an entry for a page of a read-only region is
absent, or present without the right to write and without the COW bit that
would bring it back. The COW bit is the point. A fault never looks at the
region of a page that it copies, so an entry with that bit is as good as
writable, and `setregionperms` is the one place that puts such an entry
into a read-only region.

Everything else is about which pages a step reaches. A region ends with a
page (`Neat`), so a loop that goes from its start page by page reaches
each of its pages.
-/
import Puppy.Mm.Protection
import Puppy.Mm.Proofs.Steps
import Puppy.Mm.Proofs.Access

namespace Puppy.Mm

open Libc Lib PhysicalPageManager PageFault IntervalList Function
open List hiding contains
open MemoryManager TableEntry

-- ==== regions

/-- Every region ends with a page and none of them asks for COW pages. -/
def Neat (regions : List Region) : Prop :=
  ∀ r ∈ regions, (r.upto + 1) % gPageSize = 0 ∧ r.permission.cow = false

section Regions

variable {regions regions' : List Region} {i addr : Nat} {r : Region} {mm : MemoryManager} {vm : Vm}

theorem ReadOnlyPage.mono (h : ReadOnlyPage regions' i)
    (hsub : ∀ r ∈ regions', r.permission.rw = false → r ∈ regions) :
    ReadOnlyPage regions i := by
  obtain ⟨addr, huser, hi, r, hr, hro, hin⟩ := h
  exact ⟨addr, huser, hi, r, hsub r hr hro, hro, hin⟩

theorem ReadOnlyPage.user (h : ReadOnlyPage regions i) : i < gNumUserPages := by
  obtain ⟨addr, huser, rfl, _⟩ := h
  exact (pageNumber_user huser).1

theorem not_readOnlyPage (h : ∀ r ∈ regions, r.permission.rw = true) :
    ¬ ReadOnlyPage regions i := by
  rintro ⟨addr, _, _, r, hr, hro, _⟩
  rw [h r hr] at hro
  cases hro

/-- A page of a list with a new region is a page of the list or of the
region. -/
theorem readOnlyPage_add (h : ReadOnlyPage (add r regions) i) :
    ReadOnlyPage regions i ∨ r.permission.rw = false ∧
      ∃ addr < gKernelBase, pageNumber addr = i ∧ r.toInterval.contains addr = true := by
  obtain ⟨addr, huser, hi, r', hr', hro, hin⟩ := h
  rcases mem_add.1 hr' with rfl | hr'
  · exact .inr ⟨hro, addr, huser, hi, hin⟩
  · exact .inl ⟨addr, huser, hi, r', hr', hro, hin⟩

/-- A region that ends with a page is walked through page by page. -/
theorem pagesUpto_covers (hend : (r.upto + 1) % gPageSize = 0)
    (hin : r.toInterval.contains addr = true) :
    ∃ pp ∈ Vm.pagesUpto r.frm r.upto, pageNumber pp = pageNumber addr := by
  rw [Interval.contains_iff] at hin
  obtain ⟨hfrm, hupto⟩ := hin
  refine ⟨r.frm + (addr / 0x1000 - r.frm / 0x1000) * gPageSize, Vm.mem_pagesUpto.2 ⟨_, rfl, ?_⟩, ?_⟩
  · unfold gPageSize at *
    omega
  have hindex : index (r.frm + (addr / 0x1000 - r.frm / 0x1000) * gPageSize) = index addr := by
    unfold index gPageSize
    omega
  unfold pageNumber
  rw [hindex]

theorem iskernel_eq_false (h : addr < gKernelBase) : iskernel addr = false :=
  decide_eq_false (Nat.not_le.2 h)

theorem isWithinRegion_user (huser : iskernel addr = false)
    (h : mm.isWithinRegion vm addr = some r) :
    contains addr mm.mRegions = some r := by
  unfold isWithinRegion at h
  rw [huser] at h
  obtain ⟨_, h⟩ := Option.ite_none_left_eq_some.1 h
  exact h

/-- The region found for an address is one of the list, or the kernel's. -/
theorem Neat.found (h : Neat mm.mRegions) (hfound : mm.isWithinRegion vm addr = some r) :
    r.permission.cow = false := by
  cases hkernel : iskernel addr with
  | false => exact (h r (contains_some (isWithinRegion_user hkernel hfound)).1).2
  | true =>
    unfold isWithinRegion at hfound
    rw [if_pos hkernel] at hfound
    obtain ⟨_, hfound⟩ := Option.ite_none_left_eq_some.1 hfound
    split at hfound
    · cases hfound
      rfl
    · cases hfound

theorem Neat.add (h : Neat regions) (hend : (r.upto + 1) % gPageSize = 0)
    (hcow : r.permission.cow = false) : Neat (add r regions) := by
  intro r' hr'
  rcases mem_add.1 hr' with rfl | hr'
  · exact ⟨hend, hcow⟩
  · exact h r' hr'

/-- A search starts where a region ends, and takes whole pages. -/
theorem Neat.findRegionImpl {size : Nat} {range : Interval} (h : Neat mm.mRegions)
    (hfind : mm.findRegionImpl size = some range) :
    (range.upto + 1) % gPageSize = 0 := by
  have hsize := toPage_mod size
  rcases findFree_upto hfind with hupto | ⟨r, hr, hupto⟩
  · rw [hupto]
    exact hsize
  have hend : ((ival r).upto + 1) % gPageSize = 0 := (h r hr).1
  rw [hupto]
  unfold add32 gPageSize at *
  omega

end Regions

-- ==== entries

/-- The entry lets nobody write to its page, now or after a fault. -/
def TableEntry.Locked (e : TableEntry) : Prop :=
  e.present = true → e.rw = false ∧ e.cow = false

theorem TableEntry.locked_absent {e : TableEntry} (h : e.present = false) : e.Locked := by
  intro hpresent
  cases h.symm.trans hpresent

/-- The entries of all pages that may not be written to. -/
def Locked (regions : List Region) (table : Nat → TableEntry) : Prop :=
  ∀ i, ReadOnlyPage regions i → (table i).Locked

section Entries

variable {regions regions' : List Region} {table : Nat → TableEntry} {i : Nat} {e : TableEntry}

theorem Locked.mono (h : Locked regions table)
    (hsub : ∀ r ∈ regions', r.permission.rw = false → r ∈ regions) :
    Locked regions' table :=
  fun i hi => h i (hi.mono hsub)

theorem Locked.update (h : Locked regions table) (he : ReadOnlyPage regions i → e.Locked) :
    Locked regions (update table i e) := by
  intro j hj
  by_cases hji : j = i
  · subst hji
    rw [update_self]
    exact he hj
  · rw [update_of_ne hji]
    exact h j hj

theorem Locked.view {s : System} {t : Task} (h : Locked regions t.table) :
    Locked regions (s.view t).table := by
  intro i hi
  have hsame : (s.view t).table i = t.table i := System.look_user hi.user
  rw [hsame]
  exact h i hi

end Entries

-- ==== faults

/-- The tables while a process works on them. The kernel's regions do not
change, so that a lookup finds what it found before. -/
structure Shut (mm : MemoryManager) (vm₀ vm : Vm) : Prop where
  locked : Locked mm.mRegions vm.table
  kernel : vm.mKernelRegions = vm₀.mKernelRegions

section Faults

variable {mm : MemoryManager} {vm₀ vm : Vm} {vaddr : Nat}

/-- A fault gives a page of a read-only region the rights of a read-only
region. -/
theorem shut_faultRules (hneat : Neat mm.mRegions)
    (hguard : ∀ region, mm.isWithinRegion vm₀ vaddr = some region → region.permission.rw = true →
      ¬ ReadOnlyPage mm.mRegions (pageNumber vaddr)) :
    FaultRules (Shut mm vm₀) (fun _ => True) mm vaddr where
  fresh vm region clear hvm hregion := by
    have hcow := hneat.found hregion
    rw [isWithinRegion_congr vaddr hvm.kernel] at hregion
    refine Vm.mapAnyPhysicalPage_sat hvm trivial fun idx vm' hm => ?_
    refine ⟨?_, hm.regions.trans hvm.kernel⟩
    rw [hm.table, pageNumber_page]
    refine hvm.locked.update ?_
    intro hro _
    refine ⟨?_, hcow⟩
    by_contra hrw
    rw [Bool.not_eq_false] at hrw
    exact hguard region hregion hrw hro
  store _ _ _ hvm _ _ _ _ := ⟨hvm.locked, hvm.kernel⟩
  copy vm opts hvm hpresent hcow := by
    -- a page that is to be copied lies in no read-only region
    have hfree : ¬ ReadOnlyPage mm.mRegions (pageNumber vaddr) := by
      intro hro
      have hlocked := (hvm.locked _ hro hpresent).2
      rw [show (vm.table (pageNumber vaddr)).cow = true from hcow] at hlocked
      cases hlocked
    refine Sat.of_result fun copied hclone => ?_
    intro vm' hvm'
    rw [hvm'] at hclone
    obtain ⟨⟨_, _, htable⟩, hregions⟩ := Vm.clonePage_table hclone
    refine ⟨?_, hregions.trans hvm.kernel⟩
    rw [htable]
    exact hvm.locked.update (fun hro => absurd hro hfree)

/-- So no write to such a page goes through. -/
theorem Shut.access (hneat : Neat mm.mRegions)
    (hguard : ∀ region, mm.isWithinRegion vm vaddr = some region → region.permission.rw = true →
      ¬ ReadOnlyPage mm.mRegions (pageNumber vaddr))
    (hlocked : Locked mm.mRegions vm.table) {write : Bool} {file : FileRead} :
    Sat (userAccess mm vm vaddr write file)
      (fun r => Locked mm.mRegions r.2.table ∧ (r.1 = true →
        write = true → ¬ ReadOnlyPage mm.mRegions (pageNumber vaddr)))
      (fun _ => True) := by
  have haccess := @access_sat _ _ mm vm vaddr file write
    (shut_faultRules hneat hguard) 3 ⟨hlocked, rfl⟩
  refine haccess.mono ?_
  rintro ⟨alive, vm'⟩ ⟨hvm', hpermits⟩
  refine ⟨hvm'.locked, ?_⟩
  intro halive hwrite hro
  have hallowed := hpermits halive
  unfold permits at hallowed
  rw [hwrite, Bool.not_true, Bool.or_false, Bool.and_eq_true, Bool.and_eq_true] at hallowed
  have hrw := (hvm'.locked _ hro hallowed.1.1).1
  rw [show (vm'.table (pageNumber vaddr)).rw = true from hallowed.2] at hrw
  cases hrw

end Faults

-- ==== regions that come and go

section Ranges

variable {regions : List Region} {vm : Vm} {frm upto : Nat} {opts : MapOptions}
  {rgn : Region} {mm mm' : MemoryManager}

theorem Locked.mapZeroPages (h : Locked regions vm.table) :
    Locked regions (vm.mapZeroPages frm upto opts).table :=
  mapZeroPages_keeps (I := fun vm => Locked regions vm.table)
    (fun _ _ _ hvm => hvm.update (fun _ => locked_absent rfl)) h

/-- After the loop nothing is mapped at any page that it visited. -/
theorem mapZeroPages_absent {pages : List Nat} {pp : Nat} (hpp : pp ∈ pages) :
    ((pages.foldl (Vm.mapZeroPage · opts) vm).entry pp).present = false := by
  induction pages generalizing vm with
  | nil => cases hpp
  | cons first rest ih =>
    rw [foldl_cons]
    by_cases hrest : pp ∈ rest
    · exact ih hrest
    have hfirst : pp = first := by
      rcases mem_cons.1 hpp with h | h
      · exact h
      · exact absurd h hrest
    subst hfirst
    -- no later round brings the page back
    refine foldlRecOn rest (Vm.mapZeroPage · opts)
      (motive := fun vm => (vm.entry pp).present = false) ?_ ?_
    · rw [Vm.mapZeroPage, Vm.setEntry_entry]
      rfl
    intro vm hvm virt _
    by_cases hsame : pageNumber pp = pageNumber virt
    · unfold Vm.entry Vm.mapZeroPage
      rw [Vm.setEntry_table, hsame, update_self]
      rfl
    · unfold Vm.entry Vm.mapZeroPage
      rw [Vm.setEntry_table, update_of_ne hsame]
      exact hvm

/-- A new region has no pages yet. -/
theorem Locked.addZeroed (h : Locked regions vm.table) (hend : (rgn.upto + 1) % gPageSize = 0) :
    Locked (add rgn regions) (vm.mapZeroPages rgn.frm rgn.upto opts).table := by
  intro i hi
  rcases readOnlyPage_add hi with hold | ⟨_, addr, _, haddr, hin⟩
  · exact h.mapZeroPages i hold
  · obtain ⟨pp, hpp, hpage⟩ := pagesUpto_covers hend hin
    rw [← haddr, ← hpage]
    exact locked_absent (mapZeroPages_absent hpp)

/-- A region that is removed is taken from the list. -/
theorem removeRegion_sublist {vm' : Vm} (h : mm.removeRegion vm rgn = .ok (mm', vm')) :
    mm'.mRegions.Sublist mm.mRegions := by
  unfold removeRegion at h
  split at h
  · obtain ⟨hmm, _⟩ := ok_pair h
    rw [← hmm]
  next regions hdel =>
  obtain ⟨vm₁, _, h⟩ := ok_bind h
  obtain ⟨hmm, _⟩ := ok_pair h
  rw [← hmm]
  exact del_sublist hdel

theorem Locked.removeRegion {vm' : Vm} (h : Locked mm.mRegions vm.table)
    (hremove : mm.removeRegion vm rgn = .ok (mm', vm')) :
    Locked mm'.mRegions vm'.table ∧ mm'.mRegions.Sublist mm.mRegions := by
  have hvm' : Locked mm.mRegions vm'.table := by
    have hsat := @removeRegion_sat (fun vm => Locked mm.mRegions vm.table)
      (fun _ => True) mm vm rgn (by
        intro virt _ vm hvm
        refine Sat.of_result fun vm₁ hunmap => ?_
        rw [(Vm.unmap_table hunmap).1]
        exact hvm.update (fun _ => locked_absent rfl)) h
    exact hsat.result hremove
  have hsub := removeRegion_sublist hremove
  exact ⟨hvm'.mono (fun r hr _ => hsub.subset hr), hsub⟩

end Ranges

-- ==== permissions

section Permissions

variable {regions : List Region} {rgn : Region} {opts : MapOptions} {vm : Vm}
  {addr i : Nat} {pages : List Nat}

/-- The region found is the one that changes; the others are as they
were. -/
theorem mem_setPermission (hfound : contains addr regions = some rgn)
    {r : Region} (hr : r ∈ setPermission rgn opts regions) :
    r = { rgn with permission := opts } ∨ r ∈ regions.erase rgn := by
  induction regions with
  | nil => cases hr
  | cons first rest ih =>
    have hin : (ival rgn).contains addr = true := (contains_some hfound).2
    unfold contains at hfound
    unfold setPermission at hr
    split_ifs at hfound with hbefore hfirst
    · cases hfound
      rw [if_pos (by unfold Region.sameBounds; simp)] at hr
      rw [erase_cons_head]
      exact mem_cons.1 hr
    -- a region with the same bounds would have been found first
    have hdiffer : first.sameBounds rgn = false := by
      by_contra hsame
      rw [Bool.not_eq_false] at hsame
      unfold Region.sameBounds at hsame
      rw [Bool.and_eq_true, beq_iff_eq, beq_iff_eq] at hsame
      apply hfirst
      rw [Interval.contains_iff] at hin ⊢
      show first.frm ≤ addr ∧ addr ≤ first.upto
      rw [hsame.1, hsame.2]
      exact hin
    have hne : first ≠ rgn := by
      rintro rfl
      unfold Region.sameBounds at hdiffer
      simp at hdiffer
    rw [hdiffer, if_neg Bool.false_ne_true] at hr
    rw [erase_cons_tail (by simpa using hne)]
    rcases mem_cons.1 hr with rfl | hr
    · exact .inr mem_cons_self
    · rcases ih hfound hr with h | h
      · exact .inl h
      · exact .inr (mem_cons_of_mem first h)

theorem Neat.setPermission (h : Neat regions)
    (hfound : contains addr regions = some rgn) (rw : Bool) :
    Neat (setPermission rgn { rgn.permission with rw := rw } regions) := by
  intro r hr
  rcases mem_setPermission hfound hr with rfl | hr
  · exact h rgn (contains_some hfound).1
  · exact h r (mem_of_mem_erase hr)

/-- What is read-only after a change of permission. -/
theorem readOnlyPage_setPermission (hfound : contains addr regions = some rgn)
    (h : ReadOnlyPage (setPermission rgn opts regions) i) :
    ReadOnlyPage (regions.erase rgn) i ∨ opts.rw = false ∧
      ∃ addr, pageNumber addr = i ∧ rgn.toInterval.contains addr = true := by
  obtain ⟨addr, huser, hi, r, hr, hro, hin⟩ := h
  rcases mem_setPermission hfound hr with rfl | hr
  · exact .inr ⟨hro, addr, hi, hin⟩
  · exact .inl ⟨addr, huser, hi, r, hr, hro, hin⟩

/-- `protectPage` may change the right to write of one entry, and a page
that is there loses it when it should. -/
theorem protectPage_table (opts : MapOptions) (vm : Vm) (pp : Nat) :
    ∃ rw, (protectPage opts vm pp).table =
        update vm.table (pageNumber pp) { vm.entry pp with rw := rw } ∧
      (opts.rw = false → (vm.entry pp).present = true → rw = false) := by
  by_cases hlock : opts.rw = false ∧ (vm.entry pp).present = true
  · obtain ⟨hrw, hpresent⟩ := hlock
    refine ⟨opts.rw, ?_, fun _ _ => hrw⟩
    rw [protectPage_present hpresent (by rw [hrw]; exact nofun), Vm.setEntry_table]
  rcases protectPage_eq opts vm pp with hsame | ⟨_, hset⟩
  · refine ⟨(vm.entry pp).rw, ?_, fun h₁ h₂ => absurd ⟨h₁, h₂⟩ hlock⟩
    rw [hsame]
    exact (update_eq_self _ _).symm
  · refine ⟨opts.rw, ?_, fun h _ => h⟩
    rw [hset, Vm.setEntry_table]

/-- Pages that the loop does not visit are left alone. -/
theorem protect_other (h : ∀ pp ∈ pages, pageNumber pp ≠ i) :
    (pages.foldl (protectPage opts) vm).table i = vm.table i := by
  refine foldlRecOn pages (protectPage opts) (motive := fun vm' => vm'.table i = vm.table i) rfl ?_
  intro vm' hvm' pp hpp
  obtain ⟨rw, htable, _⟩ := protectPage_table opts vm' pp
  rw [htable, update_of_ne (h pp hpp).symm]
  exact hvm'

/-- Where no page waits to be copied, the loop locks those it visits, and
opens none. -/
theorem protect_locked (hrw : opts.rw = false) :
    ∀ {vm : Vm}, (∀ pp ∈ pages, ¬ ((vm.entry pp).present = true ∧ (vm.entry pp).cow = true)) →
      ((vm.table i).Locked ∨ ∃ pp ∈ pages, pageNumber pp = i) →
      ((pages.foldl (protectPage opts) vm).table i).Locked := by
  induction pages with
  | nil =>
    intro vm _ h
    rcases h with h | ⟨pp, hpp, _⟩
    · exact h
    · cases hpp
  | cons first rest ih =>
    intro vm hcow h
    obtain ⟨rw, htable, hlost⟩ := protectPage_table opts vm first
    rw [foldl_cons]
    apply ih
    · intro pp hpp
      have hbefore := hcow pp (mem_cons_of_mem first hpp)
      unfold Vm.entry at hbefore ⊢
      rw [htable]
      by_cases hsame : pageNumber pp = pageNumber first
      · rw [hsame, update_self]
        rw [hsame] at hbefore
        exact hbefore
      · rw [update_of_ne hsame]
        exact hbefore
    by_cases hi : i = pageNumber first
    · refine .inl ?_
      rw [htable, hi, update_self]
      intro hpresent
      refine ⟨hlost hrw hpresent, ?_⟩
      have hfirst := hcow first mem_cons_self
      rw [not_and, Bool.not_eq_true] at hfirst
      exact hfirst hpresent
    rcases h with h | ⟨pp, hpp, hpage⟩
    · refine .inl ?_
      rw [htable, update_of_ne hi]
      exact h
    · rcases mem_cons.1 hpp with rfl | hpp
      · exact absurd hpage.symm hi
      · exact .inr ⟨pp, hpp, hpage⟩

/-- The whole of `protectRegionAtAddress`. -/
theorem Locked.protect (hneat : Neat regions) (h : Locked regions vm.table)
    (hfound : contains addr regions = some rgn)
    (hguard : ∀ pp ∈ Vm.pagesUpto rgn.frm rgn.upto,
      if opts.rw then ¬ ReadOnlyPage (regions.erase rgn) (pageNumber pp)
      else ¬ ((vm.entry pp).present = true ∧ (vm.entry pp).cow = true)) :
    Locked (setPermission rgn opts regions) ((Vm.pagesUpto rgn.frm rgn.upto).foldl
        (protectPage opts) vm).table := by
  intro i hi
  have hold : ReadOnlyPage (regions.erase rgn) i → (vm.table i).Locked :=
    fun hro => h i (hro.mono (fun r hr _ => mem_of_mem_erase hr))
  cases hrw : opts.rw with
  | true =>
    simp only [hrw, if_true] at hguard
    rcases readOnlyPage_setPermission hfound hi with hro | ⟨hno, _⟩
    · rw [protect_other (fun pp hpp hpage => hguard pp hpp (hpage ▸ hro))]
      exact hold hro
    · cases hrw.symm.trans hno
  | false =>
    simp only [hrw, Bool.false_eq_true, if_false] at hguard
    apply protect_locked hrw hguard
    rcases readOnlyPage_setPermission hfound hi with hro | ⟨_, a, ha, hin⟩
    · exact .inl (hold hro)
    · obtain ⟨pp, hpp, hpage⟩ := pagesUpto_covers (hneat rgn (contains_some hfound).1).1 hin
      exact .inr ⟨pp, hpp, hpage.trans ha⟩

end Permissions

-- ==== sharing

section Sharing

variable {regions : List Region} {vm : Vm}

theorem TableEntry.Locked.shared {e : TableEntry} (h : e.Locked)
    (hpresent : e.present = true) : e.shared = e := by
  unfold TableEntry.shared
  rw [(h hpresent).1]
  rfl

theorem Locked.cloneAddressSpace (h : Locked regions vm.table)
    {space : AddressSpace} {table : Nat → TableEntry} {vm' : Vm}
    (hclone : cloneAddressSpace vm = .ok (space, table, vm')) :
    Locked regions table ∧ Locked regions vm'.table := by
  have hshared := cloneAddressSpace_tables hclone
  have hboth : ∀ i, ReadOnlyPage regions i → (table i).Locked ∧ (vm'.table i).Locked := by
    intro i hi
    cases hpresent : (vm.table i).present with
    | true =>
      obtain ⟨hmine, htheirs⟩ := hshared.done i hi.user hpresent
      rw [(h i hi).shared hpresent] at hmine htheirs
      rw [show table i = vm.table i from htheirs, show vm'.table i = vm.table i from hmine]
      exact ⟨h i hi, h i hi⟩
    | false =>
      obtain ⟨hmine, htheirs⟩ := hshared.absent i hi.user hpresent
      rw [show table i = {} from htheirs, show vm'.table i = vm.table i from hmine]
      exact ⟨locked_absent rfl, h i hi⟩
  exact ⟨fun i hi => (hboth i hi).1, fun i hi => (hboth i hi).2⟩

end Sharing

-- ==== loading

/-- What the loader asks for is writable. -/
def AllWritable (regions : List Region) : Prop :=
  Neat regions ∧ ∀ r ∈ regions, r.permission.rw = true

theorem AllWritable.locked {regions : List Region} (h : AllWritable regions)
    (table : Nat → TableEntry) : Locked regions table :=
  fun _ hi => absurd hi (not_readOnlyPage h.2)

theorem AllWritable.add {regions : List Region} {rgn : Region}
    (h : AllWritable regions) (hend : (rgn.upto + 1) % gPageSize = 0)
    (hcow : rgn.permission.cow = false) (hrw : rgn.permission.rw = true) :
    AllWritable (add rgn regions) := by
  refine ⟨h.1.add hend hcow, ?_⟩
  intro r hr
  rcases mem_add.1 hr with rfl | hr
  · exact hrw
  · exact h.2 r hr

theorem segmentEnd_mod {p : Program} (h : p.memsz = 0 → p.vaddr % gPageSize = 0) :
    (sub32 (Loading.segmentEnd p) 1 + 1) % gPageSize = 0 := by
  have hend : Loading.segmentEnd p % gPageSize = 0 := by
    unfold Loading.segmentEnd
    split
    next hempty => exact h hempty
    · unfold page gPageSize
      omega
  unfold sub32 gPageSize at *
  omega

theorem writable_loaderRules : LoaderRules (fun l => AllWritable l.mm.mRegions) (fun _ => True)
      (fun p => p.memsz = 0 → p.vaddr % gPageSize = 0) where
  zeroRegion l size opts rgn mm vm h hrw hcow _ hfind := by
    obtain ⟨hrange, hrgn, rfl, _⟩ := findAndZeroPageRegion_some hfind
    refine h.add (h.1.findRegionImpl hrange) ?_ ?_
    · rw [hrgn]
      exact hcow
    · rw [hrgn]
      exact hrw
  mapRegion l size h := by
    unfold findAndMapRegion
    cases hfind : l.mm.findRegionImpl size with
    | none => exact Sat.ok nofun
    | some range =>
      refine Sat.bind (Sat.of_result fun _ _ => trivial) ?_
      intro vm _ _
      refine Sat.ok ?_
      intro rgn mm vm' hr
      cases hr
      exact h.add (h.1.findRegionImpl hfind) rfl rfl
  touch l vaddr h := Sat.of_result fun _ _ => h
  copySegment l p h _ := Sat.of_result fun _ _ => h
  addSegment l p h hp := h.add (segmentEnd_mod hp) rfl rfl
  guardPage l addr h := by
    refine h.add ?_ rfl rfl
    show (page addr + (gPageSize - 1) + 1) % gPageSize = 0
    unfold page gPageSize
    omega
  removeRegion l rgn h := by
    refine Sat.of_result fun r hremove => ?_
    have hsub := ((h.locked l.vm.table).removeRegion hremove).2
    exact ⟨fun r hr => h.1 r (hsub.subset hr), fun r hr => h.2 r (hsub.subset hr)⟩
  noStack := trivial
  tooMany := trivial

-- ==== every step

namespace System

/-- The invariant of a process. While nothing is loaded all of its regions
are writable. -/
structure Shielded (t : Task) : Prop where
  neat : t.status ≠ .exited → Neat t.mm.mRegions
  fresh : t.status = .created → AllWritable t.mm.mRegions
  locked : Locked t.mm.mRegions t.table

variable {s : System} {a : MemAction} {p vaddr : Nat} {t u : Task}
  {rgn : Region} {vm : Vm} {opts : MapOptions} {file : FileRead}

theorem Shielded.running (h : Shielded t) (hrun : t.status = .running) : Neat t.mm.mRegions :=
  h.neat (running_live hrun)

/-- A process that runs, with regions and entries in order. -/
theorem shielded_running (hrun : u.status = .running)
    (hneat : Neat u.mm.mRegions) (hlocked : Locked u.mm.mRegions u.table) :
    Shielded u := by
  refine ⟨fun _ => hneat, ?_, hlocked⟩
  intro hcreated
  cases hrun.symm.trans hcreated

/-- A region that is new to the process. -/
theorem Shielded.addRegion {mm : MemoryManager} {size : Nat} (hneat : Neat t.mm.mRegions)
    (hlocked : Locked t.mm.mRegions t.table)
    (hfind : t.mm.findRegionImpl size = some rgn.toInterval)
    (hcow : rgn.permission.cow = false) (hmm : mm = t.mm.addRegion rgn)
    (hvm : vm = (s.view t).mapZeroPages rgn.frm rgn.upto opts) :
    Neat mm.mRegions ∧ Locked mm.mRegions vm.table := by
  subst hmm hvm
  have hend := hneat.findRegionImpl hfind
  exact ⟨hneat.add hend hcow, hlocked.view.addZeroed hend⟩

theorem Shielded.accessed {write : Bool} (h : Shielded t) (hrun : t.status = .running)
    (hguard : ∀ region, t.mm.isWithinRegion (s.view t) vaddr = some region →
      region.permission.rw = true →
      ¬ ReadOnlyPage t.mm.mRegions (pageNumber vaddr))
    (haccess : userAccess t.mm (s.view t) vaddr write file = .ok (true, vm)) :
    Shielded { t with table := vm.table } ∧
      (write = true → ¬ ReadOnlyPage t.mm.mRegions (pageNumber vaddr)) := by
  have hneat := h.running hrun
  obtain ⟨hlocked, hrefused⟩ := (Shut.access hneat hguard h.locked.view).result haccess
  exact ⟨shielded_running hrun hneat hlocked, hrefused rfl⟩

theorem Shielded.becomes (hall : ∀ p t, s.tasks p = some t → Shielded t)
    (hok : s.KeepsReadOnly a) (h : Becomes s a p u) : Shielded u := by
  cases h with
  | spawned =>
    have hinit : AllWritable init.mRegions := by
      rw [init_mRegions]
      unfold AllWritable Neat
      decide
    exact ⟨fun _ => hinit.1, fun _ => hinit, fun _ _ => locked_absent rfl⟩
  | loaded ht hstatus hload =>
    have hloaded := (Loading.loadBinary_sat writable_loaderRules hok
      ((hall _ _ ht).fresh hstatus)).result hload
    exact shielded_running rfl hloaded.1 (hloaded.locked _)
  | parent ht hrun hclone =>
    have ht := hall _ _ ht
    exact shielded_running hrun (ht.running hrun) (ht.locked.view.cloneAddressSpace hclone).2
  | child ht hrun hclone =>
    have ht := hall _ _ ht
    exact ⟨fun _ => ht.running hrun, nofun, (ht.locked.view.cloneAddressSpace hclone).1⟩
  | @cloneStarted p t l ht hstatus hstart =>
    have ht := hall _ _ ht
    have hneat := ht.neat (hstatus.trans_ne Status.noConfusion)
    unfold Loading.cloneStart at hstart
    split at hstart
    · subst hstart
      exact shielded_running rfl hneat ht.locked.view
    next rgn mm vm hfind =>
    subst hstart
    obtain ⟨hrange, hrgn, hmm, hvm⟩ := findAndZeroPageRegion_some hfind
    have hnew := Shielded.addRegion hneat ht.locked hrange (by rw [hrgn]; rfl) hmm hvm
    exact shielded_running rfl hnew.1 hnew.2
  | mapped ht hrun hfind =>
    have ht := hall _ _ ht
    obtain ⟨hrange, hrgn, hmm, hvm⟩ := findAndZeroPageRegion_some hfind
    have hnew := Shielded.addRegion (ht.running hrun) ht.locked hrange (by rw [hrgn]) hmm hvm
    exact shielded_running hrun hnew.1 hnew.2
  | fileMapped ht hrun hfind =>
    have ht := hall _ _ ht
    obtain ⟨hrange, hrgn, hmm, hvm⟩ := findAndFileMapRegion_some hfind
    have hnew := Shielded.addRegion (ht.running hrun) ht.locked hrange (by rw [hrgn]) hmm hvm
    exact shielded_running hrun hnew.1 hnew.2
  | unmapped ht hrun huser hfound hremove =>
    have ht := hall _ _ ht
    obtain ⟨hlocked, hsub⟩ := ht.locked.view.removeRegion hremove
    exact shielded_running hrun (fun r hr => ht.running hrun r (hsub.subset hr)) hlocked
  | @reprotected p address perm t rgn htask hrun huser hfound =>
    have ht := hall _ _ htask
    have hin := isWithinRegion_user huser hfound
    exact shielded_running hrun ((ht.running hrun).setPermission hin _)
      (Locked.protect (ht.running hrun) ht.locked.view hin (hok t rgn htask hfound))
  | @read p vaddr file t vm ht hrun haccess =>
    exact ((hall _ _ ht).accessed hrun (hok t · ht) haccess).1
  | @written p vaddr byte file t vm ht hrun haccess =>
    exact ((hall _ _ ht).accessed hrun (hok.1 t · ht) haccess).1
  | exited hstatus hempty =>
    refine ⟨fun h => absurd hstatus h, ?_, ?_⟩
    · intro hcreated
      cases hstatus.symm.trans hcreated
    · intro i hi
      rw [hempty i hi.user]
      exact locked_absent rfl

-- ==== the result

theorem ReadOnly.of_setPermission {regions : List Region} {addr : Nat} (hmem : rgn ∈ regions)
    (hrw : opts.rw = false) (hin : rgn.toInterval.contains addr = true) :
    ReadOnly (setPermission rgn opts regions) addr := by
  induction regions with
  | nil => cases hmem
  | cons first rest ih =>
    unfold setPermission
    split
    next hsame =>
      unfold Region.sameBounds at hsame
      rw [Bool.and_eq_true, beq_iff_eq, beq_iff_eq] at hsame
      refine ⟨_, mem_cons_self, hrw, ?_⟩
      rw [Interval.contains_iff] at hin ⊢
      rw [hsame.1, hsame.2]
      exact hin
    next hdiffer =>
    have hrest : rgn ∈ rest := by
      rcases mem_cons.1 hmem with rfl | h
      · unfold Region.sameBounds at hdiffer
        simp at hdiffer
      · exact h
    obtain ⟨r, hr, hro, hr'⟩ := ih hrest
    exact ⟨r, mem_cons_of_mem _ hr, hro, hr'⟩

theorem Reset.readOnly {s' : System} {t' : Task} {frm : Nat} (h : Reset s p t s' t' frm opts false)
    (hfound : contains frm t.mm.mRegions
      = some { frm := frm, upto := frm + 0xFFF, permission := opts }) :
    ReadOnly t'.mm.mRegions frm := by
  rw [h.regions]
  refine ReadOnly.of_setPermission (contains_some hfound).1 rfl ?_
  rw [Interval.contains_iff]
  show frm ≤ frm ∧ frm ≤ frm + 0xFFF
  omega

/-- An executable with a page of data. -/
def dataImage : Image where
  fileSize := 0x1000
  entry := 0x08048000
  programs := [{ vaddr := 0x08048000, memsz := 0x1000, filesz := 0x1000,
                 writable := true }]

/-- The process runs, with its data in place. -/
def hasData (t : Task) : Bool :=
  decide (t.status = .running) && (t.table 0x8048).present &&
    (t.table 0x8048).rw && (t.table 0x8048).user &&
    decide (contains 0x08048000 t.mm.mRegions = some { frm := 0x08048000, upto := 0x08048FFF })

theorem hasData_iff {t : Task} : hasData t = true ↔ t.status = .running ∧
    (t.table 0x8048).present = true ∧ (t.table 0x8048).rw = true ∧ (t.table 0x8048).user = true ∧
    contains 0x08048000 t.mm.mRegions = some { frm := 0x08048000, upto := 0x08048FFF } := by
  simp only [hasData, Bool.and_eq_true, decide_eq_true_eq, and_assoc]

theorem plain_hasData : ∃ s t, (memSystem plain).run [.spawn 1, .load 1 dataImage] plain = .ok s ∧
      s.roomForClone = true ∧ s.tasks 1 = some t ∧ hasData t = true ∧ 775 ≤ s.pmm.mFreePages := by
  have h : ∃ s, (memSystem plain).run [.spawn 1, .load 1 dataImage] plain = .ok s ∧
        (s.roomForClone && (s.tasks 1).any hasData && decide (775 ≤ s.pmm.mFreePages)) = true := by
    rw [← Machine.endsWith_iff, Machine.endsWith_cons,
      show (memSystem plain).step (.spawn 1) plain = _ from plain_spawn]
    decide +kernel
  obtain ⟨s, hrun, htest⟩ := h
  rw [Bool.and_eq_true, decide_eq_true_eq, Bool.and_eq_true, Option.any_eq_true] at htest
  obtain ⟨⟨hroom, t, ht, hdata⟩, hfree⟩ := htest
  exact ⟨s, t, hrun, hroom, ht, hdata, hfree⟩

theorem write_copies {byte : UInt8} (hb : Books s) (ht : s.tasks p = some t)
    (hrun : t.status = .running)
    (huser : vaddr < gKernelBase) (hroom : Roomy s.pmm 1)
    (hpresent : (t.table (pageNumber vaddr)).present = true)
    (hrw : (t.table (pageNumber vaddr)).rw = false)
    (hcow : (t.table (pageNumber vaddr)).cow = true)
    (hown : (t.table (pageNumber vaddr)).user = true) :
    ∃ s' t', step (.write p vaddr byte file) s = .ok s' ∧ s'.tasks p = some t' ∧ t'.mm = t.mm ∧
      permits (t'.table (pageNumber vaddr)) true = true := by
  have hentry : (s.view t).entry vaddr = t.table (pageNumber vaddr) :=
    look_user (pageNumber_user huser).1
  rw [← hentry] at hpresent hrw hcow hown
  have hfree : (s.view t).pmm.alloc ≠ none := by
    obtain ⟨_, _, halloc, _⟩ := hroom.alloc
    rw [show (s.view t).pmm = s.pmm from rfl, halloc]
    exact Option.some_ne_none _
  obtain ⟨vm', hcopy, hpresent', hrw', hown', _⟩ :=
    cowRecover_copies ((hb.accounts ht).held vaddr) hfree hpresent
  have hallowed : permits (vm'.entry vaddr) true = true := by
    unfold permits
    rw [hpresent', hrw', hown', hown]
    rfl
  have hfault : pagefltHandler t.mm (s.view t) vaddr true file = .ok (true, vm') := by
    unfold pagefltHandler Vm.isZeroPageAccess Vm.isCOWAccess
    rw [hpresent, hrw, hcow]
    simp only [Bool.not_true, Bool.and_false, Bool.not_false, Bool.and_true,
      Bool.false_eq_true, if_false, if_true]
    exact hcopy
  have haccess : userAccess t.mm (s.view t) vaddr true file = .ok (true, vm') := by
    have hdenied : permits ((s.view t).entry vaddr) true = false := by
      unfold permits
      rw [hrw]
      simp
    unfold userAccess access
    rw [hdenied, if_neg Bool.false_ne_true, hfault, bind_ok]
    dsimp only
    rw [if_pos rfl]
    unfold access
    rw [if_pos hallowed]
  have htop : permits (t.space.topEntry (pageNumber vaddr)) true = false := by
    unfold AddressSpace.topEntry
    rw [if_neg ((pageNumber_user huser).1.trans (by decide)).ne]
    rfl
  refine ⟨s.store p t t.mm (storeByte vaddr byte vm'), _, ?_, store_self, rfl, hallowed⟩
  show s.accessMemory p vaddr true file (storeByte vaddr byte) = _
  unfold accessMemory find
  rw [ht]
  dsimp only
  rw [if_pos hrun, bind_ok, htop, if_neg Bool.false_ne_true, haccess, bind_ok]
  rfl

end System

end Puppy.Mm
