/-
A clone has the memory of its parent.

An entry that is shared is as good as the original: what could be written
to is copied first, and the rest is as it was. An entry that is left out was
not present, and of such an entry nothing matters but that it is not present
and points nowhere (`Tidy`); the region decides, and the list of regions is
the same. So what an access comes to (`expected`) is the same on both sides.

The frames keep their bytes because they are held, and what is allocated for
the new process is not. That rests on the counters, and so do the copies
later on, which give the old frame back: a counter that has wrapped makes
the kernel panic over it.
-/
import Puppy.Mm.Proofs.Protection

namespace Puppy.Mm

open Libc Lib PhysicalPageManager PageFault MemoryManager Function

-- ==== entries that are not there

/-- An entry that is not present points nowhere. -/
def Tidy (table : Nat → TableEntry) : Prop :=
  ∀ i < gNumUserPages, (table i).present = false → (table i).page = 0

section Tidy

variable {table : Nat → TableEntry} {vm vm' : Vm} {virt : Nat} {opts : MapOptions}

theorem tidy_empty : Tidy fun _ => {} := fun _ _ _ => rfl

theorem Tidy.update (h : Tidy table) {n : Nat} {e : TableEntry}
    (he : e.present = false → e.page = 0) :
    Tidy (update table n e) := by
  intro i hi
  by_cases hin : i = n
  · rw [hin, update_self]
    exact he
  · rw [update_of_ne hin]
    exact h i hi

/-- A page that is mapped is there. -/
theorem Tidy.mapAny (h : Tidy vm.table) :
    Sat (vm.mapAnyPhysicalPage virt opts) (fun vm => Tidy vm.table) (fun _ => True) := by
  refine Vm.mapAnyPhysicalPage_sat h trivial fun idx vm' hmapped => ?_
  rw [hmapped.table]
  exact h.update nofun

theorem Tidy.unmap (h : Tidy vm.table) :
    Sat (vm.unmap virt) (fun vm => Tidy vm.table) (fun _ => True) := by
  refine Sat.of_result fun vm' hunmap => ?_
  rw [(Vm.unmap_table hunmap).1]
  exact h.update (fun _ => rfl)

theorem Tidy.mapZeroPages (h : Tidy vm.table) (frm upto : Nat)
    (opts : MapOptions) : Tidy (vm.mapZeroPages frm upto opts).table :=
  mapZeroPages_keeps (I := fun vm => Tidy vm.table) (fun _ _ _ hvm => hvm.update (fun _ => rfl)) h

/-- Another right to write. -/
theorem Tidy.setRights (h : Tidy vm.table) (virt : Nat) (rw : Bool) :
    Tidy (vm.setEntry virt { vm.entry virt with rw := rw }).table := by
  intro i hi
  rw [Vm.setEntry_table]
  by_cases hin : i = pageNumber virt
  · rw [hin, update_self]
    exact h _ (hin ▸ hi)
  · rw [update_of_ne hin]
    exact h i hi

theorem tidy_faultRules (mm : MemoryManager) (vaddr : Nat) :
    FaultRules (fun vm => Tidy vm.table) (fun _ => True) mm vaddr where
  fresh _ _ _ h _ := h.mapAny
  store _ _ _ h _ _ _ _ := h
  copy vm opts h _ _ := by
    refine Sat.of_result fun copied hclone => ?_
    intro vm' hvm'
    rw [hvm'] at hclone
    obtain ⟨⟨_, _, htable⟩, _⟩ := Vm.clonePage_table hclone
    rw [htable]
    exact h.update nofun

theorem tidy_segmentRules : SegmentRules (fun vm => Tidy vm.table) (fun _ => True)
      (fun _ => True) where
  fresh _ _ _ _ h := h.mapAny
  store _ _ _ _ h _ _ := h
  flags _ virt rw _ h _ := h.setRights virt rw

/-- Permissions do not touch the frames. -/
theorem Tidy.protect (h : Tidy vm.table) (pages : List Nat) :
    Tidy (pages.foldl (protectPage opts) vm).table := by
  refine List.foldlRecOn pages _ (motive := fun (vm : Vm) => Tidy vm.table) h ?_
  intro vm hvm pp _
  rcases protectPage_eq opts vm pp with hsame | ⟨_, hset⟩
  · rw [hsame]
    exact hvm
  · rw [hset]
    exact hvm.setRights pp opts.rw

/-- Entries that are not there are left out of the clone. -/
theorem Tidy.cloneAddressSpace (h : Tidy vm.table) {space : AddressSpace}
    (hclone : cloneAddressSpace vm = .ok (space, table, vm')) :
    Tidy table ∧ Tidy vm'.table := by
  have hshared := cloneAddressSpace_tables hclone
  constructor
  · intro i hi hp
    cases hpresent : (vm.table i).present with
    | true =>
      rw [show table i = _ from (hshared.done i hi hpresent).2,
        TableEntry.shared_present, hpresent] at hp
      cases hp
    | false => rw [show table i = {} from (hshared.absent i hi hpresent).2]
  intro i hi hp
  cases hpresent : (vm.table i).present with
  | true =>
    rw [show vm'.table i = _ from (hshared.done i hi hpresent).1,
      TableEntry.shared_present, hpresent] at hp
    cases hp
  | false =>
    rw [show vm'.table i = vm.table i from
      (hshared.absent i hi hpresent).1]
    exact h i hi hpresent

end Tidy

-- ==== regions

/-- All regions of a list come with known bytes. -/
def AllClean (regions : List Region) : Prop := ∀ r ∈ regions, r.Clean

section Clean

variable {regions : List Region} {rgn : Region} {mm mm' : MemoryManager} {size : Nat} {vm vm' : Vm}

theorem AllClean.add (h : AllClean regions) (hrgn : rgn.Clean) :
    AllClean (IntervalList.add rgn regions) := by
  intro r hr
  rcases IntervalList.mem_add.1 hr with rfl | hr
  · exact hrgn
  · exact h r hr

/-- Kernel permission. -/
theorem clean_unchecked (frm upto : Nat) : ({ frm := frm, upto := upto } : Region).Clean :=
  ⟨rfl, nofun⟩

theorem clean_init : AllClean init.mRegions := by
  intro r hr
  rw [init_mRegions, List.mem_cons, List.mem_singleton] at hr
  rcases hr with rfl | rfl
  · exact clean_unchecked _ _
  · exact clean_unchecked _ _

theorem AllClean.setPermission (h : AllClean regions) {addr : Nat} (rw : Bool)
    (hfound : IntervalList.contains addr regions = some rgn) :
    AllClean (setPermission rgn { rgn.permission with rw := rw } regions) := by
  intro r hr
  rcases mem_setPermission hfound hr with rfl | hr
  · exact h rgn (IntervalList.contains_some hfound).1
  · exact h r (List.mem_of_mem_erase hr)

/-- A region of no bytes is not handed out. -/
theorem size_of_findRegionImpl {range : Interval}
    (h : mm.findRegionImpl size = some range) : ∃ n, size = n + 1 := by
  cases size with
  | zero => cases h
  | succ n => exact ⟨n, rfl⟩

theorem AllClean.zeroRegion {opts : MapOptions} (h : AllClean mm.mRegions) (hcow : opts.cow = false)
    (hclear : opts.clear = true)
    (hfind : mm.findAndZeroPageRegion vm size opts = some (rgn, mm', vm')) :
    AllClean mm'.mRegions := by
  obtain ⟨_, hrgn, rfl, _⟩ := findAndZeroPageRegion_some hfind
  refine AllClean.add h ?_
  rw [hrgn]
  exact ⟨hcow, fun _ => .inl hclear⟩

theorem AllClean.fileRegion (h : AllClean mm.mRegions)
    (hfind : mm.findAndFileMapRegion vm size = some (rgn, mm', vm')) :
    AllClean mm'.mRegions := by
  obtain ⟨hrange, hrgn, hmm, _⟩ := findAndFileMapRegion_some hfind
  obtain ⟨n, rfl⟩ := size_of_findRegionImpl hrange
  rw [hmm]
  refine AllClean.add h ?_
  rw [hrgn]
  exact ⟨rfl, fun _ => .inr ⟨n, rfl⟩⟩

/-- The loader maps pages and adds clean regions only. -/
theorem orderly_loaderRules : LoaderRules (fun l => Tidy l.vm.table ∧ AllClean l.mm.mRegions)
      (fun _ => True) (fun _ => True) where
  zeroRegion l size opts rgn mm vm h _ hcow hclear hfind := by
    refine ⟨?_, h.2.zeroRegion hcow hclear hfind⟩
    rw [(findAndZeroPageRegion_some hfind).2.2.2]
    exact h.1.mapZeroPages _ _ _
  mapRegion l size h := by
    unfold findAndMapRegion
    cases hfind : l.mm.findRegionImpl size with
    | none => exact Sat.ok nofun
    | some range =>
      refine Sat.bind (Sat.foldlM_mem h.1 (fun virt _ vm hvm => Tidy.mapAny hvm)) ?_
      intro vm _ hvm
      refine Sat.ok ?_
      intro rgn mm vm' hr
      cases hr
      exact ⟨hvm, AllClean.add h.2 ⟨rfl, fun _ => .inl rfl⟩⟩
  touch l vaddr h :=
    (kernelTouch_sat (tidy_faultRules l.mm vaddr) h.1).mono (fun _ hvm => ⟨hvm, h.2⟩)
  copySegment l p h _ :=
    (Loading.loadPages_sat tidy_segmentRules p.memsz
      (fun _ _ _ _ => trivial) h.1).mono (fun _ hvm => ⟨hvm, h.2⟩)
  addSegment l p h _ := ⟨h.1, AllClean.add h.2 (clean_unchecked _ _)⟩
  guardPage l addr h := ⟨h.1, AllClean.add h.2 (clean_unchecked _ _)⟩
  removeRegion l rgn h := by
    refine Sat.of_result fun r hremove => ?_
    have htidy := (removeRegion_sat (fun _ _ _ hvm => Tidy.unmap hvm) h.1).result hremove
    refine ⟨htidy, fun r hr => ?_⟩
    exact h.2 r ((removeRegion_sublist hremove).subset hr)
  noStack := trivial
  tooMany := trivial

end Clean

-- ==== frames that are held

/-- What is held stays held, with the bytes it has. -/
def Vm.Respects (vm vm' : Vm) : Prop :=
  ∀ f, (vm.pmm.mPages f).refcnt ≠ 0 → (vm'.pmm.mPages f).refcnt ≠ 0 ∧ vm'.memory f = vm.memory f

section Respects

variable {vm vm' : Vm} {virt : Nat} {opts : MapOptions}

theorem Vm.Respects.trans {vm'' : Vm} (h : vm.Respects vm')
    (h' : vm'.Respects vm'') : vm.Respects vm'' := by
  intro f hf
  obtain ⟨hcount, hmemory⟩ := h f hf
  obtain ⟨hcount', hmemory'⟩ := h' f hcount
  exact ⟨hcount', hmemory'.trans hmemory⟩

/-- Memory that is allocated was free. -/
theorem mapAny_respects (h : vm.mapAnyPhysicalPage virt opts = .ok vm') : vm.Respects vm' := by
  rcases Vm.mapAnyPhysicalPage_ok h with ⟨_, rfl⟩ | ⟨idx, hmapped⟩
  · exact fun f hf => ⟨hf, rfl⟩
  intro f hf
  have hne : f ≠ idx := by
    intro heq
    rw [heq] at hf
    exact hf (available_iff.1 hmapped.free).2
  have hcount := hmapped.traded.refcnt f
  exact ⟨by omega, hmapped.memory f hne⟩

/-- A page for the kernel comes from the free ones. -/
theorem mapPageWithinRange_respects {low high : Nat}
    (h : vm.mapPageWithinRange low high opts = .ok (virt, vm')) :
    vm.Respects vm' := by
  unfold Vm.mapPageWithinRange at h
  split at h
  · cases h
  obtain ⟨vm₁, hmap, h⟩ := ok_bind h
  cases h
  exact mapAny_respects hmap

/-- Sharing only adds references. -/
theorem cloneAddressSpace_respects {rest : Nat → Nat} {space : AddressSpace}
    {table : Nat → TableEntry} (ha : Accounts rest vm) (hfull : Shareable vm.pmm vm.table)
    (h : cloneAddressSpace vm = .ok (space, table, vm')) :
    vm.Respects vm' := by
  obtain ⟨_, pmm, htaken, hshared⟩ := (cloneAddressSpace_sat ha hfull).result h
  intro f hf
  have hcount := htaken.traded.refcnt f
  have hcount' := hshared.traded.refcnt f
  dsimp only at hcount hcount'
  exact ⟨by omega, congrFun hshared.memory f⟩

end Respects

-- ==== every process

namespace System

/-- The entries and the regions of a process are of the kinds that faults
can be recovered from. -/
structure Orderly (t : Task) : Prop where
  tidy : Tidy t.table
  clean : t.status ≠ .exited → AllClean t.mm.mRegions

variable {s s' s₀ : System} {a : MemAction} {p q vaddr : Nat} {t u : Task} {mm : MemoryManager}

theorem Orderly.running (h : Orderly t) (hrun : t.status = .running) : AllClean t.mm.mRegions :=
  h.clean (running_live hrun)

theorem Orderly.view (h : Orderly t) : Tidy (s.view t).table := by
  intro i hi
  rw [show (s.view t).table i = t.table i from look_user hi]
  exact h.tidy i hi

/-- Whatever becomes of a task, it stays in order. -/
theorem Orderly.becomes (hall : ∀ p t, s.tasks p = some t → Orderly t)
    (h : Becomes s a q u) : Orderly u := by
  cases h with
  | spawned => exact ⟨tidy_empty, fun _ => clean_init⟩
  | loaded ht hstatus hload =>
    have ht := hall _ _ ht
    have hclean := ht.clean (hstatus.trans_ne Status.noConfusion)
    have hloaded := (Loading.loadBinary_sat orderly_loaderRules
      (fun _ _ _ => trivial) ⟨ht.view, hclean⟩).result hload
    exact ⟨hloaded.1, fun _ => hloaded.2⟩
  | parent ht hrun hclone =>
    have ht := hall _ _ ht
    exact ⟨(ht.view.cloneAddressSpace hclone).2, ht.clean⟩
  | child ht hrun hclone =>
    have ht := hall _ _ ht
    exact ⟨(ht.view.cloneAddressSpace hclone).1, fun _ => ht.running hrun⟩
  | @cloneStarted p t l ht hstatus hstart =>
    have ht := hall _ _ ht
    have hclean := ht.clean (hstatus.trans_ne Status.noConfusion)
    subst hstart
    unfold Loading.cloneStart
    split
    · exact ⟨ht.view, fun _ => hclean⟩
    next rgn mm vm hfind =>
    refine ⟨?_, fun _ => hclean.zeroRegion rfl rfl hfind⟩
    rw [(findAndZeroPageRegion_some hfind).2.2.2]
    exact ht.view.mapZeroPages _ _ _
  | mapped ht hrun hfind =>
    have ht := hall _ _ ht
    refine ⟨?_, fun _ => (ht.running hrun).zeroRegion rfl rfl hfind⟩
    rw [(findAndZeroPageRegion_some hfind).2.2.2]
    exact ht.view.mapZeroPages _ _ _
  | fileMapped ht hrun hfind =>
    have ht := hall _ _ ht
    refine ⟨?_, fun _ => (ht.running hrun).fileRegion hfind⟩
    rw [(findAndFileMapRegion_some hfind).2.2.2]
    exact ht.view.mapZeroPages _ _ _
  | unmapped ht hrun huser hfound hremove =>
    have ht := hall _ _ ht
    have htidy := (removeRegion_sat (fun _ _ _ hvm => Tidy.unmap hvm) ht.view).result hremove
    exact ⟨htidy, fun _ r hr => ht.running hrun r ((removeRegion_sublist hremove).subset hr)⟩
  | reprotected ht hrun huser hfound =>
    have ht := hall _ _ ht
    exact ⟨ht.view.protect _, fun _ => (ht.running hrun).setPermission _
      (isWithinRegion_user huser hfound)⟩
  | read ht hrun haccess =>
    have ht := hall _ _ ht
    have hdone := (access_sat (tidy_faultRules _ _) 3 ht.view).result haccess
    exact ⟨hdone.1, ht.clean⟩
  | written ht hrun haccess =>
    have ht := hall _ _ ht
    have hdone := (access_sat (tidy_faultRules _ _) 3 ht.view).result haccess
    exact ⟨hdone.1, ht.clean⟩
  | exited hstatus hempty =>
    refine ⟨fun i hi _ => ?_, fun h => absurd hstatus h⟩
    rw [hempty i hi]

/-- So every task is, in every run. -/
theorem orderly_of_reach {ok : System → MemAction → Prop} (hb : s₀.Booted)
    (h : (memSystem s₀).Reach ok s) :
    ∀ p t, s.tasks p = some t → Orderly t :=
  each_of_reach hb (fun _ _ _ _ hall _ hu => Orderly.becomes hall hu) h

-- ==== the clone

theorem addTask_respects {status : Status} {space : AddressSpace} {table : Nat → TableEntry}
    (h : s.addTask p status space table mm = .ok s') :
    s.kernelView.Respects s'.kernelView := by
  obtain ⟨⟨proc, vm₁⟩, hproc, h⟩ := ok_bind h
  obtain ⟨⟨esp0, vm₂⟩, hesp0, h⟩ := ok_bind h
  obtain ⟨⟨esp, vm₃⟩, hesp, h⟩ := ok_bind h
  cases h
  have hall := ((mapPageWithinRange_respects hproc).trans (mapPageWithinRange_respects hesp0)).trans
    (mapPageWithinRange_respects hesp)
  exact hall

/-- What a process has in common with its copy, or with what it is itself
after it has been copied. -/
structure Shares (s : System) (t : Task) (s' : System) (u : Task) : Prop where
  live : t.status ≠ .exited ∧ u.status ≠ .exited
  mm : u.mm = t.mm
  done : ∀ i < gNumUserPages, (t.table i).present = true → u.table i = (t.table i).shared
  absent : ∀ i < gNumUserPages, (t.table i).present = false → (u.table i).present = false
  room : s.pmm.alloc ≠ none
  respects : s.kernelView.Respects s'.kernelView

/-- After a clone, both processes share the pages that the parent had. -/
theorem clone_shares {t' : Task} (hs : Books s)
    (hok : s.KeepsCounts (.clone p q)) (h : s.clone p q = .ok s')
    (ht : s.tasks p = some t) (ht' : s'.tasks p = some t')
    (hu : s'.tasks q = some u) : Shares s t s' u ∧ Shares s t s' t' := by
  obtain ⟨hvacant, h⟩ := check_eq_ok.1 h
  have hnone := (vacant_iff hvacant).2
  have hne : p ≠ q := ne_of_entry ht hnone
  obtain ⟨t₁, ht₁, hrun, h⟩ := find_bind h
  cases ht.symm.trans ht₁
  obtain ⟨⟨space, table, vm⟩, hspace, h⟩ := ok_bind h
  have hroom : s.pmm.alloc ≠ none := by
    intro halloc
    unfold cloneAddressSpace createAddressSpace at hspace
    rw [show (s.view t).pmm.alloc = none from halloc] at hspace
    cases hspace
  have hstored : (s.view t).Respects vm :=
    cloneAddressSpace_respects (hs.accounts ht) (view_below (hok t ht)) hspace
  have hrespects : s.kernelView.Respects s'.kernelView :=
    (show s.kernelView.Respects (s.store p t t.mm vm).kernelView from
      hstored).trans (addTask_respects h)
  have hshared := cloneAddressSpace_tables hspace
  have hsame : ∀ i < gNumUserPages, (s.view t).table i = t.table i := fun i hi => look_user hi
  have hdone : ∀ i < gNumUserPages, (t.table i).present = true →
      vm.table i = (t.table i).shared ∧ table i = (t.table i).shared := by
    intro i hi hpresent
    rw [← hsame i hi] at hpresent ⊢
    exact hshared.done i hi hpresent
  have habsent : ∀ i < gNumUserPages, (t.table i).present = false →
      (vm.table i).present = false ∧ (table i).present = false := by
    intro i hi hpresent
    rw [← hsame i hi] at hpresent
    obtain ⟨hkept, hempty⟩ := hshared.absent i hi hpresent
    exact ⟨by rw [show vm.table i = _ from hkept, hpresent],
      congrArg TableEntry.present hempty⟩
  obtain ⟨vm₁, proc, esp0, esp, hadded⟩ := addTask_ok h
  constructor
  · rw [← hadded, setTask_self] at hu
    cases hu
    exact ⟨⟨running_live hrun, Status.noConfusion⟩, rfl,
      fun i hi hp => (hdone i hi hp).2,
      fun i hi hp => (habsent i hi hp).2, hroom, hrespects⟩
  rw [← hadded, setTask_other hne, store_self] at ht'
  cases ht'
  exact ⟨⟨running_live hrun, running_live hrun⟩, rfl,
    fun i hi hp => (hdone i hi hp).1,
    fun i hi hp => (habsent i hi hp).1, hroom, hrespects⟩

/-- An entry that is shared is as good as the original. -/
theorem expected_shared (e : TableEntry) (region : Option Region)
    (byte : UInt8) (vaddr : Nat) (write : Bool) (file : FileRead)
    (hpresent : e.present = true) :
    expected e.shared region byte vaddr write file = expected e region byte vaddr write file := by
  unfold expected
  rw [TableEntry.shared_present, hpresent, if_pos rfl, if_pos rfl]
  unfold TableEntry.shared
  cases hrw : e.rw with
  | true => rfl
  | false =>
    rw [if_neg Bool.false_ne_true]
    rw [hrw]

/-- Of an entry that is not present, nothing else matters. -/
theorem expected_absent {e e' : TableEntry} {byte byte' : UInt8}
    (region : Option Region) (vaddr : Nat) (write : Bool) (file : FileRead)
    (h : e.present = false) (h' : e'.present = false) :
    expected e' region byte' vaddr write file = expected e region byte vaddr write file := by
  unfold expected
  rw [h, h', if_neg Bool.false_ne_true, if_neg Bool.false_ne_true]

/-- What an access to the user half comes to, for a process whose books are
kept. -/
theorem outcome_user (hs : Books s) (ht : s.tasks p = some t)
    (horderly : Orderly t) (hlive : t.status ≠ .exited)
    (hroom : s.pmm.alloc ≠ none) (hv : vaddr < gKernelBase)
    (write : Bool) (file : FileRead) :
    s.outcome t vaddr write file = .ok (expected (t.table (pageNumber vaddr))
        (t.mm.isWithinRegion (s.view t) vaddr)
        (s.memory (index (t.table (pageNumber vaddr)).page) (offset vaddr))
        vaddr write file) := by
  have hentry : (s.view t).entry vaddr = t.table (pageNumber vaddr) :=
    look_user (pageNumber_user hv).1
  unfold System.outcome
  rw [outcome_eq ((hs.accounts ht).held vaddr) hroom, hentry]
  · rfl
  · rw [hentry]
    exact horderly.tidy _ (pageNumber_user hv).1
  · intro r hr
    have hfound := isWithinRegion_user (iskernel_eq_false hv) hr
    exact horderly.clean hlive r (IntervalList.contains_some hfound).1

theorem isWithinRegion_congr {vm vm' : Vm} (hv : vaddr < gKernelBase) :
    mm.isWithinRegion vm vaddr = mm.isWithinRegion vm' vaddr := by
  unfold isWithinRegion
  rw [iskernel_eq_false hv, if_neg Bool.false_ne_true, if_neg Bool.false_ne_true]

/-- What is shared is read and written alike. -/
theorem Shares.alike (h : Shares s t s' u) (hs : Books s) (hs' : Books s')
    (ht : s.tasks p = some t) (hu : s'.tasks q = some u) (hot : Orderly t)
    (hou : Orderly u) (hroom : s'.pmm.alloc ≠ none) : s.Alike t s' u := by
  intro vaddr hv write file
  rw [outcome_user hs ht hot h.live.1 h.room hv, outcome_user hs' hu hou h.live.2 hroom hv, h.mm,
    @isWithinRegion_congr vaddr t.mm (s'.view u) (s.view t) hv]
  have hi := (pageNumber_user hv).1
  congr 1
  cases hpresent : (t.table (pageNumber vaddr)).present with
  | false => exact (expected_absent _ _ _ _ hpresent (h.absent _ hi hpresent)).symm
  | true =>
    have hheld := (hs.accounts ht).held vaddr
    rw [show (s.view t).entry vaddr = t.table (pageNumber vaddr) from
      look_user hi] at hheld
    have hpmm := (hs.task p t ht).owned _ hi hpresent
    have hmemory := (h.respects _ (hheld hpmm).2.2).2
    rw [h.done _ hi hpresent, expected_shared _ _ _ _ _ _ hpresent, TableEntry.shared_page]
    exact congrArg (fun frame => expected _ _ (frame (offset vaddr)) _ _ _) hmemory.symm

/-- As long as no frame has 255 references when it is shared, a clone has
the memory of its parent. -/
theorem duplicates_of_keepsCounts {s₀ : System} (hb : Booted s₀)
    (h : (memSystem s₀).Reach KeepsCounts s)
    (hok : s.KeepsCounts (.clone p q)) : s.Duplicates p q := by
  intro s' t t' u hstep hroom ht ht' hu
  have hreach : (memSystem s₀).Reach KeepsCounts s' := h.step _ hok hstep
  have hbooks := books_of_reach hb h
  have hbooks' := books_of_reach hb hreach
  have horderly := orderly_of_reach hb h p t ht
  have horderly' := orderly_of_reach hb hreach
  obtain ⟨hchild, hparent⟩ := clone_shares hbooks hok hstep ht ht' hu
  exact ⟨hchild.alike hbooks hbooks' ht hu horderly (horderly' q u hu) hroom,
    hparent.alike hbooks hbooks' ht ht' horderly (horderly' p t' ht') hroom⟩

/-- A program is loaded, and nobody has cloned itself. -/
theorem reach_loaded {image : Image}
    (hrun : (memSystem s₀).run [.spawn 1, .load 1 image] s₀ = .ok s) :
    (memSystem s₀).Reach KeepsCounts s := by
  refine Machine.Reach.run (.boot rfl) (Machine.guarded_of_forall ?_ _) hrun
  intro a ha s
  simp only [List.mem_cons, List.not_mem_nil, or_false] at ha
  rcases ha with rfl | rfl <;> trivial

/-- The first clone of a process, with memory left. -/
theorem duplicates_of_keepsCounts_data : plain.Booted ∧
    ∃ s s', (memSystem plain).Reach KeepsCounts s ∧
      s.KeepsCounts (.clone 1 2) ∧ step (.clone 1 2) s = .ok s' ∧
      s'.pmm.alloc ≠ none ∧ s.Duplicates 1 2 := by
  obtain ⟨s, t, hrun, hroom, ht, hdata, hfree⟩ := plain_hasData
  have hstatus : t.status = .running := (hasData_iff.1 hdata).1
  have hreach : (memSystem plain).Reach KeepsCounts s := reach_loaded hrun
  have hbooks := books_of_reach plain_booted hreach
  have hok : s.KeepsCounts (.clone 1 2) :=
    fun _ _ _ _ _ => refcnt_of_roomForClone hbooks.kept hroom _
  obtain ⟨s', _, _, hclone, _, hroom'⟩ := clone_of_roomForClone hbooks ht hstatus hroom
  refine ⟨plain_booted, s, s', hreach, hok, hclone, ?_,
    duplicates_of_keepsCounts plain_booted hreach hok⟩
  rw [show s.pmm.mFreePages - 774 = s.pmm.mFreePages - 775 + 1 by omega] at hroom'
  obtain ⟨_, _, halloc, _⟩ := hroom'.alloc
  rw [halloc]
  exact Option.some_ne_none _

end System

end Puppy.Mm
