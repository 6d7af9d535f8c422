/-
What the memory code does to an invariant, one page operation at a time.

Everything above the virtual page manager is made of its operations on
single pages. So a property of the tables that survives those operations
survives a page fault, a region that comes or goes, and the loading of a
program. The lemmas here say so for an arbitrary property `I`; each asks
for the operations at the pages the code works on, and no others.
-/
import Puppy.Mm.Proofs.Virt

namespace Puppy.Mm

open Libc Lib PageFault MemoryManager

variable {I : Vm → Prop} {E : Panic → Prop} {mm : MemoryManager} {vm : Vm}
  {opts : MapOptions} {vm' : Vm}

-- ==== options

/-- Writing back the options that were read changes nothing but what is
changed in between. -/
theorem TableEntry.withOptions_rw (e : TableEntry) (opts : MapOptions) (rw : Bool) :
    e.withOptions { e.options opts with rw := rw } = { e with rw := rw } := by
  unfold withOptions options
  simp only [Bool.not_not]

theorem TableEntry.withOptions_cow (e : TableEntry) (opts : MapOptions) :
    e.withOptions { e.options opts with rw := false, cow := true } =
      { e with rw := false, cow := true } := by
  unfold withOptions options
  simp only [Bool.not_not]

/-- `newoptions` with the page's own options and another right to write. -/
theorem Vm.newoptions_rw (vm : Vm) (virt : Nat) (opts : MapOptions) (rw : Bool) :
    vm.newoptions virt { (vm.entry virt).options opts with rw := rw } =
      if (vm.entry virt).present || (vm.entry virt).cow then
        vm.setEntry virt { vm.entry virt with rw := rw }
      else vm := by
  unfold newoptions
  rw [TableEntry.withOptions_rw]

/-- Marking a page that is there takes its write permission away. -/
theorem Vm.markCOW_eq (vm : Vm) (virt : Nat) : vm.markCOW virt = if (vm.entry virt).present then
        vm.setEntry virt { vm.entry virt with rw := false, cow := true }
      else vm := by
  unfold markCOW mapped newoptions
  by_cases h : (vm.entry virt).present = true
  · simp only [h, if_true, Bool.true_or, TableEntry.withOptions_cow]
  · simp only [h]
    rfl

theorem protectPage_present {vm : Vm} {pp : Nat} (hpresent : (vm.entry pp).present = true)
    (hkeep : opts.rw = true → (vm.entry pp).cow = false) :
    protectPage opts vm pp = vm.setEntry pp { vm.entry pp with rw := opts.rw } := by
  unfold protectPage Vm.mapped
  rw [if_pos hpresent]
  dsimp only
  rw [if_neg, Vm.newoptions_rw, if_pos (by rw [hpresent, Bool.true_or])]
  rw [Bool.and_eq_true]
  rintro ⟨hrw, hcow⟩
  have hcow : (vm.entry pp).cow = true := hcow
  rw [hkeep hrw] at hcow
  cases hcow

/-- `protectPage` sets the right to write, except that a COW page does not
get it. -/
theorem protectPage_eq (opts : MapOptions) (vm : Vm) (pp : Nat) : protectPage opts vm pp = vm ∨
      (((vm.entry pp).present = true → opts.rw = true → (vm.entry pp).cow = false) ∧
        protectPage opts vm pp = vm.setEntry pp { vm.entry pp with rw := opts.rw }) := by
  unfold protectPage Vm.mapped Vm.zeroPageMapped
  by_cases hpresent : (vm.entry pp).present = true
  · rw [if_pos hpresent]
    dsimp only
    split
    · exact .inl rfl
    next hkeep =>
    refine .inr ⟨?_, ?_⟩
    · intro _ hrw
      rw [hrw, Bool.true_and, Bool.not_eq_true] at hkeep
      exact hkeep
    · rw [Vm.newoptions_rw, if_pos (by rw [hpresent, Bool.true_or])]
  rw [if_neg hpresent]
  by_cases hcow : (vm.entry pp).cow = true
  · rw [Bool.not_eq_true] at hpresent
    rw [if_pos (by rw [hpresent, hcow]; rfl)]
    refine .inr ⟨fun h => ?_, ?_⟩
    · cases hpresent.symm.trans h
    · dsimp only
      rw [Vm.newoptions_rw, if_pos (by rw [hcow, Bool.or_true])]
  · rw [if_neg (by rw [Bool.and_eq_true]; exact fun h => hcow h.2)]
    exact .inl rfl

/-- After `mapAnyPhysicalPage` the page is there. -/
theorem Vm.present_of_mapAny {virt : Nat} (h : vm.mapAnyPhysicalPage virt opts = .ok vm') :
    (vm'.entry virt).present = true := by
  rcases Vm.mapAnyPhysicalPage_ok h with ⟨hpresent, rfl⟩ | ⟨idx, hm⟩
  · exact hpresent
  unfold Vm.entry
  rw [hm.table, Function.update_self]
  rfl

theorem Vm.entry_page (vm : Vm) (virt : Nat) : vm.entry (page virt) = vm.entry virt := by
  unfold Vm.entry
  rw [pageNumber_page]

-- ==== regions

theorem mapZeroPages_keeps {frm upto : Nat} (hzero : ∀ virt ∈ Vm.pagesUpto frm upto, ∀ vm, I vm →
      I (vm.mapZeroPage opts virt)) (h : I vm) :
    I (vm.mapZeroPages frm upto opts) :=
  List.foldlRecOn _ _ h (fun vm hvm virt hvirt => hzero virt hvirt vm hvm)

/-- The loop over the pages of a region. -/
theorem removeRegion_sat {rgn : Region}
    (hdrop : ∀ virt ∈ Vm.pagesBelow rgn.frm rgn.upto, ∀ vm, I vm → Sat (vm.unmap virt) I E)
    (h : I vm) : Sat (mm.removeRegion vm rgn) (fun r => I r.2) E := by
  unfold removeRegion
  cases hdel : IntervalList.del rgn mm.mRegions with
  | none => exact Sat.ok h
  | some regions => exact Sat.bind (Sat.foldlM_mem h hdrop) (fun vm' _ hvm' => Sat.ok hvm')

theorem findAndMapRegion_sat {size : Nat}
    (hfresh : ∀ virt vm, I vm → Sat (vm.mapAnyPhysicalPage virt opts) I E)
    (h : I vm) :
    Sat (mm.findAndMapRegion vm size opts)
      (fun r => ∀ rgn mm' vm', r = some (rgn, mm', vm') → I vm') E := by
  unfold findAndMapRegion
  cases hfind : mm.findRegionImpl size with
  | none => exact Sat.ok (fun _ _ _ hr => by cases hr)
  | some range =>
    refine Sat.bind (Sat.foldlM_mem h (fun virt _ vm hvm => hfresh virt vm hvm)) ?_
    intro vm₁ _ hvm₁
    refine Sat.ok ?_
    intro rgn mm' vm' hr
    cases hr
    exact hvm₁

/-- The loop over the regions. -/
theorem cleanupAllRegions_sat
    (hdrop : ∀ virt vm, I vm → Sat (vm.unmap virt) I E) (hfault : E .fault)
    (h : I vm) : Sat (mm.cleanupAllRegions vm) (fun r => I r.2) E := by
  refine Sat.foldlM_mem (I := fun st : MemoryManager × Vm => I st.2) h ?_
  rintro rgn _ ⟨mm₁, vm₁⟩ hvm₁
  unfold cleanupRegion cleanupRound
  dsimp only
  split
  · exact Sat.ok hvm₁
  split
  · exact Sat.error hfault
  · split
    · exact removeRegion_sat (fun virt _ vm hvm => hdrop virt vm hvm) hvm₁
    · exact Sat.error hfault

-- ==== page faults

/-- What a fault at `vaddr` may do to a page. -/
structure FaultRules (I : Vm → Prop) (E : Panic → Prop) (mm : MemoryManager)
    (vaddr : Nat) : Prop where
  fresh : ∀ vm region clear, I vm → mm.isWithinRegion vm vaddr = some region →
    Sat (vm.mapAnyPhysicalPage (page vaddr) { region.permission with clear := clear }) I E
  store : ∀ vm region bytes, I vm →
    mm.isWithinRegion vm vaddr = some region → region.mmap_data ≠ none →
    (vm.entry vaddr).present = true → (vm.entry vaddr).rw = true →
    I (vm.setMemory (vm.entry vaddr).page bytes)
  copy : ∀ vm opts, I vm → (vm.entry vaddr).present = true → (vm.entry vaddr).cow = true →
    Sat (vm.clonePage vaddr opts) (fun r => ∀ vm', r = some vm' → I vm') E

section Faults

variable {vaddr : Nat} {file : FileRead} {write : Bool}

/-- The kernel regions do not change, and so neither does the region of an
address. -/
theorem isWithinRegion_congr (addr : Nat) (h : vm'.mKernelRegions = vm.mKernelRegions) :
    mm.isWithinRegion vm' addr = mm.isWithinRegion vm addr := by
  unfold isWithinRegion Vm.isWithinKernelRegion
  rw [h]

theorem mapAny_regions {virt : Nat} (h : vm.mapAnyPhysicalPage virt opts = .ok vm') :
    vm'.mKernelRegions = vm.mKernelRegions := by
  rcases Vm.mapAnyPhysicalPage_ok h with ⟨_, rfl⟩ | ⟨idx, hm⟩
  · rfl
  · exact hm.regions

section

variable (hrules : FaultRules I E mm vaddr)
include hrules

/-- A page of a mapped file. -/
theorem mmapFaultRecover_sat {region : Region} (hregion : mm.isWithinRegion vm vaddr = some region)
    (hfile : region.mmap_data ≠ none) (size : Nat) (h : I vm) :
    Sat (mmapFaultRecover vm vaddr region size file) (fun r => I r.2) E := by
  unfold mmapFaultRecover
  split
  · exact Sat.ok h
  cases file with
  | noSeek => exact Sat.ok h
  | nothing =>
    exact Sat.bind (hrules.fresh vm region true h hregion) (fun vm' _ hvm' => Sat.ok hvm')
  | bytes content =>
    refine Sat.bind (hrules.fresh vm region true h hregion) ?_
    intro vm' hmap hvm'
    have hpresent := Vm.present_of_mapAny hmap
    rw [Vm.entry_page] at hpresent
    split
    next hrw =>
      refine Sat.ok (hrules.store vm' region content hvm' ?_ hfile hpresent hrw)
      rw [isWithinRegion_congr vaddr (mapAny_regions hmap)]
      exact hregion
    · exact Sat.ok hvm'

/-- A page of zeros, or one of a file. -/
theorem zeropageRecover_sat (h : I vm) :
    Sat (zeropageRecover mm vm vaddr file) (fun r => I r.2) E := by
  unfold zeropageRecover
  cases hregion : mm.isWithinRegion vm vaddr with
  | none => exact Sat.ok h
  | some region =>
    dsimp only
    split
    next size hdata => exact mmapFaultRecover_sat hrules hregion (by rw [hdata]; simp) _ h
    · exact Sat.bind (hrules.fresh vm region region.permission.clear h hregion)
        (fun vm' _ hvm' => Sat.ok hvm')

/-- A page that waits to be copied. -/
theorem cowRecover_sat (h : I vm) (hcow : (vm.entry vaddr).cow = true) :
    Sat (cowRecover vm vaddr) (fun r => I r.2) E := by
  unfold cowRecover Vm.mapped
  split
  · exact Sat.ok h
  next opts hmapped =>
  have hpresent : (vm.entry vaddr).present = true := by
    by_contra habsent
    rw [if_neg habsent] at hmapped
    cases hmapped
  refine Sat.bind (hrules.copy vm opts h hpresent hcow) ?_
  intro r _ hr
  cases r with
  | none => exact Sat.ok h
  | some vm' => exact Sat.ok (hr vm' rfl)

/-- The handler as a whole. -/
theorem pagefltHandler_sat (h : I vm) :
    Sat (pagefltHandler mm vm vaddr write file) (fun r => I r.2) E := by
  unfold pagefltHandler
  split
  · exact zeropageRecover_sat hrules h
  split
  next hcow =>
    unfold Vm.isCOWAccess at hcow
    simp only [Bool.and_eq_true] at hcow
    exact cowRecover_sat hrules h hcow.1.2
  · exact Sat.ok h

/-- An access that goes through has found an entry that allows it. -/
theorem access_sat (n : Nat) (h : I vm) : Sat (access mm vaddr write file n vm)
      (fun r => I r.2 ∧ (r.1 = true → permits (r.2.entry vaddr) write = true)) E := by
  induction n generalizing vm with
  | zero => exact Sat.ok ⟨h, fun hr => Bool.noConfusion hr⟩
  | succ n ih =>
    unfold access
    split
    next hpermits => exact Sat.ok ⟨h, fun _ => hpermits⟩
    refine Sat.bind (pagefltHandler_sat hrules h) ?_
    rintro ⟨again, vm'⟩ _ hvm'
    dsimp only
    split
    · exact ih hvm'
    · exact Sat.ok ⟨hvm', fun hr => Bool.noConfusion hr⟩

theorem kernelTouch_sat (h : I vm) : Sat (kernelTouch mm vm vaddr) (fun r => I r.2) E := by
  unfold kernelTouch
  split
  · exact Sat.ok h
  split
  · exact Sat.bind (zeropageRecover_sat hrules h) (fun r _ hr => Sat.ok hr)
  · exact Sat.ok h

end

end Faults

end Puppy.Mm
