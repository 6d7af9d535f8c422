/-
Page 0 stays without memory while nobody asks for it.

Nothing that a process does after it was loaded can bring page 0 back: a
fault there finds no region, a clone copies the entries that are present,
and everything else only takes pages away. What is left is the loader and
the scratch pages.

The loader maps three kinds of pages. A segment's are where the executable
says. The ones of the file's buffer and of the stack come with faults. The
environment and the arguments go to a region that a search found, and the
search starts after the end of a region; so the list must not have one
that ends with the address space anywhere but at its end. `Capped` is that
property of the list, and the loader keeps it (`clear_mainRules`) as long
as the entry point does not put a guard page at the very top.
-/
import Puppy.Mm.PageZero
import Puppy.Mm.Proofs.Protection

namespace Puppy.Mm

open Libc Lib PageFault IntervalList MemoryManager Puppy.Mm.System Machine Function List

-- ==== regions that a search starts from

/-- A region that ends with a page, and not with the address space. -/
structure Region.Below (limit : Nat) (r : Region) : Prop where
  whole : (r.upto + 1) % gPageSize = 0
  ends : r.upto < 0xFFFFFFFF
  starts : r.frm < limit

/-- The kernel's region comes last, after at least one other. -/
structure Capped (limit : Nat) (regions : List Region) : Prop where
  last : ∃ front kernel, regions = front ++ [kernel] ∧ front ≠ [] ∧
    kernel.toInterval = ⟨gKernelBase, 0xFFFFFFFF⟩ ∧
    ∀ r ∈ front, r.Below limit

namespace Capped

variable {limit size : Nat} {regions : List Region} {rgn : Region} {range : Interval}

theorem init (hlimit : 0 < limit) : Capped limit init.mRegions := by
  refine ⟨[{ frm := 0, upto := 0xFFF }],
    { frm := gKernelBase, upto := 0xFFFFFFFF }, ?_, by decide, rfl, ?_⟩
  · rw [init_mRegions]
    rfl
  · intro r hr
    rw [mem_singleton.1 hr]
    exact ⟨by decide, by decide, hlimit⟩

theorem mono {limit' : Nat} (h : Capped limit regions)
    (hle : limit ≤ limit') : Capped limit' regions := by
  obtain ⟨front, kernel, heq, hne, hkernel, hfront⟩ := h.last
  refine ⟨front, kernel, heq, hne, hkernel, ?_⟩
  intro r hr
  obtain ⟨hwhole, hends, hstarts⟩ := hfront r hr
  exact ⟨hwhole, hends, lt_of_lt_of_le hstarts hle⟩

/-- A new region stands in front of the kernel's. -/
theorem insertWalk_front {front : List Region} {kernel : Region}
    (hkernel : kernel.toInterval = ⟨gKernelBase, 0xFFFFFFFF⟩)
    (hrgn : rgn.frm < 0xFFFFFFFF) :
    ∃ front', insertWalk rgn (front ++ [kernel])
        = front' ++ [kernel] ∧ front'.Perm (rgn :: front) := by
  induction front with
  | nil =>
    refine ⟨[rgn], ?_, List.Perm.refl _⟩
    have hafter : ¬ (ival kernel).thisBefore (ival rgn) = true := by
      rw [Interval.thisBefore_iff]
      show ¬ kernel.toInterval.upto ≤ rgn.frm
      rw [hkernel]
      show ¬ 0xFFFFFFFF ≤ rgn.frm
      omega
    show insertWalk rgn [kernel] = _
    unfold insertWalk
    rw [if_neg hafter]
    rfl
  | cons first rest ih =>
    obtain ⟨front', heq, hperm⟩ := ih
    rw [cons_append]
    unfold insertWalk
    split
    · refine ⟨first :: front', ?_, ?_⟩
      · rw [heq]
        rfl
      · exact (hperm.cons first).trans (List.Perm.swap rgn first rest)
    · exact ⟨rgn :: first :: rest, rfl, List.Perm.refl _⟩

theorem add (h : Capped limit regions) (hlimit : limit ≤ 0xFFFFFFFF)
    (hrgn : rgn.Below limit) : Capped limit (add rgn regions) := by
  obtain ⟨front, kernel, rfl, hne, hkernel, hfront⟩ := h.last
  obtain ⟨front', heq, hperm⟩ := @insertWalk_front rgn front kernel hkernel
    (lt_of_lt_of_le hrgn.starts hlimit)
  refine ⟨front', kernel, ?_, ?_, hkernel, ?_⟩
  · rw [add_eq_insertWalk, heq]
  · intro hnil
    rw [hnil] at hperm
    cases hperm.nil_eq
  intro r hr
  rcases mem_cons.1 (hperm.mem_iff.1 hr) with rfl | hr
  · exact hrgn
  · exact hfront r hr

/-- What the search among neighbours hands out lies after the first of
two. -/
theorem findGap_between {l : List Region} (h : findGap size l = some range) :
    ∃ i0 ∈ l.dropLast, ∃ i1 ∈ l, range = ⟨add32 i0.upto 1, add32 size i0.upto⟩ ∧
        add32 size i0.upto < i1.frm := by
  induction l with
  | nil => cases h
  | cons i0 l ih =>
    match l, ih, h with
    | [], _, h => cases h
    | i1 :: rest, ih, h =>
      unfold findGap at h
      split at h
      next hroom => exact ⟨i0, by simp, i1, by simp, (Option.some.inj h).symm, hroom⟩
      obtain ⟨j0, hj0, j1, hj1, hrange⟩ := ih h
      rw [dropLast_cons_cons]
      exact ⟨j0, mem_cons_of_mem i0 hj0, j1, mem_cons_of_mem i0 hj1, hrange⟩

/-- A search among such regions hands out whole pages above page 0, before
some region of the list. -/
theorem findFree_above (h : Capped limit regions)
    (hfind : findFree 0xFFFFFFFF size regions = some range) :
    ∃ i0 ∈ regions.dropLast, i0.Below limit ∧ range.frm = i0.upto + 1 ∧
      gPageSize ≤ range.frm ∧ range.upto = add32 size i0.upto ∧
      ∃ i1 ∈ regions, range.upto < i1.frm := by
  obtain ⟨front, kernel, rfl, hne, hkernel, hfront⟩ := h.last
  obtain ⟨hpos, hfind⟩ := Option.ite_none_left_eq_some.1 hfind
  split at hfind
  next heq => simp at heq
  next i heq =>
    have hlen := congrArg length heq
    have := length_pos_of_ne_nil hne
    simp only [length_append, length_cons, length_nil] at hlen
    omega
  next i0 i1 rest heq =>
  split at hfind
  next range' hgap =>
    obtain rfl := Option.some.inj hfind
    rw [← heq] at hgap
    obtain ⟨j0, hj0, j1, hj1, rfl, hroom⟩ := findGap_between hgap
    have hbelow := hfront j0 (by rwa [dropLast_concat] at hj0)
    have hends := hbelow.ends
    have hwhole := hbelow.whole
    have hstart : add32 j0.upto 1 = j0.upto + 1 := add32_of_lt (by omega)
    refine ⟨j0, hj0, hbelow, hstart, ?_, rfl, j1, hj1, hroom⟩
    show gPageSize ≤ add32 j0.upto 1
    rw [hstart]
    unfold gPageSize at *
    omega
  -- there is no room after the kernel
  have hlast : (i1 :: rest).getLast (by simp) = kernel := by
    have h₁ : (i0 :: i1 :: rest).getLast (by simp) = kernel := by
      simp only [← heq, getLast_append_singleton]
    rw [← h₁]
    rfl
  rw [hlast] at hfind
  unfold findAfter at hfind
  rw [show ival kernel = (⟨gKernelBase, 0xFFFFFFFF⟩ : Interval) from hkernel] at hfind
  rw [if_neg (by
    rw [show sub32 0xFFFFFFFF 0xFFFFFFFF = 0 by decide]
    omega)] at hfind
  cases hfind

/-- The same for the memory manager, with the region that is found. -/
theorem findRegionImpl {mm : MemoryManager} (h : Capped limit mm.mRegions)
    (hfind : mm.findRegionImpl size = some range) :
    gPageSize ≤ range.frm ∧ range.frm ≤ 0xFFFFF000 ∧ (range.upto + 1) % gPageSize = 0 ∧
      (range.upto + 1 < limit ∨ range.upto < gKernelBase) := by
  obtain ⟨i0, _, hi0, hfrm, habove, hupto, i1, hi1, hroom⟩ := h.findFree_above hfind
  have hends := hi0.ends
  have hwhole := hi0.whole
  have hsize := toPage_mod size
  refine ⟨habove, ?_, ?_, ?_⟩
  · rw [hfrm]
    unfold gPageSize at hwhole
    omega
  · rw [hupto]
    unfold add32 gPageSize at *
    omega
  obtain ⟨front, kernel, heq, _, hkernel, hfront⟩ := h.last
  rw [heq, mem_append, mem_singleton] at hi1
  rcases hi1 with hi1 | rfl
  · exact .inl (lt_of_le_of_lt hroom (hfront i1 hi1).starts)
  · have hbase : i1.frm = gKernelBase := by rw [hkernel]
    rw [hbase] at hroom
    exact .inr hroom

end Capped

-- ==== the first page table entry

/-- Nothing is mapped at page 0, and the kernel's regions are the given
ones. -/
structure Clear (regions : List Interval) (vm : Vm) : Prop where
  absent : (vm.table 0).present = false
  kernel : vm.mKernelRegions = regions

namespace Clear

variable {regions : List Interval} {vm vm' : Vm} {virt vaddr : Nat}
  {opts : MapOptions} {mm : MemoryManager}

section

variable (h : Clear regions vm)
include h

theorem update {n : Nat} {e : TableEntry} (htable : vm'.table = update vm.table n e)
    (hregions : vm'.mKernelRegions = vm.mKernelRegions)
    (he : n = 0 → e.present = false) : Clear regions vm' := by
  refine ⟨?_, hregions.trans h.kernel⟩
  rw [htable]
  by_cases hn : n = 0
  · rw [hn, update_self]
    exact he hn
  · rw [update_of_ne (Ne.symm hn)]
    exact h.absent

theorem mapAny (hvirt : pageNumber virt ≠ 0) : Sat (vm.mapAnyPhysicalPage virt opts) (Clear regions)
      (fun _ => True) := by
  refine Vm.mapAnyPhysicalPage_sat h trivial fun idx vm' hm => ?_
  exact h.update hm.table hm.regions (fun hn => absurd hn hvirt)

theorem unmap : Sat (vm.unmap virt) (Clear regions) (fun _ => True) := by
  refine Sat.of_result fun vm' hunmap => ?_
  obtain ⟨htable, hregions⟩ := Vm.unmap_table hunmap
  exact h.update htable hregions (fun _ => rfl)

theorem mapZeroPages {frm upto : Nat} : Clear regions (vm.mapZeroPages frm upto opts) :=
  mapZeroPages_keeps (fun _ _ _ hvm => hvm.update rfl rfl (fun _ => rfl)) h

theorem removeRegion {rgn : Region} : Sat (mm.removeRegion vm rgn) (fun r => Clear regions r.2)
      (fun _ => True) :=
  removeRegion_sat (fun _ _ _ hvm => hvm.unmap) h

theorem protect {pages : List Nat} : ((pages.foldl (protectPage opts) vm).table 0).present
      = false := by
  refine foldlRecOn pages (protectPage opts)
    (motive := fun vm => (vm.table 0).present = false) h.absent ?_
  intro vm hvm pp _
  obtain ⟨rw, htable, _⟩ := protectPage_table opts vm pp
  rw [htable]
  by_cases hpage : pageNumber pp = 0
  · rw [hpage, update_self]
    show (vm.table (pageNumber pp)).present = false
    rw [hpage]
    exact hvm
  · rw [update_of_ne (Ne.symm hpage)]
    exact hvm

end

/-- The kernel's regions are in its half, so that no address of theirs
stands for page 0. -/
theorem pageNumber_found {region : Region}
    (hregions : ∀ i ∈ regions, i.upto < 0x100000000 - gKernelBase)
    (h : Clear regions vm)
    (hfound : mm.isWithinRegion vm vaddr = some region) :
    pageNumber vaddr ≠ 0 := by
  obtain ⟨hpage, hfound⟩ := Option.ite_none_left_eq_some.1 hfound
  have haddr : vaddr < 0x100000000 := by
    cases hkernel : iskernel vaddr with
    | false =>
      have huser := of_decide_eq_false hkernel
      unfold gKernelBase at huser
      omega
    | true =>
      rw [if_pos hkernel] at hfound
      split at hfound
      next i hi =>
        unfold Vm.isWithinKernelRegion at hi
        rw [h.kernel] at hi
        obtain ⟨hmem, hin⟩ := contains_some hi
        have hin := (Interval.contains_iff.1 hin).2
        have hin : vaddr - gKernelBase ≤ i.upto := hin
        have hup := hregions i hmem
        omega
      · cases hfound
  unfold page at hpage
  unfold pageNumber index gNumPages gPageSize at *
  omega

theorem faultRules (hregions : ∀ i ∈ regions, i.upto < 0x100000000 - gKernelBase) :
    FaultRules (Clear regions) (fun _ => True) mm vaddr where
  fresh vm region clear hvm hfound := by
    apply hvm.mapAny
    rw [pageNumber_page]
    exact hvm.pageNumber_found hregions hfound
  store _ _ _ hvm _ _ _ _ := ⟨hvm.absent, hvm.kernel⟩
  copy vm opts hvm hpresent _ := by
    refine Sat.of_result fun copied hclone => ?_
    intro vm' hvm'
    rw [hvm'] at hclone
    obtain ⟨⟨_, _, htable⟩, hsame⟩ := Vm.clonePage_table hclone
    refine hvm.update htable hsame ?_
    -- a page that is there is not page 0
    intro hzero
    unfold Vm.entry at hpresent
    rw [hzero, hvm.absent] at hpresent
    cases hpresent

theorem segmentRules : SegmentRules (Clear regions) (fun _ => True) (fun n => n ≠ 0) where
  fresh _ _ _ hpage hvm := hvm.mapAny hpage
  store _ _ _ _ hvm _ _ := ⟨hvm.absent, hvm.kernel⟩
  flags _ _ _ hpage hvm _ := hvm.update rfl rfl (fun hn => absurd hn hpage)

-- ==== sharing

theorem cloneAddressSpace (h : Clear regions vm) {space : AddressSpace} {table : Nat → TableEntry}
    (hclone : cloneAddressSpace vm = .ok (space, table, vm')) :
    (table 0).present = false ∧ Clear regions vm' := by
  have hshared := cloneAddressSpace_tables hclone
  obtain ⟨hmine, htheirs⟩ := hshared.absent 0 (by decide) h.absent
  rw [show table 0 = {} from htheirs]
  refine ⟨rfl, ?_, hshared.regions.trans h.kernel⟩
  rw [show vm'.table 0 = vm.table 0 from hmine]
  exact h.absent

end Clear

-- ==== loading

/-- A loading process, with a limit on where its regions start. -/
structure Unloaded (kernel : List Interval) (limit : Nat) (l : Loading) :
    Prop where
  clear : Clear kernel l.vm
  regions : Capped limit l.mm.mRegions

namespace Unloaded

variable {kernel : List Interval} {limit size : Nat} {l : Loading}

theorem segmentEnd_below {p : Program} (hp : p.AbovePageZero) : Region.Below 0xFFFFF000
      { frm := p.vaddr, upto := sub32 (Loading.segmentEnd p) 1 } := by
  obtain ⟨hlow, hhigh, hempty⟩ := hp
  refine ⟨segmentEnd_mod hempty, ?_, ?_⟩
  · show sub32 (Loading.segmentEnd p) 1 < 0xFFFFFFFF
    unfold Loading.segmentEnd
    unfold gPageSize gKernelBase at *
    split
    · unfold sub32
      omega
    · unfold sub32 page gPageSize
      omega
  · show p.vaddr < 0xFFFFF000
    unfold gKernelBase at hhigh
    omega

/-- A region with room for the environment or the arguments. -/
theorem strings (h : Unloaded kernel 0xFFFFFFFF l) : Sat (l.mm.findAndMapRegion l.vm size
        { clear := true, rw := true, user := true })
      (fun r => ∀ rgn mm vm, r = some (rgn, mm, vm) →
        Unloaded kernel 0xFFFFFFFF ⟨mm, vm⟩) (fun _ => True) := by
  unfold findAndMapRegion
  cases hfind : l.mm.findRegionImpl size with
  | none => exact Sat.ok nofun
  | some range =>
    obtain ⟨hlow, hhigh, hwhole, hends⟩ := h.regions.findRegionImpl hfind
    have hends : range.upto < 0xFFFFFFFF := by
      unfold gKernelBase at hends
      omega
    have hpages : ∀ virt ∈ Vm.pagesBelow range.frm range.upto, pageNumber virt ≠ 0 := by
      intro virt hvirt
      obtain ⟨k, rfl, hlt⟩ := Vm.mem_pagesBelow.1 hvirt
      unfold pageNumber index gNumPages gPageSize at *
      omega
    refine Sat.bind (Sat.foldlM_mem h.clear
      (fun virt hvirt vm hvm => hvm.mapAny (hpages virt hvirt))) ?_
    intro vm _ hvm
    refine Sat.ok ?_
    intro rgn mm vm' hr
    cases hr
    refine ⟨hvm, h.regions.add le_rfl ⟨hwhole, hends, ?_⟩⟩
    show range.frm < 0xFFFFFFFF
    omega

/-- The stack, and the guard page after it. -/
theorem stack (h : Unloaded kernel 0xFFFFF000 l) (stacksize : Nat) : Sat (l.loadStack stacksize)
      (fun r => Unloaded kernel 0xFFFFFFFF r.2) (fun _ => True) := by
  unfold Loading.loadStack
  split
  · exact Sat.error trivial
  next rgn mm vm hfind =>
  obtain ⟨hrange, _, hmm, hvm⟩ := findAndZeroPageRegion_some hfind
  obtain ⟨_, hhigh, hwhole, hends⟩ := h.regions.findRegionImpl hrange
  have hends : rgn.upto + 1 < 0xFFFFF000 := by
    unfold gKernelBase at hends
    omega
  subst hmm hvm
  refine Sat.ok ⟨h.clear.mapZeroPages, ?_⟩
  have hregions := h.regions.mono (show 0xFFFFF000 ≤ 0xFFFFFFFF by decide)
  refine (hregions.add le_rfl ⟨hwhole, ?_, ?_⟩).add le_rfl ⟨?_, ?_, ?_⟩
  · omega
  · omega
  · show (page (rgn.upto + 1) + (gPageSize - 1) + 1) % gPageSize = 0
    unfold page gPageSize
    omega
  · show page (rgn.upto + 1) + (gPageSize - 1) < 0xFFFFFFFF
    unfold page gPageSize at *
    omega
  · show page (rgn.upto + 1) < 0xFFFFFFFF
    unfold page gPageSize at *
    omega

theorem mainRules (hkernel : ∀ i ∈ kernel, i.upto < 0x100000000 - gKernelBase) :
    MainRules (Unloaded kernel 0xFFFFF000) (Unloaded kernel 0xFFFFFFFF)
      (fun _ => True) Program.AbovePageZero (fun addr => addr < 0xFFFFF000)
      where
  touch l vaddr h := (kernelTouch_sat (Clear.faultRules hkernel) h.clear).mono
    (fun _ hr => ⟨hr, h.regions⟩)
  copySegment l p h hp := by
    refine (Loading.loadPages_sat Clear.segmentRules p.memsz ?_ h.clear).mono
      (fun _ hr => ⟨hr, h.regions⟩)
    intro a hlow hhigh _
    obtain ⟨hstart, hend, _⟩ := hp
    unfold pageNumber index gNumPages gPageSize gKernelBase at *
    omega
  addSegment l p h hp := ⟨h.clear, h.regions.add (by decide) (segmentEnd_below hp)⟩
  segmentGuard p hp := by
    have hend := hp.2.1
    unfold gKernelBase at hend
    omega
  guardPage l addr h haddr := by
    refine ⟨h.clear, h.regions.add (by decide) ⟨?_, ?_, ?_⟩⟩
    · show (page addr + (gPageSize - 1) + 1) % gPageSize = 0
      unfold page gPageSize
      omega
    · show page addr + (gPageSize - 1) < 0xFFFFFFFF
      unfold page gPageSize
      omega
    · show page addr < 0xFFFFF000
      unfold page
      omega
  stack l stacksize h := h.stack stacksize
  strings l size h := h.strings
  touchStack l vaddr h :=
    (kernelTouch_sat (Clear.faultRules hkernel) h.clear).mono (fun _ hr => ⟨hr, h.regions⟩)
  refused l h := ⟨h.clear, h.regions.mono (by decide)⟩
  tooMany := trivial

/-- The whole loader, in a process that has only the regions of the
constructor. -/
theorem loadBinary {vm : Vm} {image : Image}
    (hkernel : ∀ i ∈ kernel, i.upto < 0x100000000 - gKernelBase)
    (himage : image.AbovePageZero) (h : Clear kernel vm) :
    Sat (Loading.loadBinary ⟨init, vm⟩ image) (fun r => Clear kernel r.2.vm) (fun _ => True) := by
  refine Loading.loadBinary_main (K := fun l => Clear kernel l.vm)
    (mainRules hkernel) ?_ (fun _ _ hl => hl.clear.removeRegion)
    (fun _ hl => hl.clear) himage.2 himage.1 h
  intro rgn mm vm' hfind
  obtain ⟨hrange, _, hmm, hvm⟩ := findAndZeroPageRegion_some hfind
  subst hmm hvm
  have hregions : Capped 0xFFFFF000 init.mRegions := Capped.init (by decide)
  refine ⟨h.mapZeroPages, hregions.add (by decide) ?_⟩
  obtain ⟨_, _, hwhole, hends⟩ := hregions.findRegionImpl hrange
  obtain ⟨i0, hi0, _, hfrm, _⟩ := hregions.findFree_above hrange
  rw [init_mRegions] at hi0
  rw [mem_singleton.1 hi0] at hfrm
  refine ⟨hwhole, ?_, ?_⟩
  · unfold gKernelBase at hends
    omega
  · rw [hfrm]
    decide

end Unloaded

-- ==== every step of a process

/-- A process without memory at page 0. Until it is loaded it has the
regions of the constructor. -/
structure Task.Clear (t : Task) : Prop where
  absent : (t.table 0).present = false
  fresh : t.status = .created → t.mm = init

namespace System

variable {s : System} {a : MemAction} {p : Nat} {t u : Task}

theorem Clear.view {kernel : List Interval} (h : (t.table 0).present = false)
    (hkernel : s.mKernelRegions = kernel) : Mm.Clear kernel (s.view t) := by
  refine ⟨?_, hkernel⟩
  have hsame : (s.view t).table 0 = t.table 0 := look_user (by decide)
  rw [hsame]
  exact h

/-- A process that is past its loading. -/
theorem Clear.started (hstatus : u.status ≠ .created) (h : (u.table 0).present = false) : u.Clear :=
  ⟨h, fun hcreated => absurd hcreated hstatus⟩

theorem Clear.accessed {vaddr : Nat} {write : Bool} {file : FileRead} {vm : Vm}
    (hregions : ∀ i ∈ s.mKernelRegions, i.upto < 0x100000000 - gKernelBase)
    (h : t.Clear)
    (haccess : userAccess t.mm (s.view t) vaddr write file = .ok (true, vm)) :
    (vm.table 0).present = false :=
  ((access_sat (Clear.faultRules hregions) 3 (Clear.view h.absent rfl)).result haccess).1.absent

theorem Clear.becomes (hregions : ∀ i ∈ s.mKernelRegions, i.upto < 0x100000000 - gKernelBase)
    (hall : ∀ p t, s.tasks p = some t → t.Clear)
    (hok : ∀ p image, a = .load p image → image.AbovePageZero)
    (h : Becomes s a p u) : u.Clear := by
  have hview : ∀ {t : Task}, t.Clear → Mm.Clear s.mKernelRegions (s.view t) :=
    fun ht => Clear.view ht.absent rfl
  have hlive : ∀ {t : Task}, t.status = .running → t.status ≠ .created :=
    fun hrun => hrun.trans_ne Status.noConfusion
  cases h with
  | spawned => exact ⟨rfl, fun _ => rfl⟩
  | @loaded p t image l ht hstatus hload =>
    have ht := hall _ _ ht
    rw [ht.fresh hstatus] at hload
    have hclear := (Unloaded.loadBinary hregions (hok p image rfl) (hview ht)).result hload
    exact Clear.started Status.noConfusion hclear.absent
  | parent ht hrun hclone =>
    have hclear := ((hview (hall _ _ ht)).cloneAddressSpace hclone).2
    exact Clear.started (hlive hrun) hclear.absent
  | child ht hrun hclone =>
    have hclear := ((hview (hall _ _ ht)).cloneAddressSpace hclone).1
    exact Clear.started Status.noConfusion hclear
  | @cloneStarted p t l ht hstatus hstart =>
    have hclear := hview (hall _ _ ht)
    unfold Loading.cloneStart at hstart
    split at hstart
    · subst hstart
      exact Clear.started Status.noConfusion hclear.absent
    next rgn mm vm hfind =>
    subst hstart
    obtain ⟨_, _, _, rfl⟩ := findAndZeroPageRegion_some hfind
    exact Clear.started Status.noConfusion hclear.mapZeroPages.absent
  | mapped ht hrun hfind =>
    obtain ⟨_, _, _, rfl⟩ := findAndZeroPageRegion_some hfind
    exact Clear.started (hlive hrun) (hview (hall _ _ ht)).mapZeroPages.absent
  | fileMapped ht hrun hfind =>
    obtain ⟨_, _, _, rfl⟩ := findAndFileMapRegion_some hfind
    exact Clear.started (hlive hrun) (hview (hall _ _ ht)).mapZeroPages.absent
  | unmapped ht hrun _ _ hremove =>
    have hclear := (hview (hall _ _ ht)).removeRegion.result hremove
    exact Clear.started (hlive hrun) hclear.absent
  | reprotected ht hrun _ _ => exact Clear.started (hlive hrun) (hview (hall _ _ ht)).protect
  | read ht hrun haccess =>
    exact Clear.started (hlive hrun) (Clear.accessed hregions (hall _ _ ht) haccess)
  | written ht hrun haccess =>
    exact Clear.started (hlive hrun) (Clear.accessed hregions (hall _ _ ht) haccess)
  | exited hstatus hempty =>
    refine Clear.started (hstatus.trans_ne Status.noConfusion) ?_
    rw [hempty 0 (by decide)]

end System

-- ==== scratch pages

namespace ScratchSystem

variable {s s' s₀ : ScratchSystem} {a : ScratchAction} {p : Nat} {t : Task}
  {vm : Vm} {info : ScratchPageInfo}

/-- A page of the scratch range is not page 0. -/
theorem pageNumber_scratch {virt : Nat} (hlow : gKernelBase ≤ page info.low)
    (hhigh : info.high ≤ 0x100000000)
    (hfind : vm.findPageWithinRange info.low info.high = some virt) :
    pageNumber virt ≠ 0 := by
  obtain ⟨k, rfl, hlt⟩ := Vm.mem_pagesBelow.1 (mem_of_find?_eq_some hfind)
  unfold page at *
  unfold pageNumber index gNumPages gPageSize gKernelBase at *
  omega

theorem current_ok (h : s.current p = .ok t) : s.system.tasks p = some t := by
  unfold current at h
  split at h
  next u hu =>
    obtain ⟨_, h⟩ := reject_eq_ok.1 h
    cases h
    exact hu
  · cases h

/-- What every state has in common with the first one, and every process
with a new one. -/
structure Inv (s₀ s : ScratchSystem) : Prop where
  regions : s.system.mKernelRegions = s₀.system.mKernelRegions
  info : s.mScratchPageInfo = s₀.mScratchPageInfo
  tasks : ∀ p t, s.system.tasks p = some t → t.Clear

/-- The kernel worked with a scratch page while the process ran. -/
theorem Inv.store (h : Inv s₀ s) (ht : s.system.tasks p = some t)
    (hvm : (vm.table 0).present = false) (pages : List ScratchPage) :
    Inv s₀ { s with system := s.system.store p t t.mm vm, pages := pages } := by
  refine ⟨h.regions, h.info, ?_⟩
  intro q u hu
  rcases update_eq_some hu with ⟨_, ⟨⟩⟩ | ⟨_, hu⟩
  · exact ⟨hvm, (h.tasks p t ht).fresh⟩
  · exact h.tasks q u hu

theorem Inv.step (hb : s₀.Booted) (h : Inv s₀ s) (hok : s.SparesPageZero a)
    (hs : step a s = .ok s') : Inv s₀ s' := by
  have hregions : ∀ i ∈ s.system.mKernelRegions, i.upto < 0x100000000 - gKernelBase := by
    rw [h.regions]
    exact hb.regions
  have hscratch : ∀ {vm : Vm} {virt : Nat},
      vm.findPageWithinRange s.mScratchPageInfo.low s.mScratchPageInfo.high
        = some virt → pageNumber virt ≠ 0 :=
    fun hfind => pageNumber_scratch (h.info ▸ hb.low) (h.info ▸ hb.high) hfind
  have hview : ∀ {p t}, s.system.tasks p = some t →
      Clear s.system.mKernelRegions (s.system.view t) :=
    fun ht => Clear.view (h.tasks _ _ ht).absent rfl
  cases a with
  | mem a =>
    obtain ⟨system, hstep, hs⟩ := ok_bind hs
    cases hs
    have hfollows := step_follows hstep
    refine ⟨hfollows.regions.trans h.regions, h.info, ?_⟩
    intro q u hu
    rcases hfollows.tasks q u hu with hu | hu
    · exact h.tasks q u hu
    · refine Clear.becomes hregions h.tasks ?_ hu
      rintro p image rfl
      exact hok
  | get p op =>
    obtain ⟨t, hcurrent, hs⟩ := ok_bind hs
    have ht := current_ok hcurrent
    obtain ⟨⟨sp, vm⟩, hget, hs⟩ := ok_bind hs
    cases hs
    refine h.store ht ?_ _
    unfold Vm.getScratchPage Vm.scratchAddress at hget
    cases hfind : (s.system.view t).findPageWithinRange
        s.mScratchPageInfo.low s.mScratchPageInfo.high with
    | none =>
      -- the odd address is noticed
      rw [hfind] at hget
      cases hget
      exact (hview ht).absent
    | some virt =>
      rw [hfind] at hget
      dsimp only [Option.getD_some] at hget
      split at hget
      · cases hget
        exact (hview ht).absent
      · obtain ⟨vm', hmap, hget⟩ := ok_bind hget
        cases hget
        exact (((hview ht).mapAny (hscratch hfind)).result hmap).absent
  | getAt p phys op =>
    obtain ⟨t, hcurrent, hs⟩ := ok_bind hs
    have ht := current_ok hcurrent
    cases hs
    refine h.store ht ?_ _
    obtain ⟨virt, hfind⟩ := Option.isSome_iff_exists.1 (hok t ht)
    unfold Vm.scratchAddress
    rw [hfind]
    exact ((hview ht).update Vm.map_table Vm.map_regions
      (fun hn => absurd hn (hscratch hfind))).absent
  | drop p sp =>
    obtain ⟨t, hcurrent, hs⟩ := ok_bind hs
    have ht := current_ok hcurrent
    obtain ⟨_, hs⟩ := check_eq_ok.1 hs
    obtain ⟨vm, hdrop, hs⟩ := ok_bind hs
    cases hs
    refine h.store ht ?_ _
    unfold Vm.dropScratchPage at hdrop
    split at hdrop
    · exact ((hview ht).unmap.result hdrop).absent
    · cases hdrop
      exact (hview ht).absent
  | reset sp =>
    obtain ⟨_, hs⟩ := check_eq_ok.1 hs
    cases hs
    exact ⟨h.regions, h.info, h.tasks⟩

/-- After steps that spare page 0 no process has memory there. -/
theorem pageZeroClear_of_sparesPageZero (hb : s₀.Booted)
    (h : (scratchSystem s₀).Reach SparesPageZero s) :
    s.system.PageZeroClear := by
  have hinv : Inv s₀ s := by
    refine Reach.invariant (I := Inv s₀) ?_ (fun s s' a hs hok hs' => hs.step hb hok hs') h
    rintro s rfl
    refine ⟨rfl, rfl, ?_⟩
    intro p t ht
    rw [hb.system.none p] at ht
    cases ht
  exact fun p t ht => (hinv.tasks p t ht).absent

-- ==== a page of code at address 0

/-- What the processes do by themselves they do in the whole system. -/
theorem run_mem {acts : List MemAction} {system system' : System}
    (h : (memSystem s₀.system).run acts system = .ok system')
    (pages : List ScratchPage) :
    (scratchSystem s₀).run (acts.map .mem) ⟨system, s₀.mScratchPageInfo, pages⟩
      = .ok ⟨system', s₀.mScratchPageInfo, pages⟩ := by
  induction acts generalizing system with
  | nil =>
    cases h
    rfl
  | cons a rest ih =>
    rw [run] at h
    split at h
    next system₁ hstep =>
      rw [map_cons, run]
      have hmem : (scratchSystem s₀).step (.mem a) ⟨system, s₀.mScratchPageInfo, pages⟩
            = .ok ⟨system₁, s₀.mScratchPageInfo, pages⟩ :=
        bind_eq_ok.2 ⟨system₁, hstep, rfl⟩
      rw [hmem]
      exact ih h
    · cases h

/-- A state with one scratch page. -/
def plainScratch : ScratchSystem where
  system := plain
  mScratchPageInfo := ⟨0xE0000000, 0xE0001FFF⟩

theorem plainScratch_booted : plainScratch.Booted :=
  ⟨plain_booted, nofun, by decide, by decide⟩

/-- A process with a segment that does not go near page zero. -/
theorem pageZeroClear_of_sparesPageZero_text : plainScratch.Booted ∧
    ∃ s, (scratchSystem plainScratch).Reach SparesPageZero s ∧
      (s.system.tasks 1).any hasText = true ∧
      s.system.PageZeroClear := by
  obtain ⟨system, hrun, htest⟩ := plain_hasText
  rw [Bool.and_eq_true] at htest
  have hreach : (scratchSystem plainScratch).Reach SparesPageZero
      ⟨system, plainScratch.mScratchPageInfo, []⟩ := by
    refine Reach.run (.boot rfl) (guarded_of_forall ?_ _) (@run_mem plainScratch _ _ _ hrun [])
    intro a ha s
    simp only [map_cons, map_nil, mem_cons, not_mem_nil, or_false] at ha
    rcases ha with rfl | rfl
    · trivial
    refine ⟨by decide, ?_⟩
    intro prog hprog _
    rw [mem_singleton.1 hprog]
    unfold Program.AbovePageZero
    decide
  exact ⟨plainScratch_booted, _, hreach, htest.2,
    pageZeroClear_of_sparesPageZero plainScratch_booted hreach⟩

/-- An executable that wants to be at address 0. -/
def nullImage : Image where
  fileSize := 0x1000
  entry := 0x10
  programs := [{ vaddr := 0, memsz := 0x1000, filesz := 0x1000 }]

theorem nullImage_mapped : plainScratch.Booted ∧ ∃ s, (scratchSystem plainScratch).Reach anyStep s ∧
      ¬ s.system.PageZeroClear := by
  have hrun : ∃ s, (memSystem plain).run [.spawn 1, .load 1 nullImage] plain
        = .ok s ∧ (s.tasks 1).any (fun t => (t.table 0).present) = true := by
    rw [← endsWith_iff, endsWith_cons, show (memSystem plain).step (.spawn 1) plain = _
        from plain_spawn]
    decide +kernel
  obtain ⟨system, hrun, htest⟩ := hrun
  refine ⟨plainScratch_booted, _, reach_run rfl (@run_mem plainScratch _ _ _ hrun []), ?_⟩
  intro hclear
  rw [Option.any_eq_true] at htest
  obtain ⟨t, ht, hpresent⟩ := htest
  rw [hclear 1 t ht] at hpresent
  cases hpresent

end ScratchSystem

end Puppy.Mm
