/-
The region list of a process, as far as the bounds of its regions go.

A search answers soundly exactly when it cannot wrap (Libc), and the two
system calls that hand out a region do nothing but search and add. So what
a process can ask for and what it then gets is settled here once, for
every list that starts out well formed.
-/
import Puppy.Mm.MemMgr
import Puppy.Libc.Proofs.Interval

namespace Puppy.Mm

open Libc IntervalList MemoryManager

variable {size : Nat} {rgn : Region} {vm : Vm}

-- ==== sizes and pages

theorem page_eq_zero_iff {addr : Nat} : page addr = 0 ↔ addr < gPageSize := by
  unfold page gPageSize
  omega

theorem toPage_lt (hsize : size < 0x100000000) : toPage size < 0x100000000 := by
  unfold toPage
  split
  · exact hsize
  · exact Nat.mod_lt _ (by decide)

/-- Sizes are rounded to whole pages. -/
theorem toPage_mod (size : Nat) : toPage size % gPageSize = 0 := by
  unfold toPage
  split
  next h => exact h
  · unfold add32 gPageSize
    omega

-- ==== regions that are handed out

/-- A region that a search for `size` bytes may hand out: new addresses,
as many as asked for, outside page 0 and the kernel half. -/
structure Unclaimed (mm : MemoryManager) (size : Nat) (rgn : Region) :
    Prop where
  free : FreeRange 0xFFFFFFFF (toPage size) mm.mRegions rgn.toInterval
  user : ∀ addr, rgn.toInterval.contains addr = true → page addr ≠ 0 ∧ iskernel addr = false

/-- The two system calls hand out this region. -/
def HandsOut (mm : MemoryManager) (vm : Vm) (size : Nat) (opts : MapOptions)
    (rgn : Region) : Prop :=
  (∃ mm' vm', mm.findAndZeroPageRegion vm size opts = some (rgn, mm', vm')) ∨
    ∃ mm' vm', mm.findAndFileMapRegion vm size = some (rgn, mm', vm')

/-- Page 0 and the kernel half stand in the list. -/
structure Fenced (mm : MemoryManager) : Prop where
  zero : ∃ r ∈ mm.mRegions, r.toInterval = ⟨0, 0xFFF⟩
  kernel : ∃ r ∈ mm.mRegions, r.toInterval = ⟨gKernelBase, 0xFFFFFFFF⟩

variable {mm mm' : MemoryManager} {vm' : Vm} {opts : MapOptions}

/-- A search that succeeds adds a region with the bounds it found. -/
theorem findAndZeroPageRegion_some
    (h : mm.findAndZeroPageRegion vm size opts = some (rgn, mm', vm')) :
    mm.findRegionImpl size = some rgn.toInterval ∧
      rgn = { toInterval := rgn.toInterval, permission := opts } ∧
      mm' = mm.addRegion rgn ∧ vm' = vm.mapZeroPages rgn.frm rgn.upto opts := by
  unfold findAndZeroPageRegion at h
  cases hfind : mm.findRegionImpl size with
  | none =>
    rw [hfind] at h
    cases h
  | some range =>
    rw [hfind] at h
    cases h
    exact ⟨rfl, rfl, rfl, rfl⟩

theorem findAndFileMapRegion_some (h : mm.findAndFileMapRegion vm size = some (rgn, mm', vm')) :
    mm.findRegionImpl size = some rgn.toInterval ∧
      rgn = { toInterval := rgn.toInterval
              permission := { rw := true, user := true }
              mmap_data := some size } ∧
      mm' = mm.addRegion rgn ∧
      vm' = vm.mapZeroPages rgn.frm rgn.upto { rw := true, user := true } := by
  unfold findAndFileMapRegion at h
  cases hfind : mm.findRegionImpl size with
  | none =>
    rw [hfind] at h
    cases h
  | some range =>
    rw [hfind] at h
    cases h
    exact ⟨rfl, rfl, rfl, rfl⟩

theorem HandsOut.range (h : HandsOut mm vm size opts rgn) :
    mm.findRegionImpl size = some rgn.toInterval := by
  rcases h with ⟨mm', vm', h⟩ | ⟨mm', vm', h⟩
  · exact (findAndZeroPageRegion_some h).1
  · exact (findAndFileMapRegion_some h).1

theorem handsOut_of_find {range : Interval} (vm : Vm) (opts : MapOptions)
    (h : mm.findRegionImpl size = some range) :
    HandsOut mm vm size opts { toInterval := range, permission := opts } := by
  unfold HandsOut findAndZeroPageRegion
  rw [h]
  exact .inl ⟨_, _, rfl⟩

/-- New addresses of a fenced list are addresses the process may have. -/
theorem Fenced.unclaimed (hf : Fenced mm) (hfree : FreeRange 0xFFFFFFFF (toPage size) mm.mRegions
      rgn.toInterval) : Unclaimed mm size rgn := by
  refine ⟨hfree, ?_⟩
  intro addr haddr
  obtain ⟨zero, hzero, hzeq⟩ := hf.zero
  obtain ⟨kernel, hkernel, hkeq⟩ := hf.kernel
  have h0 : (IsInterval.ival zero).contains addr = true → False :=
    fun h => hfree.disjoint zero hzero addr ⟨haddr, h⟩
  have hk : (IsInterval.ival kernel).contains addr = true → False :=
    fun h => hfree.disjoint kernel hkernel addr ⟨haddr, h⟩
  have hz' : IsInterval.ival zero = ⟨0, 0xFFF⟩ := hzeq
  have hk' : IsInterval.ival kernel = ⟨gKernelBase, 0xFFFFFFFF⟩ := hkeq
  have hbound := hfree.bounded
  rw [Interval.contains_iff] at haddr
  simp only [hz', Interval.contains_iff] at h0
  simp only [hk', Interval.contains_iff] at hk
  constructor
  · rw [Ne, page_eq_zero_iff]
    unfold gPageSize
    intro hlt
    exact h0 ⟨zero_le, by omega⟩
  unfold iskernel
  rw [decide_eq_false_iff_not]
  intro hle
  exact hk ⟨hle, by omega⟩

-- ==== what user code is told

namespace MemoryManager

/-- Doubling loses the topmost bit. -/
theorem mmapResult_double (frm : Nat) :
    mmapResult (frm * 2 % 0x100000000) = frm ↔ frm < 0x80000000 := by
  have heven : ¬ frm * 2 % 0x100000000 % 2 = 1 := by omega
  rw [mmapResult, if_neg heven]
  omega

theorem mmapTells_iff : mm.MmapTells vm size ↔
    mm.RoomAt (fun frm => 0 < frm ∧ frm < 0x80000000) size := by
  unfold MmapTells RoomAt mmapHandler findAndFileMapRegion
  cases mm.findRegionImpl size with
  | none => exact ⟨fun _ => nofun, fun _ => nofun⟩
  | some range =>
    have hright : range.frm < gKernelBase →
        (mmapResult (if range.frm ≠ 0 then range.frm * 2 % 0x100000000
          else errorCode 5) = range.frm ↔ 0 < range.frm ∧ range.frm < 0x80000000) := by
      intro hlt
      by_cases hzero : range.frm = 0
      · rw [hzero]
        decide
      · rw [if_pos hzero, mmapResult_double]
        omega
    constructor
    · rintro h _ ⟨⟩ hlt
      exact (hright hlt).1 (h _ _ _ rfl hlt)
    · rintro h _ _ _ ⟨⟩ hlt
      exact (hright hlt).2 (h _ rfl hlt)

theorem mapregionTells_iff {rw : Bool} : mm.MapregionTells vm size rw ↔
    (offset size = 0 → mm.RoomAt (fun frm => frm % 2 = 0) size) := by
  unfold MapregionTells RoomAt mapregionHandler findAndZeroPageRegion
  cases mm.findRegionImpl size with
  | none => exact ⟨fun _ _ => nofun, fun _ => nofun⟩
  | some range =>
    have hright : mapregionResult (if range.frm ≠ 0 then range.frm
        else errorCode 5) = range.frm ↔ range.frm % 2 = 0 := by
      by_cases hzero : range.frm = 0
      · rw [hzero]
        decide
      · rw [if_pos hzero, mapregionResult]
        split <;> omega
    constructor
    · rintro h hsize _ ⟨⟩ hlt
      have htells := h _ _ _ hsize rfl hlt
      rw [if_neg (not_not.2 hsize)] at htells
      exact hright.1 htells
    · rintro h _ _ _ hsize ⟨⟩ hlt
      rw [if_neg (not_not.2 hsize)]
      exact hright.2 (h hsize _ rfl hlt)

/-- `mmap` tells the address exactly if there is room in the lower two
gigabytes, and `mapregion` if it is at an even address. -/
theorem tellsBase_iff (mm : MemoryManager) (vm : Vm) (size : Nat) (rw : Bool) :
    (mm.MmapTells vm size ↔ mm.RoomAt (fun frm => 0 < frm ∧ frm < 0x80000000) size) ∧
    (mm.MapregionTells vm size rw ↔ (offset size = 0 → mm.RoomAt (fun frm => frm % 2 = 0) size)) :=
  ⟨mmapTells_iff, mapregionTells_iff⟩

/-- After a region of two gigabytes, a file is at 0x80001000, but said to be
at 0x1000. -/
theorem mmap_beyond_region : ¬ (init.mapregionHandler ⟨{}, fun _ _ => 0, fun _ => {}, []⟩
        0x80000000 true).2.1.MmapTells ⟨{}, fun _ _ => 0, fun _ => {}, []⟩
      0x1000 := by
  rw [mmapTells_iff]
  intro hroom
  exact absurd (hroom ⟨0x80001000, 0x80001FFF⟩ (by decide) (by decide)).2 (by decide)

end MemoryManager

-- ==== a new process

theorem init_mRegions : init.mRegions =
    [{ frm := 0, upto := 0xFFF }, { frm := gKernelBase, upto := 0xFFFFFFFF }] :=
  rfl

theorem init_layout : Layout 0xFFFFFFFF init.mRegions := by
  rw [layout_iff_separated, init_mRegions]
  refine ⟨by decide, ?_⟩
  unfold Separated
  decide

theorem init_fenced : Fenced init := by
  rw [show init = ⟨init.mRegions, 0⟩ from rfl, init_mRegions]
  exact ⟨⟨_, List.mem_cons_self, rfl⟩, ⟨_, List.mem_cons_of_mem _ List.mem_cons_self, rfl⟩⟩

-- ==== soundness of the search

/-- What the search finds is free, and so is what the system calls hand
out, exactly for the requests whose gap test does not wrap. -/
theorem handedOut_sound_iff_safeRequest {α : Type} [IsInterval α] {max size : Nat}
    {l : List α} (hmax : max < 0x100000000) (hsize : size < 0x100000000)
    (hl : Layout max l) (hf : Fenced mm)
    (hmm : Layout 0xFFFFFFFF mm.mRegions) (vm : Vm)
    (opts : MapOptions) :
    ((∀ range, findFree max size l = some range → FreeRange max size l range) ↔
      SafeRequest max size l) ∧
    ((∀ rgn, HandsOut mm vm size opts rgn → Unclaimed mm size rgn) ↔
      SafeRequest 0xFFFFFFFF (toPage size) mm.mRegions) := by
  refine ⟨findFree_sound_iff_safeRequest hmax hsize hl, ?_⟩
  have hiff := findFree_sound_iff_safeRequest (by decide) (toPage_lt hsize) hmm
  rw [← hiff]
  constructor
  · intro h range hrange
    exact (h _ (handsOut_of_find vm opts hrange)).free
  · intro h rgn hrgn
    exact hf.unclaimed (h _ hrgn.range)

/-- A new process that asks for four pages gets them. -/
theorem findFree_sound_init : SafeRequest 0xFFFFFFFF (toPage 0x4000) init.mRegions ∧
      ∀ rgn, HandsOut init ⟨{}, fun _ _ => 0, fun _ => {}, []⟩
        0x4000 .userspace rgn → Unclaimed init 0x4000 rgn := by
  have hsafe : SafeRequest 0xFFFFFFFF (toPage 0x4000) init.mRegions := by
    refine .inr ?_
    unfold NoWrap
    simp only [List.dropLast_cons_cons, List.dropLast_singleton, List.mem_singleton, forall_eq]
    decide
  exact ⟨hsafe, (handedOut_sound_iff_safeRequest (by decide) (by decide)
    init_layout init_fenced init_layout _ _).2.2 hsafe⟩

/-- After that, a request for the whole address space but one page is
answered with a range that ends before it starts. -/
theorem findFree_wraps_around : let mm := init.addRegion { frm := 0x1000, upto := 0x4FFF }
    Layout 0xFFFFFFFF mm.mRegions ∧ Fenced mm ∧
      ∃ rgn, HandsOut mm ⟨{}, fun _ _ => 0, fun _ => {}, []⟩ 0xFFFFF000 .userspace rgn ∧
        rgn.frm = 0x5000 ∧ rgn.upto = 0x3FFF ∧
        ¬ Unclaimed mm 0xFFFFF000 rgn := by
  intro mm
  have hregions : mm.mRegions = [{ frm := 0, upto := 0xFFF }, { frm := 0x1000, upto := 0x4FFF },
        { frm := gKernelBase, upto := 0xFFFFFFFF }] := rfl
  have hfind : mm.findRegionImpl 0xFFFFF000 = some ⟨0x5000, 0x3FFF⟩ := by decide
  refine ⟨?_, ⟨?_, ?_⟩, _, handsOut_of_find _ _ hfind, rfl, rfl, ?_⟩
  · rw [layout_iff_separated, hregions]
    refine ⟨by decide, ?_⟩
    unfold Separated
    decide
  · rw [hregions]
    exact ⟨_, List.mem_cons_self, rfl⟩
  · rw [hregions]
    exact ⟨_, List.mem_cons_of_mem _ (List.mem_cons_of_mem _ List.mem_cons_self), rfl⟩
  · intro h
    exact absurd h.free.ordered (by decide)

end Puppy.Mm
