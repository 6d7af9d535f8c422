/-
What the operations of the virtual page manager do to one page.

Each of them either leaves everything as it is, or replaces one table
entry and perhaps takes or gives back one reference. The lemmas say which,
for every outcome, so that a proof about any longer piece of code looks at
these outcomes and not at the definitions.
-/
import Puppy.Mm.Accounts
import Puppy.Lib.Except

namespace Puppy.Mm

open Libc Lib PhysicalPageManager PagingIndices Function
open List hiding next

-- ==== page numbers

theorem pageNumber_lt (virt : Nat) : pageNumber virt < gNumPages :=
  Nat.mod_lt _ (by decide)

theorem pageNumber_page (virt : Nat) : pageNumber (page virt) = pageNumber virt := by
  unfold pageNumber page index gPageSize
  congr 1
  omega

theorem pageNumber_mul {i : Nat} (hi : i < gNumPages) : pageNumber (i * gPageSize) = i := by
  unfold pageNumber
  rw [mul_comm, index_mul, Nat.mod_eq_of_lt hi]

/-- A user address has a page in the user half. -/
theorem pageNumber_user {virt : Nat} (h : virt < gKernelBase) :
    pageNumber virt < gNumUserPages ∧ pageNumber virt = virt / gPageSize := by
  unfold gKernelBase at h
  unfold pageNumber index gPageSize gNumPages gNumUserPages
  omega

theorem gNumUserPages_le : gNumUserPages ≤ gNumPages := by decide

namespace TableEntry

variable {e : TableEntry} {f : Nat} {opts : MapOptions}

/-- The frame that an entry refers to, if it is counted. -/
theorem frame_eq_some : e.frame = some f ↔
      e.present = true ∧ e.frompmm = true ∧ index e.page = f := by
  unfold frame
  by_cases h : (e.present && e.frompmm) = true
  · rw [if_pos h]
    rw [Bool.and_eq_true] at h
    constructor
    · intro heq
      injection heq with heq
      exact ⟨h.1, h.2, heq⟩
    · rintro ⟨_, _, heq⟩
      rw [heq]
  · rw [if_neg h]
    constructor
    · nofun
    · rintro ⟨hp, hf, _⟩
      exact absurd (by rw [hp, hf]; rfl) h

theorem frame_eq_none (h : e.frompmm = false) : e.frame = none := by
  unfold frame
  rw [h, Bool.and_false]
  rfl

theorem frame_absent (h : e.present = false) : e.frame = none := by
  unfold frame
  rw [h]
  rfl

@[simp]
theorem frame_unmapped : e.unmapped.frame = none := frame_eq_none rfl

@[simp]
theorem frame_zeroPage : (e.zeroPage opts).frame = none := frame_eq_none rfl

theorem frame_mapping {phys : Nat} (h : opts.frompmm = true) :
    (mapping phys opts).frame = some (index phys) :=
  frame_eq_some.2 ⟨rfl, h, rfl⟩

end TableEntry

namespace Vm

variable {vm vm' : Vm} {virt phys frm upto j rounds low high p : Nat} {opts : MapOptions}

@[simp]
theorem setEntry_table (e : TableEntry) : (vm.setEntry virt e).table =
    update vm.table (pageNumber virt) e := rfl

/-- An entry that has been set is found. -/
theorem setEntry_entry (e : TableEntry) : (vm.setEntry virt e).entry virt = e := by
  unfold entry
  rw [setEntry_table, update_self]

-- ==== mapAnyPhysicalPage

/-- The page at `virt` gets the physical page `idx`, which was free. -/
structure Mapped (vm : Vm) (virt : Nat) (opts : MapOptions) (idx : Nat)
    (vm' : Vm) : Prop where
  absent : (vm.entry virt).present = false
  free : (vm.pmm.mPages idx).available = true
  traded : Traded vm.pmm vm'.pmm (named (some idx)) (fun _ => 0)
  table : vm'.table = update vm.table (pageNumber virt)
    (.mapping (gPageSize * idx) { opts with frompmm := true })
  memory : ∀ f ≠ idx, vm'.memory f = vm.memory f
  regions : vm'.mKernelRegions = vm.mKernelRegions

/-- Mapping a page may clear its own bytes only. -/
theorem map_memory {f : Nat} (hf : f ≠ index phys) :
    (vm.map phys virt opts).memory f = vm.memory f := by
  unfold map
  split
  · exact update_of_ne hf _ _
  · rfl

@[simp]
theorem map_table : (vm.map phys virt opts).table =
    update vm.table (pageNumber virt) (.mapping phys opts) := by
  unfold map
  split <;> rfl

@[simp]
theorem map_pmm : (vm.map phys virt opts).pmm = vm.pmm := by
  unfold map
  split <;> rfl

@[simp]
theorem map_regions : (vm.map phys virt opts).mKernelRegions = vm.mKernelRegions := by
  unfold map
  split <;> rfl

/-- Nothing to do, no memory left, or a new page. -/
theorem mapAnyPhysicalPage_cases (vm : Vm) (virt : Nat) (opts : MapOptions) :
    ((vm.entry virt).present = true ∧ vm.mapAnyPhysicalPage virt opts = .ok vm) ∨
      vm.mapAnyPhysicalPage virt opts = .error .resultOfFailure ∨
      ∃ idx vm', vm.mapAnyPhysicalPage virt opts = .ok vm' ∧ Mapped vm virt opts idx vm' := by
  unfold mapAnyPhysicalPage
  by_cases hpresent : (vm.entry virt).present = true
  · rw [if_pos hpresent]
    exact .inl ⟨hpresent, rfl⟩
  rw [if_neg hpresent]
  rw [Bool.not_eq_true] at hpresent
  cases halloc : vm.pmm.alloc with
  | none => exact .inr (.inl rfl)
  | some x =>
    obtain ⟨phys, pmm⟩ := x
    obtain ⟨idx, rfl, _⟩ := alloc_some halloc
    obtain ⟨havail, htraded⟩ := alloc_traded halloc
    refine .inr (.inr ⟨idx, _, rfl, hpresent, havail, ?_, map_table, ?_, map_regions⟩)
    · rw [map_pmm]
      exact htraded
    · intro f hf
      exact map_memory (by rw [index_mul]; exact hf)

theorem mapAnyPhysicalPage_ok (h : vm.mapAnyPhysicalPage virt opts = .ok vm') :
    ((vm.entry virt).present = true ∧ vm' = vm) ∨ ∃ idx, Mapped vm virt opts idx vm' := by
  rcases mapAnyPhysicalPage_cases vm virt opts with ⟨hpresent, heq⟩ | heq | ⟨idx, vm₁, heq, hm⟩
  · cases heq.symm.trans h
    exact .inl ⟨hpresent, rfl⟩
  · cases heq.symm.trans h
  · cases heq.symm.trans h
    exact .inr ⟨idx, hm⟩

/-- What holds of all outcomes. -/
theorem mapAnyPhysicalPage_sat {I : Vm → Prop} {E : Panic → Prop} (h : I vm)
    (hfail : E .resultOfFailure) (hnew : ∀ idx vm', Mapped vm virt opts idx vm' → I vm') :
    Sat (vm.mapAnyPhysicalPage virt opts) I E := by
  rcases mapAnyPhysicalPage_cases vm virt opts with ⟨_, heq⟩ | heq | ⟨idx, vm', heq, hm⟩ <;> rw [heq]
  · exact Sat.ok h
  · exact Sat.error hfail
  · exact Sat.ok (hnew idx vm' hm)

-- ==== unmap

/-- The entry of `virt` is cleared, and the reference it held is given
back. -/
structure Unmapped (vm : Vm) (virt : Nat) (vm' : Vm) : Prop where
  table : vm'.table = update vm.table (pageNumber virt) (vm.entry virt).unmapped
  memory : vm'.memory = vm.memory
  regions : vm'.mKernelRegions = vm.mKernelRegions
  traded : Traded vm.pmm vm'.pmm (fun _ => 0) (named (vm.entry virt).frame)

/-- What an entry from the physical page manager says is there. -/
def Held (vm : Vm) (e : TableEntry) : Prop :=
  e.frompmm = true → e.present = true ∧ (vm.pmm.mPages (index e.page)).usable = true ∧
    (vm.pmm.mPages (index e.page)).refcnt ≠ 0

/-- `unmap` does not panic where the entry is right. -/
theorem unmap_of_held (hheld : Held vm (vm.entry virt)) :
    ∃ vm', vm.unmap virt = .ok vm' ∧ Unmapped vm virt vm' := by
  unfold unmap
  by_cases hpmm : (vm.entry virt).frompmm = true
  · obtain ⟨hpresent, husable, hcount⟩ := hheld hpmm
    obtain ⟨pmm', hdealloc, htraded⟩ := dealloc_traded husable hcount
    simp only [hpmm, hpresent, if_true, hdealloc]
    refine ⟨_, rfl, rfl, rfl, rfl, ?_⟩
    rw [TableEntry.frame_eq_some.2 ⟨hpresent, hpmm, rfl⟩]
    exact htraded
  · simp only [hpmm]
    refine ⟨_, rfl, rfl, rfl, rfl, ?_⟩
    rw [TableEntry.frame_eq_none (Bool.not_eq_true _ ▸ hpmm)]
    exact (Traded.same vm.pmm none).congr (fun f => named_none f) (fun f => rfl)

/-- An `unmap` that gets to its end has cleared the entry. -/
theorem unmap_table (h : vm.unmap virt = .ok vm') : vm'.table = update vm.table (pageNumber virt)
        (vm.entry virt).unmapped ∧
      vm'.mKernelRegions = vm.mKernelRegions := by
  unfold unmap at h
  dsimp only at h
  split at h
  · obtain ⟨_, h⟩ := check_eq_ok.1 h
    split at h
    · cases h
    · cases h
      exact ⟨rfl, rfl⟩
  · cases h
    exact ⟨rfl, rfl⟩

-- ==== clonePage

/-- The page at `virt` gets a copy of its own in the physical page `idx`,
which was free. -/
structure Copied (vm : Vm) (virt : Nat) (opts : MapOptions) (idx : Nat)
    (vm' : Vm) : Prop where
  free : (vm.pmm.mPages idx).available = true
  traded : Traded vm.pmm vm'.pmm (named (some idx)) (named (vm.entry virt).frame)
  table : vm'.table = update vm.table (pageNumber virt) (.mapping (gPageSize * idx)
      { opts with frompmm := true, cow := false, rw := true })
  memory : ∀ f ≠ idx, vm'.memory f = vm.memory f
  copy : opts.clear = false → vm'.memory idx = vm.memory (index (vm.entry virt).page)
  regions : vm'.mKernelRegions = vm.mKernelRegions

/-- The copy of a page that is held fails only for want of memory. -/
theorem clonePage_of_held (opts : MapOptions) (hheld : Held vm (vm.entry virt)) :
    vm.pmm.alloc = none ∧ vm.clonePage virt opts = .ok none ∨
      ∃ idx vm', vm.clonePage virt opts = .ok (some vm') ∧ Copied vm virt opts idx vm' := by
  unfold clonePage
  cases halloc : vm.pmm.alloc with
  | none => exact .inl ⟨rfl, rfl⟩
  | some x =>
    obtain ⟨phys, pmm⟩ := x
    obtain ⟨idx, rfl, _⟩ := alloc_some halloc
    obtain ⟨havail, hgain⟩ := alloc_traded halloc
    -- the copy has its bytes before the old page is let go
    have hheld' : Held (setMemory { vm with pmm := pmm } (gPageSize * idx)
        (vm.memory (index (vm.entry virt).page))) (vm.entry virt) := by
      intro hpmm
      obtain ⟨hpresent, husable, hcount⟩ := hheld hpmm
      refine ⟨hpresent, (hgain.usable _).trans husable, ?_⟩
      have := hgain.refcnt (index (vm.entry virt).page)
      show (pmm.mPages _).refcnt ≠ 0
      omega
    obtain ⟨vm₁, hunmap, hcleared⟩ := unmap_of_held hheld'
    refine .inr ⟨idx, vm₁.map (gPageSize * idx) (page virt)
      { opts with frompmm := true, cow := false, rw := true },
      bind_eq_ok.2 ⟨vm₁, hunmap, rfl⟩, havail, ?_, ?_, ?_, ?_, ?_⟩
    · rw [map_pmm]
      have h := hgain.trans hcleared.traded
      simp only [add_zero, zero_add] at h
      exact h
    · rw [map_table, hcleared.table, pageNumber_page]
      exact update_idem _ _ _
    · intro f hf
      have hf' : f ≠ index (gPageSize * idx) := by rwa [index_mul]
      rw [map_memory hf', hcleared.memory]
      exact update_of_ne hf' _ _
    · intro hclear
      unfold map
      rw [hclear, if_neg (by decide)]
      show vm₁.memory idx = _
      rw [hcleared.memory]
      unfold setMemory
      dsimp only
      rw [index_mul, update_self]
    · rw [map_regions, hcleared.regions]
      rfl

/-- A copy concerns one entry. -/
theorem clonePage_table (h : vm.clonePage virt opts = .ok (some vm')) :
    (∃ phys opts', vm'.table = update vm.table (pageNumber virt) (.mapping phys opts')) ∧
      vm'.mKernelRegions = vm.mKernelRegions := by
  unfold clonePage at h
  cases halloc : vm.pmm.alloc with
  | none =>
    rw [halloc] at h
    cases h
  | some x =>
    rw [halloc] at h
    obtain ⟨vm₁, hunmap, h⟩ := ok_bind h
    injection h with h
    injection h with h
    obtain ⟨htable, hregions⟩ := unmap_table hunmap
    rw [← h, map_regions, map_table, htable, hregions, pageNumber_page]
    exact ⟨⟨_, _, update_idem _ _ _⟩, rfl⟩

-- ==== ranges

theorem mem_pages {n : Nat} : virt ∈ (range n).map (fun k => frm + k * gPageSize) ↔
      ∃ k, virt = frm + k * gPageSize ∧ k < n := by
  simp only [mem_map, mem_range, and_comm, eq_comm]

/-- The pages of a range with its last address. -/
theorem mem_pagesUpto : virt ∈ pagesUpto frm upto ↔
      ∃ k, virt = frm + k * gPageSize ∧ virt ≤ upto := by
  refine mem_pages.trans (exists_congr fun k => and_congr_right fun heq => ?_)
  unfold gPageSize at *
  omega

/-- The pages of a range without it. -/
theorem mem_pagesBelow : virt ∈ pagesBelow frm upto ↔
      ∃ k, virt = frm + k * gPageSize ∧ virt < upto := by
  refine mem_pages.trans (exists_congr fun k => and_congr_right fun heq => ?_)
  unfold gPageSize at *
  omega

-- ==== the search for a page

theorem pagesBelow_self (frm : Nat) : pagesBelow frm frm = [] := by
  unfold pagesBelow
  rw [Nat.add_sub_cancel_left]
  rfl

theorem pagesBelow_cons {i : Nat} (h : i < j) : pagesBelow (i * gPageSize) (j * gPageSize) =
      i * gPageSize :: pagesBelow ((i + 1) * gPageSize) (j * gPageSize) := by
  have hlen : (j * gPageSize + (gPageSize - 1) - i * gPageSize) / gPageSize
      = (j * gPageSize + (gPageSize - 1) - (i + 1) * gPageSize) / gPageSize + 1 := by
    unfold gPageSize
    omega
  unfold pagesBelow
  rw [hlen, range_succ_eq_map, map_cons, map_map, zero_mul, add_zero]
  refine congrArg _ (map_congr_left fun k _ => ?_)
  show i * gPageSize + (k + 1) * gPageSize = _
  ring

theorem getElem_pagesBelow {k : Nat} (h : k < (pagesBelow frm upto).length) :
    (pagesBelow frm upto)[k] = frm + k * gPageSize := by
  simp only [pagesBelow, getElem_map, getElem_range]

/-- The indices of the page with the number `i`. -/
theorem ofAddress_mul (i : Nat) : ofAddress (i * gPageSize) = ⟨i / 1024, i % 1024⟩ := by
  unfold ofAddress gPageSize
  congr 1 <;> omega

/-- On the way from `i` up to `j`, the indices are compared as numbers
would be, and the search comes by every page. -/
theorem searchPages_eq (hj : j < gNumPages) : ∀ {i : Nat}, i ≤ j → j - i < rounds →
      vm.searchPages (.ofAddress (j * gPageSize)) rounds (.ofAddress (i * gPageSize)) =
        some (((pagesBelow (i * gPageSize) (j * gPageSize)).find? fun virt =>
          !(vm.entry virt).present).getD (gPageSize - 1)) := by
  induction rounds with
  | zero => exact fun _ hlt => absurd hlt (Nat.not_lt_zero _)
  | succ rounds ih =>
    intro i hle hlt
    have hless : lt ⟨i / 1024, i % 1024⟩ ⟨j / 1024, j % 1024⟩ = decide (i < j) := by
      rw [lt, ← Bool.decide_or, decide_eq_decide]
      dsimp only
      omega
    have haddress : address ⟨i / 1024, i % 1024⟩ = i * gPageSize := by
      unfold address gPageSize
      dsimp only
      omega
    unfold searchPages
    rw [ofAddress_mul, ofAddress_mul, hless, haddress]
    rcases Nat.eq_or_lt_of_le hle with rfl | hij
    · rw [decide_eq_false (lt_irrefl i), pagesBelow_self]
      rfl
    have hnext : next ⟨i / 1024, i % 1024⟩ = .ofAddress ((i + 1) * gPageSize) := by
      rw [ofAddress_mul]
      unfold next gNumPages at *
      dsimp only
      split
      · rw [if_neg (by omega)]
        congr 1 <;> omega
      · congr 1 <;> omega
    rw [if_pos (decide_eq_true hij), pagesBelow_cons hij, find?_cons, hnext]
    cases (vm.entry (i * gPageSize)).present with
    | true =>
      rw [← ofAddress_mul]
      exact ih hij (by omega)
    | false => rfl

theorem page_eq_mul (addr : Nat) : page addr = addr / gPageSize * gPageSize := by
  unfold page gPageSize
  omega

/-- The loop finds what the list says. -/
theorem findPageIn_eq (hle : low ≤ high) (hhigh : high < 2 ^ 32) (hrounds : gNumPages ≤ rounds) :
    vm.findPageIn low high rounds =
      some ((vm.findPageWithinRange low high).getD (gPageSize - 1)) := by
  have hsame : ∀ addr, ofAddress addr = .ofAddress (addr / gPageSize * gPageSize) := by
    intro addr
    rw [ofAddress_mul]
    unfold ofAddress gPageSize
    congr 1
    omega
  have hj : high / gPageSize < gNumPages := by
    unfold gPageSize gNumPages
    omega
  unfold findPageIn findPageWithinRange
  rw [hsame low, hsame high, page_eq_mul, page_eq_mul]
  exact searchPages_eq hj (Nat.div_le_div_right hle)
    (lt_of_le_of_lt (Nat.sub_le _ _) (lt_of_lt_of_le hj hrounds))

theorem FreePage.mem (h : vm.FreePage low high p) : p ∈ pagesBelow (page low) (page high) := by
  obtain ⟨hwhole, hlow, hhigh, _⟩ := h
  refine mem_pagesBelow.2 ⟨(p - page low) / gPageSize, ?_, hhigh⟩
  unfold page gPageSize at *
  omega

/-- What is found is the lowest page. -/
theorem findPageWithinRange_least (h : vm.findPageWithinRange low high = some p) :
    IsLeast {p | vm.FreePage low high p} p := by
  obtain ⟨k, hk, hlt⟩ := mem_pagesBelow.1 (mem_of_find?_eq_some h)
  obtain ⟨habsent, n, hn, hp, hbefore⟩ := find?_eq_some_iff_getElem.1 h
  refine ⟨⟨?_, by omega, hlt, by simpa using habsent⟩, fun p' hp' => ?_⟩
  · unfold page gPageSize at *
    omega
  obtain ⟨m, hm, hp''⟩ := mem_iff_getElem.1 hp'.mem
  by_contra hless
  have hmn : m < n := by
    rw [getElem_pagesBelow] at hp hp''
    unfold gPageSize at *
    omega
  have htaken := hbefore m hmn
  rw [hp'', hp'.2.2.2] at htaken
  cases htaken

/-- **The search of a page** ends, with the lowest page of the range that is
not mapped or the value for failure; and nothing that was mapped is mapped
to something else on account of it. -/
theorem findPageIn_lowest {vm : Vm} {low high rounds : Nat} (opts : MapOptions)
    (hle : low ≤ high) (hhigh : high < 2 ^ 32) (hrounds : gNumPages ≤ rounds) :
    ∃ pg, vm.findPageIn low high rounds = some pg ∧ (IsLeast {p | vm.FreePage low high p} pg ∨
        (∀ p, ¬ vm.FreePage low high p) ∧ pg = gPageSize - 1) ∧
      ∀ virt vm', vm.mapPageAt pg opts = .ok (virt, vm') →
        ∀ i, (vm.table i).present = true → vm'.table i = vm.table i := by
  rw [findPageIn_eq hle hhigh hrounds]
  refine ⟨_, rfl, ?_, ?_⟩
  · cases hfind : vm.findPageWithinRange low high with
    | some p => exact .inl (findPageWithinRange_least hfind)
    | none =>
      refine .inr ⟨fun p hp => ?_, rfl⟩
      have hall := find?_eq_none.1 hfind p hp.mem
      rw [hp.2.2.2] at hall
      exact hall rfl
  intro virt vm' hmap i hi
  unfold mapPageAt at hmap
  split at hmap
  · obtain ⟨_, hmap⟩ := ok_pair hmap
    rw [← hmap]
  obtain ⟨vm₁, hmap, heq⟩ := ok_bind hmap
  obtain ⟨_, heq⟩ := ok_pair heq
  rw [← heq]
  rcases mapAnyPhysicalPage_cases vm _ opts with ⟨_, hsame⟩ | hfail | ⟨idx, vm₂, hnew, hmapped⟩
  · rw [Except.ok.inj (hmap.symm.trans hsame)]
  · cases hfail.symm.trans hmap
  · rw [Except.ok.inj (hmap.symm.trans hnew), hmapped.table, update_of_ne]
    rintro rfl
    cases hi.symm.trans hmapped.absent

/-- The pages from 0x1000 up to 0x4000, with the first of them mapped. -/
theorem findPageIn_lowest_second :
    findPageIn ⟨{}, fun _ _ => 0, fun i => { present := i == 1 }, []⟩ 0x1000 0x4000 gNumPages =
      some 0x2000 := by
  set vm : Vm := ⟨{}, fun _ _ => 0, fun i => { present := i == 1 }, []⟩
  have hsecond : IsLeast {p | vm.FreePage 0x1000 0x4000 p} 0x2000 := by
    refine ⟨⟨by decide, by decide, by decide, by decide⟩, fun p hp => ?_⟩
    obtain ⟨haligned, hlow, _, habsent⟩ := hp
    by_contra hbelow
    have hfirst : p = 0x1000 := by
      unfold gPageSize at haligned
      have hlow : 0x1000 ≤ p := hlow
      omega
    rw [hfirst] at habsent
    exact absurd habsent (by decide)
  obtain ⟨pg, hpg, hleast | ⟨hnone, _⟩, _⟩ := @findPageIn_lowest vm _ _ _ {}
    (show 0x1000 ≤ 0x4000 by decide) (by decide) (Nat.le_refl gNumPages)
  · rw [hpg, hleast.unique hsecond]
  · exact absurd hsecond.1 (hnone _)

end Vm

end Puppy.Mm
