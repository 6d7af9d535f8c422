/-
The books of the page tables, under every operation on a page.

While one process runs, the references on a page are those of the tables
in reach, which the operations change, and those of everybody else, a
fixed `rest`. `Accounts rest` says that the counters cover both. It is
kept by every operation, since each one replaces an entry and trades
exactly the reference of the old entry for that of the new one
(`Replaced`). The exception is `mapZeroPage` on a page that is mapped: the
reference of that page is lost, and the counter stays above what is held.

`Apart` adds what keeps processes apart: a page that the process can write
to has no other reference, and the pages of the others keep their bytes. It
comes with a flag, because the books are also kept, by the same operations,
when processes are not apart.
-/
import Puppy.Mm.Proofs.Virt

namespace Puppy.Mm

open Libc Lib PhysicalPageManager TableEntry Finset Function

/-- How many entries in reach hold a page. -/
def tableRefs (table : Nat → TableEntry) (f : Nat) : Nat :=
  tally (range gNumPages) frame table f

/-- The references of the user half and of the kernel half. -/
theorem tableRefs_eq (table : Nat → TableEntry) (f : Nat) :
    tableRefs table f = userRefs table f + kernelRefs table f := by
  have hall : range gNumPages = range gNumUserPages ∪ Ico gNumUserPages gNumPages := by
    ext i
    simp only [mem_range, mem_union, mem_Ico]
    have := gNumUserPages_le
    omega
  have hdisjoint : Disjoint (range gNumUserPages) (Ico gNumUserPages gNumPages) := by
    rw [disjoint_left]
    intro i hi
    simp only [mem_range, mem_Ico] at hi ⊢
    omega
  unfold tableRefs userRefs kernelRefs
  rw [hall, tally_union hdisjoint]

section Update

variable {table : Nat → TableEntry} {i : Nat} (e : TableEntry) (f : Nat)

/-- One entry is exchanged, and so are its references. -/
theorem tableRefs_update (hi : i < gNumPages) :
    tableRefs (update table i e) f + named (table i).frame f
      = tableRefs table f + named e.frame f :=
  tally_update_add (mem_range.2 hi) e

theorem userRefs_update (hi : i < gNumUserPages) :
    userRefs (update table i e) f + named (table i).frame f = userRefs table f + named e.frame f :=
  tally_update_add (mem_range.2 hi) e

/-- An entry of the kernel half does not count for the user half. -/
theorem userRefs_update_kernel (hi : gNumUserPages ≤ i) :
    userRefs (update table i e) f = userRefs table f :=
  tally_update_of_not_mem (by rw [mem_range]; omega) e

end Update

variable {table table' : Nat → TableEntry}

theorem userRefs_congr (h : ∀ i < gNumUserPages, (table i).frame = (table' i).frame)
    (f : Nat) : userRefs table f = userRefs table' f :=
  tally_congr (fun i hi => h i (mem_range.1 hi))

theorem kernelRefs_congr (h : ∀ i, gNumUserPages ≤ i → i < gNumPages →
      (table i).frame = (table' i).frame) (f : Nat) :
    kernelRefs table f = kernelRefs table' f :=
  tally_congr (fun i hi => h i (mem_Ico.1 hi).1 (mem_Ico.1 hi).2)

theorem userRefs_empty (f : Nat) : userRefs (fun _ => {}) f = 0 :=
  tally_eq_zero (fun _ _ => rfl)

theorem tableRefs_pos {i f : Nat} (hi : i < gNumPages) (h : (table i).frame = some f) :
    0 < tableRefs table f :=
  tally_pos_iff.2 ⟨i, mem_range.2 hi, h⟩

-- ==== the books

structure Accounts (rest : Nat → Nat) (vm : Vm) : Prop where
  kept : vm.pmm.Kept
  backed : ∀ i < gNumPages, (vm.table i).frompmm = true → (vm.table i).present = true
  owned : ∀ i < gNumUserPages, (vm.table i).present = true → (vm.table i).frompmm = true
  single : ∀ f, userRefs vm.table f ≤ 1
  covered : ∀ f, tableRefs vm.table f + rest f ≤ (vm.pmm.mPages f).refcnt

/-- One entry is replaced, and with it the reference it holds. -/
structure Replaced (vm : Vm) (i : Nat) (e : TableEntry) (vm' : Vm) :
    Prop where
  table : vm'.table = update vm.table i e
  traded : Traded vm.pmm vm'.pmm (named e.frame) (named (vm.table i).frame)
  frame : e.frame = none ∨ e.frame = (vm.table i).frame ∨
    ∃ f, e.frame = some f ∧ (vm.pmm.mPages f).refcnt = 0
  backed : e.frompmm = true → e.present = true
  owned : i < gNumUserPages → e.present = true → e.frompmm = true
  memory : ∀ f, vm'.memory f = vm.memory f ∨ (vm.pmm.mPages f).refcnt = 0

section Replaced

variable {rest : Nat → Nat} {vm vm' : Vm} {i : Nat} {e : TableEntry}

/-- What an entry refers to is held. -/
theorem Accounts.held (ha : Accounts rest vm) (virt : Nat) : vm.Held (vm.entry virt) := by
  intro hpmm
  have hi := pageNumber_lt virt
  have hpresent := ha.backed _ hi hpmm
  have hpos := tableRefs_pos hi (frame_eq_some.2 ⟨hpresent, hpmm, rfl⟩)
  have hcov := ha.covered (index (vm.table (pageNumber virt)).page)
  have hcount : (vm.pmm.mPages (index (vm.entry virt).page)).refcnt ≠ 0 := by
    unfold Vm.entry
    omega
  exact ⟨hpresent, ha.kept.usable_of_held hcount, hcount⟩

/-- A page that no counter knows is held nowhere. -/
theorem Accounts.free (ha : Accounts rest vm) {f : Nat} (hf : (vm.pmm.mPages f).refcnt = 0) :
    tableRefs vm.table f = 0 ∧ userRefs vm.table f = 0 ∧ rest f = 0 := by
  have hcov := ha.covered f
  have hsplit := tableRefs_eq vm.table f
  omega

section

variable (hr : Replaced vm i e vm') (ha : Accounts rest vm)
include hr ha

/-- The references on a page grow only if it was free. -/
theorem Replaced.refs_le (hi : i < gNumPages) (f : Nat) :
    tableRefs vm'.table f ≤ tableRefs vm.table f ∨
      (vm.pmm.mPages f).refcnt = 0 ∧ tableRefs vm'.table f ≤ 1 := by
  have hup := @tableRefs_update vm.table i e f hi
  rw [hr.table]
  rcases hr.frame with hnone | hsame | ⟨f₀, hnew, hfree⟩
  · rw [hnone, named_none] at hup
    exact .inl (by omega)
  · rw [hsame] at hup
    exact .inl (by omega)
  by_cases hf : f₀ = f
  · subst hf
    have := (ha.free hfree).1
    have := named_le_one e.frame f₀
    exact .inr ⟨hfree, by omega⟩
  · rw [hnew, named_of_ne hf] at hup
    exact .inl (by omega)

theorem Replaced.userRefs_le (f : Nat) : userRefs vm'.table f ≤ 1 := by
  have hone := ha.single f
  rw [hr.table]
  by_cases hi : i < gNumUserPages
  · have hup := @userRefs_update vm.table i e f hi
    rcases hr.frame with hnone | hsame | ⟨f₀, hnew, hfree⟩
    · rw [hnone, named_none] at hup
      omega
    · rw [hsame] at hup
      omega
    by_cases hf : f₀ = f
    · subst hf
      have := (ha.free hfree).2.1
      have := named_le_one e.frame f₀
      omega
    · rw [hnew, named_of_ne hf] at hup
      omega
  · rw [userRefs_update_kernel e f (by omega)]
    exact hone

/-- The books are kept by an exchange. -/
theorem Replaced.accounts (hi : i < gNumPages) : Accounts rest vm' := by
  refine ⟨hr.traded.kept ha.kept, ?_, ?_, hr.userRefs_le ha, ?_⟩
  · intro j hj
    rw [hr.table]
    by_cases hji : j = i
    · rw [hji, update_self]
      exact hr.backed
    · rw [update_of_ne hji]
      exact ha.backed j hj
  · intro j hj
    rw [hr.table]
    by_cases hji : j = i
    · rw [hji, update_self]
      exact hr.owned (hji ▸ hj)
    · rw [update_of_ne hji]
      exact ha.owned j hj
  · intro f
    have hcov := ha.covered f
    have hup := @tableRefs_update vm.table i e f hi
    have htrade := hr.traded.refcnt f
    rw [hr.table]
    omega

end

end Replaced

-- ==== the operations

section Operations

variable {rest : Nat → Nat} {vm vm' : Vm} {virt idx : Nat} {opts : MapOptions}

theorem Vm.Mapped.replaced (hm : Vm.Mapped vm virt opts idx vm') : Replaced vm (pageNumber virt)
      (.mapping (gPageSize * idx) { opts with frompmm := true }) vm' := by
  have hzero := (available_iff.1 hm.free).2
  have hframe : (mapping (gPageSize * idx) { opts with frompmm := true }).frame = some idx := by
    rw [frame_mapping rfl, index_mul]
  have hold : (vm.table (pageNumber virt)).frame = none := frame_absent hm.absent
  refine ⟨hm.table, ?_, .inr (.inr ⟨idx, hframe, hzero⟩), fun _ => rfl, fun _ _ => rfl, ?_⟩
  · rw [hframe, hold]
    exact hm.traded.congr (fun _ => rfl) (fun f => (named_none f).symm)
  intro f
  by_cases hf : f = idx
  · rw [hf]
    exact .inr hzero
  · exact .inl (hm.memory f hf)

theorem Vm.Unmapped.replaced (hu : Vm.Unmapped vm virt vm') :
    Replaced vm (pageNumber virt) (vm.entry virt).unmapped vm' := by
  refine ⟨hu.table, ?_, .inl frame_unmapped,
    fun h => Bool.noConfusion h, fun _ h => Bool.noConfusion h,
    fun f => .inl (by rw [hu.memory])⟩
  exact hu.traded.congr (fun f => by rw [frame_unmapped, named_none]) (fun _ => rfl)

theorem Vm.Copied.replaced (hc : Vm.Copied vm virt opts idx vm') :
    Replaced vm (pageNumber virt) (.mapping (gPageSize * idx)
      { opts with frompmm := true, cow := false, rw := true }) vm' := by
  have hzero := (available_iff.1 hc.free).2
  have hframe : (mapping (gPageSize * idx)
      { opts with frompmm := true, cow := false, rw := true }).frame
        = some idx := by
    rw [frame_mapping rfl, index_mul]
  refine ⟨hc.table, ?_, .inr (.inr ⟨idx, hframe, hzero⟩), fun _ => rfl, fun _ _ => rfl, ?_⟩
  · rw [hframe]
    exact hc.traded
  intro f
  by_cases hf : f = idx
  · rw [hf]
    exact .inr hzero
  · exact .inl (hc.memory f hf)

/-- An entry that changes its flags only. -/
theorem Accounts.replaced_flags (ha : Accounts rest vm) {e : TableEntry}
    (hpresent : e.present = (vm.entry virt).present)
    (hpmm : e.frompmm = (vm.entry virt).frompmm)
    (hpage : e.page = (vm.entry virt).page) :
    Replaced vm (pageNumber virt) e (vm.setEntry virt e) := by
  have hframe : e.frame = (vm.entry virt).frame := by
    unfold frame
    rw [hpresent, hpmm, hpage]
  have hi := pageNumber_lt virt
  refine ⟨rfl, ?_, .inr (.inl hframe), ?_, ?_, fun _ => .inl rfl⟩
  · rw [hframe]
    exact Traded.same vm.pmm _
  · rw [hpresent, hpmm]
    exact ha.backed _ hi
  · rw [hpresent, hpmm]
    exact fun hu => ha.owned _ hu

end Operations

-- ==== losing a reference

/-- `mapZeroPage` takes no reference from a counter, whatever was mapped. -/
theorem Accounts.mapZeroPage {rest : Nat → Nat} {vm : Vm}
    (ha : Accounts rest vm) (opts : MapOptions) (virt : Nat) :
    Accounts rest (vm.mapZeroPage opts virt) := by
  have hi := pageNumber_lt virt
  refine ⟨ha.kept, ?_, ?_, ?_, ?_⟩
  · intro j hj
    show (update vm.table _ _ j).frompmm = true → (update vm.table _ _ j).present = true
    by_cases hji : j = pageNumber virt
    · rw [hji, update_self]
      intro h
      exact Bool.noConfusion h
    · rw [update_of_ne hji]
      exact ha.backed j hj
  · intro j hj
    show (update vm.table _ _ j).present = true → (update vm.table _ _ j).frompmm = true
    by_cases hji : j = pageNumber virt
    · rw [hji, update_self]
      intro h
      exact Bool.noConfusion h
    · rw [update_of_ne hji]
      exact ha.owned j hj
  · intro f
    have hone := ha.single f
    show userRefs (update vm.table _ _) f ≤ 1
    by_cases hu : pageNumber virt < gNumUserPages
    · have hup := @userRefs_update vm.table _ ((vm.entry virt).zeroPage opts) f hu
      rw [frame_zeroPage, named_none] at hup
      omega
    · rw [userRefs_update_kernel _ f (by omega)]
      exact hone
  · intro f
    have hcov := ha.covered f
    have hup := @tableRefs_update vm.table _ ((vm.entry virt).zeroPage opts) f hi
    rw [frame_zeroPage, named_none] at hup
    show tableRefs (update vm.table _ _) f + rest f ≤ (vm.pmm.mPages f).refcnt
    omega

-- ==== keeping processes apart

/-- A page that the process can write to, or every page it has, is mapped
nowhere else, and the pages of the others are as they were at the start,
with no more references from here. Without `strict`, only the references
count. -/
structure Apart (strict all : Bool) (rest : Nat → Nat) (vm₀ vm : Vm) : Prop
    extends Accounts rest vm where
  exclusive : strict = true → ∀ i, i < gNumUserPages →
    (vm.table i).present = true → ((vm.table i).rw || all) = true →
    tableRefs vm.table (index (vm.table i).page) + rest (index (vm.table i).page) ≤ 1
  untouched : strict = true → ∀ f, 0 < rest f → vm.memory f = vm₀.memory f
  steady : ∀ f, 0 < rest f → tableRefs vm.table f ≤ tableRefs vm₀.table f

section Apart

variable {strict all : Bool} {rest : Nat → Nat} {vm₀ : Vm}
  {vm vm' : Vm} {i virt : Nat} {e : TableEntry} {opts : MapOptions}

section

variable (ha : Apart strict all rest vm₀ vm)
include ha

/-- A page of the process stays exclusive whatever entry is replaced. -/
theorem Apart.keeps (hr : Replaced vm i e vm') (hi : i < gNumPages) {f : Nat}
    (hf : tableRefs vm.table f + rest f ≤ 1) :
    tableRefs vm'.table f + rest f ≤ 1 := by
  rcases hr.refs_le ha.toAccounts hi f with hle | ⟨hfree, hle⟩
  · omega
  · have := (ha.toAccounts.free hfree).2.2
    omega

/-- A new entry is apart if its frame was free or is not shared. -/
theorem Apart.replaced (hr : Replaced vm i e vm') (hi : i < gNumPages)
    (hnew : strict = true → i < gNumUserPages → e.present = true → (e.rw || all) = true →
      (∃ f, e.frame = some f ∧ (vm.pmm.mPages f).refcnt = 0) ∨
      tableRefs vm.table (index e.page) + rest (index e.page) ≤ 1) :
    Apart strict all rest vm₀ vm' := by
  refine ⟨hr.accounts ha.toAccounts hi, ?_, ?_, ?_⟩
  · intro hstrict j hj hpresent hrw
    rw [hr.table] at hpresent hrw
    by_cases hji : j = i
    · subst hji
      rw [update_self] at hpresent hrw
      have hpage : (vm'.table j).page = e.page := by rw [hr.table, update_self]
      rw [hpage]
      rcases hnew hstrict hj hpresent hrw with ⟨f, hframe, hfree⟩ | hone
      · have hf := (frame_eq_some.1 hframe).2.2
        have hzero := ha.toAccounts.free hfree
        rw [hf]
        exact ha.keeps hr hi (by omega)
      · exact ha.keeps hr hi hone
    · rw [update_of_ne hji] at hpresent hrw
      have hsame : vm'.table j = vm.table j := by rw [hr.table, update_of_ne hji]
      rw [hsame]
      exact ha.keeps hr hi (ha.exclusive hstrict j hj hpresent hrw)
  · intro hstrict f hf
    rw [← ha.untouched hstrict f hf]
    rcases hr.memory f with hsame | hfree
    · exact hsame
    · have := (ha.toAccounts.free hfree).2.2
      omega
  · intro f hf
    have hbefore := ha.steady f hf
    rcases hr.refs_le ha.toAccounts hi f with hle | ⟨hfree, _⟩
    · omega
    · have := (ha.toAccounts.free hfree).2.2
      omega

theorem Apart.mapAnyPhysicalPage (virt : Nat) (opts : MapOptions) :
    Sat (vm.mapAnyPhysicalPage virt opts) (Apart strict all rest vm₀) (· = .resultOfFailure) := by
  refine Vm.mapAnyPhysicalPage_sat ha rfl fun idx vm' hm => ?_
  have hzero := (available_iff.1 hm.free).2
  refine ha.replaced hm.replaced (pageNumber_lt virt) ?_
  intro _ _ _ _
  refine .inl ⟨idx, ?_, hzero⟩
  rw [frame_mapping rfl, index_mul]

theorem Apart.unmap (virt : Nat) :
    Sat (vm.unmap virt) (Apart strict all rest vm₀) (fun _ => False) := by
  obtain ⟨vm', heq, hu⟩ := Vm.unmap_of_held (ha.toAccounts.held virt)
  rw [heq]
  exact Sat.ok (ha.replaced hu.replaced (pageNumber_lt virt) (fun _ _ h => Bool.noConfusion h))

/-- The copy of a page is nobody else's. -/
theorem Apart.clonePage (virt : Nat) (opts : MapOptions) : Sat (vm.clonePage virt opts)
      (fun r => ∀ vm', r = some vm' → Apart strict all rest vm₀ vm')
      (fun _ => False) := by
  rcases Vm.clonePage_of_held opts (ha.toAccounts.held virt) with
    ⟨_, heq⟩ | ⟨idx, vm', heq, hc⟩
  · rw [heq]
    exact Sat.ok (fun vm' h => by cases h)
  rw [heq]
  refine Sat.ok ?_
  intro vm₁ h
  cases h
  refine ha.replaced hc.replaced (pageNumber_lt virt) ?_
  intro _ _ _ _
  refine .inl ⟨idx, ?_, (available_iff.1 hc.free).2⟩
  rw [frame_mapping rfl, index_mul]

theorem Apart.mapZeroPage (opts : MapOptions) (virt : Nat) :
    Apart strict all rest vm₀ (vm.mapZeroPage opts virt) := by
  have htable : (vm.mapZeroPage opts virt).table = update vm.table
      (pageNumber virt) ((vm.entry virt).zeroPage opts) := rfl
  have hfewer : ∀ f, tableRefs (vm.mapZeroPage opts virt).table f ≤ tableRefs vm.table f := by
    intro f
    have hup := @tableRefs_update vm.table _ ((vm.entry virt).zeroPage opts) f (pageNumber_lt virt)
    rw [frame_zeroPage, named_none] at hup
    rw [htable]
    omega
  refine ⟨ha.toAccounts.mapZeroPage opts virt, ?_, ha.untouched, ?_⟩
  · intro hstrict j hj hpresent hrw
    have hless := hfewer (index ((vm.mapZeroPage opts virt).table j).page)
    by_cases hji : j = pageNumber virt
    · rw [htable, hji, update_self] at hpresent
      cases hpresent
    have hsame : (vm.mapZeroPage opts virt).table j = vm.table j := by rw [htable, update_of_ne hji]
    rw [hsame] at hpresent hrw hless ⊢
    have hone := ha.exclusive hstrict j hj hpresent hrw
    omega
  · intro f hf
    exact le_trans (hfewer f) (ha.steady f hf)

/-- An entry may lose the right to write, and get it if the page has no
other reference. -/
theorem Apart.setFlags (hpresent : e.present = (vm.entry virt).present)
    (hpmm : e.frompmm = (vm.entry virt).frompmm)
    (hpage : e.page = (vm.entry virt).page)
    (hrw : strict = true → pageNumber virt < gNumUserPages →
      (vm.entry virt).present = true → e.rw = true →
      (vm.entry virt).rw = true ∨ (vm.pmm.mPages (index (vm.entry virt).page)).refcnt < 2) :
    Apart strict all rest vm₀ (vm.setEntry virt e) := by
  have hr := ha.toAccounts.replaced_flags hpresent hpmm hpage
  refine ha.replaced hr (pageNumber_lt virt) ?_
  intro hstrict hi hpres hwrite
  refine .inr ?_
  rw [hpresent] at hpres
  rw [hpage]
  have hcov := ha.covered (index (vm.entry virt).page)
  cases hall : all with
  | true => exact ha.exclusive hstrict _ hi hpres (by rw [hall, Bool.or_true])
  | false =>
    rw [hall, Bool.or_false] at hwrite
    rcases hrw hstrict hi hpres hwrite with hold | hfew
    · exact ha.exclusive hstrict _ hi hpres (by rw [hall, Bool.or_false]; exact hold)
    · omega

/-- The process writes to its own page. -/
theorem Apart.setMemory (hi : pageNumber virt < gNumUserPages)
    (hpresent : (vm.entry virt).present = true)
    (hrw : (vm.entry virt).rw = true) (bytes : Nat → UInt8) :
    Apart strict all rest vm₀ (vm.setMemory (vm.entry virt).page bytes) := by
  refine ⟨⟨ha.kept, ha.backed, ha.owned, ha.single, ha.covered⟩, ha.exclusive, ?_, ha.steady⟩
  intro hstrict f hf
  show update vm.memory _ _ f = _
  by_cases hown : f = index (vm.entry virt).page
  · have hone := ha.exclusive hstrict _ hi hpresent (by
      rw [show (vm.table (pageNumber virt)).rw = true from hrw, Bool.true_or])
    have hpos := tableRefs_pos (pageNumber_lt virt)
      (frame_eq_some.2 ⟨hpresent, ha.owned _ hi hpresent, rfl⟩)
    rw [hown] at hf
    unfold Vm.entry at hf
    omega
  · rw [update_of_ne hown]
    exact ha.untouched hstrict f hf

/-- Bytes are not in the books. -/
theorem Apart.setAnyMemory (phys : Nat) (bytes : Nat → UInt8) :
    Apart strict all rest { vm₀ with memory := (vm.setMemory phys bytes).memory }
      (vm.setMemory phys bytes) :=
  ⟨⟨ha.kept, ha.backed, ha.owned, ha.single, ha.covered⟩, ha.exclusive, fun _ _ _ => rfl, ha.steady⟩

end

end Apart

end Puppy.Mm
