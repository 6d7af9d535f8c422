/-
Whole address spaces: how many references each of their operations takes
or gives back.

`createAddressSpace` takes one reference for each page of the new tables,
`cloneAddressSpace` one more for each page that the current process maps,
and `cleanAddressSpace` gives back exactly those that the address space
holds. All three are loops, and the sums are over the rounds done so far.
-/
import Puppy.Mm.Proofs.Accounts
import Puppy.Mm.Proofs.Effects

namespace Puppy.Mm

open Libc Lib PhysicalPageManager TableEntry Function List

-- ==== creating

/-- Pages are taken that were free, one reference each. -/
structure Taken (pmm : PhysicalPageManager) (pages : List Nat)
    (pmm' : PhysicalPageManager) : Prop where
  traded : Traded pmm pmm' (fun f => (pages.map index).count f) (fun _ => 0)
  free : ∀ f ∈ pages.map index, (pmm.mPages f).refcnt = 0

variable {pmm : PhysicalPageManager} {n : Nat} {rest : Nat → Nat} {vm : Vm} {space : AddressSpace}

theorem Taken.cons {pmm₁ pmm₂ : PhysicalPageManager} {phys : Nat}
    {pages : List Nat} (halloc : pmm.alloc = some (phys, pmm₁))
    (h : Taken pmm₁ pages pmm₂) : Taken pmm (phys :: pages) pmm₂ := by
  obtain ⟨idx, rfl, _⟩ := alloc_some halloc
  obtain ⟨havail, hfirst⟩ := alloc_traded halloc
  have hzero := (available_iff.1 havail).2
  constructor
  · refine (hfirst.trans h.traded).congr ?_ (fun _ => rfl)
    intro f
    rw [map_cons, index_mul, count_cons, add_comm]
    congr 1
    by_cases hf : idx = f
    · rw [hf, named_self]
      simp
    · rw [named_of_ne hf]
      simp [hf]
  · intro f hf
    rw [map_cons, index_mul, mem_cons] at hf
    rcases hf with rfl | hf
    · exact hzero
    · have hlater := h.free f hf
      have htrade := hfirst.refcnt f
      omega

theorem allocPages_sat (n : Nat) (pmm : PhysicalPageManager) :
    Sat (allocPages n pmm) (fun r => r.1.length = n ∧ Taken pmm r.1 r.2)
      (· = .resultOfFailure) := by
  induction n generalizing pmm with
  | zero =>
    refine Sat.ok ⟨rfl, ⟨⟨fun _ => rfl, fun _ => rfl, id⟩, ?_⟩⟩
    intro f hf
    cases hf
  | succ n ih =>
    unfold allocPages
    cases halloc : pmm.alloc with
    | none => exact Sat.error rfl
    | some x =>
      obtain ⟨phys, pmm₁⟩ := x
      refine Sat.bind (ih pmm₁) ?_
      rintro ⟨pages, pmm₂⟩ _ ⟨hlen, htaken⟩
      refine Sat.ok ⟨?_, htaken.cons halloc⟩
      rw [length_cons, hlen]

/-- A new address space has a directory and 770 tables. -/
theorem createAddressSpace_sat (pmm : PhysicalPageManager) : Sat (createAddressSpace pmm)
      (fun r => r.1.tables.length = 770 ∧ Taken pmm (r.1.cr3 :: r.1.tables) r.2)
      (· = .resultOfFailure) := by
  unfold createAddressSpace
  cases halloc : pmm.alloc with
  | none => exact Sat.error rfl
  | some x =>
    obtain ⟨cr3, pmm₁⟩ := x
    refine Sat.bind (allocPages_sat 770 pmm₁) ?_
    rintro ⟨tables, pmm₂⟩ _ ⟨hlen, htaken⟩
    exact Sat.ok ⟨hlen, htaken.cons halloc⟩

section Supply

variable {R : PhysicalPageManager → Nat → Prop} {pmm : PhysicalPageManager}

/-- Nothing else can go wrong. -/
theorem allocPages_supplied (hR : Supply R) {k : Nat} (h : R pmm (n + k)) :
    ∃ r, allocPages n pmm = .ok r ∧ R r.2 k := by
  induction n generalizing pmm with
  | zero =>
    rw [zero_add] at h
    exact ⟨([], pmm), rfl, h⟩
  | succ n ih =>
    rw [add_right_comm] at h
    obtain ⟨phys, pmm₁, halloc, h₁⟩ := hR pmm _ h
    obtain ⟨r, hrest, h₂⟩ := ih h₁
    unfold allocPages
    rw [halloc]
    exact ⟨(phys :: r.1, r.2), bind_eq_ok.2 ⟨r, hrest, rfl⟩, h₂⟩

theorem createAddressSpace_supplied (hR : Supply R) {k : Nat} (h : R pmm (771 + k)) :
    ∃ r, createAddressSpace pmm = .ok r ∧ R r.2 k := by
  rw [show 771 + k = 770 + k + 1 by omega] at h
  obtain ⟨cr3, pmm₁, halloc, h₁⟩ := hR pmm _ h
  obtain ⟨r, hrest, h₂⟩ := allocPages_supplied hR h₁
  unfold createAddressSpace
  rw [halloc]
  exact ⟨(⟨cr3, r.1⟩, r.2), bind_eq_ok.2 ⟨r, hrest, rfl⟩, h₂⟩

end Supply

/-- Where the pages in a row are free, they are taken in their order. -/
theorem allocPages_ahead (h : Ahead pmm n) : allocPages n pmm = .ok ((range n).map fun u =>
      gPageSize * (pmm.mLastChecked + 1 + u), pmm.takeNext n) := by
  induction n generalizing pmm with
  | zero =>
    rw [takeNext_zero]
    rfl
  | succ n ih =>
    obtain ⟨halloc, h₁⟩ := h.alloc
    unfold allocPages
    rw [halloc]
    refine bind_eq_ok.2 ⟨_, ih h₁, ?_⟩
    dsimp only
    rw [takeNext_takeNext, add_comm 1 n, range_succ_eq_map, map_cons, map_map]
    congr 3
    apply map_congr_left
    intro u _
    show gPageSize * (pmm.mLastChecked + 1 + 1 + u) = gPageSize * (pmm.mLastChecked + 1 + (u + 1))
    congr 1
    omega

theorem createAddressSpace_ahead (h : Ahead pmm 771) : createAddressSpace pmm = .ok
      (⟨gPageSize * (pmm.mLastChecked + 1), (range 770).map fun u =>
        gPageSize * (pmm.mLastChecked + 2 + u)⟩, pmm.takeNext 771) := by
  obtain ⟨halloc, h₁⟩ := Ahead.alloc (n := 770) h
  unfold createAddressSpace
  rw [halloc]
  refine bind_eq_ok.2 ⟨_, allocPages_ahead h₁, ?_⟩
  rw [takeNext_takeNext]
  rfl

-- ==== cloning

theorem TableEntry.shared_frame (e : TableEntry) : e.shared.frame = e.frame := by
  unfold shared
  split <;> rfl

theorem TableEntry.shared_present (e : TableEntry) : e.shared.present = e.present := by
  unfold shared
  split <;> rfl

theorem TableEntry.shared_frompmm (e : TableEntry) : e.shared.frompmm = e.frompmm := by
  unfold shared
  split <;> rfl

theorem TableEntry.shared_page (e : TableEntry) : e.shared.page = e.page := by
  unfold shared
  split <;> rfl

/-- No entry of a shared table is writable. -/
theorem TableEntry.shared_rw (e : TableEntry) : e.shared.rw = false := by
  unfold shared
  split
  · rfl
  next h => exact Bool.not_eq_true _ ▸ h

/-- The two tables after `n` rounds. -/
structure SharedTables (vm : Vm) (n : Nat) (st : (Nat → TableEntry) × Vm) :
    Prop where
  done : ∀ i < n, (vm.table i).present = true →
    st.2.table i = (vm.table i).shared ∧ st.1 i = (vm.table i).shared
  absent : ∀ i < n, (vm.table i).present = false → st.2.table i = vm.table i ∧ st.1 i = {}
  undone : ∀ i, n ≤ i → st.2.table i = vm.table i ∧ st.1 i = {}
  memory : st.2.memory = vm.memory
  regions : st.2.mKernelRegions = vm.mKernelRegions

/-- And the counters, if none was full. -/
structure SharedUpto (vm : Vm) (n : Nat) (st : (Nat → TableEntry) × Vm) :
    Prop extends SharedTables vm n st where
  traded : Traded vm.pmm st.2.pmm (fun f => tally (Finset.Ico 0 n) frame vm.table f) (fun _ => 0)
  room : ∀ k, Roomy vm.pmm k → Roomy st.2.pmm k

section Clone

variable {vm : Vm} {n : Nat} {st st' : (Nat → TableEntry) × Vm} {rest : Nat → Nat}

theorem sharedTables_zero (vm : Vm) : SharedTables vm 0 (fun _ => {}, vm) :=
  ⟨fun i hi => absurd hi (Nat.not_lt_zero i),
    fun i hi => absurd hi (Nat.not_lt_zero i), fun _ _ => ⟨rfl, rfl⟩, rfl, rfl⟩

/-- A round that only looks at the entry. -/
theorem SharedTables.skip (h : SharedTables vm n st) (habsent : (vm.table n).present = false) :
    SharedTables vm (n + 1) st := by
  refine ⟨?_, ?_, fun i hi => h.undone i (by omega), h.memory, h.regions⟩
  · intro i hi hpresent
    by_cases hin : i = n
    · rw [hin, habsent] at hpresent
      cases hpresent
    · exact h.done i (by omega) hpresent
  intro i hi hnone
  by_cases hin : i = n
  · rw [hin]
    exact h.undone n (Nat.le_refl n)
  · exact h.absent i (by omega) hnone

/-- A round that shares the entry. -/
theorem SharedTables.share (h : SharedTables vm n st)
    (hpresent : (vm.table n).present = true) (pmm : PhysicalPageManager) :
    SharedTables vm (n + 1) (update st.1 n (vm.table n).shared,
      { st.2 with
        table := update st.2.table n (vm.table n).shared
        pmm := pmm }) := by
  refine ⟨?_, ?_, ?_, h.memory, h.regions⟩
  · intro i hi hpres
    dsimp only
    by_cases hin : i = n
    · rw [hin, update_self, update_self]
      exact ⟨rfl, rfl⟩
    · rw [update_of_ne hin, update_of_ne hin]
      exact h.done i (by omega) hpres
  · intro i hi hnone
    dsimp only
    have hin : i ≠ n := by
      intro hin
      rw [hin, hpresent] at hnone
      cases hnone
    rw [update_of_ne hin, update_of_ne hin]
    exact h.absent i (by omega) hnone
  · intro i hi
    dsimp only
    have hin : i ≠ n := by omega
    rw [update_of_ne hin, update_of_ne hin]
    exact h.undone i (by omega)

theorem cloneEntry_absent (h : (st.2.table n).present = false) : cloneEntry st n = .ok st := by
  unfold cloneEntry
  dsimp only
  rw [h]
  rfl

/-- Both tables get the entry that is shared. -/
theorem cloneEntry_present (hn : n < gNumPages) (h : (st.2.table n).present = true) :
    cloneEntry st n = (if (st.2.table n).frompmm then
        st.2.pmm.allocAt (st.2.table n).page else .ok st.2.pmm) >>= fun pmm =>
      .ok (update st.1 n (st.2.table n).shared,
        { st.2 with
          table := update st.2.table n (st.2.table n).shared
          pmm := pmm }) := by
  obtain ⟨table, vm⟩ := st
  have hpn : pageNumber (n * gPageSize) = n := pageNumber_mul hn
  have hmark : (if (vm.table n).rw then vm.markCOW (n * gPageSize) else vm)
      = { vm with table :=
            update vm.table n (vm.table n).shared } := by
    unfold shared
    split
    · rw [Vm.markCOW_eq]
      unfold Vm.entry Vm.setEntry
      rw [hpn, if_pos h]
    · rw [update_eq_self]
  unfold cloneEntry
  dsimp only
  rw [h]
  simp only [Bool.not_true, Bool.false_eq_true, if_false]
  rw [hmark, shared_frompmm, shared_page]
  split
  · cases vm.pmm.allocAt (vm.table n).page <;> rfl
  · rfl

theorem SharedTables.round (h : SharedTables vm n st) (hn : n < gNumPages)
    (hround : cloneEntry st n = .ok st') : SharedTables vm (n + 1) st' := by
  have hentry : st.2.table n = vm.table n := (h.undone n (Nat.le_refl n)).1
  cases hpresent : (vm.table n).present with
  | false =>
    rw [cloneEntry_absent (by rw [hentry]; exact hpresent)] at hround
    exact of_ok hround (h.skip hpresent)
  | true =>
    rw [cloneEntry_present hn (by rw [hentry]; exact hpresent)] at hround
    obtain ⟨pmm, _, hround⟩ := ok_bind hround
    cases hround
    rw [hentry]
    exact h.share hpresent pmm

/-- The loop over the user half, up to any page, as far as the tables go. -/
theorem sharedTables_upto : ∀ n ≤ gNumUserPages, ∀ st,
    (range n).foldlM cloneEntry (fun _ => {}, vm) = .ok st → SharedTables vm n st := by
  intro n
  induction n with
  | zero =>
    intro _ st hloop
    exact of_ok hloop (sharedTables_zero vm)
  | succ n ih =>
    intro hn st hloop
    rw [range_succ, foldlM_append] at hloop
    obtain ⟨st₁, hloop, hround⟩ := ok_bind hloop
    rw [foldlM_cons] at hround
    obtain ⟨st₂, hround, hlast⟩ := ok_bind hround
    refine of_ok hlast ?_
    have hlt : n < gNumPages := by
      have := gNumUserPages_le
      omega
    exact (ih (by omega) st₁ hloop).round hlt hround

theorem cloneAddressSpace_tables {table : Nat → TableEntry} {vm' : Vm}
    (h : cloneAddressSpace vm = .ok (space, table, vm')) :
    SharedTables vm gNumUserPages (table, vm') := by
  obtain ⟨⟨space', pmm⟩, _, h⟩ := ok_bind h
  obtain ⟨⟨table', vm₁⟩, hloop, h⟩ := ok_bind h
  obtain ⟨_, htable, hvm⟩ := ok_triple h
  rw [← htable, ← hvm]
  unfold cloneEntries at hloop
  have hshared := sharedTables_upto _ le_rfl _ hloop
  exact ⟨hshared.done, hshared.absent, hshared.undone, hshared.memory, hshared.regions⟩

/-- One round, for a page whose counter is not full. -/
theorem cloneEntry_ok (h : SharedUpto vm n st) (hn : n < gNumPages)
    (husable : ∀ f, (vm.table n).frame = some f →
      (st.2.pmm.mPages f).usable = true ∧ (st.2.pmm.mPages f).refcnt ≠ 0 ∧
        (st.2.pmm.mPages f).refcnt < 255) :
    ∃ st', cloneEntry st n = .ok st' ∧ SharedUpto vm (n + 1) st' := by
  have hentry : st.2.table n = vm.table n := (h.undone n (Nat.le_refl n)).1
  cases hpresent : (vm.table n).present with
  | false =>
    refine ⟨st, cloneEntry_absent (by rw [hentry]; exact hpresent),
      h.toSharedTables.skip hpresent, h.traded.congr ?_ (fun _ => rfl),
      h.room⟩
    intro f
    rw [tally_Ico_succ _ _ _ zero_le, frame_absent hpresent, named_none, add_zero]
  | true =>
    have hpay : ∃ pmm, (if (vm.table n).frompmm then
        st.2.pmm.allocAt (vm.table n).page else .ok st.2.pmm) = .ok pmm ∧
        Traded st.2.pmm pmm (named (vm.table n).frame) (fun _ => 0) ∧
        ∀ k, Roomy st.2.pmm k → Roomy pmm k := by
      by_cases hpmm : (vm.table n).frompmm = true
      · have hframe : (vm.table n).frame = some (index (vm.table n).page) :=
          frame_eq_some.2 ⟨hpresent, hpmm, rfl⟩
        obtain ⟨hus, hheld, hcount⟩ := husable _ hframe
        obtain ⟨pmm, halloc⟩ := allocAt_of_usable hus
        rw [if_pos hpmm, hframe]
        exact ⟨pmm, halloc, allocAt_traded hcount halloc,
          fun k hk => hk.allocAt hheld hcount halloc⟩
      · rw [if_neg hpmm, frame_eq_none (Bool.not_eq_true _ ▸ hpmm)]
        exact ⟨st.2.pmm, rfl, (Traded.same st.2.pmm none).congr
          (fun _ => rfl) (fun f => named_none f), fun _ hk => hk⟩
    obtain ⟨pmm, hpay, htraded, hroom⟩ := hpay
    refine ⟨_, ?_, h.toSharedTables.share hpresent pmm,
      (h.traded.trans htraded).congr ?_ (fun _ => rfl),
      fun k hk => hroom k (h.room k hk)⟩
    · rw [cloneEntry_present hn (by rw [hentry]; exact hpresent), hentry]
      exact bind_eq_ok.2 ⟨pmm, hpay, rfl⟩
    · intro f
      rw [tally_Ico_succ _ _ _ zero_le]

theorem userRefs_eq (table : Nat → TableEntry) (f : Nat) : userRefs table f
      = tally (Finset.Ico 0 gNumUserPages) frame table f := by
  unfold userRefs
  rw [Finset.range_eq_Ico]

/-- A page that is mapped once has not been met in the rounds before its
own. -/
theorem tally_before {f : Nat} (hsingle : userRefs vm.table f ≤ 1)
    (hn : n < gNumUserPages) (hframe : (vm.table n).frame = some f) :
    tally (Finset.Ico 0 n) frame vm.table f = 0 := by
  have hsplit := tally_Ico_add frame vm.table f zero_le (show n + 1 ≤ gNumUserPages from hn)
  have hround := tally_Ico_succ frame vm.table f (Nat.zero_le n)
  rw [hframe, named_self] at hround
  rw [userRefs_eq] at hsingle
  omega

/-- No page of the user half has as many references as can be counted. -/
def Shareable (pmm : PhysicalPageManager) (table : Nat → TableEntry) : Prop :=
  ∀ i < gNumUserPages, (table i).present = true → (pmm.mPages (index (table i).page)).refcnt < 255

section

variable (ha : Accounts rest vm) (hfull : Shareable vm.pmm vm.table)
include ha hfull

/-- The loop over the user half, up to any page. -/
theorem cloneEntries_upto : ∀ n, n ≤ gNumUserPages →
      ∃ st, (range n).foldlM cloneEntry (fun _ => {}, vm) = .ok st ∧ SharedUpto vm n st := by
  intro n
  induction n with
  | zero =>
    intro _
    refine ⟨_, rfl, sharedTables_zero vm, ⟨?_, fun _ => rfl, id⟩, fun _ h => h⟩
    intro f
    rw [tally_Ico_self]
  | succ n ih =>
    intro hn
    obtain ⟨st, hloop, hst⟩ := ih (by omega)
    have hlt : n < gNumPages := by
      have := gNumUserPages_le
      omega
    obtain ⟨st', hround, hst'⟩ := cloneEntry_ok hst hlt (by
      intro f hframe
      obtain ⟨hpresent, hpmm, hpage⟩ := frame_eq_some.1 hframe
      have hcount := hst.traded.refcnt f
      have hbefore := tally_before (ha.single f) hn hframe
      have hbelow := hfull n hn hpresent
      have hheld := ha.covered f
      have hpos := tableRefs_pos hlt hframe
      rw [hpage] at hbelow
      refine ⟨?_, by omega, by omega⟩
      rw [hst.traded.usable]
      exact ha.kept.usable_of_held (by omega))
    refine ⟨st', ?_, hst'⟩
    rw [range_succ, foldlM_append]
    refine bind_eq_ok.2 ⟨st, hloop, ?_⟩
    rw [foldlM_cons]
    exact bind_eq_ok.2 ⟨st', hround, rfl⟩

theorem cloneEntries_ok : ∃ st, cloneEntries vm = .ok st ∧ SharedUpto vm gNumUserPages st := by
  unfold cloneEntries
  exact cloneEntries_upto ha hfull gNumUserPages le_rfl

end

end Clone

section Taken

variable {pmm pmm' : PhysicalPageManager} {pages : List Nat} {rest : Nat → Nat} {vm : Vm}

/-- Pages that are held already are not among those taken. -/
theorem Taken.refcnt_of_held (h : Taken pmm pages pmm') {f : Nat}
    (hheld : (pmm.mPages f).refcnt ≠ 0) :
    (pmm'.mPages f).refcnt = (pmm.mPages f).refcnt := by
  have hcount : (pages.map index).count f = 0 :=
    count_eq_zero.2 (fun hf => hheld (h.free f hf))
  have := h.traded.refcnt f
  omega

theorem Taken.accounts (h : Taken vm.pmm pages pmm') (ha : Accounts rest vm) :
    Accounts (fun f => rest f + (pages.map index).count f) { vm with pmm := pmm' } := by
  refine ⟨h.traded.kept ha.kept, ha.backed, ha.owned, ha.single, ?_⟩
  intro f
  have hcov := ha.covered f
  have htrade := h.traded.refcnt f
  dsimp only
  omega

/-- The pages of the tables are held, so their counters stay as they are. -/
theorem Taken.below (h : Taken vm.pmm pages pmm') (ha : Accounts rest vm)
    (hfull : Shareable vm.pmm vm.table) : Shareable pmm' vm.table := by
  intro i hi hpresent
  have hlt : i < gNumPages := by
    have := gNumUserPages_le
    omega
  have hpos : 0 < tableRefs vm.table (index (vm.table i).page) :=
    tableRefs_pos hlt (frame_eq_some.2 ⟨hpresent, ha.owned i hi hpresent, rfl⟩)
  have hcov := ha.covered (index (vm.table i).page)
  rw [h.refcnt_of_held (by omega)]
  exact hfull i hi hpresent

end Taken

section

variable (ha : Accounts rest vm) (hfull : Shareable vm.pmm vm.table)
include ha hfull

theorem cloneAddressSpace_sat : Sat (cloneAddressSpace vm)
      (fun r => r.1.tables.length = 770 ∧ ∃ pmm, Taken vm.pmm (r.1.cr3 :: r.1.tables) pmm ∧
        SharedUpto { vm with pmm := pmm } gNumUserPages r.2)
      (· = .resultOfFailure) := by
  refine Sat.bind (createAddressSpace_sat vm.pmm) ?_
  rintro ⟨space, pmm⟩ _ ⟨hlen, htaken⟩
  obtain ⟨st, hloop, hst⟩ := cloneEntries_ok (htaken.accounts ha) (htaken.below ha hfull)
  exact Sat.step hloop (Sat.ok ⟨hlen, pmm, htaken, hst⟩)

theorem cloneAddressSpace_roomy (hroom : Roomy vm.pmm (771 + n)) :
    ∃ space table vm' pmm, cloneAddressSpace vm = .ok (space, table, vm') ∧
      SharedUpto { vm with pmm := pmm } gNumUserPages (table, vm') ∧
      Roomy vm'.pmm n := by
  obtain ⟨⟨space, pmm⟩, hcreate, hroom'⟩ := createAddressSpace_supplied roomy_supply hroom
  have htaken := ((createAddressSpace_sat vm.pmm).result hcreate).2
  obtain ⟨⟨table, vm'⟩, hloop, hst⟩ := cloneEntries_ok (htaken.accounts ha) (htaken.below ha hfull)
  refine ⟨space, table, vm', pmm, ?_, hst, hst.room n hroom'⟩
  exact bind_eq_ok.2 ⟨_, hcreate, bind_eq_ok.2 ⟨_, hloop, rfl⟩⟩

end

section Shared

variable {vm : Vm} {st : (Nat → TableEntry) × Vm} {i : Nat}

section

variable (h : SharedTables vm gNumUserPages st)
include h

/-- Both halves of a clone hold what the original held. -/
theorem SharedTables.frames : (∀ i, (st.2.table i).frame = (vm.table i).frame) ∧
      ∀ i < gNumUserPages, (st.1 i).frame = (vm.table i).frame := by
  constructor
  · intro i
    by_cases hi : i < gNumUserPages
    · cases hpresent : (vm.table i).present with
      | true => rw [(h.done i hi hpresent).1, shared_frame]
      | false => rw [(h.absent i hi hpresent).1]
    · rw [(h.undone i (by omega)).1]
  intro i hi
  cases hpresent : (vm.table i).present with
  | true => rw [(h.done i hi hpresent).2, shared_frame]
  | false =>
    rw [(h.absent i hi hpresent).2, frame_absent hpresent]
    rfl

/-- Neither can be written to. -/
theorem SharedTables.readOnly (hi : i < gNumUserPages) :
    ((st.2.table i).present = true → (st.2.table i).rw = false) ∧
      ((st.1 i).present = true → (st.1 i).rw = false) := by
  cases hpresent : (vm.table i).present with
  | true =>
    rw [(h.done i hi hpresent).1, (h.done i hi hpresent).2]
    exact ⟨fun _ => shared_rw _, fun _ => shared_rw _⟩
  | false =>
    rw [(h.absent i hi hpresent).1, (h.absent i hi hpresent).2]
    refine ⟨fun hp => ?_, nofun⟩
    cases hpresent.symm.trans hp

/-- The entries of a clone are in order where those of the original are. -/
theorem SharedTables.flags (i : Nat) : (st.2.table i).present = (vm.table i).present ∧
      (st.2.table i).frompmm = (vm.table i).frompmm := by
  by_cases hi : i < gNumUserPages
  · cases hpresent : (vm.table i).present with
    | true =>
      rw [(h.done i hi hpresent).1, shared_present, shared_frompmm]
      exact ⟨hpresent, rfl⟩
    | false =>
      rw [(h.absent i hi hpresent).1]
      exact ⟨hpresent, rfl⟩
  · rw [(h.undone i (by omega)).1]
    exact ⟨rfl, rfl⟩

theorem SharedTables.copyFlags (hi : i < gNumUserPages) (hpresent : (st.1 i).present = true) :
    (vm.table i).present = true ∧ st.1 i = (vm.table i).shared := by
  cases hp : (vm.table i).present with
  | true => exact ⟨rfl, (h.done i hi hp).2⟩
  | false =>
    rw [(h.absent i hi hp).2] at hpresent
    cases hpresent

end

/-- The original goes on with what it has, but may write to none of it. -/
theorem SharedUpto.apart {strict all : Bool} {vm₀ : Vm} {pages : List Nat}
    (ha : Apart strict all rest vm₀ vm) (htaken : Taken vm.pmm pages pmm)
    (h : SharedUpto { vm with pmm := pmm } gNumUserPages st) :
    Apart strict false rest vm₀ st.2 := by
  have hframes := h.frames.1
  have htable : ∀ f, tableRefs st.2.table f = tableRefs vm.table f :=
    fun f => tally_congr (fun i _ => hframes i)
  refine ⟨⟨h.traded.kept (htaken.traded.kept ha.kept), ?_, ?_, ?_, ?_⟩, ?_, ?_, ?_⟩
  · intro i hi
    rw [(h.flags i).1, (h.flags i).2]
    exact ha.backed i hi
  · intro i hi
    rw [(h.flags i).1, (h.flags i).2]
    exact ha.owned i hi
  · intro f
    rw [userRefs_congr (fun i _ => hframes i) f]
    exact ha.single f
  · intro f
    have hcov := ha.covered f
    have h1 := htaken.traded.refcnt f
    have h2 := h.traded.refcnt f
    dsimp only at h2
    rw [htable]
    omega
  · intro _ i hi hpresent hrw
    rw [(h.readOnly hi).1 hpresent] at hrw
    cases hrw
  · intro hstrict f hf
    rw [h.memory]
    exact ha.untouched hstrict f hf
  · intro f hf
    rw [htable]
    exact ha.steady f hf

end Shared

-- ==== cleaning up

/-- Pages that are held at least as often as they are given back. -/
theorem deallocAll_ok (l : List Nat) (hk : pmm.Kept)
    (hheld : ∀ f, (l.map index).count f ≤ (pmm.mPages f).refcnt) :
    ∃ pmm', l.foldlM dealloc pmm = .ok pmm' ∧
      Traded pmm pmm' (fun _ => 0) (fun f => (l.map index).count f) := by
  induction l generalizing pmm with
  | nil => exact ⟨pmm, rfl, ⟨fun _ => rfl, fun _ => rfl, id⟩⟩
  | cons base rest ih =>
    have hsplit : ∀ f, ((base :: rest).map index).count f
        = (rest.map index).count f + named (some (index base)) f := by
      intro f
      rw [map_cons, count_cons]
      congr 1
      by_cases hf : index base = f
      · rw [hf, named_self]
        simp
      · rw [named_of_ne hf]
        simp [hf]
    have hfirst := hheld (index base)
    rw [hsplit, named_self] at hfirst
    have hcount : (pmm.mPages (index base)).refcnt ≠ 0 := by omega
    obtain ⟨pmm₁, hdealloc, htrade⟩ := dealloc_traded (hk.usable_of_held hcount) hcount
    obtain ⟨pmm₂, hloop, hrest⟩ := ih (htrade.kept hk) (by
      intro f
      have h := hheld f
      have ht := htrade.refcnt f
      rw [hsplit] at h
      omega)
    refine ⟨pmm₂, ?_, ?_⟩
    · rw [foldlM_cons]
      exact bind_eq_ok.2 ⟨pmm₁, hdealloc, hloop⟩
    · refine (htrade.trans hrest).congr (fun _ => rfl) ?_
      intro f
      rw [hsplit, add_comm]

theorem count_ownedPages (table : Nat → TableEntry) (dir f : Nat) :
    ((ownedPages table dir).map index).count f = tally (Finset.Ico (1024 * dir) (1024 * dir + 1024))
        frame table f := by
  rw [← count_filterMap_range]
  unfold ownedPages
  rw [map_filterMap]
  congr 2
  funext j
  unfold frame
  dsimp only
  split <;> rfl

/-- The tables from a directory index on, with the pages they own. -/
theorem count_tablePages (table : Nat → TableEntry) (f : Nat) (tables : List Nat) (dir : Nat) :
    (((tables.zipIdx dir).flatMap fun t => ownedPages table t.2 ++ [t.1]).map index).count f
      = tally (Finset.Ico (1024 * dir) (1024 * (dir + tables.length)))
          frame table f + (tables.map index).count f := by
  induction tables generalizing dir with
  | nil =>
    rw [length_nil, add_zero, tally_Ico_self]
    rfl
  | cons t rest ih =>
    rw [zipIdx_cons, flatMap_cons, map_append, count_append, ih, map_append, count_append,
      count_ownedPages, map_singleton, map_cons]
    have hone : ((index t) :: rest.map index).count f
        = [index t].count f + (rest.map index).count f := by
      rw [← count_append]
      rfl
    dsimp only
    rw [hone]
    have hsplit := tally_Ico_add frame table f (show 1024 * dir ≤ 1024 * (dir + 1) by omega)
      (show 1024 * (dir + 1) ≤ 1024 * (dir + 1 + rest.length) by omega)
    rw [show 1024 * dir + 1024 = 1024 * (dir + 1) by omega,
      length_cons, show dir + (rest.length + 1) = dir + 1 + rest.length by omega,
      hsplit]
    omega

/-- `cleanAddressSpace` gives back what the tables hold and what they are
made of. -/
theorem count_spacePages (hlen : space.tables.length = 770) (table : Nat → TableEntry) (f : Nat) :
    ((spacePages space table).map index).count f =
      userRefs table f + (space.tables.map index).count f := by
  have htake : (space.tables.take 768).length = 768 := by
    rw [length_take, hlen]
    rfl
  unfold spacePages
  rw [map_append, count_append, count_tablePages, htake, userRefs_eq,
    ← take_append_drop 768 space.tables, map_append,
    count_append, take_append_drop]
  show tally (Finset.Ico 0 gNumUserPages) _ _ _ + _ + _ = _
  omega

/-- The user half is gone, with its tables and what it held. -/
structure Cleaned (vm : Vm) (space : AddressSpace) (vm' : Vm) : Prop where
  table : ∀ i, vm'.table i = if i < gNumUserPages then {} else vm.table i
  memory : vm'.memory = vm.memory
  traded : Traded vm.pmm vm'.pmm (fun _ => 0)
    (fun f => userRefs vm.table f + (space.tables.map index).count f)

theorem cleanAddressSpace_ok (ha : Accounts (fun f => (space.tables.map index).count f + rest f) vm)
    (hlen : space.tables.length = 770) :
    ∃ vm', cleanAddressSpace vm space = .ok vm' ∧ Cleaned vm space vm' := by
  obtain ⟨pmm', hloop, htrade⟩ := deallocAll_ok (spacePages space vm.table) ha.kept (by
      intro f
      have hcov := ha.covered f
      have hsplit := tableRefs_eq vm.table f
      rw [count_spacePages hlen]
      omega)
  refine ⟨_, bind_eq_ok.2 ⟨pmm', hloop, rfl⟩, fun _ => rfl, rfl, ?_⟩
  exact htrade.congr (fun _ => rfl) (fun f => count_spacePages hlen vm.table f)

section Cleaned

variable {rest : Nat → Nat} {vm vm' : Vm} {space : AddressSpace}

section

variable (hc : Cleaned vm space vm')
include hc

theorem Cleaned.absent {i : Nat} (hi : i < gNumUserPages) : vm'.table i = {} := by
  rw [hc.table, if_pos hi]

theorem Cleaned.userRefs (f : Nat) : userRefs vm'.table f = 0 := by
  apply tally_eq_zero
  intro i hi
  rw [hc.absent (Finset.mem_range.1 hi)]
  rfl

theorem Cleaned.tableRefs (f : Nat) : tableRefs vm'.table f = kernelRefs vm.table f := by
  rw [tableRefs_eq, hc.userRefs, zero_add]
  apply tally_congr
  intro i hi
  rw [hc.table, if_neg (Nat.not_lt.2 (Finset.mem_Ico.1 hi).1)]

theorem Cleaned.accounts (ha : Accounts (fun f => (space.tables.map index).count f + rest f) vm) :
    Accounts rest vm' := by
  refine ⟨hc.traded.kept ha.kept, ?_, ?_, ?_, ?_⟩
  · intro i hi
    by_cases hu : i < gNumUserPages
    · rw [hc.absent hu]
      nofun
    · rw [hc.table, if_neg hu]
      exact ha.backed i hi
  · intro i hi
    rw [hc.absent hi]
    nofun
  · intro f
    rw [hc.userRefs]
    exact zero_le_one
  intro f
  have hcov := ha.covered f
  have hsplit := tableRefs_eq vm.table f
  have htrade := hc.traded.refcnt f
  rw [hc.tableRefs]
  omega

theorem Cleaned.apart {strict all : Bool} {vm₀ : Vm} (ha : Apart strict all
      (fun f => (space.tables.map index).count f + rest f) vm₀ vm) :
    Apart strict false rest vm₀ vm' := by
  refine ⟨hc.accounts ha.toAccounts, ?_, ?_, ?_⟩
  · intro _ i hi hpresent
    rw [hc.absent hi] at hpresent
    cases hpresent
  · intro hstrict f hf
    rw [hc.memory]
    exact ha.untouched hstrict f (Nat.add_pos_right _ hf)
  intro f hf
  have hsteady := ha.steady f (Nat.add_pos_right _ hf)
  have hsplit := tableRefs_eq vm.table f
  rw [hc.tableRefs]
  omega

end

end Cleaned

end Puppy.Mm
