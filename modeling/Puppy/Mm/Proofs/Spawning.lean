/-
Processes whose creation goes through.

The results about runs say what holds if a step gets to its end. Here is
when a new process does get its memory: there are enough physical pages,
and three virtual ones for its stacks and its object.
-/
import Puppy.Mm.Proofs.Books

namespace Puppy.Mm

open Libc Lib PhysicalPageManager List

namespace Vm

/-- There is a page of the range for each of these numbers, and nothing is
mapped there. -/
structure Spare (vm : Vm) (low high : Nat) (places : List Nat) : Prop where
  distinct : places.Nodup
  within : ∀ i ∈ places, ∃ virt ∈ pagesBelow (page low) (page high), pageNumber virt = i
  absent : ∀ i ∈ places, (vm.table i).present = false

/-- At least so many pages of the range are not mapped. -/
def Spares (vm : Vm) (low high n : Nat) : Prop :=
  ∃ places : List Nat, n ≤ places.length ∧ Spare vm low high places

theorem Spares.mono {vm vm' : Vm} {low high n : Nat} (h : vm.Spares low high n)
    (habsent : ∀ i, (vm.table i).present = false →
      (vm'.table i).present = false) : vm'.Spares low high n := by
  obtain ⟨places, hlen, hspare⟩ := h
  exact ⟨places, hlen, hspare.distinct, hspare.within, fun i hi => habsent i (hspare.absent i hi)⟩

variable {R : PhysicalPageManager → Nat → Prop}

/-- A page that is not mapped yet takes one from the supply. -/
theorem mapAnyPhysicalPage_supplied (hR : Supply R) {vm : Vm} {virt n : Nat}
    (opts : MapOptions) (hroom : R vm.pmm (n + 1))
    (habsent : (vm.entry virt).present = false) :
    ∃ idx vm', vm.mapAnyPhysicalPage virt opts = .ok vm' ∧
      Mapped vm virt opts idx vm' ∧ R vm'.pmm n := by
  obtain ⟨base, pmm, halloc, hroom'⟩ := hR _ _ hroom
  have hmap : vm.mapAnyPhysicalPage virt opts = .ok
      (map { vm with pmm := pmm } base virt { opts with frompmm := true }) := by
    unfold mapAnyPhysicalPage
    rw [if_neg (by rw [habsent]; exact Bool.false_ne_true), halloc]
  rcases mapAnyPhysicalPage_cases vm virt opts with h | h | ⟨idx, vm', h, hm⟩
  · rw [habsent] at h
    cases h.1
  · cases hmap.symm.trans h
  refine ⟨idx, vm', h, hm, ?_⟩
  cases hmap.symm.trans h
  rw [map_pmm]
  exact hroom'

/-- One page of the range is used up at a time. -/
theorem mapPageWithinRange_supplied (hR : Supply R) {vm : Vm}
    {low high m n : Nat} (opts : MapOptions)
    (hspare : Spares vm low high (m + 1)) (hroom : R vm.pmm (n + 1)) :
    ∃ virt vm', vm.mapPageWithinRange low high opts = .ok (virt, vm') ∧
      Spares vm' low high m ∧ R vm'.pmm n := by
  obtain ⟨places, hlen, hspare⟩ := hspare
  obtain ⟨i, hi⟩ := exists_mem_of_length_pos (l := places) (by omega)
  obtain ⟨v, hv, hvi⟩ := hspare.within i hi
  have hfound : (vm.findPageWithinRange low high).isSome = true := by
    unfold findPageWithinRange
    rw [find?_isSome]
    refine ⟨v, hv, ?_⟩
    unfold entry
    rw [hvi, hspare.absent i hi]
    rfl
  obtain ⟨virt, hvirt⟩ := Option.isSome_iff_exists.1 hfound
  have habsent : (vm.entry virt).present = false := by simpa using find?_some hvirt
  obtain ⟨idx, vm', hmap, hm, hroom'⟩ := mapAnyPhysicalPage_supplied hR opts hroom habsent
  refine ⟨virt, vm', ?_, ⟨places.erase (pageNumber virt), ?_, ?_, ?_, ?_⟩, hroom'⟩
  · unfold mapPageWithinRange
    rw [hvirt]
    exact bind_eq_ok.2 ⟨vm', hmap, rfl⟩
  · rw [length_erase]
    split <;> omega
  · exact hspare.distinct.erase _
  · intro k hk
    exact hspare.within k (mem_of_mem_erase hk)
  intro k hk
  have hne : k ≠ pageNumber virt := (hspare.distinct.mem_erase_iff.1 hk).1
  rw [hm.table, Function.update_of_ne hne]
  exact hspare.absent k (mem_of_mem_erase hk)

end Vm

namespace System

variable {s : System} {p q : Nat} {t : Task}

/-- A new task takes three pages, for its descriptor and two stacks. -/
theorem addTask_supplied {R : PhysicalPageManager → Nat → Prop}
    (hR : Supply R) (p : Nat) (status : Status) (space : AddressSpace)
    (table : Nat → TableEntry) (mm : MemoryManager) {m n : Nat}
    (hspare : s.kernelView.Spares s.mProcessPagesLow s.mProcessPagesHigh (m + 3))
    (hroom : R s.pmm (n + 3)) :
    ∃ vm proc esp0 esp, s.addTask p status space table mm = .ok ((s.storeKernel vm).setTask p
        (some ⟨status, space, table, mm, proc, esp0, esp⟩)) ∧
      vm.Spares s.mProcessPagesLow s.mProcessPagesHigh m ∧ R vm.pmm n := by
  let opts : MapOptions := { clear := true, user := false, rw := true }
  obtain ⟨proc, vm₁, h₁, hs₁, hr₁⟩ := Vm.mapPageWithinRange_supplied hR opts hspare hroom
  obtain ⟨esp0, vm₂, h₂, hs₂, hr₂⟩ := Vm.mapPageWithinRange_supplied hR opts hs₁ hr₁
  obtain ⟨esp, vm₃, h₃, hs₃, hr₃⟩ := Vm.mapPageWithinRange_supplied hR opts hs₂ hr₂
  refine ⟨vm₃, proc, esp0, esp, ?_, hs₃, hr₃⟩
  refine bind_eq_ok.2 ⟨_, h₁, bind_eq_ok.2 ⟨_, h₂, bind_eq_ok.2 ⟨_, h₃, rfl⟩⟩⟩

/-- Spare pages of the kernel half are still there when nothing but the user
half of a process has changed. -/
theorem spares_store {low high n : Nat} {mm : MemoryManager} {vm : Vm}
    (hspare : s.kernelView.Spares low high n)
    (hkernel : ∀ i, gNumUserPages ≤ i → vm.table i = (s.view t).table i) :
    (s.store p t mm vm).kernelView.Spares low high n := by
  refine hspare.mono ?_
  intro i habsent
  by_cases hu : i < gNumUserPages
  · rw [kernelView, look_user hu]
  rw [kernelView, look_kernel (by omega)] at habsent ⊢
  show (vm.table i).present = false
  rw [hkernel i (by omega), view, look_kernel (by omega)]
  exact habsent

/-- Both sides of a clone, where the page was mapped before. -/
structure Forked (s : System) (p q : Nat) (t : Task) (s' : System) (t' u : Task) :
    Prop where
  parent : s'.tasks p = some t'
  child : s'.tasks q = some u
  status : t'.status = .running
  regions : t'.mm = t.mm
  kernelRegions : s'.mKernelRegions = s.mKernelRegions
  mine : ∀ i < gNumUserPages, (t.table i).present = true → t'.table i = (t.table i).shared
  theirs : ∀ i < gNumUserPages, (t.table i).present = true → u.table i = (t.table i).shared

/-- With room for the tables and the task, a clone succeeds. -/
theorem clone_roomy {n : Nat} (hb : Books s) (ht : s.tasks p = some t)
    (hrun : t.status = .running) (hvacant : s.vacant q = true)
    (hfull : Shareable s.pmm t.table)
    (hspare : s.kernelView.Spares s.mProcessPagesLow s.mProcessPagesHigh 3)
    (hroom : Roomy s.pmm (771 + (n + 3))) :
    ∃ s' t' u, s.clone p q = .ok s' ∧ Forked s p q t s' t' u ∧ Roomy s'.pmm n := by
  have hne : p ≠ q := by
    intro heq
    unfold vacant at hvacant
    rw [← heq, ht, Option.isNone_some, Bool.and_false] at hvacant
    cases hvacant
  obtain ⟨space, table, vm, pmm, hclone, hst, hroom₁⟩ :=
    cloneAddressSpace_roomy (hb.accounts ht) (view_below hfull) hroom
  have hspare' : (s.store p t t.mm vm).kernelView.Spares s.mProcessPagesLow s.mProcessPagesHigh 3 :=
    spares_store hspare (fun i hi => (hst.undone i hi).1)
  obtain ⟨vm', proc, esp0, esp, hadd, _, hroom₂⟩ :=
    addTask_supplied (m := 0) roomy_supply q .cloned space table t.mm hspare' hroom₁
  refine ⟨_, { t with table := vm.table }, ⟨.cloned, space, table, t.mm, proc, esp0, esp⟩, ?_,
    ⟨?_, @setTask_self (s.store p t t.mm vm) q _ vm', hrun, rfl, rfl, ?_, ?_⟩,
    hroom₂⟩
  · unfold clone find
    rw [if_pos hvacant, ht]
    dsimp only
    rw [if_pos hrun]
    exact bind_eq_ok.2 ⟨t, rfl, bind_eq_ok.2 ⟨_, hclone, hadd⟩⟩
  · rw [setTask_other hne, store_self]
  · intro i hi hpresent
    have hsame : (s.view t).table i = t.table i := look_user hi
    have h := (hst.done i hi (by rw [← hsame] at hpresent; exact hpresent)).1
    exact h.trans (congrArg TableEntry.shared hsame)
  · intro i hi hpresent
    have hsame : (s.view t).table i = t.table i := look_user hi
    have h := (hst.done i hi (by rw [← hsame] at hpresent; exact hpresent)).2
    exact h.trans (congrArg TableEntry.shared hsame)

-- ==== a small machine

/-- A machine with so many pages of memory, none of it in use, and kernel
addresses for processes up to `high`. -/
def blank (pages high : Nat) : System where
  pmm :=
    { mPages := fun i => ⟨decide (0 < i ∧ i < pages), 0⟩
      mTotalPages := pages - 1
      mHighestPage := pages - 1
      mLastChecked := 0
      mFreePages := pages - 1 }
  mProcessPagesLow := 0xD0000000
  mProcessPagesHigh := high

section Blank

variable {pages high : Nat}

theorem blank_kept (hpages : pages ≤ gNumPages) : (blank pages high).pmm.Kept := by
  have husable : ∀ i, ((blank pages high).pmm.mPages i).usable = true → 0 < i ∧ i < pages :=
    fun i h => of_decide_eq_true h
  refine ⟨?_, ?_, ?_, rfl, fun _ => Nat.zero_lt_succ _, fun _ _ => rfl, ?_⟩
  · intro i h
    have := husable i h
    omega
  · intro i h
    have := husable i h
    show i ≤ pages - 1
    omega
  · show pages - 1 < gNumPages
    have : 0 < gNumPages := by decide
    omega
  have hset : (Finset.range gNumPages).filter
      (fun i => ((blank pages high).pmm.mPages i).available = true) = Finset.Ioo 0 pages := by
    ext i
    rw [Finset.mem_filter, Finset.mem_range, Finset.mem_Ioo, available_iff]
    constructor
    · intro h
      exact husable i h.2.1
    · intro h
      exact ⟨by omega, decide_eq_true h, rfl⟩
  unfold availableCount
  rw [hset, Nat.card_Ioo]
  rfl

/-- The machine at its start, with nothing handed out. -/
theorem blank_booted (hpages : pages ≤ gNumPages) (hhigh : high ≤ 0x100000000) :
    (blank pages high).Booted := by
  refine ⟨blank_kept hpages, fun _ => rfl, fun _ h => Bool.noConfusion h, ?_, ?_, hhigh⟩
  · intro f
    have hzero : kernelRefs (blank pages high).kernel f = 0 := tally_eq_zero (fun _ _ => rfl)
    rw [hzero]
    exact zero_le
  · show gKernelBase ≤ page 0xD0000000
    decide

theorem blank_ahead {n : Nat} (hn : n < pages) (hpages : pages ≤ gNumPages) :
    (blank pages high).pmm.Ahead n := by
  refine ⟨rfl, ?_, ?_, ?_, ?_⟩
  · show 0 + n < gNumPages
    omega
  · intro i hlow hhigh
    have hlow : 0 < i := hlow
    have hhigh : i ≤ 0 + n := hhigh
    rw [available_iff]
    exact ⟨decide_eq_true ⟨hlow, by omega⟩, rfl⟩
  · show n ≤ pages - 1
    omega
  · show pages - 1 < 0x100000000
    have : gNumPages < 0x100000000 := by decide
    omega

/-- The tables of the first process are taken in their order. -/
theorem blank_spawn (hpages : pages ≤ gNumPages) (henough : 771 < pages) :
    (blank pages high).spawn 1 =
      addTask { blank pages high with
          pmm := (blank pages high).pmm.takeNext 771 } 1 .created
        ⟨gPageSize * 1, (range 770).map fun u => gPageSize * (2 + u)⟩
        (fun _ => {}) MemoryManager.init := by
  unfold spawn
  rw [if_pos (show (blank pages high).vacant 1 = true from rfl),
    createAddressSpace_ahead (blank_ahead henough hpages)]
  exact bind_ok _ _

end Blank

/-- A machine with seven megabytes of memory, none of it in use. -/
def plain : System where
  pmm :=
    { mPages := fun i => ⟨decide (0 < i ∧ i < 0x700), 0⟩
      mTotalPages := 0x6FF
      mHighestPage := 0x6FF
      mLastChecked := 0
      mFreePages := 0x6FF }
  mProcessPagesLow := 0xD0000000
  mProcessPagesHigh := 0xD0100000

theorem plain_booted : plain.Booted :=
  @blank_booted 0x700 0xD0100000 (by decide) (by decide)

/-- The first process takes the first 771 pages. -/
theorem plain_spawn : plain.spawn 1 =
    addTask { plain with pmm := plain.pmm.takeNext 771 } 1 .created
      ⟨gPageSize * 1, (range 770).map fun u => gPageSize * (2 + u)⟩
      (fun _ => {}) MemoryManager.init :=
  @blank_spawn 0x700 0xD0100000 (by decide) (by decide)

/-- An executable with a page of code. -/
def textImage : Image where
  fileSize := 0x1000
  entry := 0x08048000
  programs := [{ vaddr := 0x08048000, memsz := 0x1000, filesz := 0x1000 }]

/-- The second process can be cloned from the first, and no counter is
anywhere near its end. -/
def roomForClone (s : System) : Bool :=
  (s.tasks 2).isNone && decide (774 ≤ s.pmm.mFreePages) &&
    decide (s.pmm.mLastChecked ≤ gNumPages) &&
    decide (s.pmm.mHighestPage < 0x700) &&
    (range 0x700).all (fun f => decide ((s.pmm.mPages f).refcnt < 255)) &&
    decide (s.mProcessPagesLow = 0xD0000000) &&
    decide (s.mProcessPagesHigh = 0xD0100000) &&
    [0xD0003, 0xD0004, 0xD0005].all (fun i => !(s.kernel i).present)

theorem refcnt_of_roomForClone (hk : s.pmm.Kept) (h : s.roomForClone = true)
    (f : Nat) : (s.pmm.mPages f).refcnt < 255 := by
  unfold roomForClone at h
  simp only [Bool.and_eq_true, decide_eq_true_eq, all_eq_true, mem_range] at h
  by_cases hf : f < 0x700
  · exact h.1.1.1.2 f hf
  have hunused : (s.pmm.mPages f).usable = false := by
    rw [← Bool.not_eq_true]
    intro husable
    have := hk.highest f husable
    omega
  rw [hk.unused f hunused]
  decide

/-- The test for room is enough for the first process to clone itself. -/
theorem clone_of_roomForClone (hb : Books s) (ht : s.tasks 1 = some t)
    (hrun : t.status = .running) (h : s.roomForClone = true) :
    ∃ s' t' u, s.clone 1 2 = .ok s' ∧ Forked s 1 2 t s' t' u ∧
      Roomy s'.pmm (s.pmm.mFreePages - 774) := by
  have hcount := refcnt_of_roomForClone hb.kept h
  unfold roomForClone at h
  simp only [Bool.and_eq_true, decide_eq_true_eq, all_eq_true] at h
  obtain ⟨⟨⟨⟨⟨⟨⟨hnone, hfree⟩, hlast⟩, _⟩, _⟩, hlow⟩, hhigh⟩, hspare⟩ := h
  refine clone_roomy (q := 2) hb ht hrun ?_ (fun i _ _ => hcount _) ?_ ⟨hb.kept, hlast, by omega⟩
  · unfold vacant
    rw [hnone]
    decide
  rw [hlow, hhigh]
  refine ⟨[0xD0003, 0xD0004, 0xD0005], le_rfl, by decide, ?_, ?_⟩
  · intro i hi
    refine ⟨i * gPageSize, ?_, ?_⟩
    · simp only [mem_cons, not_mem_nil, or_false] at hi
      rcases hi with rfl | rfl | rfl <;> decide
    · simp only [mem_cons, not_mem_nil, or_false] at hi
      rcases hi with rfl | rfl | rfl <;> decide
  intro i hi
  have habsent := hspare i hi
  rw [kernelView, look_kernel]
  · simpa using habsent
  · simp only [mem_cons, not_mem_nil, or_false] at hi
    rcases hi with rfl | rfl | rfl <;> decide

end System

end Puppy.Mm
