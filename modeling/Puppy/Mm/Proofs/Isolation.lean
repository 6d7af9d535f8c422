/-
Processes do not share what one of them can write to.

`Secluded` is the invariant: the books are in order, and a page that some
process can write to is held once in the whole system. What a process does
by itself keeps it (`Apart`, page by page). Sharing is left to `clone`,
which takes the right to write from both sides. The right comes back in
two ways: a write that faults gets a copy, which is nobody else's, and
`setregionperms` hands it out without looking at who else holds the page.
The second way is where the guard is needed. The books alone are kept
without it, and `Secluded` has a flag that says whether more is asked.
-/
import Puppy.Mm.Proofs.Spawning
import Puppy.Mm.Proofs.LoadElf

namespace Puppy.Mm

open Libc Lib PhysicalPageManager PageFault MemoryManager TableEntry Function

namespace System

structure Secluded (strict : Bool) (s : System) : Prop extends Books s where
  exclusive : strict = true → ∀ p t i, s.tasks p = some t → i < gNumUserPages →
    (t.table i).present = true → (t.table i).rw = true →
    s.refs (index (t.table i).page) ≤ 1

/-- Nobody but `p` can tell the two states apart by looking at its own
memory. -/
def Unseen (p : Nat) (s s' : System) : Prop :=
  ∀ q ≠ p, s'.tasks q = s.tasks q ∧ ∀ u, s.tasks q = some u → ∀ i, i < gNumUserPages →
      (u.table i).present = true →
      s'.memory (index (u.table i).page) = s.memory (index (u.table i).page)

variable {strict all : Bool} {s s' s₀ : System} {p q i : Nat} {t t' : Task}
  {pmm : PhysicalPageManager} {pages : List Nat} {mm : MemoryManager}
  {vm vm₀ : Vm}

theorem Unseen.trans {s'' : System} (h : Unseen p s s')
    (h' : Unseen p s' s'') : Unseen p s s'' := by
  intro q hq
  obtain ⟨htasks, hmemory⟩ := h q hq
  obtain ⟨htasks', hmemory'⟩ := h' q hq
  refine ⟨htasks'.trans htasks, ?_⟩
  intro u hu i hi hpresent
  rw [hmemory' u (htasks.trans hu) i hi hpresent]
  exact hmemory u hu i hi hpresent

-- ==== a process and the others

/-- A page that a process maps is held by it. -/
theorem Books.holds_pos (hb : Books s) (ht : s.tasks p = some t)
    (hi : i < gNumUserPages) (hpresent : (t.table i).present = true) :
    0 < t.holds (index (t.table i).page) := by
  have howned := (hb.task p t ht).owned i hi hpresent
  have hpos : 0 < userRefs t.table (index (t.table i).page) :=
    tally_pos_iff.2 ⟨i, Finset.mem_range.2 hi, frame_eq_some.2 ⟨hpresent, howned, rfl⟩⟩
  unfold Task.holds
  omega

/-- A page that another process maps is among the rest. -/
theorem Books.others_pos (hb : Books s) {u : Task} (hqp : q ≠ p)
    (hu : s.tasks q = some u) (hi : i < gNumUserPages)
    (hpresent : (u.table i).present = true) :
    0 < s.others p (index (u.table i).page) :=
  lt_of_lt_of_le (hb.holds_pos hu hi hpresent) (holds_le_others hqp (hb.bound q u hu) hu _)

/-- The state of things when the process starts to run. A process that has
nothing yet shares nothing. -/
theorem Secluded.apart (hs : Secluded strict s) (ht : s.tasks p = some t) :
    Apart strict (decide (t.status = .created)) (s.restOf p t) (s.view t) (s.view t) := by
  refine ⟨hs.toBooks.accounts ht, ?_, fun _ _ _ => rfl, fun _ _ => le_rfl⟩
  intro hstrict i hi hpresent hrw
  rw [← refs_eq (hs.bound p t ht) ht]
  have hsame : (s.view t).table i = t.table i := look_user hi
  rw [hsame] at hpresent hrw ⊢
  rw [Bool.or_eq_true, decide_eq_true_eq] at hrw
  rcases hrw with hrw | hcreated
  · exact hs.exclusive hstrict p t i ht hi hpresent hrw
  · rw [(hs.task p t ht).idle (.inl hcreated) i hi] at hpresent
    cases hpresent

/-- What is done for one process is put back. -/
theorem Secluded.store (hs : Secluded strict s) (ht : s.tasks p = some t)
    (ha : Apart strict all (s.restOf p t') vm₀ vm)
    (hstart : vm₀.table = (s.view t).table) (hspace : t'.space = t.space)
    (hfewer : ∀ f, t'.spaceRefs f ≤ t.spaceRefs f)
    (hidle : t'.status.idle → ∀ i < gNumUserPages, (vm.table i).present = false) :
    Secluded strict (s.store p t' mm vm) := by
  refine ⟨hs.toBooks.store ht ha.toAccounts hspace hidle, ?_⟩
  intro hstrict q u i hu hi hpresent hrw
  rw [refs_store (hs.bound p t ht)]
  by_cases hq : q = p
  · rw [hq, store_self] at hu
    cases hu
    exact ha.exclusive hstrict i hi hpresent (by
      rw [show (vm.table i).rw = true from hrw, Bool.true_or])
  rw [store_other hq] at hu
  have hone := hs.exclusive hstrict q u i hu hi hpresent hrw
  have hpos := hs.toBooks.others_pos hq hu hi hpresent
  have hsteady := ha.steady (index (u.table i).page) (by
    unfold restOf
    omega)
  have hless := hfewer (index (u.table i).page)
  rw [refs_eq (hs.bound p t ht) ht] at hone
  rw [hstart] at hsteady
  unfold restOf at hone ⊢
  omega

/-- A process changes its own memory and the others do not see it. -/
theorem Secluded.store_unseen (hs : Secluded strict s) (hstrict : strict = true)
    (ha : Apart strict all (s.restOf p t') vm₀ vm)
    (hstart : vm₀.memory = s.memory) :
    Unseen p s (s.store p t' mm vm) := by
  intro q hq
  refine ⟨store_other hq, ?_⟩
  intro u hu i hi hpresent
  have hpos := hs.toBooks.others_pos hq hu hi hpresent
  have hsame := ha.untouched hstrict (index (u.table i).page) (by
    unfold restOf
    omega)
  rw [hstart] at hsame
  exact hsame

-- ==== the end of a process

theorem running_live (h : t.status = .running) : t.status ≠ .exited :=
  h.trans_ne Status.noConfusion

theorem running_busy (h : t.status = .running) : ¬ t.status.idle := by
  rw [h]
  rintro (h | h) <;> cases h

theorem spaceRefs_congr (hspace : t'.space = t.space)
    (hlive : t.status ≠ .exited) (hlive' : t'.status ≠ .exited) (f : Nat) :
    t'.spaceRefs f = t.spaceRefs f := by
  unfold Task.spaceRefs
  rw [hspace, if_neg hlive, if_neg hlive']

/-- What a process may do to the rest of the system. -/
def Minds (strict : Bool) (p : Nat) (s s' : System) : Prop :=
  Secluded strict s' ∧ (strict = true → Unseen p s s')

/-- What an exit lets go of. -/
theorem restOf_exit (hlive : t.status ≠ .exited) :
    s.restOf p t = fun f => (t.space.tables.map index).count f
      + s.restOf p { t with status := .exited } f := by
  funext f
  unfold restOf Task.spaceRefs
  dsimp only
  rw [if_neg hlive, if_pos rfl]
  omega

/-- An exit gives back what the process has held. -/
theorem exitTask_sat (hs : Secluded strict s) (ht : s.tasks p = some t)
    (hlive : t.status ≠ .exited) :
    Sat (s.exitTask p t) (Minds strict p s) (· = .fault) := by
  have hclean : Sat (t.mm.cleanupAllRegions (s.view t))
      (fun r => Apart strict _ (s.restOf p t) (s.view t) r.2) (· = .fault) :=
    cleanupAllRegions_sat (fun virt vm hvm => (hvm.unmap virt).weaken (fun _ h => h.elim)) rfl
      (hs.apart ht)
  refine Sat.bind hclean ?_
  rintro ⟨mm, vm⟩ _ ha
  rw [restOf_exit hlive] at ha
  obtain ⟨vm', hok, hcleaned⟩ := cleanAddressSpace_ok ha.toAccounts (hs.task p t ht).tables
  have ha' := hcleaned.apart ha
  refine Sat.step hok (Sat.ok ⟨?_, ?_⟩)
  · refine hs.store ht ha' rfl rfl ?_ ?_
    · intro f
      have := congrFun (restOf_exit (s := s) (p := p) hlive) f
      unfold restOf at this
      omega
    · intro _ i hi
      rw [hcleaned.absent hi]
  · exact fun hstrict => hs.store_unseen hstrict ha' rfl

/-- What a running process does with its memory, whether or not it
survives it. -/
theorem proceed_sat (hs : Secluded strict s) (ht : s.tasks p = some t) (hlive : t.status ≠ .exited)
    {alive : Bool} (ha : Apart strict all (s.restOf p t) (s.view t) vm)
    (hspace : t'.space = t.space) (hrunning : t'.status = .running) :
    Sat (s.proceed p t' alive mm vm) (Minds strict p s) (· = .fault) := by
  have hlive' := running_live hrunning
  have hsame : s.restOf p t' = s.restOf p t := by
    funext f
    unfold restOf
    rw [spaceRefs_congr hspace hlive hlive']
  rw [← hsame] at ha
  have hstored : Secluded strict (s.store p t' mm vm) :=
    hs.store ht ha rfl hspace (fun f => le_of_eq (spaceRefs_congr hspace hlive hlive' f))
      (fun h => absurd h (running_busy hrunning))
  have hunseen : strict = true → Unseen p s (s.store p t' mm vm) :=
    fun hstrict => hs.store_unseen hstrict ha rfl
  unfold proceed
  split
  · exact Sat.ok ⟨hstored, hunseen⟩
  · refine (exitTask_sat hstored store_self hlive').mono ?_
    rintro s' ⟨hs', hunseen'⟩
    exact ⟨hs', fun hstrict => (hunseen hstrict).trans (hunseen' hstrict)⟩

-- ==== failures

theorem graceful_disabled : Graceful .disabled :=
  ⟨by decide, by decide, by decide⟩

theorem graceful_fault (e : Panic) (he : e = .fault) : Graceful e := by
  rw [he]
  exact ⟨by decide, by decide, by decide⟩

theorem graceful_failure (e : Panic) (he : e = .resultOfFailure) : Graceful e := by
  rw [he]
  exact ⟨by decide, by decide, by decide⟩

-- ==== what a process does by itself

section Rules

variable {all : Bool} {rest : Nat → Nat} {vm₀ vm : Vm} {mm : MemoryManager}

/-- Only regions of the process have a file. -/
theorem user_of_mmap_data {vaddr : Nat} {region : Region}
    (h : mm.isWithinRegion vm vaddr = some region)
    (hfile : region.mmap_data ≠ none) : vaddr < gKernelBase := by
  unfold isWithinRegion at h
  by_contra hkernel
  have hk : iskernel vaddr = true := by
    unfold iskernel
    rw [decide_eq_true_eq]
    omega
  rw [if_pos hk] at h
  obtain ⟨_, h⟩ := Option.ite_none_left_eq_some.1 h
  split at h
  · injection h with h
    rw [← h] at hfile
    exact hfile rfl
  · cases h

theorem apart_faultRules (mm : MemoryManager) (vaddr : Nat) :
    FaultRules (Apart strict all rest vm₀) Graceful mm vaddr where
  fresh _ _ _ ha _ := (ha.mapAnyPhysicalPage _ _).weaken graceful_failure
  store _ _ bytes ha hregion hfile hpresent hrw :=
    ha.setMemory (pageNumber_user (user_of_mmap_data hregion hfile)).1 hpresent hrw bytes
  copy _ opts ha _ _ := (ha.clonePage _ opts).weaken (fun _ h => h.elim)

theorem apart_fresh (ha : Apart strict all rest vm₀ vm) (virt : Nat) (opts : MapOptions) :
    Sat (vm.mapAnyPhysicalPage virt opts) (Apart strict all rest vm₀) Graceful :=
  (ha.mapAnyPhysicalPage virt opts).weaken graceful_failure

theorem apart_drop (ha : Apart strict all rest vm₀ vm) (virt : Nat) :
    Sat (vm.unmap virt) (Apart strict all rest vm₀) Graceful :=
  (ha.unmap virt).weaken (fun _ h => h.elim)

/-- While a program is loaded, its process shares nothing, so every page
may become writable. -/
theorem apart_segmentRules :
    SegmentRules (Apart strict true rest vm₀) Graceful (· < gNumUserPages) where
  fresh _ virt opts _ ha := apart_fresh ha virt opts
  store _ _ bytes hpage ha hpresent hrw := ha.setMemory hpage hpresent hrw bytes
  flags vm virt rw hpage ha hpresent := by
    have hr : Replaced vm (pageNumber virt) { vm.entry virt with rw := rw }
        (vm.setEntry virt { vm.entry virt with rw := rw }) :=
      ha.toAccounts.replaced_flags rfl rfl rfl
    refine ha.replaced hr (pageNumber_lt virt) ?_
    intro hstrict hi hpres _
    exact .inr (ha.exclusive hstrict _ hi hpres (Bool.or_true _))

theorem user_of_page {addr : Nat} (h : iskernel (page addr) = false) :
    pageNumber addr < gNumUserPages := by
  unfold iskernel at h
  rw [decide_eq_false_iff_not] at h
  rw [← pageNumber_page]
  exact (pageNumber_user (by omega)).1

/-- The loader takes pages that nobody else has. -/
theorem apart_loaderRules : LoaderRules (fun l => Apart strict true rest vm₀ l.vm) Graceful
      (fun _ => True) where
  zeroRegion l size opts rgn mm vm ha _ _ _ h := by
    rw [(findAndZeroPageRegion_some h).2.2.2]
    exact mapZeroPages_keeps (fun virt _ vm hvm => hvm.mapZeroPage opts virt) ha
  mapRegion l size ha := findAndMapRegion_sat (fun virt vm hvm => apart_fresh hvm virt _) ha
  touch l vaddr ha := kernelTouch_sat (apart_faultRules l.mm vaddr) ha
  copySegment l p ha _ :=
    Loading.loadPages_sat apart_segmentRules p.memsz (fun a _ _ hkernel => user_of_page hkernel) ha
  addSegment l p ha _ := ha
  guardPage l addr ha := ha
  removeRegion l rgn ha := removeRegion_sat (fun virt _ vm hvm => apart_drop hvm virt) ha
  noStack := ⟨by decide, by decide, by decide⟩
  tooMany := ⟨by decide, by decide, by decide⟩

end Rules

/-- The process is there, with the status asked for. -/
theorem find_sat (s : System) (p : Nat) (status : Status) : Sat (s.find p status)
      (fun t => s.tasks p = some t ∧ t.status = status) Graceful := by
  unfold find
  split
  next t ht =>
    split
    next hstatus => exact Sat.ok ⟨ht, hstatus⟩
    · exact Sat.error graceful_disabled
  · exact Sat.error graceful_disabled

-- ==== processes that come and go

section Place

variable {o : Option Task} {vm vm₀ : Vm} {rest : Nat → Nat} {status : Status} {space : AddressSpace}

/-- A page that is mapped for the kernel is new to everybody. -/
theorem apart_mapPageWithinRange (ha : Apart strict false rest vm₀ vm)
    (low high : Nat) (opts : MapOptions) :
    Sat (vm.mapPageWithinRange low high opts)
      (fun r => Apart strict false rest vm₀ r.2) Graceful := by
  unfold Vm.mapPageWithinRange
  cases hfind : vm.findPageWithinRange low high with
  | none => exact Sat.error ⟨by decide, by decide, by decide⟩
  | some virt => exact Sat.bind (apart_fresh ha virt opts) (fun vm' _ hvm' => Sat.ok hvm')

theorem kernelView_user (hi : i < gNumUserPages) : s.kernelView.table i = {} := look_user hi

/-- The kernel's own half, with nothing mapped in the other. -/
theorem Books.apart_kernelView (hb : Books s) (hcovered : ∀ f, kernelRefs s.kernel f + rest f
      ≤ (s.pmm.mPages f).refcnt) :
    Apart strict false rest s.kernelView s.kernelView := by
  refine ⟨hb.kernelView hcovered, ?_, fun _ _ _ => rfl, fun _ _ => le_rfl⟩
  intro _ i hi hpresent
  rw [kernelView_user hi] at hpresent
  cases hpresent

/-- A place of the process table gets another owner, who can write to
nothing. What others can write to is not touched. -/
theorem Secluded.setTask (hs : Secluded strict s) (hp : p < Proc.gNumProcesses)
    (ha : Apart strict false (fun f => weight f o + s.others p f) vm₀ vm)
    (hstart : vm₀.table = s.kernelView.table)
    (htask : ∀ t, o = some t → TaskBooks t ∧ ∀ i, i < gNumUserPages →
      (t.table i).present = true → (t.table i).rw = false)
    (hexcl : strict = true → ∀ q u i, q ≠ p → s.tasks q = some u → i < gNumUserPages →
      (u.table i).present = true → (u.table i).rw = true →
      kernelRefs s.kernel (index (u.table i).page) + (weight (index (u.table i).page) o
          + s.others p (index (u.table i).page)) ≤ 1) :
    Secluded strict ((s.storeKernel vm).setTask p o) := by
  refine ⟨hs.toBooks.setTask hp ha.toAccounts (fun _ => Nat.le_add_left _ _)
    (fun t ht => (htask t ht).1), ?_⟩
  intro hstrict q u i hu hi hpresent hrw
  by_cases hq : q = p
  · rw [hq, setTask_self] at hu
    rw [(htask u hu).2 i hi hpresent] at hrw
    cases hrw
  rw [setTask_other hq] at hu
  have hone := hexcl hstrict q u i hq hu hi hpresent hrw
  have hpos := hs.toBooks.others_pos hq hu hi hpresent
  have hsteady := ha.steady (index (u.table i).page) (Nat.add_pos_right _ hpos)
  have hsplit := tableRefs_eq vm.table (index (u.table i).page)
  rw [hstart, tableRefs_kernelView] at hsteady
  rw [refs_setTask hp]
  omega

/-- A place of the process table becomes free. -/
theorem delete_sat (hs : Secluded strict s) : Sat (s.delete p) (Secluded strict) Graceful := by
  refine Sat.bind (find_sat s p .exited) ?_
  rintro t _ ⟨ht, hstatus⟩
  have hp := hs.bound p t ht
  -- the directory is the last page the process holds
  have hholds : ∀ f, named (some (index t.space.cr3)) f ≤ t.holds f := by
    intro f
    unfold Task.holds Task.spaceRefs
    by_cases hf : index t.space.cr3 = f
    · rw [if_pos hf]
      have := named_le_one (some (index t.space.cr3)) f
      omega
    · rw [named_of_ne hf]
      exact zero_le
  have htotal : ∀ f, kernelRefs s.kernel f + (t.holds f + s.others p f)
      ≤ (s.pmm.mPages f).refcnt := by
    intro f
    have hcov := hs.covered f
    unfold refs at hcov
    rw [held_eq hp, ht] at hcov
    exact hcov
  have hcount : (s.pmm.mPages (index t.space.cr3)).refcnt ≠ 0 := by
    have h1 := htotal (index t.space.cr3)
    have h2 := hholds (index t.space.cr3)
    rw [named_self] at h2
    omega
  obtain ⟨pmm, hdealloc, htrade⟩ := dealloc_traded (hs.kept.usable_of_held hcount) hcount
  have hview : Accounts (fun f => t.holds f + s.others p f) s.kernelView :=
    hs.toBooks.kernelView htotal
  have ha : Apart strict false (fun f => weight f none + s.others p f)
      s.kernelView { s.kernelView with pmm := pmm } := by
    refine ⟨⟨htrade.kept hs.kept, ?_, ?_, ?_, ?_⟩, ?_, fun _ _ _ => rfl, fun _ _ => le_rfl⟩
    · exact hview.backed
    · exact hview.owned
    · exact hview.single
    · intro f
      have h1 := htotal f
      have h2 := hholds f
      have h3 := htrade.refcnt f
      show tableRefs s.kernelView.table f + (0 + s.others p f) ≤ (pmm.mPages f).refcnt
      rw [tableRefs_kernelView]
      omega
    · intro _ i hi hpresent
      rw [show ({ s.kernelView with pmm := pmm } : Vm).table i = {}
        from kernelView_user hi] at hpresent
      cases hpresent
  refine Sat.step hdealloc ?_
  refine Sat.bind (apart_drop ha _) ?_
  intro vm₁ _ ha₁
  refine Sat.bind (apart_drop ha₁ _) ?_
  intro vm₂ _ ha₂
  refine Sat.bind (apart_drop ha₂ _) ?_
  intro vm₃ _ ha₃
  refine Sat.ok (hs.setTask hp ha₃ rfl (fun t h => by cases h) ?_)
  intro hstrict q u i hq hu hi hpresent hrw
  have hone := hs.exclusive hstrict q u i hu hi hpresent hrw
  unfold refs at hone
  rw [held_eq hp, ht] at hone
  show kernelRefs s.kernel _ + (0 + s.others p _) ≤ 1
  omega

/-- What a new process holds: the pages of its tables and, if it is a
clone, those it shares. -/
theorem weight_new (hlive : status ≠ .exited) (space : AddressSpace)
    (table : Nat → TableEntry) (mm : MemoryManager)
    (proc esp0 esp f : Nat) :
    weight f (some ⟨status, space, table, mm, proc, esp0, esp⟩)
      = userRefs table f + ((space.cr3 :: space.tables).map index).count f := by
  show userRefs table f + Task.spaceRefs _ f = _
  unfold Task.spaceRefs
  rw [if_neg hlive, List.map_cons, List.count_cons]
  congr 2
  by_cases hf : index space.cr3 = f
  · rw [if_pos hf, if_pos (beq_iff_eq.2 hf)]
  · rw [if_neg hf, if_neg (by rw [beq_iff_eq]; exact hf)]

theorem others_vacant (hp : p < Proc.gNumProcesses) (hnone : s.tasks p = none)
    (f : Nat) : s.others p f = s.held f := by
  rw [held_eq hp, hnone]
  exact (zero_add _).symm

/-- A new task is added to the books. -/
theorem addTask_sat (hs : Secluded strict s) (hp : p < Proc.gNumProcesses)
    (hnone : s.tasks p = none)
    {table : Nat → TableEntry} {mm : MemoryManager}
    (hlive : status ≠ .exited)
    (hbooks : ∀ proc esp0 esp, TaskBooks ⟨status, space, table, mm, proc, esp0, esp⟩)
    (hrw : ∀ i < gNumUserPages, (table i).present = true → (table i).rw = false)
    (hcov : ∀ f, s.refs f + (userRefs table f + ((space.cr3 :: space.tables).map index).count f)
        ≤ (s.pmm.mPages f).refcnt)
    (hexcl : strict = true → ∀ q u i, s.tasks q = some u → i < gNumUserPages →
      (u.table i).present = true → (u.table i).rw = true →
      s.refs (index (u.table i).page) + (userRefs table (index (u.table i).page)
          + ((space.cr3 :: space.tables).map index).count (index (u.table i).page)) ≤ 1) :
    Sat (s.addTask p status space table mm) (Secluded strict) Graceful := by
  have hview : Apart strict false (fun f => weight f (some
      ⟨status, space, table, mm, 0, 0, 0⟩) + s.others p f)
      s.kernelView s.kernelView := by
    refine hs.toBooks.apart_kernelView ?_
    intro f
    have h := hcov f
    unfold refs at h
    rw [weight_new hlive, others_vacant hp hnone]
    omega
  refine Sat.bind (apart_mapPageWithinRange hview _ _ _) ?_
  rintro ⟨proc, vm₁⟩ _ ha₁
  refine Sat.bind (apart_mapPageWithinRange ha₁ _ _ _) ?_
  rintro ⟨esp0, vm₂⟩ _ ha₂
  refine Sat.bind (apart_mapPageWithinRange ha₂ _ _ _) ?_
  rintro ⟨esp, vm₃⟩ _ ha₃
  refine Sat.ok (@Secluded.setTask strict s p _ vm₃ s.kernelView hs hp ?_ rfl ?_ ?_)
  · have hsame : (fun f => weight f (some
        ⟨status, space, table, mm, proc, esp0, esp⟩) + s.others p f)
        = fun f => weight f (some ⟨status, space, table, mm, 0, 0, 0⟩) + s.others p f := by
      funext f
      rw [weight_new hlive, weight_new hlive]
    rw [hsame]
    exact ha₃
  · intro t ht
    cases ht
    exact ⟨hbooks proc esp0 esp, hrw⟩
  · intro hstrict q u i _ hu hi hpresent hwrite
    have h := hexcl hstrict q u i hu hi hpresent hwrite
    unfold refs at h
    rw [weight_new hlive, others_vacant hp hnone]
    omega

theorem vacant_iff (h : s.vacant p = true) : p < Proc.gNumProcesses ∧ s.tasks p = none := by
  unfold vacant at h
  rw [Bool.and_eq_true, decide_eq_true_eq] at h
  exact ⟨h.1, Option.isNone_iff_eq_none.1 h.2⟩

theorem refs_setPmm (f : Nat) : ({ s with pmm := pmm } : System).refs f = s.refs f := by
  unfold refs held
  rfl

/-- More references than are held do no harm. -/
theorem Secluded.setPmm (hs : Secluded strict s) (hkept : pmm.Kept)
    (hmore : ∀ f, (s.pmm.mPages f).refcnt ≤ (pmm.mPages f).refcnt) :
    Secluded strict { s with pmm := pmm } := by
  refine ⟨⟨hkept, hs.kernel, hs.bound, hs.task, ?_, hs.low, hs.high⟩, ?_⟩
  · intro f
    rw [refs_setPmm]
    exact le_trans (hs.covered f) (hmore f)
  · intro hstrict q u i hu hi hpresent hrw
    rw [refs_setPmm]
    exact hs.exclusive hstrict q u i hu hi hpresent hrw

/-- A page that is written to is not among those just taken. -/
theorem Secluded.not_taken (hs : Secluded strict s)
    (htaken : Taken s.pmm pages pmm) {u : Task} (hu : s.tasks q = some u)
    (hi : i < gNumUserPages) (hpresent : (u.table i).present = true) :
    (pages.map index).count (index (u.table i).page) = 0 := by
  rw [List.count_eq_zero]
  intro hmem
  have hzero := htaken.free _ hmem
  have hcov := hs.covered (index (u.table i).page)
  have hpos := hs.toBooks.holds_pos hu hi hpresent
  unfold refs at hcov
  rw [held_eq (hs.bound q u hu), hu] at hcov
  have hcov' : kernelRefs s.kernel (index (u.table i).page) + (u.holds (index (u.table i).page)
        + s.others q (index (u.table i).page)) ≤ 0 := by
    rw [← hzero]
    exact hcov
  omega

/-- The new process gets its place. -/
theorem spawn_created (hs : Secluded strict s) (hp : p < Proc.gNumProcesses)
    (hnone : s.tasks p = none)
    (hlen : space.tables.length = 770)
    (htaken : Taken s.pmm (space.cr3 :: space.tables) pmm) :
    Sat (addTask { s with pmm := pmm } p .created space (fun _ => {})
      init) (Secluded strict) Graceful := by
  have hs₁ : Secluded strict { s with pmm := pmm } :=
    hs.setPmm (htaken.traded.kept hs.kept) (fun f => by
      have htrade := htaken.traded.refcnt f
      omega)
  refine addTask_sat hs₁ hp hnone (by decide) ?_ ?_ ?_ ?_
  · intro proc esp0 esp
    refine ⟨?_, ?_, ?_, fun _ i _ => rfl, hlen⟩
    · intro i _ h
      cases h
    · intro i _ h
      cases h
    · intro f
      rw [userRefs_empty]
      exact zero_le_one
  · intro i _ h
    cases h
  · intro f
    have hcov := hs.covered f
    have htrade := htaken.traded.refcnt f
    rw [refs_setPmm, userRefs_empty]
    show _ ≤ (pmm.mPages f).refcnt
    omega
  · intro hstrict q u i hu hi hpresent hrw
    have hone := hs.exclusive hstrict q u i hu hi hpresent hrw
    have hcount := hs.not_taken htaken hu hi hpresent
    have huser := userRefs_empty (index (u.table i).page)
    rw [refs_setPmm]
    omega

/-- A new process has nothing in its user half. -/
theorem spawn_sat (hs : Secluded strict s) : Sat (s.spawn p) (Secluded strict) Graceful := by
  unfold spawn
  split
  next hvacant =>
    obtain ⟨hp, hnone⟩ := vacant_iff hvacant
    refine Sat.bind ((createAddressSpace_sat s.pmm).weaken graceful_failure) ?_
    intro r _ hr
    exact spawn_created hs hp hnone hr.1 hr.2
  · exact Sat.error graceful_disabled

end Place

-- ==== sharing

/-- A clone shares what it can no longer write to. -/
theorem clone_sat (hs : Secluded strict s) (hfull : s.KeepsCounts (.clone p q)) :
    Sat (s.clone p q) (Secluded strict) Graceful := by
  unfold clone
  split
  next hvacant =>
    obtain ⟨hq, hnone⟩ := vacant_iff hvacant
    refine Sat.bind (find_sat s p .running) ?_
    rintro t _ ⟨ht, hstatus⟩
    have hp := hs.bound p t ht
    have hne : q ≠ p := (ne_of_entry ht hnone).symm
    have ha := hs.apart ht
    refine Sat.bind ((cloneAddressSpace_sat ha.toAccounts
      (view_below (hfull t ht))).weaken graceful_failure) ?_
    rintro ⟨space, st⟩ _ ⟨hlen, pmm, htaken, hst⟩
    have hstored : Secluded strict (s.store p t t.mm st.2) :=
      hs.store ht (hst.apart ha htaken) rfl rfl (fun f => le_rfl)
        (fun h => absurd h (running_busy hstatus))
    have hframes := hst.frames
    have huser : ∀ f, userRefs st.1 f = userRefs t.table f := fun f =>
      userRefs_congr (fun i hi => by
        rw [hframes.2 i hi]
        exact congrArg frame (look_user hi)) f
    have htable : ∀ f, tableRefs st.2.table f = tableRefs (s.view t).table f :=
      fun f => tally_congr (fun i _ => hframes.1 i)
    have hrefs : ∀ f, (s.store p t t.mm st.2).refs f = s.refs f := by
      intro f
      rw [refs_store hp, refs_eq hp ht, htable]
    -- one reference for each page shared, and those of the new tables
    have hcount : ∀ f, (st.2.pmm.mPages f).refcnt = (s.pmm.mPages f).refcnt + (userRefs t.table f
          + ((space.cr3 :: space.tables).map index).count f) := by
      intro f
      have h1 := htaken.traded.refcnt f
      have h2 := hst.traded.refcnt f
      have h3 : tally (Finset.Ico 0 gNumUserPages) frame
          (s.view t).table f = userRefs t.table f := by
        rw [← userRefs_eq]
        exact userRefs_congr (fun i hi => congrArg frame (look_user hi)) f
      dsimp only at h1 h2
      rw [h3] at h2
      have h4 : ((s.view t).pmm.mPages f).refcnt = (s.pmm.mPages f).refcnt := rfl
      omega
    refine addTask_sat hstored hq ?_ (by decide) ?_ ?_ ?_ ?_
    · rw [store_other hne]
      exact hnone
    · intro proc esp0 esp
      have htask := hs.task p t ht
      refine ⟨?_, ?_, ?_, ?_, hlen⟩
      · intro i hi hpmm
        cases hpresent : ((s.view t).table i).present with
        | true =>
          show (st.1 i).present = true
          rw [(hst.done i hi hpresent).2, shared_present]
          exact hpresent
        | false =>
          have hempty : st.1 i = {} := (hst.absent i hi hpresent).2
          dsimp only at hpmm
          rw [hempty] at hpmm
          cases hpmm
      · intro i hi hpresent
        obtain ⟨hpres, heq⟩ := hst.copyFlags hi hpresent
        show (st.1 i).frompmm = true
        rw [heq, shared_frompmm]
        exact ha.owned i hi hpres
      · intro f
        rw [huser]
        exact htask.single f
      · rintro (h | h)
        · cases h
        · cases h
    · intro i hi hpresent
      exact (hst.readOnly hi).2 hpresent
    · intro f
      have hcov := hs.covered f
      have h1 := hcount f
      have h2 := huser f
      have h3 := hrefs f
      show _ ≤ (st.2.pmm.mPages f).refcnt
      omega
    · intro hstrict r u i hu hi hpresent hrw
      have hrp : r ≠ p := by
        intro heq
        rw [heq, store_self] at hu
        cases hu
        rw [(hst.readOnly hi).1 hpresent] at hrw
        cases hrw
      rw [store_other hrp] at hu
      have hone := hs.exclusive hstrict r u i hu hi hpresent hrw
      have hothers := hs.toBooks.others_pos hrp hu hi hpresent
      have hfresh : ((space.cr3 :: space.tables).map index).count (index (u.table i).page) = 0 :=
        hs.not_taken htaken hu hi hpresent
      have h1 := refs_eq hp ht (index (u.table i).page)
      have h2 := huser (index (u.table i).page)
      have h3 := hrefs (index (u.table i).page)
      have h4 := @tableRefs_look s t.table (index (u.table i).page)
      unfold view at h1
      unfold restOf at h1
      omega
  · exact Sat.error graceful_disabled

-- ==== permissions

section Protect

variable {rest : Nat → Nat} {vm₀ vm : Vm} {opts : MapOptions} {pp : Nat}

/-- The pages that would become writable are held once. -/
def Unshared (pages : List Nat) (vm : Vm) : Prop :=
  ∀ pp ∈ pages, pageNumber pp < gNumUserPages →
    (vm.entry pp).present = true → (vm.entry pp).rw = false →
    (vm.entry pp).cow = false →
    (vm.pmm.mPages (index (vm.entry pp).page)).refcnt < 2

theorem apart_protectPage (hpp : pp ∈ pages) (ha : Apart strict false rest vm₀ vm)
    (hfew : strict = true → opts.rw = true → Unshared pages vm) :
    Apart strict false rest vm₀ (protectPage opts vm pp) ∧ (strict = true → opts.rw = true →
        Unshared pages (protectPage opts vm pp)) := by
  rcases protectPage_eq opts vm pp with hsame | ⟨hcow, hset⟩
  · rw [hsame]
    exact ⟨ha, hfew⟩
  rw [hset]
  constructor
  · refine ha.setFlags rfl rfl rfl ?_
    intro hstrict hi hpresent hrw
    cases hold : (vm.entry pp).rw with
    | true => exact .inl rfl
    | false => exact .inr (hfew hstrict hrw pp hpp hi hpresent hold (hcow hpresent hrw))
  intro hstrict hrw qq hqq hi hpresent hro hnocow
  by_cases hsamePage : pageNumber qq = pageNumber pp
  · have hnew : (vm.setEntry pp { vm.entry pp with rw := opts.rw }).entry qq
        = { vm.entry pp with rw := opts.rw } := by
      unfold Vm.entry
      rw [Vm.setEntry_table, hsamePage, update_self]
    rw [hnew] at hro
    cases hrw.symm.trans hro
  · have hkept : (vm.setEntry pp { vm.entry pp with rw := opts.rw }).entry qq = vm.entry qq := by
      unfold Vm.entry
      rw [Vm.setEntry_table, update_of_ne hsamePage]
    rw [hkept] at hpresent hro hnocow ⊢
    exact hfew hstrict hrw qq hqq hi hpresent hro hnocow

/-- The loop over the pages of a region that gets other rights. -/
theorem apart_protect (ha : Apart strict false rest vm₀ vm)
    (hfew : strict = true → opts.rw = true → Unshared pages vm) :
    Apart strict false rest vm₀ (pages.foldl (protectPage opts) vm) := by
  have hloop := List.foldlRecOn pages (protectPage opts)
    (motive := fun vm => Apart strict false rest vm₀ vm ∧
      (strict = true → opts.rw = true → Unshared pages vm)) (b := vm) ⟨ha, hfew⟩
    (fun vm h pp hpp => apart_protectPage hpp h.1 h.2)
  exact hloop.1

end Protect

-- ==== every step

section

variable (hs : Secluded strict s)
include hs

/-- What a running process starts from. -/
theorem running_apart (ht : s.tasks p = some t) (hrun : t.status = .running) :
    Apart strict false (s.restOf p t) (s.view t) (s.view t) := by
  have ha := hs.apart ht
  have hno : decide (t.status = .created) = false := by
    rw [hrun]
    rfl
  rw [hno] at ha
  exact ha

/-- A system call that changes the memory of the process and returns. -/
theorem Secluded.returns (ht : s.tasks p = some t) (hrun : t.status = .running)
    (ha : Apart strict false (s.restOf p t) vm₀ vm)
    (hstart : vm₀.table = (s.view t).table) :
    Secluded strict (s.store p t mm vm) := by
  exact hs.store ht ha hstart rfl (fun _ => le_rfl) (fun h => absurd h (running_busy hrun))

theorem load_sat (image : Image) : Sat (s.load p image) (Secluded strict) Graceful := by
  refine Sat.bind (find_sat s p .created) ?_
  rintro t _ ⟨ht, hstatus⟩
  have ha := hs.apart ht
  rw [show decide (t.status = .created) = true by rw [hstatus]; rfl] at ha
  refine Sat.bind (Loading.loadBinary_sat (l := ⟨t.mm, s.view t⟩)
    apart_loaderRules (fun _ _ _ => trivial) ha) ?_
  rintro ⟨started, l⟩ _ hl
  have hproceed : Sat (s.proceed p { t with status := .running } started l.mm l.vm)
      (Minds strict p s) (· = .fault) :=
    proceed_sat hs ht (hstatus.trans_ne Status.noConfusion) hl rfl rfl
  exact (hproceed.weaken graceful_fault).mono (fun s' h => h.1)

theorem cloneStart_sat : Sat (s.cloneStart p) (Secluded strict) Graceful := by
  refine Sat.bind (find_sat s p .cloned) ?_
  rintro t _ ⟨ht, hstatus⟩
  have ha := hs.apart ht
  rw [show decide (t.status = .created) = false by rw [hstatus]; rfl] at ha
  have hstarted : Apart strict false (s.restOf p t) (s.view t)
      (Loading.cloneStart ⟨t.mm, s.view t⟩).vm := by
    unfold Loading.cloneStart
    split
    · exact ha
    next rgn mm vm h =>
    rw [show vm = _ from (findAndZeroPageRegion_some h).2.2.2]
    exact mapZeroPages_keeps (fun virt _ vm hvm => hvm.mapZeroPage _ virt) ha
  have hproceed : Sat (s.proceed p { t with status := .running } true
      (Loading.cloneStart ⟨t.mm, s.view t⟩).mm
      (Loading.cloneStart ⟨t.mm, s.view t⟩).vm) (Minds strict p s) (· = .fault) :=
    proceed_sat hs ht (hstatus.trans_ne Status.noConfusion) hstarted rfl rfl
  exact Sat.ok hproceed.1

theorem mapregion_sat (size perm : Nat) :
    Sat (s.mapregion p size perm) (Secluded strict) Graceful := by
  refine Sat.bind (find_sat s p .running) ?_
  rintro t _ ⟨ht, hrun⟩
  have ha := running_apart hs ht hrun
  split
  · exact Sat.ok hs
  split
  · exact Sat.ok hs
  next rgn mm vm h =>
  refine Sat.ok (hs.returns ht hrun ?_ rfl)
  rw [show vm = _ from (findAndZeroPageRegion_some h).2.2.2]
  exact mapZeroPages_keeps (fun virt _ vm hvm => hvm.mapZeroPage _ virt) ha

theorem mmap_sat (size : Nat) : Sat (s.mmap p size) (Secluded strict) Graceful := by
  refine Sat.bind (find_sat s p .running) ?_
  rintro t _ ⟨ht, hrun⟩
  have ha := running_apart hs ht hrun
  split
  · exact Sat.ok hs
  next rgn mm vm h =>
  refine Sat.ok (hs.returns ht hrun ?_ rfl)
  rw [show vm = _ from (findAndFileMapRegion_some h).2.2.2]
  exact mapZeroPages_keeps (fun virt _ vm hvm => hvm.mapZeroPage _ virt) ha

theorem unmapregion_sat (address : Nat) :
    Sat (s.unmapregion p address) (Secluded strict) Graceful := by
  refine Sat.bind (find_sat s p .running) ?_
  rintro t _ ⟨ht, hrun⟩
  have ha := running_apart hs ht hrun
  split
  · exact Sat.ok hs
  split
  · exact Sat.ok hs
  next rgn _ =>
  refine Sat.bind (removeRegion_sat (fun virt _ vm hvm => apart_drop hvm virt) ha) ?_
  rintro ⟨mm, vm⟩ _ hvm
  exact Sat.ok (hs.returns ht hrun hvm rfl)

theorem setregionperms_sat (address perm : Nat) (hguard : strict = true →
      s.KeepsApart (.setregionperms p address perm)) :
    Sat (s.setregionperms p address perm) (Secluded strict) Graceful := by
  refine Sat.bind (find_sat s p .running) ?_
  rintro t _ ⟨ht, hrun⟩
  have ha := running_apart hs ht hrun
  split
  · exact Sat.ok hs
  split
  · exact Sat.ok hs
  next region hregion =>
  split
  · exact Sat.ok hs
  next mm vm h =>
  refine Sat.ok (hs.returns ht hrun ?_ rfl)
  unfold protectRegionAtAddress at h
  rw [hregion] at h
  cases h
  exact apart_protect ha (fun hstrict hrw => hguard hstrict hrw t region ht hregion)

/-- An access that reads, or replaces the bytes of a page that may be
written to. -/
theorem accessMemory_sat {vaddr : Nat} {write : Bool} {file : FileRead}
    {effect : Vm → Vm} (heffect : ∀ vm, effect vm = vm ∨ write = true ∧
      ∃ bytes, effect vm = vm.setMemory (vm.entry vaddr).page bytes) :
    Sat (s.accessMemory p vaddr write file effect)
      (fun s' => Secluded strict s' ∧ (strict = true → vaddr < gKernelBase → Unseen p s s'))
      Graceful := by
  refine Sat.bind (find_sat s p .running) ?_
  rintro t _ ⟨ht, hrun⟩
  have ha := running_apart hs ht hrun
  split
  · split
    · exact Sat.error ⟨nofun, nofun, nofun⟩
    · exact Sat.ok ⟨hs, fun _ _ _ _ => ⟨rfl, fun _ _ _ _ _ => rfl⟩⟩
  refine Sat.bind (access_sat (apart_faultRules t.mm vaddr) 3 ha) ?_
  rintro ⟨alive, vm⟩ _ ⟨hvm, hpermits⟩
  cases alive with
  | false =>
    have hproceed : Sat (s.proceed p t false t.mm vm) (Minds strict p s) (· = .fault) :=
      proceed_sat hs ht (running_live hrun) hvm rfl hrun
    exact (hproceed.weaken graceful_fault).mono (fun s' h => ⟨h.1, fun hstrict _ => h.2 hstrict⟩)
  | true =>
    refine Sat.ok ?_
    rcases heffect vm with hsame | ⟨hwrite, bytes, hset⟩
    · rw [hsame]
      exact ⟨hs.returns ht hrun hvm rfl, fun hstrict _ => hs.store_unseen hstrict hvm rfl⟩
    rw [hset]
    refine ⟨hs.returns ht hrun (hvm.setAnyMemory _ _) rfl, ?_⟩
    intro hstrict huser
    -- the entry that let the write through says that the page is its own
    have hallowed := hpermits rfl
    unfold permits at hallowed
    rw [hwrite, Bool.not_true, Bool.or_false, Bool.and_eq_true, Bool.and_eq_true] at hallowed
    exact hs.store_unseen hstrict (hvm.setMemory (pageNumber_user huser).1
      hallowed.1.1 hallowed.2 bytes) rfl

theorem write_sat (vaddr : Nat) (byte : UInt8) (file : FileRead) :
    Sat (step (.write p vaddr byte file) s)
      (fun s' => Secluded strict s' ∧ (strict = true → vaddr < gKernelBase → Unseen p s s'))
      Graceful :=
  accessMemory_sat hs (fun _ => .inr ⟨rfl, _, rfl⟩)

/-- **Every action** keeps the processes apart, or fails gracefully. -/
theorem step_sat (a : MemAction) (hcounts : s.KeepsCounts a)
    (hok : strict = true → s.KeepsApart a) :
    Sat (step a s) (Secluded strict) Graceful := by
  cases a with
  | spawn p => exact spawn_sat hs
  | load p image => exact load_sat hs image
  | clone p q => exact clone_sat hs hcounts
  | cloneStart p => exact cloneStart_sat hs
  | mapregion p size perm => exact mapregion_sat hs size perm
  | mmap p size => exact mmap_sat hs size
  | unmapregion p address => exact unmapregion_sat hs address
  | setregionperms p address perm => exact setregionperms_sat hs address perm hok
  | read p vaddr file =>
    have hread : Sat (s.accessMemory p vaddr false file id)
        (fun s' => Secluded strict s' ∧ (strict = true → vaddr < gKernelBase → Unseen p s s'))
        Graceful := accessMemory_sat hs (fun _ => .inl rfl)
    exact hread.mono (fun s' h => h.1)
  | write p vaddr byte file => exact (write_sat hs vaddr byte file).mono (fun s' h => h.1)
  | exit p =>
    refine Sat.bind (find_sat s p .running) ?_
    rintro t _ ⟨ht, hrun⟩
    exact ((exitTask_sat hs ht (running_live hrun)).weaken graceful_fault).mono (fun s' h => h.1)
  | delete p => exact delete_sat hs

end

-- ==== every run

/-- A machine without processes. -/
theorem Booted.secluded (hb : Booted s) : Secluded strict s := by
  have hheld : ∀ f, s.held f = 0 := by
    intro f
    unfold held
    apply Finset.sum_eq_zero
    intro p _
    rw [hb.none p]
    rfl
  refine ⟨⟨hb.kept, fun i _ _ => hb.backed i, ?_, ?_, ?_, hb.low, hb.high⟩, ?_⟩
  · intro p t ht
    rw [hb.none p] at ht
    cases ht
  · intro p t ht
    rw [hb.none p] at ht
    cases ht
  · intro f
    unfold refs
    rw [hheld]
    exact hb.covered f
  · intro _ p t i ht
    rw [hb.none p] at ht
    cases ht

theorem KeepsApart.counts {a : MemAction} (h : s.KeepsApart a) : s.KeepsCounts a := by
  cases a <;> first | exact h | exact trivial

/-- So they are apart in every run. -/
theorem secluded_of_reach (hb : Booted s₀)
    (h : (memSystem s₀).Reach KeepsApart s) : Secluded true s := by
  refine Machine.Reach.invariant ?_ ?_ h
  · rintro s rfl
    exact hb.secluded
  · intro s s' a hs hok hstep
    exact (step_sat hs a hok.counts (fun _ => hok)).result hstep

/-- The books are kept in any case. -/
theorem books_of_reach (hb : Booted s₀) (h : (memSystem s₀).Reach KeepsCounts s) : Books s := by
  suffices hs : Secluded false s from hs.toBooks
  refine Machine.Reach.invariant ?_ ?_ h
  · rintro s rfl
    exact hb.secluded
  · intro s s' a hs hok hstep
    exact (step_sat hs a hok nofun).result hstep

/-- The invariant keeps every page that is written to for one entry. -/
theorem Secluded.isolated (hs : Secluded true s) : Isolated s := by
  intro p t i q u j ht hi hpresent hrw hu hj hpresent' hpage
  have hone := hs.exclusive rfl p t i ht hi hpresent hrw
  rw [refs_eq (hs.bound p t ht) ht] at hone
  unfold restOf view at hone
  rw [tableRefs_look] at hone
  have hframe : (t.table i).frame = some (index (t.table i).page) :=
    frame_eq_some.2 ⟨hpresent, (hs.task p t ht).owned i hi hpresent, rfl⟩
  have hown : 0 < userRefs t.table (index (t.table i).page) :=
    tally_pos_iff.2 ⟨i, Finset.mem_range.2 hi, hframe⟩
  by_cases hqp : q = p
  · subst hqp
    cases ht.symm.trans hu
    refine ⟨rfl, ?_⟩
    have hframe' : (t.table j).frame = some (index (t.table i).page) :=
      frame_eq_some.2 ⟨hpresent', (hs.task q t ht).owned j hj hpresent', hpage⟩
    exact eq_of_tally_le_one ((hs.task q t ht).single _)
      (Finset.mem_range.2 hi) hframe (Finset.mem_range.2 hj) hframe'
  · have hpos := hs.toBooks.others_pos hqp hu hj hpresent'
    rw [hpage] at hpos
    omega

theorem Unseen.peek (h : Unseen p s s') {addr : Nat} (hq : q ≠ p)
    (haddr : addr < gKernelBase) : s'.peek q addr = s.peek q addr := by
  obtain ⟨htasks, hmemory⟩ := h q hq
  unfold System.peek
  rw [htasks]
  cases hu : s.tasks q with
  | none => rfl
  | some u =>
    dsimp only
    split
    next hpresent => rw [hmemory u hu _ (pageNumber_user haddr).1 hpresent]
    · rfl

/-- And no process sees what another one writes. -/
theorem Secluded.unobserved (hs : Secluded true s) : Unobserved s := by
  intro p vaddr byte file s' huser hstep q hq addr haddr
  have hwrite := (write_sat hs vaddr byte file).result hstep
  exact (hwrite.2 rfl huser).peek hq haddr

-- ==== a page of code that two processes share

/-- The process runs, with its code in place. -/
def hasText (t : Task) : Bool :=
  decide (t.status = .running) && (t.table 0x8048).present &&
    !(t.table 0x8048).rw && !(t.table 0x8048).cow &&
    decide (IntervalList.contains 0x08048000 t.mm.mRegions
      = some { frm := 0x08048000, upto := 0x08048FFF })

theorem plain_hasText : ∃ s, (memSystem plain).run [.spawn 1, .load 1 textImage] plain = .ok s ∧
      (s.roomForClone && (s.tasks 1).any hasText) = true := by
  rw [← Machine.endsWith_iff, Machine.endsWith_cons,
    show (memSystem plain).step (.spawn 1) plain = _ from plain_spawn]
  decide +kernel

/-- A process that has loaded a program clones itself. -/
theorem plain_forks {image : Image}
    (hrun : (memSystem plain).run [.spawn 1, .load 1 image] plain = .ok s)
    (hroom : s.roomForClone = true) (ht : s.tasks 1 = some t)
    (hstatus : t.status = .running) :
    ∃ s₁ t₁ u, (memSystem plain).Reach KeepsApart s₁ ∧
      Forked s 1 2 t s₁ t₁ u ∧ Roomy s₁.pmm (s.pmm.mFreePages - 774) := by
  have hreach : (memSystem plain).Reach KeepsApart s := by
    refine Machine.Reach.run (.boot rfl) (Machine.guarded_of_forall ?_ _) hrun
    intro a ha s
    simp only [List.mem_cons, List.not_mem_nil, or_false] at ha
    rcases ha with rfl | rfl <;> trivial
  have hs := secluded_of_reach plain_booted hreach
  obtain ⟨s₁, t₁, u, hclone, hfork, hroom'⟩ := clone_of_roomForClone hs.toBooks ht hstatus hroom
  have hfull : s.KeepsApart (.clone 1 2) := by
    intro t' _ i _ _
    exact refcnt_of_roomForClone hs.kept hroom _
  exact ⟨s₁, t₁, u, .step (.clone 1 2) hreach hfull hclone, hfork, hroom'⟩

theorem plain_forked : ∃ s t s₁ t₁ u, hasText t = true ∧
    (memSystem plain).Reach KeepsApart s₁ ∧ Forked s 1 2 t s₁ t₁ u := by
  obtain ⟨s, hrun, htest⟩ := plain_hasText
  rw [Bool.and_eq_true, Option.any_eq_true] at htest
  obtain ⟨hroom, t, ht, htext⟩ := htest
  have hstatus : t.status = .running := by
    unfold hasText at htext
    simp only [Bool.and_eq_true, decide_eq_true_eq] at htext
    exact htext.1.1.1.1
  obtain ⟨s₁, t₁, u, hreach, hfork, _⟩ := plain_forks hrun hroom ht hstatus
  exact ⟨s, t, s₁, t₁, u, htext, hreach, hfork⟩

/-- The one page of a region has another right to write, and so has the
region. -/
structure Reset (s : System) (p : Nat) (t : Task) (s' : System) (t' : Task)
    (frm : Nat) (opts : MapOptions) (rw : Bool) : Prop where
  task : s'.tasks p = some t'
  status : t'.status = .running
  entry : t'.table (pageNumber frm) = { t.table (pageNumber frm) with rw := rw }
  regions : t'.mm.mRegions = setPermission { frm := frm, upto := frm + 0xFFF, permission := opts }
    { opts with rw := rw } t.mm.mRegions
  pmm : s'.pmm = s.pmm
  others : ∀ q ≠ p, s'.tasks q = s.tasks q

/-- A region of one page, which has memory, gets another right to write. -/
theorem setregionperms_page {frm perm : Nat} {opts : MapOptions}
    (ht : s.tasks p = some t) (hrun : t.status = .running)
    (huser : frm < gKernelBase) (hnull : page frm ≠ 0)
    (hrgn : IntervalList.contains frm t.mm.mRegions
      = some { frm := frm, upto := frm + 0xFFF, permission := opts })
    (hpresent : (t.table (pageNumber frm)).present = true)
    (hkeep : allowsWrite perm = true → (t.table (pageNumber frm)).cow = false) :
    ∃ s' t', s.setregionperms p frm perm = .ok s' ∧
      Reset s p t s' t' frm opts (allowsWrite perm) := by
  have hkernel : ¬ iskernel frm = true := by
    rw [show iskernel frm = false from decide_eq_false (by omega)]
    exact Bool.false_ne_true
  have hwithin : t.mm.isWithinRegion (s.view t) frm
      = some { frm := frm, upto := frm + 0xFFF, permission := opts } := by
    unfold isWithinRegion
    rw [if_neg hnull, if_neg hkernel]
    exact hrgn
  have hpages : Vm.pagesUpto frm (frm + 0xFFF) = [frm] := by
    unfold Vm.pagesUpto
    have hone : (frm + 0xFFF + gPageSize - frm) / gPageSize = 1 := by
      show (frm + 0xFFF + 0x1000 - frm) / 0x1000 = 1
      omega
    rw [hone]
    simp
  have hentry : (s.view t).entry frm = t.table (pageNumber frm) :=
    look_user (pageNumber_user huser).1
  have hprotect := @protectPage_present { opts with rw := allowsWrite perm }
    (s.view t) frm (by rw [hentry]; exact hpresent)
    (by rw [hentry]; exact hkeep)
  have hset : s.setregionperms p frm perm = .ok (s.store p t
      { t.mm with
        mRegions := setPermission { frm := frm, upto := frm + 0xFFF, permission := opts }
          { opts with rw := allowsWrite perm } t.mm.mRegions }
      ((s.view t).setEntry frm { t.table (pageNumber frm) with rw := allowsWrite perm })) := by
    unfold setregionperms find
    rw [ht]
    dsimp only
    rw [if_pos hrun, bind_ok, if_neg hkernel, hwithin]
    unfold protectRegionAtAddress
    rw [hwithin]
    dsimp only
    rw [hpages, List.foldl_cons, List.foldl_nil, hprotect, hentry]
  exact ⟨_, _, hset, store_self, hrun, update_self _ _ _, rfl, rfl, fun q hq => store_other hq⟩

-- ==== the result

end System

end Puppy.Mm
