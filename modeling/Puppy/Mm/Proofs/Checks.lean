/-
When `vmcheckreadable` and `vmcheckwritable` tell the truth.

Two lemmas do the work. The loop over the pages comes to "every entry shows
the right" (`vmcheck_eq`), unless the range wraps around, where it is over
before it has begun. And an access goes through exactly where the process is
admitted (`grants_iff`). The rest compares the two.
-/
import Puppy.Mm.Checks
import Puppy.Mm.Proofs.Duplication

namespace Puppy.Mm

open Libc Lib PageFault TableEntry

-- ==== the loop

section Loop

variable {checkf : Nat → Bool}

/-- The loop looks at every page up to the last one. Were that the last of
the address space, it would have to be refused. -/
theorem checkPages_spec {j : Nat} (hlast : checkf 0xFFFFF000 = false) (hj : j < gNumPages) :
    ∀ fuel i, i ≤ j → j + 2 ≤ i + fuel →
      ∃ ok, checkPages checkf (j * gPageSize) fuel (i * gPageSize) = some ok ∧
        (ok = true ↔ ∀ q, i ≤ q → q ≤ j → checkf (q * gPageSize) = true) := by
  intro fuel
  induction fuel with
  | zero =>
    intro i _ hfuel
    omega
  | succ fuel ih =>
    intro i hi hfuel
    rw [checkPages, if_pos (Nat.mul_le_mul_right _ hi)]
    cases hcheck : checkf (i * gPageSize) with
    | false => exact ⟨false, rfl, nofun, fun hall => hcheck ▸ hall i le_rfl hi⟩
    | true =>
      have hroom : i * gPageSize + gPageSize < 0x100000000 := by
        by_contra hfull
        have hend : i * gPageSize = 0xFFFFF000 := by
          unfold gPageSize gNumPages at *
          omega
        rw [hend, hlast] at hcheck
        cases hcheck
      rw [if_pos rfl, add32_of_lt hroom, ← Nat.succ_mul]
      rcases Nat.eq_or_lt_of_le hi with rfl | hlt
      · obtain ⟨fuel, rfl⟩ : ∃ m, fuel = m + 1 := ⟨fuel - 1, by omega⟩
        rw [checkPages, if_neg (by unfold gPageSize; omega)]
        exact ⟨true, rfl, fun _ q h₁ h₂ => le_antisymm h₁ h₂ ▸ hcheck, fun _ => rfl⟩
      obtain ⟨ok, hok, hall⟩ := ih (i + 1) hlt (by omega)
      refine ⟨ok, hok, hall.trans ⟨fun h q h₁ h₂ => ?_, fun h q h₁ h₂ => h q (by omega) h₂⟩⟩
      rcases Nat.eq_or_lt_of_le h₁ with rfl | h₁
      · exact hcheck
      · exact h q h₁ h₂

/-- A range that does not wrap around: every page of it is looked at. -/
theorem checkPageRange_whole {address sz : Nat} (hpage : ∀ a, checkf (page a) = checkf a)
    (hlast : checkf 0xFFFFF000 = false) (hsz : 0 < sz)
    (hwhole : address + sz ≤ 0x100000000) :
    ∃ ok, checkPageRange address sz checkf = some ok ∧
      (ok = true ↔ ∀ k < sz, checkf (address + k) = true) := by
  have hstop : sub32 (add32 address sz) 1 = address + sz - 1 := by
    unfold sub32 add32
    omega
  have hnum : ∀ a, page a = index a * gPageSize := by
    intro a
    unfold page index gPageSize
    omega
  have hle : index address ≤ index (address + sz - 1) := Nat.div_le_div_right (by omega)
  have hpages : (∀ q, index address ≤ q → q ≤ index (address + sz - 1) →
      checkf (q * gPageSize) = true) ↔ ∀ k < sz, checkf (address + k) = true := by
    constructor
    · intro hall k hk
      rw [← hpage, hnum]
      exact hall _ (Nat.div_le_div_right (by omega)) (Nat.div_le_div_right (by omega))
    intro hall q h₁ h₂
    -- the first byte of the range that is on this page
    have hmid : page (address + (q * gPageSize - address)) = q * gPageSize := by
      unfold page index gPageSize at *
      omega
    rw [← hmid, hpage]
    refine hall _ ?_
    unfold index gPageSize at *
    omega
  unfold checkPageRange isSamePage
  rw [hstop, hnum, hnum]
  by_cases hsame : index address * gPageSize = index (address + sz - 1) * gPageSize
  · rw [if_pos (decide_eq_true hsame)]
    have heq := Nat.eq_of_mul_eq_mul_right (by decide) hsame
    refine ⟨_, rfl, Iff.trans ?_ hpages⟩
    rw [← heq]
    exact ⟨fun h q h₁ h₂ => le_antisymm h₁ h₂ ▸ h, fun h => h _ le_rfl le_rfl⟩
  rw [if_neg (by rw [decide_eq_true_eq]; exact hsame)]
  have htop : index (address + sz - 1) < gNumPages := by
    unfold index gPageSize gNumPages
    omega
  obtain ⟨ok, hok, hall⟩ := checkPages_spec hlast htop (gNumPages + 1) _ hle (by omega)
  exact ⟨ok, hok, hall.trans hpages⟩

/-- A range that does: unless it comes back to its first page, nothing is
looked at. -/
theorem checkPageRange_wrapped {address sz : Nat} (hpage : ∀ a, checkf (page a) = checkf a)
    (haddr : address < 0x100000000) (hsz : sz < 0x100000000)
    (hwraps : 0x100000000 < address + sz) :
    checkPageRange address sz checkf = some
      (if page address = page (address + sz - 1 - 0x100000000) then
        checkf address else true) := by
  have hstop : sub32 (add32 address sz) 1 = address + sz - 1 - 0x100000000 := by
    unfold sub32 add32
    omega
  unfold checkPageRange isSamePage
  rw [hstop]
  by_cases hsame : page address = page (address + sz - 1 - 0x100000000)
  · rw [if_pos (decide_eq_true hsame), if_pos hsame, hpage]
  rw [if_neg (by rw [decide_eq_true_eq]; exact hsame), if_neg hsame, checkPages, if_neg]
  unfold page gPageSize at *
  omega

end Loop

-- ==== the entries

theorem Vm.isPageReadable_eq (vm : Vm) (pg : Nat) :
    vm.isPageReadable pg = (vm.entry pg).shown false := by
  unfold Vm.isPageReadable Vm.mapped Vm.zeroPageMapped shown
  cases hpresent : (vm.entry pg).present <;> cases hcow : (vm.entry pg).cow <;> simp [options]

theorem Vm.isPageWritable_eq (vm : Vm) (pg : Nat) :
    vm.isPageWritable pg = (vm.entry pg).shown true := by
  unfold Vm.isPageWritable Vm.mapped Vm.zeroPageMapped shown
  cases hpresent : (vm.entry pg).present <;> cases hcow : (vm.entry pg).cow <;> simp [options]

namespace System

variable {s : System} {t : Task} {p vaddr : Nat} {write : Bool}
  {file : Nat → FileRead} {address sz : Nat}

theorem vmcheck_eq (s : System) (t : Task) (write : Bool) (address sz : Nat) :
    s.vmcheck t write address sz = checkPageRange address sz (s.shows t write) := by
  unfold vmcheck Vm.vmcheckwritable Vm.vmcheckreadable
  cases write with
  | false =>
    rw [if_neg Bool.false_ne_true]
    congr 1
    funext pg
    exact Vm.isPageReadable_eq _ _
  | true =>
    rw [if_pos rfl]
    congr 1
    funext pg
    exact Vm.isPageWritable_eq _ _

theorem shows_page (a : Nat) : s.shows t write (page a) = s.shows t write a := by
  unfold shows
  rw [Vm.entry_page]

end System

-- ==== accesses

section Access

variable {mm : MemoryManager} {vm : Vm} {vaddr : Nat} {write : Bool} {file : FileRead}

/-- Without memory, no fault can be recovered from. -/
theorem pagefltHandler_full (hfull : vm.pmm.alloc = none) :
    Sat (pagefltHandler mm vm vaddr write file) (fun r => r.1 = false) (fun _ => True) := by
  have hmap : ∀ opts, (vm.entry vaddr).present = false →
      vm.mapAnyPhysicalPage (page vaddr) opts = .error .resultOfFailure := by
    intro opts habsent
    unfold Vm.mapAnyPhysicalPage
    rw [Vm.entry_page, habsent, if_neg Bool.false_ne_true, hfull]
  unfold pagefltHandler
  split
  next hzero =>
    have habsent : (vm.entry vaddr).present = false := by
      unfold Vm.isZeroPageAccess at hzero
      rw [Bool.and_eq_true, Bool.not_eq_true'] at hzero
      exact hzero.2
    unfold zeropageRecover
    split
    · exact Sat.ok rfl
    next r _ =>
    split
    next size _ =>
      unfold mmapFaultRecover
      split
      · exact Sat.ok rfl
      cases file with
      | noSeek => exact Sat.ok rfl
      | nothing =>
        rw [hmap _ habsent]
        exact Sat.error trivial
      | bytes content =>
        rw [hmap _ habsent]
        exact Sat.error trivial
    · rw [hmap _ habsent]
      exact Sat.error trivial
  · split
    · unfold cowRecover
      split
      · exact Sat.ok rfl
      next opts _ =>
      have hclone : vm.clonePage vaddr opts = .ok none := by
        unfold Vm.clonePage
        rw [hfull]
      rw [hclone, bind_ok]
      exact Sat.ok rfl
    · exact Sat.ok rfl

/-- Then only the rights that are there count. -/
theorem outcome_full (hfull : vm.pmm.alloc = none) :
    (∃ byte, outcome mm vm vaddr write file = .ok (some byte)) ↔
      permits (vm.entry vaddr) write = true := by
  constructor
  · rintro ⟨byte, hout⟩
    by_contra hdenied
    rw [Bool.not_eq_true] at hdenied
    cases hfault : pagefltHandler mm vm vaddr write file with
    | error e =>
      unfold outcome userAccess at hout
      rw [access, if_neg (Bool.not_eq_true _ ▸ hdenied), hfault] at hout
      cases hout
    | ok r =>
      obtain ⟨again, vm'⟩ := r
      have hdead : again = false := (pagefltHandler_full hfull).result hfault
      rw [hdead] at hfault
      rw [outcome_dead (access_killed hdenied hfault)] at hout
      cases hout
  · intro h
    exact ⟨_, outcome_alive (access_permitted h)⟩

section

variable (room : Bool) (e : TableEntry) (region : Option Region) (vaddr : Nat) (write : Bool)
  (file : FileRead)

/-- With memory, what an access comes to is whether there is a byte. -/
theorem admits_eq_expected (byte : UInt8) :
    admits true e region vaddr write file = (expected e region byte vaddr write file).isSome := by
  unfold admits granted expected
  cases e.present with
  | true =>
    rw [if_pos rfl, if_pos rfl, Bool.and_true]
    split <;> simp_all
  | false =>
    rw [if_neg Bool.false_ne_true, if_neg Bool.false_ne_true, Bool.true_and]
    cases region with
    | none => rfl
    | some r =>
      dsimp only
      rcases hdata : r.mmap_data with _ | _ | size
      · dsimp only
        split <;> simp_all
      · dsimp only
        split <;> simp_all
      cases file with
      | noSeek => rw [Bool.and_false]; rfl
      | nothing => rw [Bool.and_false]; rfl
      | bytes content =>
        dsimp only
        split
        next h => simp [h.1, h.2.1, h.2.2]
        next h =>
        rw [Option.isSome_none, ← Bool.not_eq_true]
        intro hand
        simp only [Bool.and_eq_true, decide_eq_true_eq] at hand
        exact h ⟨hand.2.2, hand.2.1, hand.1⟩

/-- Without, only the rights that are there count. -/
theorem admits_eq_permits :
    admits false e region vaddr write file = permits e write := by
  unfold admits granted permits
  cases e.present with
  | true => rw [if_pos rfl, Bool.and_false, Bool.or_false, Bool.true_and]
  | false => rw [if_neg Bool.false_ne_true, Bool.false_and, Bool.false_and, Bool.false_and]

/-- The entry shows the right exactly in two of the classes. -/
theorem shown_iff_class :
    e.shown write = true ↔ pageClass room e region vaddr write file = .openly ∨
      pageClass room e region vaddr write file = .hollow := by
  unfold shown pageClass
  cases e.present <;> grind

/-- And a process is admitted in two of them. -/
theorem admits_iff_class :
    admits room e region vaddr write file = true ↔
      pageClass room e region vaddr write file = .openly ∨
        pageClass room e region vaddr write file = .hidden := by
  unfold admits pageClass
  cases e.present <;> grind

end

/-- Nothing of the kernel's regions is for processes. -/
theorem isWithinRegion_kernel {r : Region} (hv : gKernelBase ≤ vaddr)
    (h : mm.isWithinRegion vm vaddr = some r) :
    r.permission.user = false ∧ r.Clean := by
  unfold MemoryManager.isWithinRegion at h
  rw [show iskernel vaddr = true from decide_eq_true hv, if_pos rfl] at h
  obtain ⟨_, h⟩ := Option.ite_none_left_eq_some.1 h
  split at h
  · cases h
    exact ⟨rfl, clean_unchecked _ _⟩
  · cases h

/-- Nor is anything of its half that has no memory. -/
theorem admits_kernel {room : Bool} (hv : gKernelBase ≤ vaddr)
    (habsent : (vm.entry vaddr).present = false) :
    admits room (vm.entry vaddr) (mm.isWithinRegion vm vaddr) vaddr write file = false := by
  unfold admits granted
  rw [habsent, if_neg Bool.false_ne_true]
  cases hr : mm.isWithinRegion vm vaddr with
  | none => rw [Bool.and_false]
  | some r =>
    dsimp only
    rw [(isWithinRegion_kernel hv hr).1, Bool.false_and, Bool.and_false]

/-- An entry that is not present and points somewhere is no fault that can
be recovered from. -/
theorem pagefltHandler_lost (habsent : (vm.entry vaddr).present = false)
    (hpage : (vm.entry vaddr).page ≠ 0) :
    pagefltHandler mm vm vaddr write file = .ok (false, vm) := by
  unfold pagefltHandler Vm.isZeroPageAccess Vm.isCOWAccess
  rw [habsent, decide_eq_false hpage, Bool.false_and,
    if_neg Bool.false_ne_true, Bool.false_and, Bool.false_and, Bool.false_and,
    if_neg Bool.false_ne_true]

end Access

namespace System

variable {s : System} {t : Task} {p vaddr : Nat} {write : Bool}
  {file : Nat → FileRead} {address sz : Nat}

/-- An access goes through exactly where the process is admitted. -/
theorem grants_iff (hs : Books s) (ht : s.tasks p = some t)
    (horderly : Orderly t) (hlive : t.status ≠ .exited) :
    s.Grants t vaddr write (file vaddr) ↔ s.admitted t write file vaddr = true := by
  unfold Grants System.outcome admitted
  cases halloc : s.pmm.alloc with
  | none =>
    rw [Option.isSome_none, admits_eq_permits]
    exact outcome_full halloc
  | some x =>
    have hroom : (s.view t).pmm.alloc ≠ none := by
      rw [show (s.view t).pmm = s.pmm from rfl, halloc]
      exact Option.some_ne_none _
    have hheld := (hs.accounts ht).held vaddr
    rw [Option.isSome_some]
    by_cases hlost : ((s.view t).entry vaddr).present = false ∧ ((s.view t).entry vaddr).page ≠ 0
    · -- an entry of the kernel's half that is not for a fault to fill
      obtain ⟨habsent, hpage⟩ := hlost
      have hkernel : gKernelBase ≤ vaddr := by
        by_contra hv
        have hi := (pageNumber_user (Nat.not_le.1 hv)).1
        have hsame : (s.view t).entry vaddr = t.table (pageNumber vaddr) := look_user hi
        rw [hsame] at habsent hpage
        exact hpage (horderly.tidy _ hi habsent)
      rw [admits_kernel hkernel habsent, outcome_dead (access_killed (absent_refused habsent)
          (pagefltHandler_lost habsent hpage))]
      exact ⟨fun ⟨_, h⟩ => (by cases h), nofun⟩
    have hfill : ((s.view t).entry vaddr).present = false → ((s.view t).entry vaddr).page = 0 :=
      fun habsent => not_not.1 (fun hpage => hlost ⟨habsent, hpage⟩)
    rw [outcome_eq hheld hroom hfill ?_, admits_eq_expected _ _ _ _ _
      ((s.view t).memory (index ((s.view t).entry vaddr).page)
        (offset vaddr)), Option.isSome_iff_exists]
    · exact ⟨fun ⟨byte, h⟩ => ⟨byte, Except.ok.inj h⟩, fun ⟨byte, h⟩ => ⟨byte, congrArg _ h⟩⟩
    intro r hr
    by_cases hv : vaddr < gKernelBase
    · have hfound := isWithinRegion_user (iskernel_eq_false hv) hr
      exact horderly.clean hlive r (IntervalList.contains_some hfound).1
    · exact (isWithinRegion_kernel (Nat.not_lt.1 hv) hr).2

/-- The entries show the right everywhere exactly if it is there everywhere,
unless pages are hidden and none is hollow, or the other way round, and none
is barred. -/
theorem all_iff_candid {n : Nat} {c : Nat → PageClass} :
    ((∀ k < n, c k = .openly ∨ c k = .hollow) ↔ ∀ k < n, c k = .openly ∨ c k = .hidden) ↔
      (∃ k < n, c k = .barred) ∨ ((∃ k < n, c k = .hidden) ↔ ∃ k < n, c k = .hollow) := by
  by_cases hbarred : ∃ k < n, c k = .barred
  · obtain ⟨k, hk, hck⟩ := hbarred
    have hnot : ∀ {x}, x ≠ .barred → ¬ ∀ k < n, c k = .openly ∨ c k = x := by
      intro x hx hall
      have hopen := hall k hk
      rw [hck] at hopen
      exact hopen.elim PageClass.noConfusion (fun h => hx h.symm)
    exact iff_of_true (iff_of_false (hnot (by decide)) (hnot (by decide))) (.inl ⟨k, hk, hck⟩)
  -- nothing is barred, so a right that is not shown is hidden, and one that is not there hollow
  have hshown : ∀ x : PageClass, x ≠ .barred → (x = .openly ∨ x = .hollow ↔ x ≠ .hidden) := by
    rintro ⟨⟩ <;> decide
  have hthere : ∀ x : PageClass, x ≠ .barred → (x = .openly ∨ x = .hidden ↔ x ≠ .hollow) := by
    rintro ⟨⟩ <;> decide
  have hnone : ∀ k < n, c k ≠ .barred := fun k hk h => hbarred ⟨k, hk, h⟩
  rw [forall₂_congr fun k hk => hshown _ (hnone k hk),
    forall₂_congr fun k hk => hthere _ (hnone k hk)]
  rw [or_iff_right hbarred, ← not_iff_not (a := ∃ k < n, c k = .hidden)]
  simp only [not_exists, not_and]

/-- The system calls tell the truth about a range exactly when its entries
are candid. -/
theorem tellsTruth_iff_candid {s₀ : System} (hb : Booted s₀)
    (h : (memSystem s₀).Reach KeepsCounts s) (ht : s.tasks p = some t)
    (hrun : t.status = .running)
    (hlast : ((s.view t).entry 0xFFFFF000).user = false)
    (haddr : address < 0x100000000) (hsz : 0 < sz)
    (hword : sz < 0x100000000) :
    s.TellsTruth t write file address sz ↔ s.Candid t write file address sz := by
  have hbooks := books_of_reach hb h
  have horderly := orderly_of_reach hb h p t ht
  have hgrants : ∀ a, s.Grants t a write (file a) ↔ s.admitted t write file a = true :=
    fun a => grants_iff hbooks ht horderly (running_live hrun)
  have hpage : ∀ a, s.shows t write (page a) = s.shows t write a := shows_page
  have hclosed : s.shows t write 0xFFFFF000 = false := by
    unfold shows shown
    rw [hlast, Bool.and_false, Bool.false_and]
  unfold TellsTruth Candid
  rw [vmcheck_eq]
  by_cases hwhole : address + sz ≤ 0x100000000
  · rw [if_pos hwhole]
    obtain ⟨ok, hok, hall⟩ := checkPageRange_whole hpage hclosed hsz hwhole
    have hshows : ∀ a, s.shows t write a = true ↔ s.classOf t write file a = .openly ∨
        s.classOf t write file a = .hollow := fun a => shown_iff_class ..
    have hadmits : ∀ a, s.admitted t write file a = true ↔ s.classOf t write file a = .openly ∨
        s.classOf t write file a = .hidden := fun a => admits_iff_class ..
    simp only [hshows] at hall
    simp only [hadmits] at hgrants
    rw [hok]
    simp only [Option.some.injEq, exists_eq_left']
    rw [hall, and_iff_right hwhole, forall₂_congr fun k _ => hgrants _]
    exact all_iff_candid
  · rw [if_neg hwhole, checkPageRange_wrapped hpage haddr hword (by omega)]
    -- such a range must not be called accessible
    simp only [Option.some.injEq, exists_eq_left']
    refine (iff_false_right fun h => hwhole h.1).trans ?_
    by_cases hsame : page address = page (address + sz - 1 - 0x100000000)
    · rw [if_pos hsame, and_iff_right hsame, Bool.not_eq_true]
    · rw [if_neg hsame]
      exact iff_of_false (fun h => h rfl) (fun h => hsame h.1)

-- ==== a page of data, before and after a clone

/-- The last page of the address space is not for processes. -/
theorem plain_closed : ∃ s, (memSystem plain).run [.spawn 1, .load 1 dataImage] plain = .ok s ∧
      (!(s.kernel 0xFFFFF).user && (s.tasks 1).any hasData) = true := by
  rw [← Machine.endsWith_iff, Machine.endsWith_cons,
    show (memSystem plain).step (.spawn 1) plain = _ from plain_spawn]
  decide +kernel

/-- A page that is there and writable. -/
theorem tellsTruth_iff_candid_data : plain.Booted ∧
    ∃ s t, (memSystem plain).Reach KeepsCounts s ∧ s.tasks 1 = some t ∧
      t.status = .running ∧ ((s.view t).entry 0xFFFFF000).user = false ∧
      s.Candid t true (fun _ => .noSeek) 0x08048000 1 ∧
      s.TellsTruth t true (fun _ => .noSeek) 0x08048000 1 := by
  obtain ⟨s, hrun, htest⟩ := plain_closed
  rw [Bool.and_eq_true, Bool.not_eq_true', Option.any_eq_true] at htest
  obtain ⟨hclosed, t, ht, hdata⟩ := htest
  obtain ⟨hstatus, hpresent, hrw, hown, _⟩ := hasData_iff.1 hdata
  have hreach : (memSystem plain).Reach KeepsCounts s := reach_loaded hrun
  have hlast : ((s.view t).entry 0xFFFFF000).user = false := by
    rw [Vm.entry, show pageNumber 0xFFFFF000 = 0xFFFFF by decide, view,
      look_kernel (by decide)]
    exact hclosed
  have hentry : (s.view t).entry 0x08048000 = t.table 0x8048 :=
    look_user (show pageNumber 0x08048000 < gNumUserPages by decide)
  have hcandid : s.Candid t true (fun _ => .noSeek) 0x08048000 1 := by
    unfold Candid
    rw [if_pos (by decide)]
    have hopen : ∀ k < 1, s.classOf t true (fun _ => .noSeek) (0x08048000 + k) = .openly := by
      intro k hk
      rw [show k = 0 by omega, add_zero]
      unfold classOf pageClass
      rw [hentry, hpresent, hrw, hown]
      rfl
    right
    constructor
    all_goals
      rintro ⟨k, hk, hclass⟩
      cases (hopen k hk).symm.trans hclass
  exact ⟨plain_booted, s, t, hreach, ht, hstatus, hlast, hcandid,
    (tellsTruth_iff_candid plain_booted hreach ht hstatus hlast (by decide)
      (by decide) (by decide)).2 hcandid⟩

/-- The same page after a clone: the process can still write to it, and
`vmcheckwritable` says that it cannot. -/
theorem plain_not_tellsTruth : plain.Booted ∧
    ∃ s t, (memSystem plain).Reach Machine.anyStep s ∧ s.tasks 1 = some t ∧ t.status = .running ∧
      ¬ s.TellsTruth t true (fun _ => .noSeek) 0x08048000 1 := by
  refine ⟨plain_booted, ?_⟩
  obtain ⟨s, t, hrun, hroom, ht, hdata, hfree⟩ := plain_hasData
  obtain ⟨hstatus, hpresent, hrw, hown, _⟩ := hasData_iff.1 hdata
  obtain ⟨s₁, t₁, u, hreach, hfork, hroom₁⟩ := plain_forks hrun hroom ht hstatus
  have hbooks := (secluded_of_reach plain_booted hreach).toBooks
  refine ⟨s₁, t₁, hreach.mono (fun _ _ _ => trivial), hfork.parent, hfork.status, ?_⟩
  have hentry : (s₁.view t₁).entry 0x08048000
      = { t.table 0x8048 with cow := true, rw := false } := by
    have hshared := hfork.mine 0x8048 (by decide) hpresent
    unfold shared at hshared
    rw [if_pos hrw] at hshared
    exact (look_user (show pageNumber 0x08048000 < gNumUserPages by decide)).trans hshared
  rintro ⟨ok, hcheck, htruth⟩
  have hanswer : s₁.vmcheck t₁ true 0x08048000 1 = some false := by
    rw [vmcheck_eq]
    unfold checkPageRange
    rw [if_pos (by decide), shows_page]
    unfold shows shown
    rw [hentry]
    simp
  have hwrites : s₁.Grants t₁ 0x08048000 true .noSeek := by
    have hmemory : (s₁.view t₁).pmm.alloc ≠ none := by
      rw [show s.pmm.mFreePages - 774 = s.pmm.mFreePages - 775 + 1 by omega] at hroom₁
      obtain ⟨_, _, halloc, _⟩ := hroom₁.alloc
      rw [show (s₁.view t₁).pmm = s₁.pmm from rfl, halloc]
      exact Option.some_ne_none _
    refine ⟨_, (outcome_present ((hbooks.accounts hfork.parent).held _)
      hmemory (by rw [hentry]; exact hpresent)).trans
      (congrArg _ (if_pos ?_))⟩
    rw [hentry]
    rw [hown]
    rfl
  rw [hanswer] at hcheck
  injection hcheck with hcheck
  rw [← hcheck] at htruth
  have hyes := htruth.2 ⟨by decide, fun k hk => by
    rw [show k = 0 by omega]
    exact hwrites⟩
  cases hyes

end System

end Puppy.Mm
