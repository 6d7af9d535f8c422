/-
What an access comes to, in one equation.

The processor tries, the handler maps or copies, the processor tries again.
All of that depends on three things only: the entry of the page, the region
of the address, and the bytes of the frame that is mapped (`expected`,
`outcome_eq`). Nothing in it depends on which frame it is, and where the
entry is absent, on nothing else of the entry. That is what makes two page
tables comparable that have little in common.

The equation needs memory to be left, and regions whose pages come with
known bytes (`Region.Clean`).
-/
import Puppy.Mm.Access
import Puppy.Mm.Proofs.View

namespace Puppy.Mm

open Libc Lib PageFault Function

/-- The pages of the region are not copied before they are there, and if
the process can use them, they come with zeros or with the bytes of a
file. -/
def Region.Clean (r : Region) : Prop :=
  r.permission.cow = false ∧ (r.permission.user = true →
      r.permission.clear = true ∨ ∃ n, r.mmap_data = some (n + 1))

/-- What an access comes to, given the entry of the page, the region of the
address and the byte of the frame. -/
def expected (e : TableEntry) (region : Option Region) (byte : UInt8)
    (vaddr : Nat) (write : Bool) (file : FileRead) : Option UInt8 :=
  if e.present then
    if e.user && (e.rw || e.cow || !write) then some byte else none
  else
    match region with
    | none => none
    | some r =>
      match r.mmap_data with
      | some (size + 1) =>
        match file with
        | .bytes content =>
          if vaddr - r.frm ≤ size + 1 ∧ r.permission.rw = true ∧ r.permission.user = true then
            some (content (offset vaddr))
          else none
        | _ => none
      | _ =>
        if r.permission.user && (r.permission.rw || !write) then some 0
        else none

-- ==== one try

section Try

variable {mm : MemoryManager} {vm vm' : Vm} {vaddr n : Nat} {write : Bool} {file : FileRead}

theorem access_permitted (h : permits (vm.entry vaddr) write = true) :
    access mm vaddr write file (n + 1) vm = .ok (true, vm) := if_pos h

theorem access_again (h : permits (vm.entry vaddr) write = false)
    (hfault : pagefltHandler mm vm vaddr write file = .ok (true, vm')) :
    access mm vaddr write file (n + 1) vm = access mm vaddr write file n vm' := by
  rw [access, if_neg (Bool.not_eq_true _ ▸ h), hfault, bind_ok]
  exact if_pos rfl

theorem access_killed (h : permits (vm.entry vaddr) write = false)
    (hfault : pagefltHandler mm vm vaddr write file = .ok (false, vm')) :
    access mm vaddr write file (n + 1) vm = .ok (false, vm') := by
  rw [access, if_neg (Bool.not_eq_true _ ▸ h), hfault, bind_ok]
  exact if_neg Bool.false_ne_true

/-- A page that is there and does not wait to be copied is no fault that can
be recovered from. -/
theorem pagefltHandler_present (h : (vm.entry vaddr).present = true)
    (hcow : ((vm.entry vaddr).rw || !(vm.entry vaddr).cow || !write) = true) :
    pagefltHandler mm vm vaddr write file = .ok (false, vm) := by
  have hzero : vm.isZeroPageAccess vaddr = false := by
    unfold Vm.isZeroPageAccess
    rw [h, Bool.not_true, Bool.and_false]
  have hcopy : vm.isCOWAccess write vaddr = false := by
    unfold Vm.isCOWAccess
    rw [h, Bool.true_and]
    revert hcow
    cases (vm.entry vaddr).rw <;> cases (vm.entry vaddr).cow <;> cases write <;> decide
  unfold pagefltHandler
  rw [hzero, if_neg Bool.false_ne_true, hcopy, if_neg Bool.false_ne_true]

/-- A page that waits to be copied is copied. -/
theorem cowRecover_copies (hheld : vm.Held (vm.entry vaddr)) (hroom : vm.pmm.alloc ≠ none)
    (hpresent : (vm.entry vaddr).present = true) :
    ∃ vm', cowRecover vm vaddr = .ok (true, vm') ∧
      (vm'.entry vaddr).present = true ∧ (vm'.entry vaddr).rw = true ∧
      (vm'.entry vaddr).user = (vm.entry vaddr).user ∧
      vm'.view vaddr = vm.memory (index (vm.entry vaddr).page) (offset vaddr) := by
  unfold cowRecover Vm.mapped
  rw [if_pos hpresent]
  dsimp only
  rcases Vm.clonePage_of_held ((vm.entry vaddr).options {}) hheld with
    ⟨hnone, _⟩ | ⟨idx, vm', hsome, hcopied⟩
  · exact absurd hnone hroom
  refine ⟨vm', by rw [hsome, bind_ok], ?_⟩
  have hentry : vm'.entry vaddr = .mapping (gPageSize * idx)
      { (vm.entry vaddr).options {} with
        frompmm := true, cow := false, rw := true } := by
    unfold Vm.entry
    rw [hcopied.table, update_self]
    rfl
  have hcopy := hcopied.copy rfl
  unfold Vm.view
  rw [hentry]
  refine ⟨rfl, rfl, rfl, ?_⟩
  show vm'.memory (index (gPageSize * idx)) (offset vaddr) = _
  rw [index_mul, hcopy]

/-- A page that is not there gets memory. -/
theorem mapAny_maps {opts : MapOptions} (hroom : vm.pmm.alloc ≠ none)
    (habsent : (vm.entry vaddr).present = false) :
    ∃ vm' phys, vm.mapAnyPhysicalPage (page vaddr) opts = .ok vm' ∧
      vm'.entry vaddr = .mapping phys { opts with frompmm := true } ∧
      (opts.clear = true → vm'.view vaddr = 0) := by
  have habsent' : (vm.entry (page vaddr)).present = false := by
    rw [Vm.entry_page]
    exact habsent
  rcases vm.mapAnyPhysicalPage_cases (page vaddr) opts with
    ⟨hpresent, _⟩ | hfail | ⟨idx, vm', hmap, hmapped⟩
  · rw [habsent'] at hpresent
    cases hpresent
  · unfold Vm.mapAnyPhysicalPage at hfail
    rw [habsent', if_neg Bool.false_ne_true] at hfail
    cases halloc : vm.pmm.alloc with
    | none => exact absurd halloc hroom
    | some x =>
      rw [halloc] at hfail
      cases hfail
  refine ⟨vm', gPageSize * idx, hmap, ?_, fun hclear => ?_⟩
  · unfold Vm.entry
    rw [hmapped.table, pageNumber_page, update_self]
  have hzero := mapAny_cleared habsent' hclear hmap
  rw [Vm.entry_page] at hzero
  unfold Vm.view
  rw [hzero]
  split <;> rfl

end Try

-- ==== all tries

section Outcome

variable {mm : MemoryManager} {vm vm' : Vm} {vaddr : Nat} {write : Bool} {file : FileRead}

theorem outcome_alive (h : userAccess mm vm vaddr write file = .ok (true, vm')) :
    outcome mm vm vaddr write file = .ok (some (vm'.view vaddr)) := by
  unfold outcome
  rw [h]

theorem outcome_dead (h : userAccess mm vm vaddr write file = .ok (false, vm')) :
    outcome mm vm vaddr write file = .ok none := by
  unfold outcome
  rw [h]

/-- A page that is there. -/
theorem outcome_present (hheld : vm.Held (vm.entry vaddr)) (hroom : vm.pmm.alloc ≠ none)
    (hpresent : (vm.entry vaddr).present = true) :
    outcome mm vm vaddr write file = .ok (if (vm.entry vaddr).user &&
          ((vm.entry vaddr).rw || (vm.entry vaddr).cow || !write) then
        some (vm.memory (index (vm.entry vaddr).page) (offset vaddr))
      else none) := by
  have hview : vm.view vaddr = vm.memory (index (vm.entry vaddr).page) (offset vaddr) :=
    if_pos hpresent
  by_cases hcow : ((vm.entry vaddr).rw || !(vm.entry vaddr).cow || !write) = true
  · -- nothing to copy: the entry says it all
    have hsame : ((vm.entry vaddr).rw || (vm.entry vaddr).cow || !write)
        = ((vm.entry vaddr).rw || !write) := by
      revert hcow
      cases (vm.entry vaddr).rw <;> cases (vm.entry vaddr).cow <;> cases write <;> decide
    rw [hsame]
    by_cases hpermits : permits (vm.entry vaddr) write = true
    · rw [outcome_alive (access_permitted hpermits), hview]
      unfold permits at hpermits
      rw [hpresent, Bool.true_and] at hpermits
      rw [if_pos hpermits]
    rw [Bool.not_eq_true] at hpermits
    rw [outcome_dead (access_killed hpermits (pagefltHandler_present hpresent hcow))]
    unfold permits at hpermits
    rw [hpresent, Bool.true_and] at hpermits
    rw [hpermits, if_neg Bool.false_ne_true]
  -- a write to a page that waits to be copied
  rw [Bool.not_eq_true] at hcow
  obtain ⟨⟨hrw, hwaits⟩, hwrite⟩ : ((vm.entry vaddr).rw = false ∧ (vm.entry vaddr).cow = true) ∧
        write = true := by
    revert hcow
    cases (vm.entry vaddr).rw <;> cases (vm.entry vaddr).cow <;> cases write <;> decide
  subst hwrite
  obtain ⟨vm', hcopy, hpresent', hrw', huser', hview'⟩ := cowRecover_copies hheld hroom hpresent
  have hrefused : permits (vm.entry vaddr) true = false := by
    unfold permits
    rw [hrw, Bool.not_true, Bool.or_false, Bool.and_false]
  have hfault : pagefltHandler mm vm vaddr true file = .ok (true, vm') := by
    unfold pagefltHandler Vm.isZeroPageAccess Vm.isCOWAccess
    rw [hpresent, hrw, hwaits]
    simp only [Bool.not_true, Bool.and_false, Bool.false_eq_true, if_false,
      Bool.not_false, Bool.and_true, if_true]
    exact hcopy
  rw [hrw, hwaits]
  cases huser : (vm.entry vaddr).user with
  | true =>
    have hpermits : permits (vm'.entry vaddr) true = true := by
      unfold permits
      rw [hpresent', hrw', huser', huser]
      rfl
    rw [outcome_alive ((access_again hrefused hfault).trans (access_permitted hpermits)), hview']
    rfl
  | false =>
    have hpermits : permits (vm'.entry vaddr) true = false := by
      unfold permits
      rw [huser', huser, Bool.and_false, Bool.false_and]
    rw [outcome_dead ((access_again hrefused hfault).trans
      (access_killed hpermits (pagefltHandler_present hpresent'
        (by rw [hrw', Bool.true_or, Bool.true_or]))))]
    rfl

/-- A page that is not there. -/
theorem absent_refused (habsent : (vm.entry vaddr).present = false) :
    permits (vm.entry vaddr) write = false := by
  unfold permits
  rw [habsent, Bool.false_and, Bool.false_and]

theorem pagefltHandler_absent (habsent : (vm.entry vaddr).present = false)
    (hpage : (vm.entry vaddr).page = 0) :
    pagefltHandler mm vm vaddr write file = zeropageRecover mm vm vaddr file := by
  unfold pagefltHandler Vm.isZeroPageAccess
  rw [habsent, hpage]
  rfl

/-- A page that has just got memory for a region: the rights of the region
decide, and there is no second recovery. -/
theorem access_mapped {phys : Nat} {opts opts' : MapOptions} {n : Nat}
    (hentry : vm.entry vaddr = .mapping phys opts') (hcow : opts'.cow = false)
    (huser : opts'.user = opts.user) (hrw : opts'.rw = opts.rw) :
    access mm vaddr write file (n + 1) vm = .ok (opts.user && (opts.rw || !write), vm) := by
  have hpermits : permits (vm.entry vaddr) write = (opts.user && (opts.rw || !write)) := by
    rw [hentry, ← huser, ← hrw]
    rfl
  cases h : (opts.user && (opts.rw || !write)) with
  | true => exact access_permitted (hpermits.trans h)
  | false =>
    refine access_killed (hpermits.trans h) (pagefltHandler_present (by rw [hentry]; rfl) ?_)
    rw [hentry]
    show (opts'.rw || !opts'.cow || !write) = true
    rw [hcow, Bool.not_false, Bool.or_true, Bool.true_or]

theorem view_filled (hpresent : (vm.entry vaddr).present = true) (bytes : Nat → UInt8) :
    (vm.setMemory (vm.entry vaddr).page bytes).view vaddr = bytes (offset vaddr) := by
  have hentry : (vm.setMemory (vm.entry vaddr).page bytes).entry vaddr = vm.entry vaddr := rfl
  unfold Vm.view
  rw [hentry, if_pos hpresent]
  show update vm.memory _ bytes _ _ = _
  rw [update_self]

/-- A page of a region without a file. -/
theorem outcome_zero {r : Region} (hroom : vm.pmm.alloc ≠ none)
    (habsent : (vm.entry vaddr).present = false)
    (hpage : (vm.entry vaddr).page = 0)
    (hregion : mm.isWithinRegion vm vaddr = some r) (hclean : r.Clean)
    (hfile : ∀ n, r.mmap_data ≠ some (n + 1)) :
    outcome mm vm vaddr write file = .ok
      (if r.permission.user && (r.permission.rw || !write) then some 0
        else none) := by
  obtain ⟨vm', phys, hmap, hentry, hzero⟩ := @mapAny_maps vm vaddr r.permission hroom habsent
  have hfault : pagefltHandler mm vm vaddr write file = .ok (true, vm') := by
    rw [pagefltHandler_absent habsent hpage]
    unfold zeropageRecover
    rw [hregion]
    dsimp only
    split
    next n hn => exact absurd hn (hfile n)
    · rw [hmap, bind_ok]
  have haccess : userAccess mm vm vaddr write file
      = .ok (r.permission.user && (r.permission.rw || !write), vm') :=
    (access_again (absent_refused habsent) hfault).trans (access_mapped hentry hclean.1 rfl rfl)
  cases h : (r.permission.user && (r.permission.rw || !write)) with
  | true =>
    have huser : r.permission.user = true := (Bool.and_eq_true _ _ ▸ h).1
    have hclear : r.permission.clear = true := by
      rcases hclean.2 huser with hclear | ⟨n, hn⟩
      · exact hclear
      · exact absurd hn (hfile n)
    rw [h] at haccess
    rw [outcome_alive haccess, hzero hclear, if_pos rfl]
  | false =>
    rw [h] at haccess
    rw [outcome_dead haccess, if_neg Bool.false_ne_true]

/-- A page of a file, which the kernel itself has to write to. -/
theorem outcome_file {r : Region} {size : Nat} (hroom : vm.pmm.alloc ≠ none)
    (habsent : (vm.entry vaddr).present = false)
    (hpage : (vm.entry vaddr).page = 0)
    (hregion : mm.isWithinRegion vm vaddr = some r) (hclean : r.Clean)
    (hfile : r.mmap_data = some (size + 1)) :
    outcome mm vm vaddr write file = .ok (match file with
      | .bytes content =>
        if vaddr - r.frm ≤ size + 1 ∧ r.permission.rw = true ∧ r.permission.user = true then
          some (content (offset vaddr))
        else none
      | _ => none) := by
  have hrefused := @absent_refused vm vaddr write habsent
  have hhandler : pagefltHandler mm vm vaddr write file
      = mmapFaultRecover vm vaddr r (size + 1) file := by
    rw [pagefltHandler_absent habsent hpage]
    unfold zeropageRecover
    rw [hregion]
    dsimp only
    rw [hfile]
  obtain ⟨vm', phys, hmap, hentry, _⟩ :=
    @mapAny_maps vm vaddr { r.permission with clear := true } hroom habsent
  by_cases hbeyond : size + 1 < vaddr - r.frm
  · have hkill : mmapFaultRecover vm vaddr r (size + 1) file = .ok (false, vm) := if_pos hbeyond
    rw [outcome_dead (access_killed hrefused (hhandler.trans hkill))]
    split
    · rw [if_neg (by omega)]
    · rfl
  have hwithin : vaddr - r.frm ≤ size + 1 := Nat.not_lt.1 hbeyond
  cases file with
  | noSeek =>
    have hkill : mmapFaultRecover vm vaddr r (size + 1) .noSeek = .ok (false, vm) := if_neg hbeyond
    rw [outcome_dead (access_killed hrefused (hhandler.trans hkill))]
  | nothing =>
    have hkill : mmapFaultRecover vm vaddr r (size + 1) .nothing = .ok (false, vm') := by
      unfold mmapFaultRecover
      rw [if_neg hbeyond]
      rw [hmap, bind_ok]
    rw [outcome_dead (access_killed hrefused (hhandler.trans hkill))]
  | bytes content =>
    have hrw : (vm'.entry vaddr).rw = r.permission.rw := by
      rw [hentry]
      rfl
    have hfilled : mmapFaultRecover vm vaddr r (size + 1) (.bytes content) = if r.permission.rw then
            .ok (true, vm'.setMemory (vm'.entry vaddr).page content)
          else .ok (false, vm') := by
      unfold mmapFaultRecover
      rw [if_neg hbeyond]
      dsimp only
      rw [hmap, bind_ok, hrw]
    cases hwritable : r.permission.rw with
    | false =>
      rw [hwritable, if_neg Bool.false_ne_true] at hfilled
      rw [outcome_dead (access_killed hrefused (hhandler.trans hfilled))]
      dsimp only
      rw [if_neg (by rintro ⟨_, h, _⟩; cases h)]
    | true =>
      rw [hwritable, if_pos rfl] at hfilled
      have haccess : userAccess mm vm vaddr write (.bytes content)
          = .ok (r.permission.user && (r.permission.rw || !write),
            vm'.setMemory (vm'.entry vaddr).page content) :=
        (access_again hrefused (hhandler.trans hfilled)).trans
          (access_mapped hentry hclean.1 rfl rfl)
      rw [hwritable, Bool.true_or, Bool.and_true] at haccess
      dsimp only
      cases huser : r.permission.user with
      | false =>
        rw [huser] at haccess
        rw [outcome_dead haccess, if_neg (by rintro ⟨_, _, h⟩; cases h)]
      | true =>
        rw [huser] at haccess
        rw [outcome_alive haccess, if_pos ⟨hwithin, rfl, rfl⟩, view_filled (by rw [hentry]; rfl)]

/-- What an access comes to. -/
theorem outcome_eq (hheld : vm.Held (vm.entry vaddr)) (hroom : vm.pmm.alloc ≠ none)
    (hpage : (vm.entry vaddr).present = false → (vm.entry vaddr).page = 0)
    (hclean : ∀ r, mm.isWithinRegion vm vaddr = some r → r.Clean) :
    outcome mm vm vaddr write file = .ok (expected (vm.entry vaddr) (mm.isWithinRegion vm vaddr)
        (vm.memory (index (vm.entry vaddr).page) (offset vaddr)) vaddr write
        file) := by
  unfold expected
  cases hpresent : (vm.entry vaddr).present with
  | true =>
    rw [if_pos rfl]
    exact outcome_present hheld hroom hpresent
  | false =>
    have hpage := hpage hpresent
    rw [if_neg Bool.false_ne_true]
    cases hregion : mm.isWithinRegion vm vaddr with
    | none =>
      refine outcome_dead (access_killed (absent_refused hpresent)
        (show pagefltHandler mm vm vaddr write file = .ok (false, vm) from ?_))
      rw [pagefltHandler_absent hpresent hpage]
      unfold zeropageRecover
      rw [hregion]
    | some r =>
      dsimp only
      have hclean := hclean r hregion
      split
      next size hfile => exact outcome_file hroom hpresent hpage hregion hclean hfile
      next hfile => exact outcome_zero hroom hpresent hpage hregion hclean hfile

end Outcome

end Puppy.Mm
