/-
What the view of a process goes through while pages are mapped, marked and
written.

Mapping a page leaves the view alone: the page that is given out belongs to
nobody (`Separate.held`) and has been cleared. Storing into a page changes
that page and no other (`Separate.apart`). The steps compose
(`Stores.trans`), with the later bytes in front of the earlier ones.
-/
import Puppy.Mm.Proofs.Effects
import Puppy.Mm.View

namespace Puppy.Mm

open Libc Lib PhysicalPageManager Vm Function

variable {vm vm' vm₁ vm₂ : Vm} {virt a : Nat} {opts : MapOptions}
  {pages pages' : Nat → Prop} {bytes bytes' : Nat → Option UInt8}

-- ==== addresses

theorem view_of_present (h : (vm.entry a).present = true) :
    vm.view a = vm.memory (index (vm.entry a).page) (offset a) := if_pos h

theorem view_of_absent (h : (vm.entry a).present = false) :
    vm.view a = 0 := if_neg (by rw [h]; decide)

-- ==== composing

namespace Stores

theorem refl (h : Separate vm) : Stores pages (fun _ => none) vm vm :=
  ⟨h, fun _ _ => rfl, fun _ _ => rfl, fun _ => id⟩

theorem trans (h₁ : Stores pages bytes vm vm₁) (h₂ : Stores pages' bytes' vm₁ vm₂) :
    Stores (fun i => pages i ∨ pages' i) (fun a => (bytes' a).or (bytes a)) vm vm₂ where
  separate := h₂.separate
  view a ha := by
    rw [h₂.view a ha, h₁.view a ha]
    cases bytes' a <;> rfl
  elsewhere i hi := by
    rw [h₂.elsewhere i (fun h => hi (.inr h)), h₁.elsewhere i (fun h => hi (.inl h))]
  present i hi := h₂.present i (h₁.present i hi)

theorem mono (h : Stores pages bytes vm vm') (hpages : ∀ i, pages i → pages' i)
    (hbytes : ∀ a < gKernelBase, bytes a = bytes' a) :
    Stores pages' bytes' vm vm' where
  separate := h.separate
  view a ha := by rw [h.view a ha, hbytes a ha]
  elsewhere i hi := h.elsewhere i (fun h => hi (hpages i h))
  present := h.present

end Stores

-- ==== single steps

theorem mapAny_cleared (habsent : (vm.entry virt).present = false) (hclear : opts.clear = true)
    (h : vm.mapAnyPhysicalPage virt opts = .ok vm') :
    vm'.memory (index (vm'.entry virt).page) = fun _ => 0 := by
  unfold mapAnyPhysicalPage at h
  rw [habsent, if_neg (by decide)] at h
  split at h
  · cases h
  next phys pmm _ =>
  cases h
  unfold map
  rw [if_pos hclear, setEntry_entry]
  exact update_self _ _ _

section Fresh

variable {idx : Nat}

section

variable (h : Mapped vm virt opts idx vm')
include h

theorem Vm.Mapped.entry_self : vm'.entry virt
      = .mapping (gPageSize * idx) { opts with frompmm := true } := by
  unfold entry
  rw [h.table, update_self]

theorem Vm.Mapped.index_self : index (vm'.entry virt).page = idx := by
  rw [h.entry_self]
  exact index_mul idx

theorem Vm.Mapped.table_other {i : Nat} (hi : i ≠ pageNumber virt) : vm'.table i = vm.table i := by
  rw [h.table, update_of_ne hi]

/-- The new memory was available, so no page had it. -/
theorem Vm.Mapped.new (hsep : Separate vm) {i : Nat} (hi : i < gNumUserPages)
    (hpresent : (vm.table i).present = true) :
    index (vm.table i).page ≠ idx := by
  intro heq
  have hheld := hsep.held i hi hpresent
  rw [heq, h.free] at hheld
  cases hheld

theorem Vm.Mapped.separate (hsep : Separate vm) : Separate vm' := by
  have hself : index (vm'.table (pageNumber virt)).page = idx := h.index_self
  constructor
  · intro i j hi hj hpi hpj heq
    by_cases hiv : i = pageNumber virt
    · by_cases hjv : j = pageNumber virt
      · rw [hiv, hjv]
      · rw [h.table_other hjv] at hpj heq
        rw [hiv, hself] at heq
        exact absurd heq.symm (h.new hsep hj hpj)
    rw [h.table_other hiv] at hpi heq
    by_cases hjv : j = pageNumber virt
    · rw [hjv, hself] at heq
      exact absurd heq (h.new hsep hi hpi)
    · rw [h.table_other hjv] at hpj heq
      exact hsep.apart i j hi hj hpi hpj heq
  intro i hi hpresent
  rw [← Bool.not_eq_true, available_iff, not_and]
  intro husable
  have htraded := h.traded.refcnt (index (vm'.table i).page)
  by_cases hiv : i = pageNumber virt
  · rw [hiv, hself] at htraded ⊢
    rw [named_self] at htraded
    omega
  rw [h.table_other hiv] at hpresent husable htraded ⊢
  have hheld := hsep.held i hi hpresent
  rw [← Bool.not_eq_true, available_iff, not_and] at hheld
  have hcount := hheld ((h.traded.usable _).symm.trans husable)
  omega

end

end Fresh

/-- A page is mapped that was not, or was. -/
theorem mapAny_stores (hsep : Separate vm) (hclear : opts.clear = true)
    (h : vm.mapAnyPhysicalPage virt opts = .ok vm') :
    Stores (· = pageNumber virt) (fun _ => none) vm vm' := by
  rcases mapAnyPhysicalPage_ok h with ⟨_, rfl⟩ | ⟨idx, hmapped⟩
  · exact Stores.refl hsep
  have hzero := mapAny_cleared hmapped.absent hclear h
  refine ⟨hmapped.separate hsep, ?_, fun i hi => hmapped.table_other hi, ?_⟩
  · intro a ha
    show vm'.view a = vm.view a
    by_cases hav : pageNumber a = pageNumber virt
    · have hentry : ∀ v : Vm, v.entry a = v.entry virt := by
        intro v
        unfold entry
        rw [hav]
      have hpresent : (vm'.entry a).present = true := by
        rw [hentry, hmapped.entry_self]
        rfl
      rw [view_of_present hpresent, hentry, hzero,
        view_of_absent (by rw [hentry]; exact hmapped.absent)]
    have hsame : vm'.entry a = vm.entry a := hmapped.table_other hav
    unfold view
    rw [hsame]
    split
    next hpresent =>
      have hne : index (vm.entry a).page ≠ idx :=
        hmapped.new hsep (pageNumber_user ha).1 hpresent
      rw [hmapped.memory _ hne]
    · rfl
  · intro i hi
    by_cases hiv : i = pageNumber virt
    · rw [hiv]
      show (vm'.entry virt).present = true
      rw [hmapped.entry_self]
      rfl
    · rwa [hmapped.table_other hiv]

/-- Marking a page that is there. -/
theorem setFlags_stores (hsep : Separate vm) (rw : Bool) :
    Stores (· = pageNumber virt) (fun _ => none) vm
      (vm.setEntry virt { vm.entry virt with rw := rw }) := by
  have htable : ∀ i, ((vm.setEntry virt { vm.entry virt with rw := rw }).table
      i).present = (vm.table i).present ∧
      ((vm.setEntry virt { vm.entry virt with rw := rw }).table i).page = (vm.table i).page := by
    intro i
    rw [setEntry_table]
    by_cases hi : i = pageNumber virt
    · rw [hi, update_self]
      exact ⟨rfl, rfl⟩
    · rw [update_of_ne hi]
      exact ⟨rfl, rfl⟩
  refine ⟨⟨?_, ?_⟩, ?_, ?_, ?_⟩
  · intro i j hi hj hpi hpj heq
    rw [(htable i).1] at hpi
    rw [(htable j).1] at hpj
    rw [(htable i).2, (htable j).2] at heq
    exact hsep.apart i j hi hj hpi hpj heq
  · intro i hi hpresent
    rw [(htable i).1] at hpresent
    rw [(htable i).2]
    exact hsep.held i hi hpresent
  · intro a _
    show (if ((vm.setEntry virt _).table (pageNumber a)).present = true then
      vm.memory (index ((vm.setEntry virt _).table (pageNumber a)).page) (offset a) else 0) = _
    rw [(htable _).1, (htable _).2]
    rfl
  · intro i hi
    rw [setEntry_table, update_of_ne hi]
  · intro i hi
    rwa [(htable i).1]

/-- Bytes are copied into a page that is there. -/
theorem copyIn_stores {vaddr count : Nat} {content : Nat → UInt8}
    (hsep : Separate vm) (huser : vaddr < gKernelBase)
    (hpresent : (vm.entry vaddr).present = true)
    (hcount : offset vaddr + count ≤ gPageSize) :
    Stores (· = pageNumber vaddr) (span vaddr count content) vm
      (Loading.copyIn vm vaddr count content) := by
  refine ⟨⟨hsep.apart, hsep.held⟩, ?_, fun _ _ => rfl, fun _ => id⟩
  intro a ha
  have hnum := (pageNumber_user ha).2
  have hnumv := (pageNumber_user huser).2
  have hentry : (Loading.copyIn vm vaddr count content).entry a = vm.entry a := rfl
  unfold span
  by_cases hsame : pageNumber a = pageNumber vaddr
  · have ha' : vm.entry a = vm.entry vaddr := by
      unfold entry
      rw [hsame]
    rw [view_of_present (by rw [hentry, ha']; exact hpresent), hentry,
      view_of_present (by rw [ha']; exact hpresent), ha']
    unfold Loading.copyIn setMemory
    dsimp only
    rw [update_self]
    rw [hnum, hnumv] at hsame
    unfold offset gPageSize at *
    have hiff : (vaddr % 4096 ≤ a % 4096 ∧
        a % 4096 < vaddr % 4096 + count) ↔ (vaddr ≤ a ∧ a < vaddr + count) := by
      omega
    by_cases hin : vaddr ≤ a ∧ a < vaddr + count
    · rw [if_pos (hiff.2 hin), if_pos hin, Option.getD_some]
      congr 1
      omega
    · rw [if_neg (fun h => hin (hiff.1 h)), if_neg hin]
      rfl
  have hout : ¬ (vaddr ≤ a ∧ a < vaddr + count) := by
    rw [hnum, hnumv] at hsame
    unfold offset gPageSize at *
    omega
  rw [if_neg hout]
  show (if ((Loading.copyIn vm vaddr count content).entry a).present then _
    else 0) = vm.view a
  rw [hentry]
  unfold view
  split
  next hp =>
    -- another page has other memory
    have hne : index (vm.entry a).page ≠ index (vm.entry vaddr).page :=
      fun heq => hsame (hsep.apart _ _ (pageNumber_user ha).1
        (pageNumber_user huser).1 hp hpresent heq)
    unfold Loading.copyIn setMemory
    dsimp only
    rw [update_of_ne hne]
  · rfl

-- ==== many pages

/-- A page that has memory is left alone, one that has none gets the
options. -/
theorem mapAny_entry (h : vm.mapAnyPhysicalPage virt opts = .ok vm') :
    (∀ i, (vm.table i).present = true → vm'.table i = vm.table i) ∧
      ((vm.entry virt).present = false → (vm'.entry virt).rw = opts.rw) := by
  rcases mapAnyPhysicalPage_ok h with ⟨hpresent, rfl⟩ | ⟨idx, hmapped⟩
  · refine ⟨fun _ _ => rfl, fun habsent => ?_⟩
    cases hpresent.symm.trans habsent
  refine ⟨fun i hi => hmapped.table_other ?_, fun _ => ?_⟩
  · rintro rfl
    have habsent := hmapped.absent
    unfold entry at habsent
    cases hi.symm.trans habsent
  · rw [hmapped.entry_self]
    rfl

/-- All pages of a list. -/
theorem mapPages_stores {pages : List Nat} (hclear : opts.clear = true) (hsep : Separate vm)
    (h : pages.foldlM (fun vm base => vm.mapAnyPhysicalPage base opts) vm = .ok vm') :
    Stores (fun i => ∃ base ∈ pages, pageNumber base = i) (fun _ => none) vm vm' ∧
      (∀ i, (vm.table i).present = true → vm'.table i = vm.table i) ∧
      ∀ base ∈ pages, (vm'.entry base).present = true ∧
        ((vm.entry base).present = false → (vm'.entry base).rw = opts.rw) := by
  induction pages generalizing vm with
  | nil =>
    cases h
    refine ⟨Stores.refl hsep, fun _ _ => rfl, fun base hbase => ?_⟩
    cases hbase
  | cons base rest ih =>
    rw [List.foldlM_cons] at h
    obtain ⟨vm₁, hmap, h⟩ := ok_bind h
    have hstep := mapAny_stores hsep hclear hmap
    obtain ⟨hold, hnew⟩ := mapAny_entry hmap
    have hpresent := present_of_mapAny hmap
    obtain ⟨hstores, hkept, hthere⟩ := ih hstep.separate h
    refine ⟨(hstep.trans hstores).mono ?_ (fun _ _ => rfl), ?_, ?_⟩
    · rintro i (rfl | ⟨base', hbase', hi⟩)
      · exact ⟨base, List.mem_cons_self, rfl⟩
      · exact ⟨base', List.mem_cons_of_mem base hbase', hi⟩
    · intro i hi
      have h₁ := hold i hi
      rw [hkept i (by rw [h₁]; exact hi), h₁]
    intro base' hbase'
    rcases List.mem_cons.1 hbase' with rfl | hbase'
    · have hsame : vm'.entry base' = vm₁.entry base' := hkept _ hpresent
      rw [hsame]
      exact ⟨hpresent, hnew⟩
    obtain ⟨hp, hrw⟩ := hthere base' hbase'
    refine ⟨hp, fun habsent => ?_⟩
    cases hp₁ : (vm₁.entry base').present with
    | false => exact hrw hp₁
    | true =>
      -- it is the page that has just been mapped
      have hsame : vm'.entry base' = vm₁.entry base' := hkept _ hp₁
      by_cases heq : pageNumber base' = pageNumber base
      · have hentry : ∀ v : Vm, v.entry base' = v.entry base := by
          intro v
          unfold entry
          rw [heq]
        rw [hentry] at habsent
        rw [hsame, hentry]
        exact hnew habsent
      · have hother : vm₁.entry base' = vm.entry base' := hstep.elsewhere _ heq
        rw [hother, habsent] at hp₁
        cases hp₁

-- ==== a process that is being loaded

/-- A process starts without pages. -/
theorem separate_of_absent (h : ∀ i < gNumUserPages, (vm.table i).present = false) :
    Separate vm := by
  constructor
  · intro i j hi _ hpi
    rw [h i hi] at hpi
    cases hpi
  · intro i hi hpi
    rw [h i hi] at hpi
    cases hpi

-- ==== segments

/-- The pages of a range of addresses. -/
def PagesOf (lo count i : Nat) : Prop :=
  ∃ a, lo ≤ a ∧ a < lo + count ∧ pageNumber a = i

theorem span_zero (lo : Nat) (content : Nat → UInt8) :
    span lo 0 content = fun _ => none := by
  funext a
  exact if_neg (by omega)

/-- A span in two parts. -/
theorem span_append (lo m n : Nat) (content : Nat → UInt8) (a : Nat) :
    (span (lo + m) n (fun o => content (o + m)) a).or (span lo m content a)
      = span lo (m + n) content a := by
  unfold span
  by_cases h₁ : lo + m ≤ a ∧ a < lo + m + n
  · rw [if_pos h₁, if_pos (show lo ≤ a ∧ a < lo + (m + n) by omega)]
    show some (content (a - (lo + m) + m)) = _
    rw [show a - (lo + m) + m = a - lo by omega]
  rw [if_neg h₁, Option.none_or]
  by_cases h₂ : lo ≤ a ∧ a < lo + m
  · rw [if_pos h₂, if_pos (show lo ≤ a ∧ a < lo + (m + n) by omega)]
  · rw [if_neg h₂, if_neg (show ¬ (lo ≤ a ∧ a < lo + (m + n)) by omega)]

/-- The bytes of a segment, chunk by chunk. -/
theorem span_chunk (vaddr len flen chunk : Nat) (content : Nat → UInt8)
    (a : Nat) (hchunk : chunk ≤ len) :
    (span (vaddr + chunk) (min (flen - min chunk flen) (len - chunk))
        (fun o => content (o + chunk)) a).or
      (span vaddr (min chunk flen) content a)
      = span vaddr (min flen len) content a := by
  rcases Nat.le_total flen chunk with hle | hle
  · rw [Nat.min_eq_right hle, Nat.sub_self, Nat.zero_min, span_zero,
      Option.none_or, Nat.min_eq_left (hle.trans hchunk)]
  · rw [Nat.min_eq_left hle, span_append]
    congr 1
    omega

namespace Loading

theorem offset_add_chunk (vaddr : Nat) :
    offset vaddr + (gPageSize - (vaddr - page vaddr)) = gPageSize := by
  unfold offset page gPageSize
  omega

/-- One round of the loop, after the page is there. -/
theorem copyChunk_stores {vaddr copied : Nat} {content : Nat → UInt8}
    {mapopts : MapOptions} {writable : Bool} (hsep : Separate vm)
    (huser : vaddr < gKernelBase)
    (hpresent : (vm.entry vaddr).present = true)
    (hcopied : offset vaddr + copied ≤ gPageSize) :
    let vm₁ := if 0 < copied then copyIn vm vaddr copied content else vm
    Stores (· = pageNumber vaddr) (span vaddr copied content) vm (vm₁.newoptions vaddr
        { (vm₁.entry vaddr).options mapopts with rw := writable }) := by
  intro vm₁
  have hcopy : Stores (· = pageNumber vaddr) (span vaddr copied content) vm vm₁ ∧
      vm₁.entry vaddr = vm.entry vaddr := by
    by_cases hpos : 0 < copied
    · rw [show vm₁ = copyIn vm vaddr copied content from if_pos hpos]
      exact ⟨copyIn_stores hsep huser hpresent hcopied, rfl⟩
    · rw [show vm₁ = vm from if_neg hpos, show copied = 0 by omega, span_zero]
      exact ⟨Stores.refl hsep, rfl⟩
  have hpresent₁ : (vm₁.entry vaddr).present = true := by
    rw [hcopy.2]
    exact hpresent
  rw [newoptions_rw, hpresent₁, Bool.true_or, if_pos rfl]
  refine (hcopy.1.trans (setFlags_stores hcopy.1.separate writable)).mono
    ?_ (fun a _ => Option.none_or)
  rintro i (hi | hi) <;> exact hi

/-- A segment is written to where it belongs, and to no other place. -/
theorem loadPages_stores {writable : Bool} (len : Nat) :
    ∀ {mapopts : MapOptions} {flen vaddr : Nat} {content : Nat → UInt8}
      {vm vm' : Vm}, Separate vm → mapopts.clear = true →
      vaddr + len ≤ gKernelBase →
      loadPages writable mapopts len flen vaddr content vm = .ok (true, vm') →
      Stores (PagesOf vaddr len) (span vaddr (min flen len) content) vm vm' ∧
      ∀ a, vaddr ≤ a → a < vaddr + len → (vm'.entry a).present = true := by
  -- on the bytes that are left
  induction len using Nat.strong_induction_on with
  | h len ih =>
    intro mapopts flen vaddr content vm vm' hsep hclear hend h
    rw [loadPages] at h
    by_cases hlen : len = 0
    · rw [dif_pos hlen] at h
      cases h
      rw [hlen, Nat.min_zero, span_zero]
      exact ⟨Stores.refl hsep, fun a h₁ h₂ => by omega⟩
    rw [dif_neg hlen] at h
    have huser : vaddr < gKernelBase := by omega
    have huser' : page vaddr < gKernelBase := by
      unfold page
      omega
    rw [if_neg (by rw [iskernel, decide_eq_true_eq]; omega)] at h
    cases hmap : vm.mapAnyPhysicalPage (page vaddr) { mapopts with rw := true } with
    | error e =>
      rw [hmap] at h
      cases h
    | ok vm₁ =>
      rw [hmap] at h
      dsimp only at h
      have hmapped := @mapAny_stores vm vm₁ (page vaddr)
        { mapopts with rw := true } hsep hclear hmap
      rw [pageNumber_page] at hmapped
      have hpresent := present_of_mapAny hmap
      rw [entry_page] at hpresent
      split at h
      · cases h
      have hres := offset_add_chunk vaddr
      have hoff : offset vaddr < gPageSize := Nat.mod_lt _ (by decide)
      generalize hchunk : min len (gPageSize - (vaddr - page vaddr)) = chunk at h
      have hcopy := @copyChunk_stores vm₁ vaddr (min chunk flen) content
        mapopts writable hmapped.separate huser hpresent (by omega)
      obtain ⟨hrest, hthere⟩ := ih (len - chunk) (by omega) hcopy.separate
        (by exact hclear) (by omega) h
      refine ⟨((hmapped.trans hcopy).trans hrest).mono ?_ ?_, ?_⟩
      · rintro i ((rfl | rfl) | ⟨a, h₁, h₂, rfl⟩)
        · exact ⟨vaddr, by omega, by omega, rfl⟩
        · exact ⟨vaddr, by omega, by omega, rfl⟩
        · exact ⟨a, by omega, by omega, rfl⟩
      · intro a _
        rw [Option.or_none]
        exact span_chunk vaddr len flen chunk content a (by omega)
      intro a h₁ h₂
      by_cases hfirst : vaddr + chunk ≤ a
      · exact hthere a hfirst (by omega)
      have hsame : pageNumber a = pageNumber vaddr := by
        rw [(pageNumber_user huser).2, (pageNumber_user (show a < gKernelBase by omega)).2]
        unfold offset gPageSize at *
        omega
      show (vm'.table (pageNumber a)).present = true
      rw [hsame]
      exact hrest.present _ (hcopy.present _ hpresent)

end Loading

end Puppy.Mm
