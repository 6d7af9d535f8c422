/-
When the kernel heap grows by the whole amount or not at all.

# Taken blocks stay taken

Each round of the loop of `sbrk` takes a page from the physical page
manager, and none is given back, so the pages that are available only get
fewer (`sbrkLoop_available`). Once a round has been made, the machine is no
longer what it was, and a refusal at a later round is not a refusal without
consequences. So all that is left is that the loop gets to its end, and then
the break says whether it has gone too far.

# The rounds that succeed

A loop that fits below the end of the range and finds its pages does get to
its end, and maps one page after the other (`sbrkLoop_fits`). The pages are
those that `allocPages` would take.
-/
import Puppy.Mm.KernelHeap
import Puppy.Mm.Proofs.Virt

namespace Puppy.Mm

open Libc Lib Heap Function

variable {n amount : Nat} {enough : Bool}

namespace KernelHeap

variable {h h' : KernelHeap} {vm vm' : Vm}

-- ==== one block

/-- A block is an available page, mapped at the break. -/
theorem oneblock_ok {more : Nat} (hone : h.oneblock vm = .ok (more, vm')) :
    more = h.mCurrent ∧ ∃ idx pmm, vm.pmm.alloc = some (gPageSize * idx, pmm) ∧
      vm'.pmm = pmm ∧ (vm.pmm.mPages idx).available = true ∧
      (∀ i, (pmm.mPages i).available = true → (vm.pmm.mPages i).available = true ∧ i ≠ idx) ∧
      vm'.table = update vm.table (pageNumber h.mCurrent)
        (.mapping (gPageSize * idx) { clear := true }) := by
  unfold oneblock at hone
  split at hone
  · cases hone
  next block pmm halloc =>
  obtain ⟨hmore, hvm⟩ := ok_pair hone
  obtain ⟨idx, rfl, havail, htouched, _⟩ := PhysicalPageManager.alloc_some halloc
  refine ⟨hmore.symm, idx, pmm, halloc, ?_, havail, fun i hi => ?_, ?_⟩
  · rw [← hvm]
    rfl
  · have hne : i ≠ idx := by
      intro heq
      have hheld := htouched.refcnt_self
      rw [← heq] at hheld
      rw [(PhysicalPageManager.available_iff.1 hi).2] at hheld
      cases hheld
    rw [htouched.page_of_ne hne] at hi
    exact ⟨hi, hne⟩
  · rw [← hvm]
    rfl

-- ==== the loop

theorem sbrkLoop_full (hfull : h.high ≤ h.mCurrent) :
    sbrkLoop (n + 1) h vm = .ok (false, h, vm) := if_pos hfull

/-- A round takes a page. After that the loop goes on, unless the block is
at address 0, which looks like a failure. -/
theorem sbrkLoop_round (hroom : h.mCurrent < h.high)
    (hloop : sbrkLoop (n + 1) h vm = .ok (enough, h', vm')) :
    ∃ vm₁, h.oneblock vm = .ok (h.mCurrent, vm₁) ∧
      (h.mCurrent = 0 ∧ enough = false ∧ h' = h ∧ vm' = vm₁ ∨ h.mCurrent ≠ 0 ∧
          sbrkLoop n h.advance vm₁ = .ok (enough, h', vm')) := by
  unfold sbrkLoop at hloop
  rw [if_neg (not_le.2 hroom)] at hloop
  obtain ⟨⟨more, vm₁⟩, hone, hloop⟩ := ok_bind hloop
  have hmore := (oneblock_ok hone).1
  rw [hmore] at hone
  dsimp only at hloop
  rw [hmore] at hloop
  refine ⟨vm₁, hone, ?_⟩
  split at hloop
  next hzero =>
    obtain ⟨henough, hh, hvm⟩ := ok_triple hloop
    exact .inl ⟨hzero, henough.symm, hh.symm, hvm.symm⟩
  next hne => exact .inr ⟨hne, hloop⟩

theorem sbrkLoop_step {vm₁ : Vm} (hroom : h.mCurrent < h.high)
    (hpos : h.mCurrent ≠ 0) (hone : h.oneblock vm = .ok (h.mCurrent, vm₁)) :
    sbrkLoop (n + 1) h vm = sbrkLoop n h.advance vm₁ := by
  rw [sbrkLoop, if_neg (not_le.2 hroom), hone, bind_ok]
  dsimp only
  rw [if_neg hpos]

/-- No page becomes available. -/
theorem sbrkLoop_available : ∀ {h : KernelHeap} {vm : Vm}, sbrkLoop n h vm = .ok (enough, h', vm') →
      ∀ i, (vm'.pmm.mPages i).available = true → (vm.pmm.mPages i).available = true := by
  have hsame : ∀ {h : KernelHeap} {vm : Vm} {b : Bool},
      (Except.ok (b, h, vm) : Except Panic _) = .ok (enough, h', vm') →
        ∀ i, (vm'.pmm.mPages i).available = true → (vm.pmm.mPages i).available = true := by
    intro h vm b heq i hi
    obtain ⟨_, _, rfl⟩ := ok_triple heq
    exact hi
  induction n with
  | zero => exact fun hloop => hsame hloop
  | succ n ih =>
    intro h vm hloop i hi
    by_cases hroom : h.mCurrent < h.high
    · obtain ⟨vm₁, hone, hcases⟩ := sbrkLoop_round hroom hloop
      obtain ⟨_, _, pmm, _, hpmm, _, hfewer, _⟩ := oneblock_ok hone
      have hmid : (vm₁.pmm.mPages i).available = true := by
        rcases hcases with ⟨_, _, _, hvm⟩ | ⟨_, hloop⟩
        · rw [← hvm]
          exact hi
        · exact ih hloop i hi
      rw [hpmm] at hmid
      exact (hfewer i hmid).1
    · rw [sbrkLoop_full (not_lt.1 hroom)] at hloop
      exact hsame hloop i hi

/-- A round that is made leaves its mark, however the loop goes on. -/
theorem sbrkLoop_marked (hroom : h.mCurrent < h.high)
    (hloop : sbrkLoop (n + 1) h vm = .ok (enough, h', vm')) : vm' ≠ vm := by
  obtain ⟨vm₁, hone, hcases⟩ := sbrkLoop_round hroom hloop
  obtain ⟨_, idx, pmm, _, hpmm, havail, hfewer, _⟩ := oneblock_ok hone
  intro heq
  have hlater : (vm₁.pmm.mPages idx).available = true := by
    rcases hcases with ⟨_, _, _, hvm⟩ | ⟨_, hloop⟩
    · rw [← hvm, heq]
      exact havail
    · exact sbrkLoop_available hloop idx (heq ▸ havail)
  rw [hpmm] at hlater
  exact (hfewer idx hlater).2 rfl

/-- A loop that gets to its end has found its pages. -/
theorem sbrkLoop_pages : ∀ {h : KernelHeap} {vm : Vm}, sbrkLoop n h vm = .ok (true, h', vm') →
      ∃ taken, allocPages n vm.pmm = .ok taken := by
  induction n with
  | zero => exact fun _ => ⟨_, rfl⟩
  | succ n ih =>
    intro h vm hloop
    by_cases hroom : h.mCurrent < h.high
    · obtain ⟨vm₁, hone, hcases⟩ := sbrkLoop_round hroom hloop
      obtain ⟨_, idx, pmm, halloc, hpmm, _⟩ := oneblock_ok hone
      rcases hcases with ⟨_, hfail, _⟩ | ⟨_, hloop⟩
      · cases hfail
      obtain ⟨taken, htaken⟩ := ih hloop
      rw [hpmm] at htaken
      unfold allocPages
      rw [halloc]
      dsimp only
      rw [htaken]
      exact ⟨_, rfl⟩
    · rw [sbrkLoop_full (not_lt.1 hroom)] at hloop
      cases hloop

-- ==== the rounds that succeed

theorem advance_eq (hword : h.mCurrent + blocksize < 0x100000000) :
    h.advance.mCurrent = h.mCurrent + blocksize := add32_of_lt hword

theorem advance_high : h.advance.high = h.high := by
  unfold advance
  dsimp only

/-- The addresses on the page at the break. -/
theorem pageNumber_eq_iff {a : Nat} (ha : a < 0x100000000) : pageNumber a = pageNumber h.mCurrent ↔
      h.mCurrent ≤ a ∧ a < h.mCurrent + blocksize := by
  have haligned := h.aligned
  have hlt := h.current_lt
  unfold pageNumber index gNumPages blocksize
  unfold gPageSize at *
  omega

theorem grown_nothing (hwithin : h.mCurrent ≤ h.high + 1) : Grown h h vm vm 0 where
  high := rfl
  moved := by rw [zero_mul, add_zero]
  within := hwithin
  backed := fun a ha => absurd ha.2 (not_lt.2 ha.1)
  apart := fun a b ha _ _ => absurd ha.2 (not_lt.2 ha.1)
  others := fun _ _ _ => rfl

/-- Growing by one block, and then by more. -/
theorem Grown.cons {idx : Nat} {vm₁ : Vm} (hword : h.mCurrent + blocksize < 0x100000000)
    (havail : (vm.pmm.mPages idx).available = true)
    (hfewer : ∀ i, (vm₁.pmm.mPages i).available = true →
      (vm.pmm.mPages i).available = true ∧ i ≠ idx)
    (htable : vm₁.table = update vm.table (pageNumber h.mCurrent)
      (.mapping (gPageSize * idx) { clear := true }))
    (hrest : Grown h.advance h' vm₁ vm' n) : Grown h h' vm vm' (n + 1) := by
  have hnext := advance_eq hword
  have hmoved := hrest.moved
  rw [hnext] at hmoved
  have hmoved' : h'.mCurrent = h.mCurrent + (n + 1) * blocksize := by
    rw [hmoved, Nat.succ_mul]
    omega
  -- what the rest has left alone, and what it has mapped
  have hlater : ∀ a, h.mCurrent + blocksize ≤ a → a < h'.mCurrent →
      h.advance.Between h' a := fun a hle hlt => ⟨hnext ▸ hle, hlt⟩
  have hfirst : ∀ a, h.mCurrent ≤ a → a < h.mCurrent + blocksize →
      vm'.entry a = .mapping (gPageSize * idx) { clear := true } := by
    intro a hle hlt
    rw [hrest.others a (by omega) (fun hb => absurd hb.1 (not_le.2 (hnext ▸ hlt)))]
    unfold Vm.entry
    rw [htable, (pageNumber_eq_iff (by omega)).2 ⟨hle, hlt⟩, update_self]
  have hother : ∀ a, h.advance.Between h' a → index (vm'.entry a).page ≠ idx := fun a ha =>
    (hfewer _ (hrest.backed a ha).2).2
  have hown : index (gPageSize * idx) = idx := index_mul idx
  have hhigh := hrest.high
  have hwithin := hrest.within
  rw [advance_high] at hhigh hwithin
  refine ⟨hhigh, hmoved', hwithin, ?_, ?_, ?_⟩
  · rintro a ⟨hle, hlt⟩
    by_cases hin : a < h.mCurrent + blocksize
    · rw [hfirst a hle hin]
      refine ⟨rfl, ?_⟩
      show (vm.pmm.mPages (index (gPageSize * idx))).available = true
      rw [hown]
      exact havail
    · obtain ⟨hpresent, hfree⟩ := hrest.backed a (hlater a (not_lt.1 hin) hlt)
      exact ⟨hpresent, (hfewer _ hfree).1⟩
  · rintro a b ⟨hale, halt⟩ ⟨hble, hblt⟩ hne
    by_cases hain : a < h.mCurrent + blocksize
    · by_cases hbin : b < h.mCurrent + blocksize
      · have haligned := h.aligned
        unfold index blocksize at *
        unfold gPageSize at *
        omega
      rw [hfirst a hale hain]
      intro heq
      refine hother b (hlater b (not_lt.1 hbin) hblt) ?_
      rw [← heq]
      exact hown
    · by_cases hbin : b < h.mCurrent + blocksize
      · rw [hfirst b hble hbin]
        intro heq
        refine hother a (hlater a (not_lt.1 hain) halt) ?_
        rw [heq]
        exact hown
      · exact hrest.apart a b (hlater a (not_lt.1 hain) halt) (hlater b (not_lt.1 hbin) hblt) hne
  · intro a ha hout
    have hnot : ¬ h.advance.Between h' a := fun hb =>
      hout ⟨le_trans (Nat.le_add_right _ _) (hnext ▸ hb.1), hb.2⟩
    have hpage : pageNumber a ≠ pageNumber h.mCurrent := by
      intro heq
      obtain ⟨hle, hlt⟩ := (pageNumber_eq_iff ha).1 heq
      exact hout ⟨hle, by omega⟩
    rw [hrest.others a ha hnot]
    unfold Vm.entry
    rw [htable, update_of_ne hpage]

/-- A loop that fits gets to its end. -/
theorem sbrkLoop_fits : ∀ {h : KernelHeap} {vm : Vm}, 0 < h.mCurrent →
      h.mCurrent + n * blocksize ≤ h.high + 1 →
      h.mCurrent + n * blocksize < 0x100000000 →
      (∃ taken, allocPages n vm.pmm = .ok taken) →
      ∃ h' vm', sbrkLoop n h vm = .ok (true, h', vm') ∧ Grown h h' vm vm' n := by
  induction n with
  | zero =>
    intro h vm _ hwithin _ _
    rw [zero_mul, add_zero] at hwithin
    exact ⟨h, vm, rfl, grown_nothing hwithin⟩
  | succ n ih =>
    intro h vm hpos hwithin hword hpages
    rw [Nat.succ_mul] at hwithin hword
    have hnext := @advance_eq h (by omega)
    have hroom : h.mCurrent < h.high := by
      unfold blocksize at hwithin
      omega
    obtain ⟨taken, htaken⟩ := hpages
    unfold allocPages at htaken
    split at htaken
    · cases htaken
    next phys pmm halloc =>
    obtain ⟨⟨rest, pmm'⟩, hrest, _⟩ := ok_bind htaken
    have hone : h.oneblock vm = .ok (h.mCurrent, Vm.map { vm with pmm := pmm } phys h.mCurrent
          { rw := true, user := false, clear := true }) := by
      unfold oneblock
      rw [halloc]
    obtain ⟨_, idx, pmm₁, halloc₁, hpmm, havail, hfewer, htable⟩ := oneblock_ok hone
    obtain ⟨h', vm', hloop, hgrown⟩ := @ih h.advance (Vm.map { vm with pmm := pmm } phys h.mCurrent
        { rw := true, user := false, clear := true })
      (by omega) (by rw [advance_high]; omega) (by omega) ⟨_, hrest⟩
    rw [← hpmm] at hfewer
    refine ⟨h', vm', ?_, .cons (by omega) havail hfewer htable hgrown⟩
    rw [sbrkLoop_step hroom (by omega) hone]
    exact hloop

-- ==== the whole call

/-- The rounding is exact, up to the last block of the address space. -/
theorem roundUp_div (hle : amount ≤ 0xFFFFF000) :
    roundUp amount / blocksize = blocksFor amount := by
  unfold roundUp blocksFor add32 blocksize
  split <;> omega

theorem blocksFor_pos (hpos : 0 < amount) : 0 < blocksFor amount := by
  unfold blocksFor blocksize
  omega

theorem sbrk_eq (hpos : 0 < amount) (hle : amount ≤ 0xFFFFF000) :
    h.sbrk vm amount = (sbrkLoop (blocksFor amount) h vm >>= fun r =>
      .ok (if r.1 then h.mCurrent else 0, r.2.1, r.2.2)) := by
  unfold sbrk
  rw [if_neg hpos.ne', roundUp_div hle]

/-- An amount that is too large to be rounded gets nothing, and the break
is returned as if it had. -/
theorem sbrk_wrapped (hlarge : 0xFFFFF000 < amount) (hword : amount < 0x100000000) :
    h.sbrk vm amount = .ok (h.mCurrent, h, vm) := by
  have hround : roundUp amount / blocksize = 0 := by
    unfold roundUp add32 blocksize
    split <;> omega
  unfold sbrk
  rw [if_neg (by omega), hround]
  rfl

theorem allOrNothing_of_whole (hword : amount < 0x100000000)
    (hwhole : h.Whole vm amount) : h.AllOrNothing vm amount := by
  rcases hwhole with ⟨hzero, hwithin⟩ | ⟨hlarge, hbreak⟩ |
    ⟨⟨hpos, hle⟩, hfull | ⟨hbreak, hwithin, hend, hpages⟩⟩
  · refine ⟨h.mCurrent, h, vm, if_pos hzero, .inl ⟨rfl, ?_⟩⟩
    rw [hzero]
    exact grown_nothing hwithin
  · exact ⟨h.mCurrent, h, vm, sbrk_wrapped hlarge hword, .inr ⟨hbreak, rfl, rfl⟩⟩
  · obtain ⟨n, hn⟩ := Nat.exists_eq_succ_of_ne_zero (blocksFor_pos hpos).ne'
    refine ⟨0, h, vm, ?_, .inr ⟨rfl, rfl, rfl⟩⟩
    rw [sbrk_eq hpos hle, hn, sbrkLoop_full hfull]
    rfl
  obtain ⟨h', vm', hloop, hgrown⟩ := sbrkLoop_fits hbreak hwithin hend hpages
  refine ⟨h.mCurrent, h', vm', ?_, .inl ⟨rfl, hgrown⟩⟩
  rw [sbrk_eq hpos hle, hloop]
  rfl

/-- A loop after which the heap has grown by all its rounds. -/
theorem fits_of_grown (hroom : h.mCurrent < h.high)
    (hloop : sbrkLoop (n + 1) h vm = .ok (enough, h', vm'))
    (hptr : (if enough then h.mCurrent else 0) = h.mCurrent)
    (hgrown : Grown h h' vm vm' (n + 1)) : h.Fits vm (n + 1) := by
  have hsome : 0 < (n + 1) * blocksize := Nat.mul_pos n.succ_pos (by decide)
  have hmoved := hgrown.moved
  -- the break has moved, so the loop has not stopped at address 0
  have hbreak : 0 < h.mCurrent := by
    obtain ⟨_, _, ⟨_, _, hstay, _⟩ | ⟨hne, _⟩⟩ := sbrkLoop_round hroom hloop
    · rw [hstay] at hmoved
      omega
    · exact Nat.pos_of_ne_zero hne
  have henough : enough = true := by
    by_contra hfail
    rw [if_neg hfail] at hptr
    exact hbreak.ne hptr
  rw [henough] at hloop
  exact ⟨hbreak, hmoved ▸ hgrown.within, hmoved ▸ h'.current_lt, sbrkLoop_pages hloop⟩

theorem whole_of_allOrNothing (hword : amount < 0x100000000)
    (hall : h.AllOrNothing vm amount) : h.Whole vm amount := by
  obtain ⟨ptr, h', vm', hsbrk, hcases⟩ := hall
  by_cases hzero : amount = 0
  · refine .inl ⟨hzero, ?_⟩
    unfold sbrk at hsbrk
    rw [if_pos hzero] at hsbrk
    obtain ⟨hptr, hh, _⟩ := ok_triple hsbrk
    rcases hcases with ⟨_, hgrown⟩ | ⟨hnull, _⟩
    · have hwithin := hgrown.within
      rw [← hh] at hwithin
      exact hwithin
    · omega
  have hpos := Nat.pos_of_ne_zero hzero
  by_cases hlarge : 0xFFFFF000 < amount
  · refine .inr (.inl ⟨hlarge, ?_⟩)
    rw [sbrk_wrapped hlarge hword] at hsbrk
    obtain ⟨hptr, hh, _⟩ := ok_triple hsbrk
    rcases hcases with ⟨_, hgrown⟩ | ⟨hnull, _⟩
    · -- the break would have had to move
      have hmoved := hgrown.moved
      have hsome := Nat.mul_pos (blocksFor_pos hpos) (show 0 < blocksize by decide)
      rw [← hh] at hmoved
      omega
    · exact hptr.trans hnull
  refine .inr (.inr ⟨⟨hpos, not_lt.1 hlarge⟩, ?_⟩)
  by_cases hroom : h.mCurrent < h.high
  · rw [sbrk_eq hpos (not_lt.1 hlarge)] at hsbrk
    obtain ⟨⟨enough, h₁, vm₁⟩, hloop, hsbrk⟩ := ok_bind hsbrk
    obtain ⟨hptr, hh, hvm⟩ := ok_triple hsbrk
    dsimp only at hptr hh hvm
    rw [hh, hvm] at hloop
    obtain ⟨n, hn⟩ := Nat.exists_eq_succ_of_ne_zero (blocksFor_pos hpos).ne'
    rw [hn] at hloop hcases ⊢
    rcases hcases with ⟨hcur, hgrown⟩ | ⟨_, _, hsame⟩
    · exact .inr (fits_of_grown hroom hloop (hptr.trans hcur) hgrown)
    · exact absurd hsame (sbrkLoop_marked hroom hloop)
  · exact .inl (not_lt.1 hroom)

/-- The heap grows by the whole amount or not at all exactly if the amount
can be rounded, and the heap is full to begin with or everything fits. -/
theorem allOrNothing_iff_whole {amount : Nat} (hword : amount < 0x100000000) :
    h.AllOrNothing vm amount ↔ h.Whole vm amount :=
  ⟨whole_of_allOrNothing hword, allOrNothing_of_whole hword⟩

/-- A heap with two blocks left. -/
def twoBlocks : KernelHeap where
  high := 0xC0401FFF
  mCurrent := 0xC0400000
  aligned := by decide
  current_lt := by decide
  high_lt := by decide

/-- A machine with sixteen pages of memory, none of them in use. -/
def sixteenPages : Vm where
  pmm := { mPages := fun i => { usable := decide (i < 16) } }
  memory := fun _ _ => 0
  table := fun _ => {}
  mKernelRegions := []

theorem sixteenPages_two : ∃ taken, allocPages 2 sixteenPages.pmm = .ok taken := by
  cases hpages : allocPages 2 sixteenPages.pmm with
  | error e =>
    have hok : (allocPages 2 sixteenPages.pmm).toOption.isSome = true := by decide
    rw [hpages] at hok
    cases hok
  | ok taken => exact ⟨taken, rfl⟩

/-- Five thousand bytes take the two blocks. -/
theorem allOrNothing_iff_whole_two : twoBlocks.AllOrNothing sixteenPages 5000 :=
  (allOrNothing_iff_whole (by decide)).2
    (.inr (.inr ⟨by decide, .inr ⟨by decide, by decide, by decide,
      sixteenPages_two⟩⟩))

/-- Nine thousand bytes do not fit. The answer is 0, but the two blocks
have been taken. -/
theorem twoBlocks_not_allOrNothing : ((twoBlocks.sbrk sixteenPages 9000).toOption.map fun r =>
      (r.1, r.2.1.mCurrent, (r.2.2.entry 0xC0400000).present, (r.2.2.entry 0xC0401000).present)) =
      some (0, 0xC0402000, true, true) ∧
    ¬ twoBlocks.AllOrNothing sixteenPages 9000 := by
  refine ⟨by decide +kernel, fun hall => ?_⟩
  rcases whole_of_allOrNothing (by decide) hall with
    ⟨hzero, _⟩ | ⟨hlarge, _⟩ | ⟨_, hfull | ⟨_, hwithin, _⟩⟩
  · cases hzero
  · exact absurd hlarge (by decide)
  · exact absurd hfull (by decide)
  · exact absurd hwithin (by decide)

-- ==== the heap of `malloc`

theorem advance_toHeap (hword : h.mCurrent + blocksize < 0x100000000) : h.advance.toHeap =
      { h.toHeap with mCurrent := h.mCurrent + blocksize } := by
  rw [← advance_eq hword]
  unfold advance
  dsimp only

/-- A loop that gets to its end is the loop over addresses alone that
`malloc` is modelled with. -/
theorem sbrkLoop_toHeap : ∀ {h : KernelHeap} {vm : Vm}, h.high ≤ 0xFFFFF000 →
      sbrkLoop n h vm = .ok (true, h', vm') →
      Heap.sbrkLoop n h.toHeap = some h'.toHeap := by
  induction n with
  | zero =>
    intro h vm _ hloop
    obtain ⟨_, rfl, _⟩ := ok_triple hloop
    rfl
  | succ n ih =>
    intro h vm hhigh hloop
    by_cases hroom : h.mCurrent < h.high
    · have hword : h.mCurrent + blocksize < 0x100000000 := by
        unfold blocksize
        omega
      obtain ⟨_, _, ⟨_, hfail, _⟩ | ⟨_, hloop⟩⟩ := sbrkLoop_round hroom hloop
      · cases hfail
      · unfold Heap.sbrkLoop
        rw [if_neg (not_le.2 hroom), ← advance_toHeap hword]
        exact ih (by rw [advance_high]; exact hhigh) hloop
    · rw [sbrkLoop_full (not_lt.1 hroom)] at hloop
      cases hloop

/-- So is `sbrk` when it succeeds, for a heap that ends before the last
page of the address space. -/
theorem sbrk_toHeap {ptr : Nat} (hhigh : h.high ≤ 0xFFFFF000) (hptr : ptr ≠ 0)
    (hsbrk : h.sbrk vm amount = .ok (ptr, h', vm')) :
    h.toHeap.sbrk amount = some (ptr, h'.toHeap) := by
  unfold sbrk at hsbrk
  unfold Heap.sbrk
  split at hsbrk
  next hzero =>
    obtain ⟨hcur, hh, _⟩ := ok_triple hsbrk
    rw [if_pos hzero, hcur, hh]
  next hzero =>
  obtain ⟨⟨enough, h₁, vm₁⟩, hloop, hsbrk⟩ := ok_bind hsbrk
  obtain ⟨hcur, hh, _⟩ := ok_triple hsbrk
  cases enough with
  | false => exact absurd hcur.symm hptr
  | true =>
    rw [if_neg hzero, sbrkLoop_toHeap hhigh hloop, hh, ← hcur]
    rfl

theorem sbrk_toHeap_two :
    twoBlocks.toHeap.sbrk 5000 = some (0xC0400000, ⟨0xC0401FFF, 0xC0402000⟩) :=
  sbrk_toHeap (by decide) (by decide)
    (show twoBlocks.sbrk sixteenPages 5000 = .ok (0xC0400000, _, _) from rfl)

end KernelHeap

end Puppy.Mm
