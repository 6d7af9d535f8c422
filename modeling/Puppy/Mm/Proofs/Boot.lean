/-
From the firmware's map to usable pages.

A block gives the manager a run of consecutive pages (`addRounds_usable`).
For a block that is handled well the run is exactly what the block offers
(`addBlock_eq`), and since the blocks are apart no page is given twice, so
that the number of pages is right as well. A block that is not shows, unless
another one makes up for it.

Four things can go wrong with a block. When it begins in the first
megabyte, its length is corrected with the wrong sign, so that the kernel
takes memory beyond its end; or it is smaller than a megabyte, and all of
it is ignored. When it goes beyond 4 GB, address and length are cut off.
When it ends before the first page begins, its length becomes negative.
-/
import Puppy.Mm.Boot

namespace Puppy.Mm

open Libc MemoryBlock Finset Function

-- ==== a run of pages

namespace PhysicalPageManager

theorem addpage_usable (pmm : PhysicalPageManager) (base page : Nat) :
    ((pmm.addpage base).mPages page).usable = true ↔
      (pmm.mPages page).usable = true ∨ page = index base := by
  show (update pmm.mPages (index base)
    { pmm.mPages (index base) with usable := true } page).usable = true ↔ _
  by_cases h : page = index base
  · rw [h, update_self]
    simp
  · rw [update_of_ne h]
    simp [h]

theorem index_page (first : Nat) : index (first * gPageSize) = first :=
  Nat.mul_div_cancel _ (by decide)

theorem addRounds_zero (pmm : PhysicalPageManager) (base : Nat) : pmm.addRounds base 0 = pmm := rfl

/-- The next page, unless the run ends with the address space. -/
theorem addRounds_succ (pmm : PhysicalPageManager) {first rounds : Nat}
    (h : first + (rounds + 1) ≤ gNumPages) :
    pmm.addRounds (first * gPageSize) (rounds + 1) =
      (pmm.addpage (first * gPageSize)).addRounds ((first + 1) * gPageSize)
        rounds := by
  show (pmm.addpage (first * gPageSize)).addRounds (add32 (first * gPageSize) gPageSize) rounds = _
  cases rounds with
  | zero => rw [addRounds_zero, addRounds_zero]
  | succ rounds =>
    have hlt : first * gPageSize + gPageSize < 0x100000000 := by
      unfold gNumPages at h
      unfold gPageSize
      omega
    rw [add32_of_lt hlt, Nat.succ_mul]

theorem addRounds_usable (page : Nat) : ∀ (rounds : Nat)
    (pmm : PhysicalPageManager) (first : Nat), first + rounds ≤ gNumPages →
    (((pmm.addRounds (first * gPageSize) rounds).mPages page).usable = true ↔
      (pmm.mPages page).usable = true ∨ first ≤ page ∧ page < first + rounds) := by
  intro rounds
  induction rounds with
  | zero =>
    intro pmm first _
    have hnone : ¬ (first ≤ page ∧ page < first + 0) := by omega
    rw [or_iff_left hnone, addRounds_zero]
  | succ rounds ih =>
    intro pmm first h
    rw [addRounds_succ pmm h, ih _ _ (by omega), addpage_usable, index_page, or_assoc]
    refine or_congr_right ?_
    omega

theorem addRounds_total : ∀ (rounds : Nat) (pmm : PhysicalPageManager)
    (base : Nat), pmm.mTotalPages + rounds < 0x100000000 →
    (pmm.addRounds base rounds).mTotalPages = pmm.mTotalPages + rounds := by
  intro rounds
  induction rounds with
  | zero =>
    intro pmm base _
    rfl
  | succ rounds ih =>
    intro pmm base h
    have hone : (pmm.addpage base).mTotalPages = pmm.mTotalPages + 1 := add32_of_lt (by omega)
    show ((pmm.addpage base).addRounds _ rounds).mTotalPages = _
    rw [ih _ _ (by rw [hone]; omega), hone]
    omega

-- ==== one block

/-- A block of memory gives a run of so many pages. It begins where it should,
if the block has a page. -/
theorem addBlock_taken (pmm : PhysicalPageManager) {b : MemoryBlock} (htype : b.type = 1) :
    ∃ base, pmm.addBlock b = pmm.addRounds base b.taken ∧
      (0 < b.full → base = b.first * gPageSize) := by
  have hthreshold : ((1048576 : UInt64)).toNat = 1048576 := rfl
  have hbelow : b.addr < 1048576 ↔ b.addr.toNat < 0x100000 := by
    rw [UInt64.lt_iff_toNat_lt, hthreshold]
  have hbeyond : 1048576 ≤ b.addr ↔ ¬ b.addr.toNat < 0x100000 := by
    rw [UInt64.le_iff_toNat_le, hthreshold, Nat.not_lt]
  have hlarge : 1048576 ≤ b.len ↔ ¬ b.len.toNat < 0x100000 := by
    rw [UInt64.le_iff_toNat_le, hthreshold, Nat.not_lt]
  unfold addBlock taken full first stop
  rw [if_pos htype]
  dsimp only
  by_cases haddr : b.addr.toNat < 0x100000
  · rw [if_pos haddr, if_pos (hbelow.2 haddr)]
    by_cases hlen : b.len.toNat < 0x100000
    · -- a small block: nothing is taken
      rw [if_pos hlen, if_neg (not_not.2 hlen ∘ hlarge.1)]
      rw [if_neg (not_not.2 haddr ∘ hbeyond.1)]
      exact ⟨_, (addRounds_zero _ _).symm, fun _ => rfl⟩
    -- the correction of the length, with the wrong sign
    have hcut : (b.len - (b.addr - 1048576)).toNat % 0x100000000
        = (b.len.toNat + 0x100000 - b.addr.toNat) % 0x100000000 := by
      rw [UInt64.toNat_sub, UInt64.toNat_sub, hthreshold]
      omega
    rw [if_neg hlen, if_pos (hlarge.2 hlen)]
    dsimp only
    rw [if_pos (by decide), hcut, hthreshold]
    unfold addpages
    rw [if_neg (by decide)]
    refine ⟨_, rfl, fun _ => ?_⟩
    unfold gPageSize
    omega
  rw [if_neg haddr, if_neg (haddr ∘ hbelow.1)]
  rw [if_pos (hbeyond.2 haddr)]
  have hoff : offalignment (b.addr.toNat % 0x100000000) = b.addr.toNat % gPageSize := by
    unfold offalignment gPageSize
    omega
  unfold addpages
  dsimp only
  rw [hoff]
  by_cases halign : b.addr.toNat % gPageSize = 0
  · rw [if_pos halign, if_neg (by omega)]
    refine ⟨_, rfl, fun hfull => ?_⟩
    unfold gPageSize at *
    omega
  rw [if_neg halign, if_pos (by omega)]
  have hleft : sub32 (b.len.toNat % 0x100000000) (gPageSize - b.addr.toNat % gPageSize)
      = (b.len.toNat + 0x100000000 - (gPageSize - b.addr.toNat % gPageSize)) % 0x100000000 := by
    unfold sub32 gPageSize
    omega
  rw [hleft]
  refine ⟨_, rfl, fun hfull => ?_⟩
  unfold add32 sub32 gPageSize at *
  omega

theorem offers_iff {b : MemoryBlock} (htype : b.type = 1) (page : Nat) :
    b.Offers page ↔ b.first ≤ page ∧ page < b.first + b.full := by
  unfold Offers full first
  rw [and_iff_right htype]
  unfold gPageSize
  omega

theorem first_add_full {b : MemoryBlock} (h : 0 < b.full) : b.first + b.full ≤ gNumPages := by
  unfold full first gPageSize gNumPages at *
  omega

theorem card_offers {b : MemoryBlock} (htype : b.type = 1) :
    ((range gNumPages).filter b.Offers).card = b.full := by
  have hpages : (range gNumPages).filter b.Offers = Ico b.first (b.first + b.full) := by
    ext page
    rw [mem_filter, mem_range, mem_Ico, offers_iff htype page]
    have hbound := first_add_full (b := b)
    omega
  rw [hpages, Nat.card_Ico, Nat.add_sub_cancel_left]

/-- A block that is handled well gives what it offers. -/
theorem addBlock_eq (pmm : PhysicalPageManager) {b : MemoryBlock} (h : b.type = 1 → b.Plain) :
    ∃ first rounds, pmm.addBlock b = pmm.addRounds (first * gPageSize) rounds ∧
      first + rounds ≤ gNumPages ∧
      ∀ page, first ≤ page ∧ page < first + rounds ↔ b.Offers page := by
  by_cases hmemory : b.type = 1 ∧ 0 < b.full
  · obtain ⟨htype, hfull⟩ := hmemory
    obtain ⟨base, heq, hbase⟩ := pmm.addBlock_taken htype
    rw [h htype, hbase hfull] at heq
    exact ⟨_, _, heq, first_add_full hfull, fun page => (offers_iff htype page).symm⟩
  -- there is nothing to take
  have hnone : ∀ page, ¬ b.Offers page := by
    intro page hoffers
    have hin := (offers_iff hoffers.1 page).1 hoffers
    exact hmemory ⟨hoffers.1, by omega⟩
  have hsame : pmm.addBlock b = pmm := by
    by_cases htype : b.type = 1
    · obtain ⟨base, heq, -⟩ := pmm.addBlock_taken htype
      rw [heq, h htype, Nat.eq_zero_of_not_pos fun hfull => hmemory ⟨htype, hfull⟩, addRounds_zero]
    · exact if_neg htype
  refine ⟨0, 0, hsame.trans (addRounds_zero _ _).symm, zero_le, fun page => ?_⟩
  exact ⟨fun hpage => by omega, fun hoffers => absurd hoffers (hnone page)⟩

-- ==== the whole map

theorem not_both_offer {b b' : MemoryBlock} (h : b.Apart b') {page : Nat}
    (hb : b.Offers page) : ¬ b'.Offers page := by
  intro hb'
  unfold Offers at hb hb'
  unfold gPageSize at hb hb'
  rcases h with h | h
  · omega
  · omega

theorem offered_concat (mmap : List MemoryBlock) (b : MemoryBlock) (page : Nat) :
    Offered (mmap ++ [b]) page ↔ Offered mmap page ∨ b.Offers page := by
  unfold Offered
  simp [or_and_right, exists_or]

/-- One block more. -/
theorem Has.addBlock {mmap : List MemoryBlock} {pmm : PhysicalPageManager}
    {b : MemoryBlock} (h : pmm.Has mmap) (hb : b.type = 1 → b.Plain)
    (hapart : ∀ b' ∈ mmap, b'.Apart b) : (pmm.addBlock b).Has (mmap ++ [b]) := by
  obtain ⟨first, rounds, heq, hfit, hpages⟩ := pmm.addBlock_eq hb
  have hnew : (range gNumPages).filter b.Offers = Ico first (first + rounds) := by
    ext page
    rw [mem_filter, mem_range, mem_Ico, hpages page]
    refine and_iff_right_of_imp ?_
    intro hoffers
    have := (hpages page).2 hoffers
    omega
  have hdisjoint : Disjoint ((range gNumPages).filter (Offered mmap))
      ((range gNumPages).filter b.Offers) := by
    refine disjoint_filter.2 ?_
    rintro page _ ⟨b', hb', hoffers⟩
    exact not_both_offer (hapart b' hb') hoffers
  have hcard : ((range gNumPages).filter (Offered (mmap ++ [b]))).card =
      pmm.mTotalPages + rounds := by
    have hunion : (range gNumPages).filter (Offered (mmap ++ [b])) =
        (range gNumPages).filter (Offered mmap) ∪ (range gNumPages).filter b.Offers := by
      rw [← filter_or]
      exact filter_congr fun page _ => offered_concat mmap b page
    rw [hunion, card_union_of_disjoint hdisjoint, hnew, Nat.card_Ico,
      Nat.add_sub_cancel_left, h.total]
  have hsmall : pmm.mTotalPages + rounds < 0x100000000 := by
    rw [← hcard]
    refine lt_of_le_of_lt (card_filter_le _ _) ?_
    rw [card_range]
    decide
  constructor
  · intro page
    rw [heq, addRounds_usable page rounds pmm first hfit, h.usable page,
      hpages page, offered_concat]
  · rw [heq, addRounds_total rounds pmm _ hsmall, hcard]

theorem has_nil : ({} : PhysicalPageManager).Has [] where
  usable := by
    intro page
    constructor
    · nofun
    · rintro ⟨b, hb, _⟩
      cases hb
  total := by
    have hnone : (range gNumPages).filter (Offered []) = ∅ := by
      refine filter_eq_empty_iff.2 ?_
      rintro page _ ⟨b, hb, _⟩
      cases hb
    rw [hnone]
    rfl

/-- The loop, with the blocks that have been added already. -/
theorem Has.foldl : ∀ (rest mmap : List MemoryBlock) {pmm : PhysicalPageManager},
    pmm.Has mmap → (mmap ++ rest).Pairwise Apart →
    (∀ b ∈ rest, b.type = 1 → b.Plain) →
    (rest.foldl PhysicalPageManager.addBlock pmm).Has (mmap ++ rest) := by
  intro rest
  induction rest with
  | nil =>
    intro mmap pmm h _ _
    rw [List.append_nil]
    exact h
  | cons b rest ih =>
    intro mmap pmm h hapart hplain
    have hb : ∀ b' ∈ mmap, b'.Apart b := fun b' hb' =>
      (List.pairwise_append.1 hapart).2.2 b' hb' b List.mem_cons_self
    rw [List.append_cons] at hapart ⊢
    rw [List.foldl_cons]
    exact ih _ (h.addBlock (hplain b List.mem_cons_self) hb) hapart
      fun b' hb' => hplain b' (List.mem_cons_of_mem b hb')

/-- A block that is alone gives its pages, and their number, only if it is
handled well. -/
theorem plain_of_has {b : MemoryBlock} (htype : b.type = 1)
    (h : (setupPhysicalMemory [b]).Has [b]) : b.Plain := by
  obtain ⟨base, heq, -⟩ := ({} : PhysicalPageManager).addBlock_taken htype
  have hrounds : b.taken ≤ gNumPages := by
    unfold taken gPageSize gNumPages
    split_ifs <;> omega
  have htaken : (setupPhysicalMemory [b]).mTotalPages = b.taken := by
    unfold setupPhysicalMemory
    rw [List.foldl_cons, List.foldl_nil, heq, addRounds_total _ _ _ ?_]
    · exact Nat.zero_add _
    · show 0 + b.taken < 0x100000000
      unfold gNumPages at hrounds
      omega
  have hoffered : (range gNumPages).filter (Offered [b]) = (range gNumPages).filter b.Offers :=
    filter_congr fun page _ => by simp [Offered]
  unfold Plain
  rw [← htaken, h.total, hoffered, card_offers htype]

end PhysicalPageManager

end Puppy.Mm
