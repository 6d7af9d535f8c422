/-
What each operation of the physical page manager does to the page
records, and the bookkeeping they keep.

`Kept` is the manager's own invariant, with no reference to who holds
what: the free-page total is the number of available pages, only pages of
the array are usable and unusable pages have no references. Every
operation replaces the record of one usable page (`Kept.touch`), so each
preservation proof is one equation between the two totals. The only
operation that can break it is `alloc(base)` on a page whose counter is
at 255.
-/
import Puppy.Mm.Phys
import Puppy.Lib.Ledger

namespace Puppy.Mm

open Libc Lib PhysPage Finset Function

theorem index_mul (idx : Nat) : index (gPageSize * idx) = idx := by
  unfold index
  rw [Nat.mul_div_cancel_left idx (by decide)]

namespace PhysicalPageManager

variable {pmm pmm' : PhysicalPageManager}
  {idx base n num rc i next page_idx : Nat} {gain loss gain' loss' : Nat → Nat}
  {pages : Nat → PhysPage} {p : PhysPage} {r : Option Nat}

/-- How many pages a search may hand out. Irreducible, so that no
comparison of two totals enumerates the page array. -/
@[irreducible]
def availableCount (pages : Nat → PhysPage) : Nat :=
  ((range gNumPages).filter fun i => (pages i).available = true).card

theorem availableCount_update (hidx : idx < gNumPages) (page : PhysPage) :
    availableCount (update pages idx page) + (pages idx).available.toNat
      = availableCount pages + page.available.toNat := by
  unfold availableCount
  exact card_filter_update_add (range gNumPages) pages available (mem_range.2 hidx) page

theorem availableCount_le (pages : Nat → PhysPage) : availableCount pages ≤ gNumPages := by
  unfold availableCount
  have hle := card_filter_le (range gNumPages) (fun i => (pages i).available = true)
  rw [card_range] at hle
  exact hle

theorem availableCount_pos (hidx : idx < gNumPages) (havail : (pages idx).available = true) :
    0 < availableCount pages := by
  unfold availableCount
  exact card_pos.2 ⟨idx, mem_filter.2 ⟨mem_range.2 hidx, havail⟩⟩

structure Kept (pmm : PhysicalPageManager) : Prop where
  bounded : ∀ i, (pmm.mPages i).usable = true → i < gNumPages
  highest : ∀ i, (pmm.mPages i).usable = true → i ≤ pmm.mHighestPage
  top : pmm.mHighestPage < gNumPages
  lowest : pmm.mLowestPage = 0
  byte : ∀ i, (pmm.mPages i).refcnt < 0x100
  unused : ∀ i, (pmm.mPages i).usable = false → (pmm.mPages i).refcnt = 0
  total : pmm.mFreePages = availableCount pmm.mPages

theorem available_iff : p.available = true ↔ p.usable = true ∧ p.refcnt = 0 := by
  simp [available, free]

theorem Kept.total_le (hk : Kept pmm) : pmm.mFreePages ≤ 0x100000 := by
  rw [hk.total]
  exact availableCount_le pmm.mPages

/-- An available page is counted in the total. -/
theorem Kept.total_pos (hk : Kept pmm)
    (havail : (pmm.mPages idx).available = true) : 0 < pmm.mFreePages := by
  rw [hk.total]
  exact availableCount_pos (hk.bounded idx (available_iff.1 havail).1) havail

/-- Only memory is held. -/
theorem Kept.usable_of_held (hk : Kept pmm) (hheld : (pmm.mPages idx).refcnt ≠ 0) :
    (pmm.mPages idx).usable = true := by
  by_contra husable
  rw [Bool.not_eq_true] at husable
  exact hheld (hk.unused idx husable)

/-- The one way the operations change the records: a usable page gets a
new count. -/
structure Touched (pmm pmm' : PhysicalPageManager) (idx rc : Nat) : Prop where
  usable : (pmm.mPages idx).usable = true
  pages : pmm'.mPages = update pmm.mPages idx ⟨true, rc⟩
  lowest : pmm'.mLowestPage = pmm.mLowestPage
  highest : pmm'.mHighestPage = pmm.mHighestPage

theorem Touched.usable_eq (ht : Touched pmm pmm' idx rc) (i : Nat) :
    (pmm'.mPages i).usable = (pmm.mPages i).usable := by
  rw [ht.pages]
  by_cases hi : i = idx
  · rw [hi, update_self, ht.usable]
  · rw [update_of_ne hi]

theorem Touched.refcnt_self (ht : Touched pmm pmm' idx rc) : (pmm'.mPages idx).refcnt = rc := by
  rw [ht.pages, update_self]

theorem Touched.page_of_ne (ht : Touched pmm pmm' idx rc) (hi : i ≠ idx) :
    pmm'.mPages i = pmm.mPages i := by
  rw [ht.pages, update_of_ne hi]

/-- The invariant survives when the total follows the count. -/
theorem Kept.touch (hk : Kept pmm) (ht : Touched pmm pmm' idx rc) (hrc : rc < 0x100)
    (htotal : pmm'.mFreePages + (pmm.mPages idx).available.toNat
      = pmm.mFreePages + (decide (rc = 0)).toNat) : Kept pmm' := by
  have hsame := ht.usable_eq
  have husable := ht.usable
  have hpages := ht.pages
  have hhigh := ht.highest
  refine ⟨?_, ?_, hhigh ▸ hk.top, ht.lowest ▸ hk.lowest, ?_, ?_, ?_⟩
  · intro i hi
    exact hk.bounded i (hsame i ▸ hi)
  · intro i hi
    rw [hhigh]
    exact hk.highest i (hsame i ▸ hi)
  · intro i
    rw [hpages]
    by_cases hi : i = idx
    · rw [hi, update_self]
      exact hrc
    · rw [update_of_ne hi]
      exact hk.byte i
  · intro i hi
    have hne : i ≠ idx := by
      intro heq
      rw [hsame, heq, husable] at hi
      exact Bool.noConfusion hi
    rw [hpages, update_of_ne hne]
    exact hk.unused i (hsame i ▸ hi)
  have hcount := @availableCount_update idx pmm.mPages (hk.bounded idx husable) ⟨true, rc⟩
  have hnew : (⟨true, rc⟩ : PhysPage).available = decide (rc = 0) := by
    unfold available free
    rw [Bool.true_and]
    rfl
  have hold := hk.total
  rw [hnew] at hcount
  rw [hpages]
  omega

-- ==== alloc()

theorem allocScan_available (h : pmm.allocScan n idx = some i) :
    (pmm.mPages i).available = true := by
  induction n generalizing idx with
  | zero => simp [allocScan] at h
  | succ n ih =>
    unfold allocScan at h
    by_cases havail : (pmm.mPages (if idx = gNumPages then 0 else idx)).available = true
    · simp only [havail, if_true] at h
      cases h
      exact havail
    · simp only [havail] at h
      exact ih h

theorem incref_available (h : p.available = true) : p.incref = ⟨true, 1⟩ := by
  obtain ⟨husable, hzero⟩ := available_iff.1 h
  cases p with
  | mk usable refcnt =>
    simp only at husable hzero
    subst husable hzero
    rfl

/-- `alloc()` hands out an available page and takes the first reference. -/
theorem alloc_some (h : pmm.alloc = some (base, pmm')) :
    ∃ idx, base = gPageSize * idx ∧ (pmm.mPages idx).available = true ∧
      Touched pmm pmm' idx 1 ∧ pmm'.mFreePages = sub32 pmm.mFreePages 1 := by
  unfold alloc at h
  cases hscan : pmm.allocScan gNumPages pmm.mLastChecked with
  | none =>
    rw [hscan] at h
    cases h
  | some idx =>
    have havail := allocScan_available hscan
    rw [hscan] at h
    simp only [incref_available havail, Nat.one_pos, if_true] at h
    injection h with h
    injection h with hbase hpmm
    subst hpmm
    exact ⟨idx, hbase.symm, havail, ⟨(available_iff.1 havail).1, rfl, rfl, rfl⟩, rfl⟩

theorem sub32_one (hpos : 0 < n) (hlt : n < 0x100000000) : sub32 n 1 = n - 1 := sub32_of_le hlt hpos

/-- Each operation keeps the count of free pages. -/
theorem Kept.alloc (hk : Kept pmm) (h : pmm.alloc = some (base, pmm')) : Kept pmm' := by
  obtain ⟨idx, _, havail, htouch, htotal⟩ := alloc_some h
  have hpos := hk.total_pos havail
  have hle := hk.total_le
  have hlt : pmm.mFreePages < 0x100000000 := by omega
  apply hk.touch htouch (by decide)
  rw [htotal, sub32_one hpos hlt, havail, Bool.toNat_true]
  simp only [one_ne_zero, decide_false, Bool.toNat_false]
  omega

-- ==== alloc(base) and dealloc

theorem allocAt_ok (h : pmm.allocAt base = .ok pmm') : Touched pmm pmm' (index base)
        (((pmm.mPages (index base)).refcnt + 1) % 0x100) ∧
      pmm'.mFreePages = if ((pmm.mPages (index base)).refcnt + 1) % 0x100 = 1 then
          sub32 pmm.mFreePages 1
        else pmm.mFreePages := by
  unfold allocAt at h
  by_cases husable : (pmm.mPages (index base)).usable = false
  · simp only [husable, if_true] at h
    cases h
  simp only [husable] at h
  injection h with h
  rw [Bool.not_eq_false] at husable
  subst h
  refine ⟨⟨husable, ?_, rfl, rfl⟩, rfl⟩
  show update pmm.mPages (index base) (incref _) = _
  unfold incref
  rw [husable]

theorem allocAt_of_usable (husable : (pmm.mPages (index base)).usable = true) :
    ∃ pmm', pmm.allocAt base = .ok pmm' := by
  unfold allocAt
  rw [if_neg (by rw [husable]; decide)]
  exact ⟨_, rfl⟩

/-- It has no part in where the next search begins. -/
theorem allocAt_last (h : pmm.allocAt base = .ok pmm') : pmm'.mLastChecked = pmm.mLastChecked := by
  unfold PhysicalPageManager.allocAt at h
  dsimp only at h
  split at h
  · cases h
  · cases h
    rfl

theorem Kept.allocAt (hk : Kept pmm) (hbelow : (pmm.mPages (index base)).refcnt < 0xFF)
    (h : pmm.allocAt base = .ok pmm') : Kept pmm' := by
  obtain ⟨htouch, htotal⟩ := allocAt_ok h
  have husable := htouch.usable
  have hmod : ((pmm.mPages (index base)).refcnt + 1) % 0x100
      = (pmm.mPages (index base)).refcnt + 1 := Nat.mod_eq_of_lt (by omega)
  apply hk.touch htouch (Nat.mod_lt _ (by decide))
  rw [htotal, hmod]
  by_cases hfree : (pmm.mPages (index base)).refcnt = 0
  · have havail : (pmm.mPages (index base)).available = true := available_iff.2 ⟨husable, hfree⟩
    have hpos := hk.total_pos havail
    have hle := hk.total_le
    have hlt : pmm.mFreePages < 0x100000000 := by omega
    rw [havail, if_pos (by omega), sub32_one hpos hlt, Bool.toNat_true]
    simp only [Nat.add_eq_zero_iff, one_ne_zero, and_false, decide_false, Bool.toNat_false]
    omega
  · have havail : (pmm.mPages (index base)).available = false := by simp [available, free, hfree]
    rw [havail, if_neg (by omega)]
    simp

theorem dealloc_ok (h : pmm.dealloc base = .ok pmm') : (pmm.mPages (index base)).refcnt ≠ 0 ∧
      Touched pmm pmm' (index base) ((pmm.mPages (index base)).refcnt - 1) ∧
      pmm'.mFreePages = if (pmm.mPages (index base)).refcnt - 1 = 0 then
          add32 pmm.mFreePages 1
        else pmm.mFreePages := by
  unfold dealloc at h
  by_cases hbad : ((pmm.mPages (index base)).free
      || !(pmm.mPages (index base)).usable) = true
  · rw [if_pos hbad] at h
    cases h
  rw [if_neg hbad] at h
  simp only [free, Bool.or_eq_true, beq_iff_eq,
    Bool.not_eq_eq_eq_not, Bool.not_true, not_or, Bool.not_eq_false] at hbad
  cases h
  refine ⟨hbad.1, ⟨hbad.2, ?_, rfl, rfl⟩, rfl⟩
  show update pmm.mPages (index base) (decref _) = _
  unfold decref
  rw [hbad.2]

/-- `dealloc` panics on no usable page that is held. -/
theorem dealloc_of_held (husable : (pmm.mPages (index base)).usable = true)
    (hheld : (pmm.mPages (index base)).refcnt ≠ 0) :
    ∃ pmm', pmm.dealloc base = .ok pmm' := by
  unfold dealloc
  rw [if_neg (by simp [free, husable, hheld])]
  exact ⟨_, rfl⟩

theorem Kept.dealloc (hk : Kept pmm) (h : pmm.dealloc base = .ok pmm') : Kept pmm' := by
  obtain ⟨hheld, htouch, htotal⟩ := dealloc_ok h
  have hbyte := hk.byte (index base)
  apply hk.touch htouch (by omega)
  have havail : (pmm.mPages (index base)).available = false := by simp [available, free, hheld]
  have hle := hk.total_le
  have hlt : pmm.mFreePages + 1 < 0x100000000 := by omega
  rw [htotal, havail]
  by_cases hlast : (pmm.mPages (index base)).refcnt - 1 = 0
  · rw [if_pos hlast, add32_of_lt hlt]
    simp [hlast]
  · rw [if_neg hlast]
    simp [hlast]

-- ==== when alloc() succeeds

/-- The scan has seen every page when it gives up. -/
theorem allocScan_none (h : pmm.allocScan n idx = none) (hidx : idx ≤ gNumPages) :
    ∀ u < n, u < gNumPages → (pmm.mPages ((idx + u) % gNumPages)).available = false := by
  induction n generalizing idx with
  | zero =>
    intro u hu
    omega
  | succ n ih =>
    unfold allocScan at h
    dsimp only at h
    -- where the scan looks, once it has gone round
    have hwrap : (if idx = gNumPages then 0 else idx) = idx % gNumPages := by
      by_cases hend : idx = gNumPages
      · rw [if_pos hend, hend, Nat.mod_self]
      · rw [if_neg hend, Nat.mod_eq_of_lt (by omega)]
    rw [hwrap] at h
    split at h
    · cases h
    next hhere =>
    have hlt : idx % gNumPages < gNumPages := Nat.mod_lt _ (by decide)
    intro u hu hlast
    cases u with
    | zero =>
      rw [add_zero]
      exact Bool.not_eq_true _ ▸ hhere
    | succ u =>
      have hnext := ih h (by omega) u (by omega) (by omega)
      have hmod : (idx % gNumPages + 1 + u) % gNumPages = (idx + (u + 1)) % gNumPages := by
        rw [add_assoc, Nat.mod_add_mod, add_comm 1 u]
      rw [hmod] at hnext
      exact hnext

/-- A page is found if there is one, wherever the search begins. -/
theorem alloc_of_free (hk : Kept pmm) (hlast : pmm.mLastChecked ≤ gNumPages)
    (hfree : 0 < pmm.mFreePages) :
    ∃ base pmm', pmm.alloc = some (base, pmm') := by
  cases hscan : pmm.allocScan gNumPages pmm.mLastChecked with
  | some idx =>
    unfold alloc
    rw [hscan]
    exact ⟨_, _, rfl⟩
  | none =>
    rw [hk.total] at hfree
    unfold availableCount at hfree
    obtain ⟨i, hi⟩ := card_pos.1 hfree
    obtain ⟨hrange, havail⟩ := mem_filter.1 hi
    rw [mem_range] at hrange
    have hpos : 0 < gNumPages := by omega
    -- the round in which the scan comes to this page
    have hround := allocScan_none hscan hlast ((i + gNumPages - pmm.mLastChecked) % gNumPages)
      (Nat.mod_lt _ hpos) (Nat.mod_lt _ hpos)
    rw [Nat.add_mod_mod, show pmm.mLastChecked + (i + gNumPages - pmm.mLastChecked)
        = i + gNumPages by omega, Nat.add_mod_right,
      Nat.mod_eq_of_lt hrange, havail] at hround
    cases hround

/-- So many pages can be allocated one after the other. -/
structure Roomy (pmm : PhysicalPageManager) (n : Nat) : Prop where
  kept : pmm.Kept
  last : pmm.mLastChecked ≤ gNumPages
  free : n ≤ pmm.mFreePages

/-- While there are free pages, one is found. -/
theorem Roomy.alloc (h : Roomy pmm (n + 1)) :
    ∃ base pmm', pmm.alloc = some (base, pmm') ∧ Roomy pmm' n := by
  obtain ⟨base, pmm', halloc⟩ := alloc_of_free h.kept h.last (by have := h.free; omega)
  refine ⟨base, pmm', halloc, h.kept.alloc halloc, ?_, ?_⟩
  · cases hscan : pmm.allocScan gNumPages pmm.mLastChecked with
    | none =>
      unfold PhysicalPageManager.alloc at halloc
      rw [hscan] at halloc
      cases halloc
    | some idx =>
      have husable := (available_iff.1 (allocScan_available hscan)).1
      unfold PhysicalPageManager.alloc at halloc
      rw [hscan] at halloc
      cases halloc
      exact le_of_lt (h.kept.bounded idx husable)
  · obtain ⟨_, _, _, _, htotal⟩ := alloc_some halloc
    have hfree := h.free
    have hle := h.kept.total_le
    rw [htotal, sub32_one (by omega) (by omega)]
    omega

/-- A measure of how many pages can still be had: each allocation takes
one off. -/
def Supply (R : PhysicalPageManager → Nat → Prop) : Prop :=
  ∀ pmm n, R pmm (n + 1) → ∃ base pmm', pmm.alloc = some (base, pmm') ∧ R pmm' n

theorem roomy_supply : Supply Roomy := fun _ _ h => h.alloc

/-- One more reference on a page that is held takes no room. -/
theorem Roomy.allocAt (h : Roomy pmm n) (hheld : (pmm.mPages (index base)).refcnt ≠ 0)
    (hbelow : (pmm.mPages (index base)).refcnt < 0xFF)
    (hok : pmm.allocAt base = .ok pmm') : Roomy pmm' n := by
  obtain ⟨_, htotal⟩ := allocAt_ok hok
  refine ⟨h.kept.allocAt hbelow hok, ?_, ?_⟩
  · rw [allocAt_last hok]
    exact h.last
  · rw [htotal, if_neg (by omega)]
    exact h.free

-- ==== pages in a row

/-- The next `n` pages are taken. -/
def takeNext (pmm : PhysicalPageManager) (n : Nat) : PhysicalPageManager :=
  { pmm with
    mPages := fun i =>
      if pmm.mLastChecked < i ∧ i ≤ pmm.mLastChecked + n then ⟨true, 1⟩
      else pmm.mPages i
    mLastChecked := pmm.mLastChecked + n
    mFreePages := pmm.mFreePages - n }

/-- The page handed out last is still held, and the next `n` are free. -/
structure Ahead (pmm : PhysicalPageManager) (n : Nat) : Prop where
  held : (pmm.mPages pmm.mLastChecked).available = false
  inside : pmm.mLastChecked + n < gNumPages
  free : ∀ i, pmm.mLastChecked < i → i ≤ pmm.mLastChecked + n → (pmm.mPages i).available = true
  total : n ≤ pmm.mFreePages
  word : pmm.mFreePages < 0x100000000

theorem allocScan_skip (hidx : idx < gNumPages) (h : (pmm.mPages idx).available = false) :
    pmm.allocScan (n + 1) idx = pmm.allocScan n (idx + 1) := by
  have hne : idx ≠ gNumPages := ne_of_lt hidx
  rw [allocScan]
  simp only [hne, if_false, h, Bool.false_eq_true]

theorem allocScan_here (hidx : idx < gNumPages) (h : (pmm.mPages idx).available = true) :
    pmm.allocScan (n + 1) idx = some idx := by
  have hne : idx ≠ gNumPages := ne_of_lt hidx
  rw [allocScan]
  simp only [hne, if_false, h, if_true]

/-- The next page is the one that is taken. -/
theorem Ahead.alloc (h : Ahead pmm (n + 1)) :
    pmm.alloc = some (gPageSize * (pmm.mLastChecked + 1), pmm.takeNext 1) ∧
      Ahead (pmm.takeNext 1) n := by
  have hinside := h.inside
  have hnext := h.free (pmm.mLastChecked + 1) (by omega) (by omega)
  have hscan : pmm.allocScan gNumPages pmm.mLastChecked = some (pmm.mLastChecked + 1) := by
    show pmm.allocScan (0xFFFFE + 1 + 1) pmm.mLastChecked = _
    rw [allocScan_skip (by omega) h.held, allocScan_here (by omega) hnext]
  refine ⟨?_, ?_, ?_, ?_, ?_, ?_⟩
  · unfold PhysicalPageManager.alloc
    rw [hscan]
    dsimp only
    rw [incref_available hnext, if_pos Nat.one_pos, sub32_one (by have := h.total; omega) h.word]
    unfold takeNext setPage
    congr 3
    funext i
    dsimp only
    by_cases hi : i = pmm.mLastChecked + 1
    · rw [hi, update_self, if_pos (by omega)]
    · rw [update_of_ne hi, if_neg (by omega)]
  · unfold takeNext
    dsimp only
    rw [if_pos (by omega)]
    rfl
  · show pmm.mLastChecked + 1 + n < gNumPages
    omega
  · intro i hlow hhigh
    have hlow : pmm.mLastChecked + 1 < i := hlow
    have hhigh : i ≤ pmm.mLastChecked + 1 + n := hhigh
    unfold takeNext
    dsimp only
    rw [if_neg (by omega)]
    exact h.free i (by omega) (by omega)
  · have := h.total
    show n ≤ pmm.mFreePages - 1
    omega
  · have := h.word
    show pmm.mFreePages - 1 < 0x100000000
    omega

theorem takeNext_takeNext (m n : Nat) : (pmm.takeNext m).takeNext n = pmm.takeNext (m + n) := by
  unfold takeNext
  dsimp only
  congr 1
  · funext i
    by_cases hlater : pmm.mLastChecked + m < i ∧ i ≤ pmm.mLastChecked + m + n
    · rw [if_pos hlater, if_pos (by omega)]
    rw [if_neg hlater]
    by_cases hfirst : pmm.mLastChecked < i ∧ i ≤ pmm.mLastChecked + m
    · rw [if_pos hfirst, if_pos (by omega)]
    · rw [if_neg hfirst, if_neg (by omega)]
  · omega
  · omega

theorem takeNext_zero : pmm.takeNext 0 = pmm := by
  have hpages : (fun i => if pmm.mLastChecked < i ∧ i ≤ pmm.mLastChecked + 0
      then (⟨true, 1⟩ : PhysPage) else pmm.mPages i) = pmm.mPages := by
    funext i
    rw [if_neg (by omega)]
  unfold takeNext
  rw [hpages]
  rfl

-- ==== what an operation trades

/-- Every counter goes up by `gain` and down by `loss`, and the books stay
in order. -/
structure Traded (pmm pmm' : PhysicalPageManager) (gain loss : Nat → Nat) :
    Prop where
  refcnt : ∀ f, (pmm'.mPages f).refcnt + loss f = (pmm.mPages f).refcnt + gain f
  usable : ∀ f, (pmm'.mPages f).usable = (pmm.mPages f).usable
  kept : pmm.Kept → pmm'.Kept

/-- Nothing changes hands, or one reference from one entry to another. -/
theorem Traded.same (pmm : PhysicalPageManager) (frame : Option Nat) :
    Traded pmm pmm (named frame) (named frame) :=
  ⟨fun _ => rfl, fun _ => rfl, id⟩

theorem Traded.congr (h : Traded pmm pmm' gain loss)
    (hgain : ∀ f, gain f = gain' f) (hloss : ∀ f, loss f = loss' f) :
    Traded pmm pmm' gain' loss' := by
  rw [← funext hgain, ← funext hloss]
  exact h

/-- What two operations trade adds up. -/
theorem Traded.trans {pmm'' : PhysicalPageManager}
    (h : Traded pmm pmm' gain loss) (h' : Traded pmm' pmm'' gain' loss') :
    Traded pmm pmm'' (fun f => gain f + gain' f) (fun f => loss f + loss' f) := by
  refine ⟨?_, ?_, fun hk => h'.kept (h.kept hk)⟩
  · intro f
    have h1 := h.refcnt f
    have h2 := h'.refcnt f
    omega
  · intro f
    rw [h'.usable f, h.usable f]

theorem Touched.traded (ht : Touched pmm pmm' idx rc) (hkept : pmm.Kept → pmm'.Kept)
    (hself : rc + loss idx = (pmm.mPages idx).refcnt + gain idx)
    (hother : ∀ f ≠ idx, gain f = 0 ∧ loss f = 0) :
    Traded pmm pmm' gain loss := by
  refine ⟨?_, ht.usable_eq, hkept⟩
  intro f
  by_cases hf : f = idx
  · rw [hf, ht.refcnt_self]
    exact hself
  · rw [ht.page_of_ne hf, (hother f hf).1, (hother f hf).2]

theorem alloc_traded (h : pmm.alloc = some (gPageSize * idx, pmm')) :
    (pmm.mPages idx).available = true ∧ Traded pmm pmm' (named (some idx)) (fun _ => 0) := by
  obtain ⟨i, hbase, havail, htouch, _⟩ := alloc_some h
  have hi : i = idx := by
    have := congrArg index hbase
    rw [index_mul, index_mul] at this
    exact this.symm
  subst hi
  refine ⟨havail, htouch.traded (fun hk => hk.alloc h) ?_ ?_⟩
  · rw [(available_iff.1 havail).2, named_self]
  · intro f hf
    exact ⟨named_of_ne (Ne.symm hf), rfl⟩

theorem allocAt_traded (hbelow : (pmm.mPages (index base)).refcnt < 0xFF)
    (h : pmm.allocAt base = .ok pmm') :
    Traded pmm pmm' (named (some (index base))) (fun _ => 0) := by
  obtain ⟨htouch, _⟩ := allocAt_ok h
  refine htouch.traded (fun hk => hk.allocAt hbelow h) ?_ ?_
  · rw [named_self]
    omega
  · intro f hf
    exact ⟨named_of_ne (Ne.symm hf), rfl⟩

/-- A page that is held can be given back once. -/
theorem dealloc_traded (husable : (pmm.mPages (index base)).usable = true)
    (hheld : (pmm.mPages (index base)).refcnt ≠ 0) :
    ∃ pmm', pmm.dealloc base = .ok pmm' ∧
      Traded pmm pmm' (fun _ => 0) (named (some (index base))) := by
  obtain ⟨pmm', h⟩ := dealloc_of_held husable hheld
  obtain ⟨_, htouch, _⟩ := dealloc_ok h
  refine ⟨pmm', h, htouch.traded (fun hk => hk.dealloc h) ?_ ?_⟩
  · rw [named_self]
    omega
  · intro f hf
    exact ⟨rfl, named_of_ne (Ne.symm hf)⟩

-- ==== allocContiguousPages

/-- A row of pages without an obstacle is free. -/
theorem probe_none (h : pmm.probe num idx = .ok none) :
    ∀ u < num, (pmm.mPages (idx + u)).available = true := by
  induction num generalizing idx with
  | zero =>
    intro u hu
    omega
  | succ num ih =>
    unfold probe at h
    split_ifs at h with _ havail
    · intro u hu
      cases u with
      | zero => exact havail
      | succ u =>
        have := ih h u (by omega)
        rwa [show idx + (u + 1) = idx + 1 + u by omega]
    · cases h

/-- The probe names the page after the one that stands in the way. -/
theorem probe_some (h : pmm.probe num idx = .ok (some next)) :
    idx < next ∧ next ≤ idx + num ∧ next ≤ gNumPages ∧
      (pmm.mPages (next - 1)).available = false := by
  induction num generalizing idx with
  | zero => simp [probe] at h
  | succ num ih =>
    unfold probe at h
    split_ifs at h with hbound havail
    · obtain ⟨hlt, hle, hin, hway⟩ := ih h
      exact ⟨by omega, by omega, hin, hway⟩
    cases h
    rw [Bool.not_eq_true] at havail
    exact ⟨by omega, by omega, by omega, havail⟩

/-- What leaves the array is a probe over available pages to its end. -/
theorem probe_error {e : Panic} (h : pmm.probe num idx = .error e) (hidx : idx ≤ gNumPages) :
    e = .outOfBounds ∧ gNumPages < idx + num ∧
      ∀ i, idx ≤ i → i < gNumPages → (pmm.mPages i).available = true := by
  induction num generalizing idx with
  | zero => cases h
  | succ num ih =>
    unfold probe at h
    split_ifs at h with hbound havail
    · injection h with h
      exact ⟨h.symm, by omega, fun i hle hlt => by omega⟩
    obtain ⟨he, hlong, hrest⟩ := ih h (by omega)
    refine ⟨he, by omega, ?_⟩
    intro i hle hlt
    by_cases hi : i = idx
    · rw [hi]
      exact havail
    · exact hrest i (by omega) hlt

/-- The search ends at a run of available pages. -/
theorem searchRun_some (h : pmm.searchRun num page_idx = .ok (some idx)) :
    ∀ u < num, (pmm.mPages (idx + u)).available = true := by
  induction page_idx using searchRun.induct pmm num with
  | case1 page_idx e hprobe =>
    rw [searchRun, hprobe] at h
    cases h
  | case2 page_idx hprobe =>
    rw [searchRun, hprobe] at h
    cases h
    exact probe_none hprobe
  | case3 page_idx next hprobe hlast =>
    rw [searchRun, hprobe] at h
    simp [hlast] at h
  | case4 page_idx next hprobe hlast ih =>
    rw [searchRun, hprobe] at h
    simp only [hlast, dite_false] at h
    exact ih h

/-- The page in the way is not part of a run of available pages, so the run
is behind it. -/
theorem probe_behind (h : pmm.probe num page_idx = .ok (some next)) (hle : page_idx ≤ idx)
    (hall : ∀ u < num, (pmm.mPages (idx + u)).available = true) :
    next ≤ idx := by
  obtain ⟨hlt, hnext, _, hway⟩ := probe_some h
  by_contra hbefore
  have havail := hall (next - 1 - idx) (by omega)
  rw [show idx + (next - 1 - idx) = next - 1 by omega, hway] at havail
  cases havail

/-- The search stays inside the array when the array's last page is taken,
and when there is a run of the wanted length to stop at. -/
theorem searchRun_ok (htop : pmm.mHighestPage < gNumPages) (hidx : page_idx < gNumPages)
    (hsafe : (pmm.mPages (gNumPages - 1)).available = false ∨
      ∃ idx, page_idx ≤ idx ∧ pmm.RunAt num idx) :
    ∃ r, pmm.searchRun num page_idx = .ok r := by
  induction page_idx using searchRun.induct pmm num with
  | case1 page_idx e hprobe =>
    obtain ⟨_, hlong, hall⟩ := probe_error hprobe (by omega)
    cases hsafe with
    | inl htaken =>
      rw [hall (gNumPages - 1) (by omega) (by omega)] at htaken
      cases htaken
    | inr hrun =>
      obtain ⟨idx, hle, hin, _⟩ := hrun
      omega
  | case2 page_idx hprobe =>
    rw [searchRun, hprobe]
    exact ⟨_, rfl⟩
  | case3 page_idx next hprobe hlast =>
    rw [searchRun, hprobe]
    exact ⟨none, by simp [hlast]⟩
  | case4 page_idx next hprobe hlast ih =>
    rw [searchRun, hprobe]
    simp only [hlast, dite_false]
    apply ih (by omega)
    cases hsafe with
    | inl htaken => exact .inl htaken
    | inr hrun =>
      obtain ⟨idx, hle, hrun⟩ := hrun
      exact .inr ⟨idx, probe_behind hprobe hle hrun.2, hrun⟩

/-- Whatever run there is, the search ends no later than at that one. When
it gives up, it has seen that the last page of the array is taken. -/
theorem searchRun_first (h : Surveyed pmm) (hnum : 1 ≤ num)
    (hsearch : pmm.searchRun num page_idx = .ok r) :
    (∀ idx, page_idx ≤ idx → pmm.RunAt num idx → ∃ found, r = some found ∧ found ≤ idx) ∧
      (r = none → (pmm.mPages (gNumPages - 1)).available = false) := by
  induction page_idx using searchRun.induct pmm num with
  | case1 page_idx e hprobe =>
    rw [searchRun, hprobe] at hsearch
    cases hsearch
  | case2 page_idx hprobe =>
    rw [searchRun, hprobe] at hsearch
    cases hsearch
    exact ⟨fun idx hle _ => ⟨page_idx, rfl, hle⟩, nofun⟩
  | case3 page_idx next hprobe hlast =>
    rw [searchRun, hprobe] at hsearch
    simp only [hlast, dite_true] at hsearch
    cases hsearch
    refine ⟨?_, fun _ => ?_⟩
    · intro idx hle hrun
      have hbehind := probe_behind hprobe hle hrun.2
      have hfirst := hrun.2 0 hnum
      have hbelow := h.highest idx (available_iff.1 hfirst).1
      omega
    obtain ⟨_, _, hin, hway⟩ := probe_some hprobe
    by_contra havail
    rw [Bool.not_eq_false] at havail
    have hbelow := h.highest _ (available_iff.1 havail).1
    rw [show next - 1 = gNumPages - 1 by omega, havail] at hway
    cases hway
  | case4 page_idx next hprobe hlast ih =>
    rw [searchRun, hprobe] at hsearch
    simp only [hlast, dite_false] at hsearch
    obtain ⟨hfirst, hnone⟩ := ih hsearch
    exact ⟨fun idx hle hrun => hfirst idx (probe_behind hprobe hle hrun.2) hrun, hnone⟩

/-- Taking a run of available pages gives each of them one reference and
leaves the others alone. -/
theorem allocRun_ok (havail : ∀ u < num, (pmm.mPages (idx + u)).available = true) :
    ∃ pmm', pmm.allocRun num idx = .ok pmm' ∧ (Kept pmm → Kept pmm') ∧ (∀ i, pmm'.mPages i =
        if idx ≤ i ∧ i < idx + num then ⟨true, 1⟩ else pmm.mPages i) ∧
      add32 pmm'.mFreePages num = pmm.mFreePages % 0x100000000 := by
  induction num generalizing pmm idx with
  | zero =>
    refine ⟨pmm, rfl, id, fun i => ?_, rfl⟩
    rw [if_neg (by omega)]
  | succ num ih =>
    have hidx : index (idx * gPageSize) = idx := by rw [mul_comm, index_mul]
    obtain ⟨husable, hzero⟩ := available_iff.1 (havail 0 (by omega))
    rw [add_zero, ← hidx] at husable hzero
    obtain ⟨pmm₁, hfirst⟩ := allocAt_of_usable husable
    obtain ⟨htouch, hfree⟩ := allocAt_ok hfirst
    rw [hzero, if_pos rfl] at hfree
    rw [hzero, hidx] at htouch
    have hrest : ∀ u < num, (pmm₁.mPages (idx + 1 + u)).available = true := by
      intro u hu
      rw [htouch.page_of_ne (by omega), show idx + 1 + u = idx + (u + 1) by omega]
      exact havail (u + 1) (by omega)
    obtain ⟨pmm', hrun, hk', hpages, hfree'⟩ := ih hrest
    refine ⟨pmm', ?_, fun hk => hk' (hk.allocAt (by omega) hfirst), fun i => ?_, ?_⟩
    · unfold allocRun
      rw [hfirst]
      exact hrun
    · rw [hpages i]
      by_cases hi : i = idx
      · rw [hi, if_neg (by omega), if_pos (by omega), htouch.pages, update_self]
      rw [htouch.page_of_ne hi]
      by_cases hin : idx + 1 ≤ i ∧ i < idx + 1 + num
      · rw [if_pos hin, if_pos (by omega)]
      · rw [if_neg hin, if_neg (by omega)]
    · rw [hfree] at hfree'
      unfold add32 sub32 at *
      omega

/-- The search either gives up or names the run that is then taken. -/
theorem allocContiguousPages_cases (h : pmm.allocContiguousPages num = .ok (r, pmm')) :
    (pmm.searchRun num pmm.mLowestPage = .ok none ∧ r = none ∧ pmm' = pmm) ∨
      ∃ idx, pmm.searchRun num pmm.mLowestPage = .ok (some idx) ∧
        r = some (idx * gPageSize) ∧ pmm.allocRun num idx = .ok pmm' := by
  unfold allocContiguousPages at h
  split at h
  · cases h
  next hsearch =>
    cases h
    exact .inl ⟨hsearch, rfl, rfl⟩
  next idx hsearch =>
  split at h
  · cases h
  next hrun =>
  cases h
  exact .inr ⟨idx, hsearch, rfl, hrun⟩

/-- A successful `allocContiguousPages` takes a run of available pages. -/
theorem allocContiguousPages_some (hk : Kept pmm)
    (h : pmm.allocContiguousPages num = .ok (some base, pmm')) :
    Kept pmm' ∧ ∃ idx, base = idx * gPageSize ∧
      (∀ u < num, (pmm.mPages (idx + u)).available = true) ∧
      ∀ i, pmm'.mPages i = if idx ≤ i ∧ i < idx + num then ⟨true, 1⟩ else pmm.mPages i := by
  rcases allocContiguousPages_cases h with ⟨_, hr, _⟩ | ⟨idx, hsearch, hr, hrun⟩
  · cases hr
  injection hr with hr
  have havail := searchRun_some hsearch
  obtain ⟨pmm₁, hrun₁, hk₁, hpages, _⟩ := allocRun_ok havail
  rw [hrun] at hrun₁
  injection hrun₁ with hrun₁
  rw [hrun₁]
  exact ⟨hk₁ hk, idx, hr, havail, hpages⟩

/-- A failed one takes nothing. -/
theorem allocContiguousPages_none
    (h : pmm.allocContiguousPages num = .ok (none, pmm')) : pmm' = pmm := by
  rcases allocContiguousPages_cases h with ⟨_, _, hsame⟩ | ⟨_, _, hr, _⟩
  · exact hsame
  · cases hr

/-- A search that is cut short by the end of the array leaves it. -/
theorem not_takesLowest (h : Surveyed pmm) (hnum : 1 ≤ num)
    (hlast : (pmm.mPages (gNumPages - 1)).available = true)
    (hnone : ∀ idx, ¬ pmm.RunAt num idx) : ¬ pmm.TakesLowest num := by
  rintro (⟨idx, _, _, hleast, _⟩ | ⟨hcall, _⟩)
  · exact hnone idx hleast.1
  rcases allocContiguousPages_cases hcall with ⟨hsearch, _⟩ | ⟨_, _, hr, _⟩
  · rw [(searchRun_first h hnum hsearch).2 rfl] at hlast
    cases hlast
  · cases hr

/-- A search that the array is long enough for does what it should. -/
theorem Surveyed.takesLowest (h : Surveyed pmm) (hnum : 1 ≤ num)
    (hsafe : (pmm.mPages (gNumPages - 1)).available = false ∨
      ∃ idx, pmm.RunAt num idx) : pmm.TakesLowest num := by
  have hzero := h.lowest
  obtain ⟨r, hsearch⟩ : ∃ r, pmm.searchRun num pmm.mLowestPage = .ok r :=
    searchRun_ok h.top (by rw [hzero]; decide)
    (hsafe.imp_right fun ⟨idx, hrun⟩ => ⟨idx, by omega, hrun⟩)
  have hfirst := (searchRun_first h hnum hsearch).1
  cases r with
  | none =>
    right
    constructor
    · unfold allocContiguousPages
      rw [hsearch]
    · intro idx hrun
      obtain ⟨_, hfound, _⟩ := hfirst idx (by omega) hrun
      cases hfound
  | some idx =>
    have havail := searchRun_some hsearch
    obtain ⟨pmm', hrun, _, hpages, hfree⟩ := allocRun_ok havail
    have hlast := havail (num - 1) (by omega)
    have hbelow := h.highest _ (available_iff.1 hlast).1
    have htop := h.top
    left
    refine ⟨idx, pmm', ?_, ⟨⟨by omega, havail⟩, ?_⟩, fun i => ?_, ?_⟩
    · unfold allocContiguousPages
      rw [hsearch]
      simp only [hrun]
    · intro other hother
      obtain ⟨found, hfound, hle⟩ := hfirst other (by omega) hother
      injection hfound with hfound
      omega
    · rw [hpages i]
      split
      next hin =>
        have hi := havail (i - idx) (by omega)
        rw [show idx + (i - idx) = i by omega] at hi
        rw [incref_available hi]
      · rfl
    · rw [hfree, Nat.mod_eq_of_lt h.word]

/-- A search for contiguous pages is right just when the end of the array
does not cut it short: the last page there can be is taken, or there is a
run. -/
theorem takesLowest_iff {pmm : PhysicalPageManager} {num : Nat}
    (h : Surveyed pmm) (hnum : 1 ≤ num) :
    pmm.TakesLowest num ↔ (pmm.mPages (gNumPages - 1)).available = false ∨
        ∃ idx, pmm.RunAt num idx := by
  refine ⟨fun htakes => ?_, h.takesLowest hnum⟩
  by_contra hcut
  push Not at hcut
  exact not_takesLowest h hnum (by simpa using hcut.1) hcut.2 htakes

theorem surveyed_empty : Surveyed {} := ⟨rfl, nofun, by decide, by decide⟩

theorem Surveyed.addpage (h : Surveyed pmm) (hbase : index base < gNumPages) :
    Surveyed (pmm.addpage base) := by
  have htop := h.top
  refine ⟨?_, ?_, ?_, Nat.mod_lt _ (by decide)⟩
  · show (if index base < pmm.mLowestPage then _ else _) = 0
    rw [h.lowest, if_neg (Nat.not_lt_zero _)]
  · intro i hi
    have hbelow : i ≤ pmm.mHighestPage ∨ i = index base := by
      refine or_iff_not_imp_right.2 fun hne => h.highest i ?_
      rw [← hi]
      exact congrArg PhysPage.usable (update_of_ne hne _ _).symm
    show i ≤ if pmm.mHighestPage < index base then index base else pmm.mHighestPage
    split <;> omega
  · show (if pmm.mHighestPage < index base then index base else pmm.mHighestPage) < gNumPages
    split <;> assumption

/-- Pages 3, 5 and 6. Two in a row are taken from 5 on. -/
theorem takesLowest_three : let pmm := ((addpage {} 0x3000).addpage 0x5000).addpage 0x6000
    Surveyed pmm ∧ pmm.TakesLowest 2 ∧ pmm.RunAt 2 5 ∧ ¬ pmm.RunAt 2 3 := by
  intro pmm
  have hsurveyed : Surveyed pmm := ((surveyed_empty.addpage (by decide)).addpage
    (by decide)).addpage (by decide)
  have hrun : pmm.RunAt 2 5 := ⟨by decide, by decide⟩
  refine ⟨hsurveyed, (takesLowest_iff hsurveyed (by decide)).2 (.inr ⟨5, hrun⟩), hrun, ?_⟩
  exact fun h => absurd (h.2 1 (by decide)) (by decide)

/-- The one page is the last of the address space, and two are asked for. -/
theorem search_leaves_array : Surveyed (addpage {} 0xFFFFF000) ∧
    ¬ (addpage {} 0xFFFFF000).TakesLowest 2 := by
  have hsurveyed : Surveyed (addpage {} 0xFFFFF000) := surveyed_empty.addpage (by decide)
  refine ⟨hsurveyed, not_takesLowest hsurveyed (by decide) (by decide) ?_⟩
  rintro idx ⟨hin, hall⟩
  have hone : (update (fun _ => ({} : PhysPage)) 0xFFFFF
      { usable := true } (idx + 0)).available = true := hall 0 (by decide)
  have hin : idx + 2 ≤ 0x100000 := hin
  rw [update_of_ne (by omega)] at hone
  cases hone

end PhysicalPageManager

end Puppy.Mm
