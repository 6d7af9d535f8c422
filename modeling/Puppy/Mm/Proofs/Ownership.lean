/-
The references held are the references counted, as long as no page is
held 256 times over.

`Balanced` is the inductive invariant: the manager's own bookkeeping and
the equation between the stored count and the ledger, on every page.
Unusable pages have neither, which is what makes a matched `dealloc`
safe.
-/
import Puppy.Mm.Ownership
import Puppy.Mm.Proofs.Phys

namespace Puppy.Mm

open Libc Lib PhysicalPageManager Function

-- ==== boot

/-- A boot-time call rewrites one page record and the total follows; no
page is held yet. -/
theorem PhysicalPageManager.Kept.relabel {pmm pmm' : PhysicalPageManager}
    (hk : Kept pmm) (hzero : ∀ i, (pmm.mPages i).refcnt = 0) {idx : Nat}
    (usable : Bool) (hin : idx < gNumPages)
    (hpages : pmm'.mPages = update pmm.mPages idx ⟨usable, 0⟩)
    (hhigh : ∀ i, (pmm'.mPages i).usable = true → i ≤ pmm'.mHighestPage)
    (htop : pmm'.mHighestPage < gNumPages) (hlow : pmm'.mLowestPage = 0)
    (htotal : pmm'.mFreePages + (pmm.mPages idx).usable.toNat = pmm.mFreePages + usable.toNat) :
    Kept pmm' ∧ ∀ i, (pmm'.mPages i).refcnt = 0 := by
  have hzero' : ∀ i, (pmm'.mPages i).refcnt = 0 := by
    intro i
    rw [hpages]
    by_cases hi : i = idx
    · rw [hi, update_self]
    · rw [update_of_ne hi]
      exact hzero i
  have havail : ∀ p : PhysPage, p.refcnt = 0 → p.available = p.usable := by
    intro p hp
    unfold PhysPage.available PhysPage.free
    rw [hp]
    exact Bool.and_true _
  refine ⟨⟨?_, hhigh, htop, hlow, ?_, fun i _ => hzero' i, ?_⟩, hzero'⟩
  · intro i hi
    by_cases hidx : i = idx
    · rw [hidx]
      exact hin
    · rw [hpages, update_of_ne hidx] at hi
      exact hk.bounded i hi
  · intro i
    rw [hzero' i]
    decide
  have hcount := @availableCount_update idx pmm.mPages hin ⟨usable, 0⟩
  rw [havail _ (hzero idx), havail ⟨usable, 0⟩ rfl] at hcount
  dsimp only at hcount
  have hold := hk.total
  rw [hpages]
  omega

/-- After boot the books are in order and nothing is held. -/
theorem Booted.kept {pmm : PhysicalPageManager} (h : Booted pmm) :
    Kept pmm ∧ ∀ i, (pmm.mPages i).refcnt = 0 := by
  induction h with
  | init =>
    have hnone : availableCount (fun _ => ({} : PhysPage)) = 0 := by
      unfold availableCount
      rw [Finset.card_eq_zero]
      exact Finset.filter_false_of_mem (fun i _ => Bool.false_ne_true)
    refine ⟨⟨?_, ?_, by decide, rfl, ?_, fun _ _ => rfl, hnone.symm⟩, fun _ => rfl⟩
    · intro i hi
      cases hi
    · intro i hi
      cases hi
    · intro i
      exact Nat.zero_lt_succ _
  | @addpage pmm base _ hin hnew ih =>
    obtain ⟨hk, hzero⟩ := ih
    have hle := hk.total_le
    have hpage : ({ pmm.mPages (index base) with usable := true } : PhysPage) = ⟨true, 0⟩ := by
      dsimp only
      rw [hzero]
    apply hk.relabel hzero true hin
    · show update pmm.mPages (index base) _ = _
      rw [hpage]
    · intro i hi
      have hi' : i = index base ∨ i ≤ pmm.mHighestPage := by
        by_cases heq : i = index base
        · exact .inl heq
        refine .inr (hk.highest i ?_)
        rw [← hi]
        show _ = (update pmm.mPages (index base) _ i).usable
        rw [update_of_ne heq]
      show i ≤ if pmm.mHighestPage < index base then _ else _
      split <;> omega
    · show (if pmm.mHighestPage < index base then _ else _) < gNumPages
      have htop := hk.top
      split <;> omega
    · show (if index base < pmm.mLowestPage then _ else _) = 0
      rw [hk.lowest]
      rfl
    · rw [hnew]
      show add32 pmm.mFreePages 1 + 0 = pmm.mFreePages + 1
      rw [add32_of_lt (by omega)]
  | @reserve pmm pmm' base _ hres ih =>
    obtain ⟨hk, hzero⟩ := ih
    have hle := hk.total_le
    unfold PhysicalPageManager.reserve at hres
    by_cases hfree : (pmm.mPages (index base)).usable = false
    · simp only [hfree, if_true] at hres
      cases hres
    simp only [hfree] at hres
    cases hres
    rw [Bool.not_eq_false] at hfree
    have hpos := hk.total_pos (available_iff.2 ⟨hfree, hzero _⟩)
    have hpage : ({ pmm.mPages (index base) with usable := false } : PhysPage) = ⟨false, 0⟩ := by
      dsimp only
      rw [hzero]
    apply hk.relabel hzero false (hk.bounded _ hfree)
    · show update pmm.mPages (index base) _ = _
      rw [hpage]
    · intro i hi
      apply hk.highest i
      have hne : i ≠ index base := by
        intro heq
        rw [heq] at hi
        simp [setPage] at hi
      rw [← hi]
      show _ = (update pmm.mPages (index base) _ i).usable
      rw [update_of_ne hne]
    · exact hk.top
    · exact hk.lowest
    · rw [hfree]
      show sub32 pmm.mFreePages 1 + _ = _
      rw [sub32_one hpos (by omega), Bool.toNat_true, Bool.toNat_false]
      omega

namespace Tracked

-- ==== one operation

/-- The books are in order and agree with the ledger. -/
structure Balanced (s : Tracked) : Prop where
  kept : Kept s.pmm
  counted : ∀ i, (s.pmm.mPages i).refcnt = s.refs i

theorem take_one (refs : Nat → Nat) (idx i : Nat) :
    take refs idx 1 i = if i = idx then refs i + 1 else refs i := by
  unfold take
  by_cases hi : i = idx
  · rw [if_pos (by omega), if_pos hi]
  · rw [if_neg (by omega), if_neg hi]

variable {s s' : Tracked}

/-- An operation that touches one page keeps the balance when the ledger
changes with the count. -/
theorem Balanced.touch (hb : Balanced s) {idx rc : Nat} (hk : Kept s'.pmm)
    (ht : Touched s.pmm s'.pmm idx rc)
    (hself : s'.refs idx = rc) (hrest : ∀ i ≠ idx, s'.refs i = s.refs i) :
    Balanced s' := by
  refine ⟨hk, fun i => ?_⟩
  by_cases hi : i = idx
  · rw [hi, ht.refcnt_self, hself]
  · rw [ht.page_of_ne hi, hrest i hi, hb.counted]

/-- What one guarded operation preserves. -/
theorem step_balanced {op : PhysOp} (hb : Balanced s) (hrange : InRange s op)
    (h : step op s = .ok s') : Balanced s' := by
  cases op with
  | alloc =>
    rw [step] at h
    cases halloc : s.pmm.alloc with
    | none =>
      rw [halloc] at h
      injection h with h
      exact h ▸ hb
    | some result =>
      obtain ⟨base, pmm⟩ := result
      rw [halloc] at h
      cases h
      obtain ⟨idx, rfl, havail, htouch, _⟩ := alloc_some halloc
      have hzero := hb.counted idx
      rw [(available_iff.1 havail).2] at hzero
      rw [index_mul]
      refine hb.touch (hb.kept.alloc halloc) htouch ?_ ?_
      · show take s.refs idx 1 idx = 1
        rw [take_one, if_pos rfl, ← hzero]
      · intro i hi
        show take s.refs idx 1 i = s.refs i
        rw [take_one, if_neg hi]
  | allocAt base =>
    rw [step] at h
    cases halloc : s.pmm.allocAt base with
    | error e =>
      rw [halloc] at h
      cases h
    | ok pmm =>
      rw [halloc] at h
      cases h
      have hbelow : s.refs (index base) < 0xFF := hrange
      have hcount := hb.counted (index base)
      obtain ⟨htouch, _⟩ := allocAt_ok halloc
      refine hb.touch (hb.kept.allocAt (by omega) halloc) htouch ?_ ?_
      · show take s.refs (index base) 1 (index base) = _
        rw [take_one, if_pos rfl, Nat.mod_eq_of_lt (by omega), hcount]
      · intro i hi
        show take s.refs (index base) 1 i = s.refs i
        rw [take_one, if_neg hi]
  | allocContiguousPages num =>
    rw [step] at h
    cases halloc : s.pmm.allocContiguousPages num with
    | error e =>
      rw [halloc] at h
      cases h
    | ok result =>
      obtain ⟨found, pmm⟩ := result
      rw [halloc] at h
      cases found with
      | none =>
        cases h
        rw [allocContiguousPages_none halloc]
        exact hb
      | some base =>
        cases h
        obtain ⟨hk, idx, rfl, havail, hpages⟩ := allocContiguousPages_some hb.kept halloc
        refine ⟨hk, fun i => ?_⟩
        show (pmm.mPages i).refcnt = take s.refs (index _) num i
        rw [mul_comm, index_mul, hpages]
        unfold take
        by_cases hin : idx ≤ i ∧ i < idx + num
        · -- a page of the run was available, so nothing was held on it
          have hfree := havail (i - idx) (by omega)
          rw [show idx + (i - idx) = i by omega] at hfree
          have hzero := hb.counted i
          rw [(available_iff.1 hfree).2] at hzero
          rw [if_pos hin, if_pos hin, ← hzero]
        · rw [if_neg hin, if_neg hin, hb.counted]
  | dealloc base =>
    rw [step] at h
    cases hdealloc : s.pmm.dealloc base with
    | error e =>
      rw [hdealloc] at h
      cases h
    | ok pmm =>
      rw [hdealloc] at h
      cases h
      obtain ⟨_, htouch, _⟩ := dealloc_ok hdealloc
      refine hb.touch (hb.kept.dealloc hdealloc) htouch ?_ ?_
      · show give s.refs (index base) (index base) = _
        unfold give
        rw [if_pos rfl, hb.counted]
      intro i hi
      show give s.refs (index base) i = s.refs i
      unfold give
      rw [if_neg hi]

/-- What a guarded run preserves. -/
theorem balanced_of_reach (h : machine.Reach (fun s op => Matched s op ∧ InRange s op) s) :
    Balanced s := by
  refine Machine.Reach.invariant (I := Balanced) ?_ ?_ h
  · intro s hboot
    obtain ⟨hk, hzero⟩ := hboot.1.kept
    refine ⟨hk, fun i => ?_⟩
    rw [hzero, hboot.2]
  · intro s s' op hb hok hst
    exact step_balanced hb hok.2 hst

-- ==== what the holders rely on

theorem Balanced.owned (hb : Balanced s) : Owned s := by
  refine ⟨fun i _ => hb.counted i, ?_, ?_, ?_, ?_⟩
  · intro base pmm halloc
    obtain ⟨idx, rfl, havail, _⟩ := alloc_some halloc
    rw [index_mul, ← hb.counted]
    exact (available_iff.1 havail).2
  · intro num base pmm halloc u hu
    obtain ⟨_, idx, rfl, havail, _⟩ := allocContiguousPages_some hb.kept halloc
    rw [mul_comm, index_mul, ← hb.counted]
    exact (available_iff.1 (havail u hu)).2
  · intro base hheld
    rw [← hb.counted] at hheld
    apply dealloc_of_held
    · by_contra hunusable
      rw [Bool.not_eq_true] at hunusable
      have := hb.kept.unused _ hunusable
      omega
    · omega
  · rw [hb.kept.total]
    unfold availableCount
    refine congrArg Finset.card (Finset.filter_congr fun i _ => ?_)
    rw [available_iff, hb.counted]

/-- A search that the guard admits never leaves the page array. -/
theorem Balanced.contiguous_ok (hb : Balanced s) {num : Nat}
    (hrange : InRange s (.allocContiguousPages num)) :
    ∃ r, s.pmm.allocContiguousPages num = .ok r := by
  have hlow : s.pmm.mLowestPage = 0 := hb.kept.lowest
  have hsafe : (s.pmm.mPages (gNumPages - 1)).available = false ∨
      ∃ idx, s.pmm.mLowestPage ≤ idx ∧ s.pmm.RunAt num idx :=
    hrange.imp_right fun ⟨idx, hrun⟩ => ⟨idx, by omega, hrun⟩
  obtain ⟨found, hsearch⟩ := searchRun_ok hb.kept.top (by rw [hlow]; decide) hsafe
  unfold allocContiguousPages
  rw [hsearch]
  cases found with
  | none => exact ⟨_, rfl⟩
  | some idx =>
    obtain ⟨pmm, hrun, _⟩ := allocRun_ok (searchRun_some hsearch)
    simp only [hrun]
    exact ⟨_, rfl⟩

/-- In every run that gives back only what is held, never takes a 256th
reference to a page and never lets a search run off the page array, the
stored counts are the references held. -/
theorem owned_of_inRange_run {s : Tracked}
    (h : machine.Reach (fun s op => Matched s op ∧ InRange s op) s) :
    Owned s ∧ ∀ num, InRange s (.allocContiguousPages num) →
      ∃ r, s.pmm.allocContiguousPages num = .ok r := by
  have hb := balanced_of_reach h
  exact ⟨hb.owned, fun num hrange => hb.contiguous_ok hrange⟩

/-- One page of memory, the second of the machine. -/
def onePage : Tracked := { pmm := addpage {} 0x1000 }

theorem onePage_boot : machine.boot onePage :=
  ⟨.addpage _ .init (by decide) rfl, fun _ => rfl⟩

theorem onePage_usable :
    (onePage.pmm.mPages (index 0x1000)).usable = true := by decide

/-- A page taken twice and given back once is owned once. -/
theorem owned_onePage_shared : ∃ s, machine.run [.alloc, .allocAt 0x1000, .dealloc 0x1000] onePage
        = .ok s ∧ s.refs (index 0x1000) = 1 ∧ Owned s := by
  have hguarded : machine.Guarded (fun s op => Matched s op ∧ InRange s op)
      [.alloc, .allocAt 0x1000, .dealloc 0x1000] onePage := by
    refine ⟨⟨trivial, trivial⟩, ⟨trivial, ?_⟩, ⟨?_, trivial⟩, trivial⟩
    · exact (by decide : 1 < 0xFF)
    · exact (by decide : 0 < 2)
  refine ⟨_, rfl, by decide, (owned_of_inRange_run ?_).1⟩
  exact (Machine.Reach.boot onePage_boot).run hguarded rfl

-- ==== the 256th reference

/-- `n` more references to a usable page add `n` to the ledger, and `n`
modulo 256 to the stored count. -/
theorem run_allocAt (base n : Nat) : ∀ {s : Tracked}, (s.pmm.mPages (index base)).usable = true →
    (s.pmm.mPages (index base)).refcnt < 0x100 →
    ∃ s', machine.run (List.replicate n (.allocAt base)) s = .ok s' ∧
      (s'.pmm.mPages (index base)).usable = true ∧
      (s'.pmm.mPages (index base)).refcnt = ((s.pmm.mPages (index base)).refcnt + n) % 0x100 ∧
      s'.refs (index base) = s.refs (index base) + n := by
  induction n with
  | zero =>
    intro s husable hbyte
    exact ⟨s, rfl, husable, (Nat.mod_eq_of_lt hbyte).symm, rfl⟩
  | succ n ih =>
    intro s husable hbyte
    obtain ⟨pmm, halloc⟩ := allocAt_of_usable husable
    obtain ⟨htouch, _⟩ := allocAt_ok halloc
    have hstep : machine.step (.allocAt base) s = .ok ⟨pmm, take s.refs (index base) 1⟩ := by
      show Tracked.step (.allocAt base) s = _
      rw [Tracked.step, halloc]
    obtain ⟨s', hrun, husable', hcount, hrefs⟩ :=
      @ih ⟨pmm, take s.refs (index base) 1⟩ (by rw [htouch.usable_eq, husable])
        (by rw [htouch.refcnt_self]; omega)
    refine ⟨s', ?_, husable', ?_, ?_⟩
    · rw [List.replicate_succ, Machine.run, hstep]
      exact hrun
    · rw [hcount, htouch.refcnt_self]
      omega
    rw [hrefs]
    show take s.refs (index base) 1 (index base) + n = _
    rw [take_one, if_pos rfl]
    omega

/-- A page referenced 256 times over is recorded as free. -/
theorem not_owned_after_256_references : ¬ ∀ s, machine.Reach Matched s → Owned s := by
  intro hall
  obtain ⟨s, hrun, husable, hcount, hrefs⟩ := run_allocAt 0x1000 256 onePage_usable (by decide)
  have hguarded : machine.Guarded Matched (List.replicate 256 (.allocAt 0x1000)) onePage := by
    refine Machine.guarded_of_forall (fun op hop s => ?_) onePage
    rw [List.eq_of_mem_replicate hop]
    trivial
  have hreach : machine.Reach Matched s := (Machine.Reach.boot onePage_boot).run hguarded hrun
  have hcounted := (hall s hreach).counted _ husable
  omega

end Tracked

end Puppy.Mm
