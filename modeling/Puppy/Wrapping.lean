/-
What becomes of a page with 256 references.

The counter of a page has eight bits, and sharing a page does not look at
it. A process that clones itself 255 times, each time with all its children
alive, has a page with 256 references and a counter of zero: the next copy
gives a reference back that, by the counter, nobody holds, and the kernel
panics.

The machine has to be large for that, so the run is not evaluated. Each
round does the same (`Brood.clone`): as long as memory is handed out in
ascending order (`Onward`), nothing that is held already is touched except
for the counters of the pages shared.
-/
import Puppy.Mm.Proofs.Duplication

namespace Puppy.Mm

open Libc Lib PhysicalPageManager PageFault TableEntry Finset Function Machine

-- ==== counters that may wrap

/-- Every counter goes up by `gain`, and starts again at 256. -/
structure Recounted (pmm pmm' : PhysicalPageManager) (gain : Nat → Nat) :
    Prop where
  last : pmm'.mLastChecked = pmm.mLastChecked
  usable : ∀ f, (pmm'.mPages f).usable = (pmm.mPages f).usable
  same : ∀ f, gain f = 0 → pmm'.mPages f = pmm.mPages f
  count : ∀ f, gain f ≠ 0 → (pmm'.mPages f).refcnt = ((pmm.mPages f).refcnt + gain f) % 0x100

section Recounted

variable {pmm pmm' pmm'' : PhysicalPageManager} {gain gain' : Nat → Nat}

theorem recounted_refl (pmm : PhysicalPageManager) :
    Recounted pmm pmm fun _ => 0 :=
  ⟨rfl, fun _ => rfl, fun _ _ => rfl, fun _ h => absurd rfl h⟩

theorem Recounted.congr (h : Recounted pmm pmm' gain)
    (hgain : ∀ f, gain f = gain' f) : Recounted pmm pmm' gain' := by
  rw [← funext hgain]
  exact h

theorem Recounted.trans (h : Recounted pmm pmm' gain) (h' : Recounted pmm' pmm'' gain') :
    Recounted pmm pmm'' fun f => gain f + gain' f := by
  refine ⟨h'.last.trans h.last, fun f => (h'.usable f).trans (h.usable f), ?_, ?_⟩
  · intro f hf
    rw [h'.same f (by omega), h.same f (by omega)]
  intro f hf
  by_cases hfirst : gain f = 0
  · rw [h'.count f (by omega), h.same f hfirst, hfirst, zero_add]
  have hcount := h.count f hfirst
  by_cases hlast : gain' f = 0
  · rw [h'.same f hlast, hlast, add_zero]
    exact hcount
  · have hcount' := h'.count f hlast
    omega

theorem recounted_allocAt {base : Nat} (h : pmm.allocAt base = .ok pmm') :
    Recounted pmm pmm' (named (some (index base))) := by
  obtain ⟨htouched, _⟩ := allocAt_ok h
  refine ⟨allocAt_last h, htouched.usable_eq, ?_, ?_⟩
  · intro f hf
    refine htouched.page_of_ne ?_
    rintro rfl
    rw [named_self] at hf
    cases hf
  · intro f hf
    by_cases heq : index base = f
    · rw [← heq, htouched.refcnt_self, named_self]
    · exact absurd (named_of_ne heq) hf

end Recounted

/-- The loop over the user half, whatever the counters are. -/
theorem cloneEntries_recounted {vm : Vm}
    (husable : ∀ i < gNumUserPages, ∀ f, (vm.table i).frame = some f →
      (vm.pmm.mPages f).usable = true) :
    ∀ n ≤ gNumUserPages, ∃ st, (List.range n).foldlM cloneEntry (fun _ => {}, vm) = .ok st ∧
        Recounted vm.pmm st.2.pmm (fun f => tally (Ico 0 n) TableEntry.frame vm.table f) := by
  intro n
  induction n with
  | zero =>
    intro _
    exact ⟨_, rfl, (recounted_refl vm.pmm).congr (fun f => (tally_Ico_self _ _ f 0).symm)⟩
  | succ n ih =>
    intro hn
    obtain ⟨st, hloop, hst⟩ := ih (by omega)
    have hentry : st.2.table n = vm.table n :=
      ((sharedTables_upto n (by omega) st hloop).undone n (Nat.le_refl n)).1
    have hlt : n < gNumPages := by
      have := gNumUserPages_le
      omega
    suffices hround : ∃ st', cloneEntry st n = .ok st' ∧
        Recounted st.2.pmm st'.2.pmm (named (vm.table n).frame) by
      obtain ⟨st', hround, hst'⟩ := hround
      refine ⟨st', ?_, (hst.trans hst').congr (fun f => (tally_Ico_succ _ _ f zero_le).symm)⟩
      rw [List.range_succ, List.foldlM_append]
      refine bind_eq_ok.2 ⟨st, hloop, ?_⟩
      rw [List.foldlM_cons]
      exact bind_eq_ok.2 ⟨st', hround, rfl⟩
    cases hpresent : (vm.table n).present with
    | false =>
      refine ⟨st, cloneEntry_absent (by rw [hentry]; exact hpresent), ?_⟩
      rw [frame_absent hpresent]
      exact (recounted_refl _).congr (fun f => (named_none f).symm)
    | true =>
      have hround := cloneEntry_present hlt (by rw [hentry]; exact hpresent)
      rw [hentry] at hround
      by_cases hpmm : (vm.table n).frompmm = true
      · have hframe : (vm.table n).frame = some (index (vm.table n).page) :=
          frame_eq_some.2 ⟨hpresent, hpmm, rfl⟩
        have hus := husable n (by omega) _ hframe
        rw [← hst.usable] at hus
        obtain ⟨pmm, halloc⟩ := allocAt_of_usable hus
        rw [if_pos hpmm, halloc, bind_ok] at hround
        refine ⟨_, hround, ?_⟩
        rw [hframe]
        exact recounted_allocAt halloc
      · rw [if_neg hpmm, bind_ok] at hround
        refine ⟨_, hround, ?_⟩
        rw [frame_eq_none (Bool.not_eq_true _ ▸ hpmm)]
        exact (recounted_refl _).congr (fun f => (named_none f).symm)

-- ==== memory in ascending order

/-- Since `pmm₀`, memory has been handed out in ascending order only, and
the `n` pages that are left up to `top` are free. -/
structure Onward (pmm₀ : PhysicalPageManager) (top : Nat)
    (pmm : PhysicalPageManager) (n : Nat) : Prop where
  held : (pmm.mPages pmm.mLastChecked).available = false
  left : pmm.mLastChecked + n = top
  inside : top < gNumPages
  free : ∀ i, pmm.mLastChecked < i → i ≤ top → (pmm.mPages i).available = true
  later : pmm₀.mLastChecked ≤ pmm.mLastChecked
  same : ∀ i ≤ pmm₀.mLastChecked, pmm.mPages i = pmm₀.mPages i

section Onward

variable {pmm₀ pmm pmm' : PhysicalPageManager} {top n : Nat}

theorem Onward.refl (h : Onward pmm₀ top pmm n) : Onward pmm top pmm n :=
  ⟨h.held, h.left, h.inside, h.free, le_rfl, fun _ _ => rfl⟩

theorem onward_supply (pmm₀ : PhysicalPageManager) (top : Nat) : Supply (Onward pmm₀ top) := by
  intro pmm n h
  have hleft := h.left
  have hinside := h.inside
  have hlater := h.later
  have hnext := h.free (pmm.mLastChecked + 1) (by omega) (by omega)
  have hscan : pmm.allocScan gNumPages pmm.mLastChecked = some (pmm.mLastChecked + 1) := by
    show pmm.allocScan (0xFFFFE + 1 + 1) pmm.mLastChecked = _
    rw [allocScan_skip (by omega) h.held, allocScan_here (by omega) hnext]
  unfold PhysicalPageManager.alloc
  rw [hscan]
  refine ⟨_, _, rfl, ?_, ?_, hinside, ?_, ?_, ?_⟩
  · dsimp only [setPage]
    rw [update_self, incref_available hnext]
    rfl
  · show pmm.mLastChecked + 1 + n = top
    omega
  · intro i hlow hhigh
    have hlow : pmm.mLastChecked + 1 < i := hlow
    dsimp only [setPage]
    rw [update_of_ne (by omega)]
    exact h.free i (by omega) hhigh
  · show pmm₀.mLastChecked ≤ pmm.mLastChecked + 1
    omega
  · intro i hi
    dsimp only [setPage]
    rw [update_of_ne (by omega)]
    exact h.same i hi

/-- Counters of pages handed out before do not change what is handed out
next. -/
theorem Onward.recounted (h : Onward pmm₀ top pmm n)
    {gain : Nat → Nat} (hcounted : Recounted pmm pmm' gain)
    (hgain : ∀ f, pmm.mLastChecked ≤ f → gain f = 0) :
    Onward pmm' top pmm' n := by
  have hlast := hcounted.last
  refine ⟨?_, ?_, h.inside, ?_, le_rfl, fun _ _ => rfl⟩
  · rw [hlast, hcounted.same _ (hgain _ le_rfl)]
    exact h.held
  · rw [hlast]
    exact h.left
  intro i hlow hhigh
  rw [hlast] at hlow
  rw [hcounted.same i (hgain i (by omega))]
  exact h.free i hlow hhigh

end Onward

/-- The frames of the user half are among the pages handed out. -/
def Behind (pmm : PhysicalPageManager) (table : Nat → TableEntry) : Prop :=
  ∀ i < gNumUserPages, ∀ f, (table i).frame = some f →
    f ≤ pmm.mLastChecked ∧ (pmm.mPages f).usable = true

/-- Pages that were handed out before are still what they were, but for the
references the tables have. -/
structure Grown (pmm : PhysicalPageManager) (table : Nat → TableEntry)
    (pmm' : PhysicalPageManager) : Prop where
  later : pmm.mLastChecked ≤ pmm'.mLastChecked
  usable : ∀ f ≤ pmm.mLastChecked, (pmm'.mPages f).usable = (pmm.mPages f).usable
  count : ∀ f ≤ pmm.mLastChecked, userRefs table f ≠ 0 → (pmm'.mPages f).refcnt
      = ((pmm.mPages f).refcnt + userRefs table f) % 0x100

theorem cloneAddressSpace_recounted {vm : Vm} {top n : Nat} (hframes : Behind vm.pmm vm.table)
    (hroom : Onward vm.pmm top vm.pmm (771 + n)) :
    ∃ space table vm', cloneAddressSpace vm = .ok (space, table, vm') ∧
      Onward vm'.pmm top vm'.pmm n ∧ Grown vm.pmm vm.table vm'.pmm := by
  obtain ⟨⟨space, pmm⟩, hcreate, honward⟩ :=
    createAddressSpace_supplied (onward_supply vm.pmm top) hroom
  have hleft := hroom.left
  have hleft' := honward.left
  dsimp only at honward hleft'
  obtain ⟨⟨table, vm'⟩, hloop, hcounted⟩ :=
    @cloneEntries_recounted { vm with pmm := pmm }
      (fun i hi f hf => by
        obtain ⟨hbehind, husable⟩ := hframes i hi f hf
        show (pmm.mPages f).usable = true
        rw [honward.same f hbehind]
        exact husable) gNumUserPages le_rfl
  have hloop : cloneEntries { vm with pmm := pmm } = .ok (table, vm') := by
    unfold cloneEntries
    exact hloop
  have hgain : ∀ f, tally (Ico 0 gNumUserPages) TableEntry.frame
      vm.table f = userRefs vm.table f := fun f =>
    (userRefs_eq vm.table f).symm
  have hcounted : Recounted pmm vm'.pmm (userRefs vm.table) := hcounted.congr hgain
  refine ⟨space, table, vm', ?_, honward.recounted hcounted ?_, ?_, ?_, ?_⟩
  · unfold cloneAddressSpace
    exact bind_eq_ok.2 ⟨_, hcreate, bind_eq_ok.2 ⟨_, hloop, rfl⟩⟩
  · intro f hf
    by_contra hne
    obtain ⟨i, hi, hframe⟩ := tally_pos_iff.1 (Nat.pos_of_ne_zero hne)
    have := (hframes i (mem_range.1 hi) f hframe).1
    omega
  · rw [hcounted.last]
    exact honward.later
  · intro f hf
    rw [hcounted.usable, honward.same f hf]
  · intro f hf hne
    rw [hcounted.count f hne, honward.same f hf]

/-- A page that could be written to, or copied for that, can be copied
afterwards. -/
theorem TableEntry.shared_rights (e : TableEntry) (h : (e.rw || e.cow) = true) :
    e.shared.user = e.user ∧ e.shared.rw = false ∧ e.shared.cow = true := by
  unfold shared
  cases hrw : e.rw with
  | true => exact ⟨rfl, rfl, rfl⟩
  | false =>
    rw [hrw, Bool.false_or] at h
    exact ⟨rfl, hrw, h⟩

-- ==== clone after clone

namespace System

variable {s s' : System} {t : Task} {i f k n top : Nat}

/-- The process with number 1 has cloned itself `k` times, and has a page
that all its children share. There is room for `n` more. -/
structure Brood (top i f k n : Nat) (s : System) (t : Task) : Prop where
  parent : s.tasks 1 = some t
  running : t.status = .running
  free : ∀ q, k + 2 ≤ q → q < 258 → s.tasks q = none
  behind : Behind s.pmm t.table
  user : (t.table i).user = true
  writable : ((t.table i).rw || (t.table i).cow) = true
  frame : (t.table i).frame = some f
  single : userRefs t.table f = 1
  count : (s.pmm.mPages f).refcnt = (k + 1) % 0x100
  ahead : Onward s.pmm top s.pmm (774 * n)
  spares : s.kernelView.Spares s.mProcessPagesLow s.mProcessPagesHigh (3 * n)

/-- One more. -/
theorem Brood.clone (h : Brood top i f k (n + 1) s t) (hi : i < gNumUserPages) (hk : k < 256) :
    ∃ s' t' u, s.clone 1 (k + 2) = .ok s' ∧ Brood top i f (k + 1) n s' t' ∧
      s'.tasks (k + 2) = some u ∧ u.table i = (t.table i).shared ∧
      u.mm = t.mm := by
  have hsame : ∀ j < gNumUserPages, (s.view t).table j = t.table j := fun j hj => look_user hj
  have hbehind : Behind (s.view t).pmm (s.view t).table := by
    intro j hj g hg
    rw [hsame j hj] at hg
    exact h.behind j hj g hg
  have hahead : Onward (s.view t).pmm top (s.view t).pmm (771 + (774 * n + 3)) := by
    rw [show 771 + (774 * n + 3) = 774 * (n + 1) by omega]
    exact h.ahead
  obtain ⟨space, table, vm, hspace, hroom, hgrown⟩ := cloneAddressSpace_recounted hbehind hahead
  have hshared := cloneAddressSpace_tables hspace
  have hspares : (s.store 1 t t.mm vm).kernelView.Spares s.mProcessPagesLow
      s.mProcessPagesHigh (3 * n + 3) :=
    spares_store h.spares (fun j hj => (hshared.undone j hj).1)
  obtain ⟨vm', proc, esp0, esp, hadd, hspares', hroom'⟩ :=
    addTask_supplied (m := 3 * n) (onward_supply vm.pmm top) (k + 2) .cloned
      space table t.mm hspares hroom
  have hgrown' : Grown s.pmm t.table vm'.pmm := by
    have huser : ∀ g, userRefs (s.view t).table g = userRefs t.table g :=
      userRefs_congr (fun j hj => congrArg TableEntry.frame (hsame j hj))
    refine ⟨le_trans hgrown.later hroom'.later, ?_, ?_⟩
    · intro g hg
      rw [hroom'.same g (le_trans hg hgrown.later)]
      exact hgrown.usable g hg
    intro g hg hne
    rw [← huser] at hne ⊢
    rw [hroom'.same g (le_trans hg hgrown.later)]
    exact hgrown.count g hg hne
  have hframes : ∀ j < gNumUserPages, (vm.table j).frame = (t.table j).frame := by
    intro j hj
    rw [hshared.frames.1 j, hsame j hj]
  have hmine : vm.table i = (t.table i).shared ∧ table i = (t.table i).shared := by
    obtain ⟨hpresent, _⟩ := frame_eq_some.1 h.frame
    rw [← hsame i hi] at hpresent ⊢
    exact hshared.done i hi hpresent
  refine ⟨_, { t with table := vm.table }, ⟨.cloned, space, table, t.mm, proc, esp0, esp⟩, ?_, ?_,
    @setTask_self (s.store 1 t t.mm vm) (k + 2) _ vm', hmine.2, rfl⟩
  · have hvacant : s.vacant (k + 2) = true := by
      unfold vacant
      rw [h.free (k + 2) le_rfl (by omega), Option.isNone_none, Bool.and_true, decide_eq_true_eq]
      show k + 2 < 2000
      omega
    unfold System.clone find
    rw [if_pos hvacant, h.parent]
    dsimp only
    rw [if_pos h.running]
    exact bind_eq_ok.2 ⟨t, rfl, bind_eq_ok.2 ⟨_, hspace, hadd⟩⟩
  refine ⟨?_, h.running, ?_, ?_, ?_, ?_, ?_, ?_, ?_, hroom'.refl, hspares'.mono ?_⟩
  · rw [setTask_other (by omega), store_self]
  · intro q hq hbelow
    rw [setTask_other (by omega), store_other (by omega)]
    exact h.free q (by omega) hbelow
  · intro j hj g hg
    obtain ⟨hlast, husable⟩ := h.behind j hj g ((hframes j hj) ▸ hg)
    refine ⟨le_trans hlast hgrown'.later, ?_⟩
    show (vm'.pmm.mPages g).usable = true
    rw [hgrown'.usable g hlast]
    exact husable
  · show (vm.table i).user = true
    rw [hmine.1, (shared_rights _ h.writable).1]
    exact h.user
  · show ((vm.table i).rw || (vm.table i).cow) = true
    rw [hmine.1, (shared_rights _ h.writable).2.2, Bool.or_true]
  · show (vm.table i).frame = some f
    rw [hframes i hi]
    exact h.frame
  · show userRefs vm.table f = 1
    rw [userRefs_congr hframes]
    exact h.single
  · have hbehind := (h.behind i hi f h.frame).1
    have hcount := hgrown'.count f hbehind (by rw [h.single]; exact Nat.one_ne_zero)
    rw [h.single, h.count] at hcount
    show (vm'.pmm.mPages f).refcnt = (k + 1 + 1) % 0x100
    omega
  · intro j hj
    by_cases hu : j < gNumUserPages
    · rw [kernelView, look_user hu]
    · rw [kernelView, look_kernel (by omega)]
      exact hj

/-- Clone after clone. -/
theorem Brood.clones {s₀ : System} (hi : i < gNumUserPages)
    (hreach : (memSystem s₀).Reach anyStep s) :
    ∀ k n, k ≤ 255 → Brood top i f 0 (k + n) s t →
      ∃ s' t', (memSystem s₀).Reach anyStep s' ∧ Brood top i f k n s' t' := by
  intro k
  induction k with
  | zero =>
    intro n _ h
    rw [zero_add] at h
    exact ⟨s, t, hreach, h⟩
  | succ k ih =>
    intro n hk h
    obtain ⟨s₁, t₁, hreach₁, h₁⟩ := ih (n + 1) (by omega) (by rw [add_right_comm] at h; exact h)
    obtain ⟨s₂, t₂, _, hclone, h₂, _⟩ := h₁.clone hi (by omega)
    exact ⟨s₂, t₂, .step (.clone 1 (k + 2)) hreach₁ trivial hclone, h₂⟩

/-- The copy that gives back a reference too many. -/
theorem outcome_wrapped {mm : MemoryManager} {vm : Vm} {vaddr : Nat}
    {file : FileRead} (honward : Onward vm.pmm top vm.pmm (n + 1))
    (hframe : (vm.entry vaddr).frame = some f)
    (hbehind : f ≤ vm.pmm.mLastChecked)
    (hzero : (vm.pmm.mPages f).refcnt = 0)
    (hrw : (vm.entry vaddr).rw = false) (hcow : (vm.entry vaddr).cow = true) :
    Mm.outcome mm vm vaddr true file = .error .deallocFree := by
  obtain ⟨hpresent, hpmm, hindex⟩ := frame_eq_some.1 hframe
  obtain ⟨base, pmm, halloc, honward'⟩ := onward_supply vm.pmm top _ _ honward
  have hfree : (pmm.mPages (index (vm.entry vaddr).page)).free = true := by
    rw [hindex, honward'.same f hbehind]
    unfold PhysPage.free
    rw [hzero]
    rfl
  -- the entry is what it was, so it is the old page that is given back
  have hunmap : ∀ memory, Vm.unmap { vm with pmm := pmm, memory := memory } vaddr
        = .error .deallocFree := by
    intro memory
    have hgive : pmm.dealloc (vm.entry vaddr).page = .error .deallocFree := by
      unfold PhysicalPageManager.dealloc
      dsimp only
      rw [hfree, Bool.true_or, if_pos rfl]
    show (if (vm.entry vaddr).frompmm then _ else _) = _
    rw [hpmm, if_pos rfl]
    show (if (vm.entry vaddr).present then _ else _) = _
    rw [hpresent, if_pos rfl]
    dsimp only
    rw [show Vm.entry { vm with pmm := pmm, memory := memory } vaddr
      = vm.entry vaddr from rfl, hgive]
  have hcopy : cowRecover vm vaddr = .error .deallocFree := by
    unfold cowRecover Vm.mapped
    rw [if_pos hpresent]
    dsimp only
    unfold Vm.clonePage
    rw [halloc]
    dsimp only [Vm.setMemory]
    rw [hunmap]
    rfl
  have hfault : pagefltHandler mm vm vaddr true file = .error .deallocFree := by
    unfold pagefltHandler Vm.isZeroPageAccess Vm.isCOWAccess
    rw [hpresent, hrw, hcow, Bool.not_true, Bool.and_false, if_neg Bool.false_ne_true]
    exact hcopy
  have hdenied : permits (vm.entry vaddr) true = false := by
    unfold permits
    rw [hrw]
    simp
  unfold Mm.outcome userAccess
  rw [access, if_neg (Bool.not_eq_true _ ▸ hdenied), hfault]
  rfl

/-- With 256 references, a child cannot write where its parent could. -/
theorem Brood.not_duplicates {vaddr : Nat} (hv : vaddr < gKernelBase)
    (h : Brood top (pageNumber vaddr) f 254 (n + 2) s t) :
    ¬ s.Duplicates 1 256 := by
  intro hdup
  have hi := (pageNumber_user hv).1
  obtain ⟨s', t', u, hclone, h', hu, hshared, _⟩ := h.clone hi (by decide)
  have hroom : ∀ {s : System} {m : Nat}, Onward s.pmm top s.pmm (m + 1) → s.pmm.alloc ≠ none := by
    intro s m honward
    obtain ⟨base, pmm, halloc, _⟩ := onward_supply s.pmm top _ _ honward
    rw [halloc]
    exact Option.some_ne_none _
  have halike := (hdup s' t t' u hclone (hroom h'.ahead) h.parent h'.parent
    hu).1 vaddr hv true .noSeek
  -- before: one of 255 references is given back for a copy
  have hentry : (s.view t).entry vaddr = t.table (pageNumber vaddr) := look_user hi
  obtain ⟨hpresent, _, hindex⟩ := frame_eq_some.1 h.frame
  have hheld : (s.view t).Held ((s.view t).entry vaddr) := by
    intro _
    rw [hentry, hindex]
    refine ⟨hpresent, (h.behind _ hi f h.frame).2, ?_⟩
    rw [show ((s.view t).pmm.mPages f).refcnt = 255 from h.count]
    decide
  have hbefore : s.outcome t vaddr true .noSeek = .ok (some (s.memory f (offset vaddr))) := by
    unfold System.outcome
    rw [outcome_present hheld (hroom h.ahead) (hentry ▸ hpresent), hentry,
      hindex, h.user, h.writable]
    rfl
  -- after: none of 256
  have hentry' : (s'.view u).entry vaddr = (t.table (pageNumber vaddr)).shared :=
    (look_user hi).trans hshared
  obtain ⟨_, hrw, hcow⟩ := shared_rights _ h.writable
  have hafter : s'.outcome u vaddr true .noSeek = .error .deallocFree := by
    have hahead : Onward s'.pmm top s'.pmm (774 * n + 773 + 1) := h'.ahead
    refine outcome_wrapped hahead ?_ ?_ h'.count ?_ ?_
    · rw [hentry', shared_frame]
      exact h.frame
    · exact (h'.behind _ hi f h'.frame).1
    · rw [hentry']
      exact hrw
    · rw [hentry']
      exact hcow
  rw [hbefore, hafter] at halike
  cases halike

-- ==== a large machine

/-- A machine with two gigabytes of memory, none of it in use. -/
def vast : System := blank 0x80000 0xD0400000

theorem vast_booted : vast.Booted := blank_booted (by decide) (by decide)

/-- The first process of the large machine has a page of data, and there is
room for its children. -/
def roomForMany (s : System) : Bool :=
  decide (s.mProcessPagesLow = 0xD0000000) && decide (s.mProcessPagesHigh = 0xD0400000) &&
    (List.range 768).all (fun j => !(s.kernel (0xD0003 + j)).present) &&
    (List.range 258).all (fun q => q < 2 || (s.tasks q).isNone) &&
    decide (s.pmm.mHighestPage = 0x7FFFF) &&
    !(s.pmm.mPages s.pmm.mLastChecked).available &&
    decide (s.pmm.mLastChecked < 0x1000) &&
    decide ((List.range (s.pmm.mLastChecked + 1)).countP (fun f => (s.pmm.mPages f).available)
      + (0x7FFFF - s.pmm.mLastChecked) = s.pmm.mFreePages) &&
    (s.tasks 1).any fun t => hasData t && (t.table 0x8048).frompmm &&
      decide ((s.pmm.mPages (index (t.table 0x8048).page)).refcnt = 1)

theorem vast_roomForMany : ∃ s, (memSystem vast).run [.spawn 1, .load 1 dataImage] vast = .ok s ∧
      s.roomForMany = true := by
  have hstep := endsWith_cons (M := memSystem vast) (.spawn 1) [.load 1 dataImage] vast
  rw [show (memSystem vast).step (.spawn 1) vast = _ from
    @blank_spawn 0x80000 0xD0400000 (by decide) (by decide)] at hstep
  obtain ⟨s, hrun, h⟩ := endsWith_iff.1 ((hstep fun s =>
    roomForMany { s with kernel := fun _ => {} }).trans (by decide +kernel))
  -- the kernel's pages apart, a few at a time: each lookup goes through all the load has done
  have habsent : ∀ k < 16, ((List.range 48).all fun j =>
      !(s.kernel (0xD0003 + (48 * k + j))).present) = true := by
    intro k hk
    obtain ⟨s', hrun', h⟩ := endsWith_iff.1 ((hstep fun s => (List.range 48).all fun j =>
      !(s.kernel (0xD0003 + (48 * k + j))).present).trans (by interval_cases k <;> decide +kernel))
    cases hrun.symm.trans hrun'
    exact h
  refine ⟨s, hrun, ?_⟩
  unfold roomForMany at h ⊢
  simp only [Bool.and_eq_true, List.all_eq_true, List.mem_range] at h habsent ⊢
  obtain ⟨⟨⟨⟨⟨⟨⟨hbounds, _⟩, h₁⟩, h₂⟩, h₃⟩, h₄⟩, h₅⟩, h₆⟩ := h
  refine ⟨⟨⟨⟨⟨⟨⟨hbounds, fun j hj => ?_⟩, h₁⟩, h₂⟩, h₃⟩, h₄⟩, h₅⟩, h₆⟩
  rw [← Nat.div_add_mod j 48]
  exact habsent (j / 48) (by omega) (j % 48) (by omega)

/-- If the total leaves nothing else to be free, every page above is. -/
theorem available_above {pmm : PhysicalPageManager} (hk : pmm.Kept)
    {last : Nat} (hlast : last ≤ pmm.mHighestPage)
    (htotal : (List.range (last + 1)).countP
        (fun f => (pmm.mPages f).available) + (pmm.mHighestPage - last)
      = pmm.mFreePages) {f : Nat} (hlow : last < f)
    (hhigh : f ≤ pmm.mHighestPage) : (pmm.mPages f).available = true := by
  by_contra hf
  have hbelow : ((range (last + 1)).filter fun i => (pmm.mPages i).available = true).card
        = (List.range (last + 1)).countP fun i => (pmm.mPages i).available := by
    rw [List.countP_eq_length_filter]
    show ((List.range (last + 1)).filter
      fun i => decide ((pmm.mPages i).available = true)).length = _
    simp only [Bool.decide_eq_true]
  have hsub : (range gNumPages).filter (fun i => (pmm.mPages i).available = true)
        ⊆ (range (last + 1)).filter (fun i => (pmm.mPages i).available = true)
          ∪ (Ioc last pmm.mHighestPage).erase f := by
    intro i hi
    obtain ⟨_, havail⟩ := mem_filter.1 hi
    have hle := hk.highest i (available_iff.1 havail).1
    rw [mem_union, mem_filter, mem_range, mem_erase, mem_Ioc]
    by_cases hlast : i < last + 1
    · exact Or.inl ⟨hlast, havail⟩
    · refine Or.inr ⟨?_, by omega, hle⟩
      rintro rfl
      exact hf havail
  have hcard := (card_le_card hsub).trans (card_union_le _ _)
  rw [hbelow, card_erase_of_mem (mem_Ioc.2 ⟨hlow, hhigh⟩), Nat.card_Ioc] at hcard
  have hcount := hk.total
  unfold availableCount at hcount
  omega

/-- The state the clones start from. -/
theorem brood_of_roomForMany (hb : Books s) (h : s.roomForMany = true) :
    ∃ top f t, Brood top 0x8048 f 0 256 s t := by
  have hk := hb.kept
  unfold roomForMany at h
  simp only [Bool.and_eq_true, decide_eq_true_eq, List.all_eq_true,
    Option.any_eq_true, List.mem_range, Bool.not_eq_true'] at h
  obtain ⟨⟨⟨⟨⟨⟨⟨⟨hlow, hhigh⟩, hspare⟩, hnone⟩, htop⟩, hheld⟩, hlast⟩, htotal⟩, t, ht, htask⟩ := h
  obtain ⟨⟨hdata, hpmm⟩, hcount⟩ := htask
  obtain ⟨hstatus, hpresent, hrw, hown, _⟩ := hasData_iff.1 hdata
  have hfree : ∀ f, s.pmm.mLastChecked < f → f ≤ 0x7FFFF → (s.pmm.mPages f).available = true := by
    intro f hf hle
    exact available_above hk (by omega) (by rw [htop]; exact htotal) hf (by omega)
  have hframe : (t.table 0x8048).frame = some (index (t.table 0x8048).page) :=
    frame_eq_some.2 ⟨hpresent, hpmm, rfl⟩
  refine ⟨s.pmm.mLastChecked + 774 * 256, _, t, ht, hstatus, ?_, ?_, hown,
    by rw [hrw, Bool.true_or], hframe, ?_, hcount, ?_, ?_⟩
  · intro q hlow hhigh
    have hq := hnone q hhigh
    rw [Bool.or_eq_true, decide_eq_true_eq, Option.isNone_iff_eq_none] at hq
    exact hq.resolve_left (by omega)
  · intro i hi f hf
    obtain ⟨hp, hpmm, hindex⟩ := frame_eq_some.1 hf
    have hentry : (s.view t).table i = t.table i := look_user hi
    have hlt : i < gNumPages := lt_of_lt_of_le hi gNumUserPages_le
    have hheld := (hb.accounts ht).held (i * gPageSize)
    rw [Vm.entry, pageNumber_mul hlt, hentry] at hheld
    obtain ⟨_, husable, hne⟩ := hheld hpmm
    rw [hindex] at husable hne
    refine ⟨?_, husable⟩
    by_contra hgt
    have hle := hk.highest f husable
    exact hne (available_iff.1 (hfree f (by omega) (by omega))).2
  · have hone := (hb.task 1 t ht).single (index (t.table 0x8048).page)
    have hpos : 0 < userRefs t.table (index (t.table 0x8048).page) :=
      tally_pos_iff.2 ⟨0x8048, mem_range.2 (by decide), hframe⟩
    omega
  · refine ⟨hheld, rfl, ?_, ?_, le_rfl, fun _ _ => rfl⟩
    · show s.pmm.mLastChecked + 774 * 256 < 0x100000
      omega
    · intro i hi hle
      exact hfree i hi (by omega)
  rw [hlow, hhigh]
  refine ⟨(List.range 768).map (0xD0003 + ·), by simp, ?_, ?_, ?_⟩
  · exact List.nodup_range.map (fun _ _ h => Nat.add_left_cancel h)
  · intro i hi
    obtain ⟨j, hj, rfl⟩ := List.mem_map.1 hi
    rw [List.mem_range] at hj
    refine ⟨0xD0000000 + (3 + j) * gPageSize, Vm.mem_pagesBelow.2 ⟨3 + j, rfl, ?_⟩, ?_⟩
    · show 0xD0000000 + (3 + j) * 0x1000 < 0xD0400000
      omega
    · unfold pageNumber index gNumPages gPageSize
      omega
  · intro i hi
    obtain ⟨j, hj, rfl⟩ := List.mem_map.1 hi
    rw [List.mem_range] at hj
    rw [kernelView, look_kernel (by unfold gNumUserPages; omega)]
    exact hspare j hj

/-- The 255th clone of a process has a page that it cannot write to, while
its parent could. -/
theorem vast_not_duplicates : vast.Booted ∧
    ∃ s, (memSystem vast).Reach anyStep s ∧ ¬ s.Duplicates 1 256 := by
  refine ⟨vast_booted, ?_⟩
  obtain ⟨s, hrun, hroom⟩ := vast_roomForMany
  have hreach : (memSystem vast).Reach KeepsCounts s := reach_loaded hrun
  obtain ⟨top, f, t, hbrood⟩ := brood_of_roomForMany (books_of_reach vast_booted hreach) hroom
  obtain ⟨s', t', hreach', hbrood'⟩ := Brood.clones (by decide)
    (hreach.mono (fun _ _ _ => trivial)) 254 2 (by decide) hbrood
  exact ⟨s', hreach', @Brood.not_duplicates s' t' f 0 top 0x08048000 (by decide) hbrood'⟩

end System

end Puppy.Mm
