/-
The books of the whole system.

`Books` says that the counters of the physical page manager cover what the
page tables of all processes hold, and that the tables are in order. From
the point of view of one process it is `Accounts`, with everybody else in
`restOf`; and what `Accounts` still holds of when the process is done is
again `Books` of the system. That is the only place where the sum over the
processes is taken apart.
-/
import Puppy.Mm.Proofs.Space

namespace Puppy.Mm

open Libc Lib PhysicalPageManager

variable {q : Nat} {table : Nat → TableEntry}

/-- A process that has no memory of its own: not yet or no longer. -/
def Status.idle (st : Status) : Prop := st = .created ∨ st = .exited

/-- The tables of one process are in order. -/
structure TaskBooks (t : Task) : Prop where
  backed : ∀ i < gNumUserPages, (t.table i).frompmm = true → (t.table i).present = true
  owned : ∀ i < gNumUserPages, (t.table i).present = true → (t.table i).frompmm = true
  single : ∀ f, userRefs t.table f ≤ 1
  idle : t.status.idle → ∀ i < gNumUserPages, (t.table i).present = false
  tables : t.space.tables.length = 770

namespace System

/-- What the other processes hold. -/
@[irreducible]
def others (s : System) (p f : Nat) : Nat :=
  ∑ q ∈ (Finset.range Proc.gNumProcesses).erase p, weight f (s.tasks q)

/-- What is held of a page outside the tables in reach of a process. -/
def restOf (s : System) (p : Nat) (t : Task) (f : Nat) : Nat :=
  t.spaceRefs f + s.others p f

structure Books (s : System) : Prop where
  kept : s.pmm.Kept
  kernel : ∀ i, gNumUserPages ≤ i → i < gNumPages →
    (s.kernel i).frompmm = true → (s.kernel i).present = true
  bound : ∀ p t, s.tasks p = some t → p < Proc.gNumProcesses
  task : ∀ p t, s.tasks p = some t → TaskBooks t
  covered : ∀ f, s.refs f ≤ (s.pmm.mPages f).refcnt
  low : gKernelBase ≤ page s.mProcessPagesLow
  high : s.mProcessPagesHigh ≤ 0x100000000

variable {s s' : System} {p : Nat} {t : Task}

-- ==== taking the sum apart

/-- What is held is what one process holds and what the others do. -/
theorem held_eq (hp : p < Proc.gNumProcesses) (f : Nat) :
    s.held f = weight f (s.tasks p) + s.others p f := by
  unfold held others
  exact (Finset.add_sum_erase _ (fun q => weight f (s.tasks q)) (Finset.mem_range.2 hp)).symm

/-- The others are not concerned by what a process does. -/
theorem others_congr (h : ∀ q ≠ p, s'.tasks q = s.tasks q) (f : Nat) :
    s'.others p f = s.others p f := by
  unfold others
  apply Finset.sum_congr rfl
  intro q hq
  rw [h q (Finset.ne_of_mem_erase hq)]

/-- Another process is counted among the others. -/
theorem holds_le_others {u : Task} (hqp : q ≠ p) (hq : q < Proc.gNumProcesses)
    (hu : s.tasks q = some u) (f : Nat) :
    u.holds f ≤ s.others p f := by
  unfold others
  have hmem : q ∈ (Finset.range Proc.gNumProcesses).erase p :=
    Finset.mem_erase.2 ⟨hqp, Finset.mem_range.2 hq⟩
  have hle := Finset.single_le_sum (f := fun q => weight f (s.tasks q)) (fun _ _ => zero_le) hmem
  rw [hu] at hle
  exact hle

/-- Below the kernel the tables in reach are those of the process. -/
theorem look_user {i : Nat} (hi : i < gNumUserPages) : (s.look table).table i = table i := if_pos hi

/-- From there up they are those that all share. -/
theorem look_kernel {i : Nat} (hi : gNumUserPages ≤ i) : (s.look table).table i = s.kernel i :=
  if_neg (Nat.not_lt.2 hi)

/-- The two halves are counted one by one. -/
theorem tableRefs_look (table : Nat → TableEntry) (f : Nat) : tableRefs (s.look table).table f
      = userRefs table f + kernelRefs s.kernel f := by
  rw [tableRefs_eq]
  congr 1
  · exact userRefs_congr (fun i hi => by rw [look_user hi]) f
  · exact kernelRefs_congr (fun i hi _ => by rw [look_kernel hi]) f

/-- All references, seen from one process. -/
theorem refs_eq (hp : p < Proc.gNumProcesses) (ht : s.tasks p = some t) (f : Nat) :
    s.refs f = tableRefs (s.view t).table f + s.restOf p t f := by
  unfold refs restOf
  rw [held_eq hp, ht, view, tableRefs_look]
  show _ + (userRefs t.table f + t.spaceRefs f + _) = _
  omega

/-- The tables in reach are in order when the user half is. -/
theorem Books.look (hb : Books s) {rest : Nat → Nat}
    (hbacked : ∀ i < gNumUserPages, (table i).frompmm = true → (table i).present = true)
    (howned : ∀ i < gNumUserPages, (table i).present = true →
      (table i).frompmm = true) (hsingle : ∀ f, userRefs table f ≤ 1)
    (hcovered : ∀ f, userRefs table f + kernelRefs s.kernel f + rest f ≤ (s.pmm.mPages f).refcnt) :
    Accounts rest (s.look table) := by
  refine ⟨hb.kept, ?_, ?_, ?_, ?_⟩
  · intro i hi
    by_cases hu : i < gNumUserPages
    · rw [look_user hu]
      exact hbacked i hu
    · rw [look_kernel (by omega)]
      exact hb.kernel i (by omega) hi
  · intro i hi
    rw [look_user hi]
    exact howned i hi
  · intro f
    rw [userRefs_congr (fun i hi => by rw [look_user hi]) f]
    exact hsingle f
  · intro f
    rw [tableRefs_look]
    exact hcovered f

/-- So the accounts are right in the address space of any process. -/
theorem Books.accounts (hb : Books s) (ht : s.tasks p = some t) :
    Accounts (s.restOf p t) (s.view t) := by
  have htask := hb.task p t ht
  refine hb.look htask.backed htask.owned htask.single ?_
  intro f
  rw [← tableRefs_look]
  have heq := refs_eq (hb.bound p t ht) ht f
  have hcov := hb.covered f
  unfold view at heq
  omega

/-- A clone adds a reference to every page that is mapped. -/
theorem view_below (hfull : Shareable s.pmm t.table) :
    Shareable (s.view t).pmm (s.view t).table := by
  intro i hi
  rw [show (s.view t).table i = t.table i from look_user hi]
  exact hfull i hi

-- ==== a place that is filled or emptied

section Place

variable {o : Option Task} {vm : Vm} {t' : Task} {mm : MemoryManager}

theorem setTask_self : ((s.storeKernel vm).setTask p o).tasks p = o := by
  unfold setTask
  dsimp only
  rw [Function.update_self]

theorem setTask_other (hq : q ≠ p) : ((s.storeKernel vm).setTask p o).tasks q = s.tasks q := by
  unfold setTask
  dsimp only
  rw [Function.update_of_ne hq]
  rfl

/-- The references, when a place of the process table gets another task. -/
theorem refs_setTask (hp : p < Proc.gNumProcesses) (f : Nat) :
    ((s.storeKernel vm).setTask p o).refs f
      = kernelRefs vm.table f + (weight f o + s.others p f) := by
  unfold refs
  rw [held_eq hp, setTask_self, others_congr (fun q hq => setTask_other hq)]
  rfl

/-- The kernel works on its own half and a place of the process table gets
another owner. -/
theorem Books.setTask (hb : Books s) (hp : p < Proc.gNumProcesses)
    {rest : Nat → Nat} (ha : Accounts rest vm)
    (hrest : ∀ f, weight f o + s.others p f ≤ userRefs vm.table f + rest f)
    (htask : ∀ t, o = some t → TaskBooks t) :
    Books ((s.storeKernel vm).setTask p o) := by
  refine ⟨ha.kept, fun i _ hi => ha.backed i hi, ?_, ?_, ?_, hb.low, hb.high⟩
  · intro q u hu
    by_cases hq : q = p
    · rw [hq]
      exact hp
    · rw [setTask_other hq] at hu
      exact hb.bound q u hu
  · intro q u hu
    by_cases hq : q = p
    · rw [hq, setTask_self] at hu
      exact htask u hu
    · rw [setTask_other hq] at hu
      exact hb.task q u hu
  intro f
  have hcov := ha.covered f
  have hsplit := tableRefs_eq vm.table f
  have hless := hrest f
  rw [refs_setTask hp]
  show _ ≤ (vm.pmm.mPages f).refcnt
  omega

-- ==== putting it together again

theorem store_self : (s.store p t' mm vm).tasks p
      = some { t' with table := vm.table, mm := mm } := setTask_self

theorem store_other (hq : q ≠ p) : (s.store p t' mm vm).tasks q = s.tasks q := setTask_other hq

/-- The references, when a process has changed its own memory. -/
theorem refs_store (hp : p < Proc.gNumProcesses) (f : Nat) : (s.store p t' mm vm).refs f
      = tableRefs vm.table f + s.restOf p t' f := by
  unfold store restOf
  rw [refs_setTask hp, tableRefs_eq]
  show kernelRefs vm.table f + (userRefs vm.table f + t'.spaceRefs f + _) = _
  omega

/-- The books are kept when the accounts are, in the address space where
something has happened. -/
theorem Books.store (hb : Books s) (ht : s.tasks p = some t)
    (ha : Accounts (s.restOf p t') vm) (hspace : t'.space = t.space)
    (hidle : t'.status.idle → ∀ i < gNumUserPages, (vm.table i).present = false) :
    Books (s.store p t' mm vm) := by
  refine hb.setTask (hb.bound p t ht) ha ?_ ?_
  · intro f
    show userRefs vm.table f + t'.spaceRefs f + _ ≤ _
    unfold restOf
    omega
  rintro u ⟨⟩
  refine ⟨?_, ha.owned, ha.single, hidle, ?_⟩
  · intro i hi
    exact ha.backed i (lt_of_lt_of_le hi gNumUserPages_le)
  · rw [hspace]
    exact (hb.task p t ht).tables

-- ==== the kernel alone

/-- With nothing in the user half, the rest is what the processes hold. -/
theorem Books.kernelView (hb : Books s) {rest : Nat → Nat}
    (hcovered : ∀ f, kernelRefs s.kernel f + rest f
      ≤ (s.pmm.mPages f).refcnt) : Accounts rest s.kernelView := by
  refine hb.look ?_ ?_ ?_ ?_
  · intro i _ h
    cases h
  · intro i _ h
    cases h
  · intro f
    rw [userRefs_empty]
    exact zero_le_one
  · intro f
    rw [userRefs_empty, zero_add]
    exact hcovered f

/-- The kernel half has the references of the kernel only. -/
theorem tableRefs_kernelView (f : Nat) :
    tableRefs s.kernelView.table f = kernelRefs s.kernel f := by
  unfold kernelView
  rw [tableRefs_look, userRefs_empty, zero_add]

end Place

end System

end Puppy.Mm
