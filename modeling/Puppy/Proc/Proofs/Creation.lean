/-
A process that is refused has cost its parent memory.

# The argument

The counter of free pages goes down by one for each page that is allocated,
and by nothing else that `exec` or `cloneProcess` does before `spawn` is
asked. `createAddressSpace` takes 771 pages, `cloneAddressSpace` those and
at most one for each entry of the user half, for the pages on which nobody
seemed to hold a reference. That is less than the 4294967296 after which a
counter of 32 bits is back where it was. So the counter is not what it was
when `spawn` says no, whatever state the call began in, and a request leaves
everything as it is only if it is not refused.
-/
import Puppy.Proc.Creation
import Puppy.Mm.Proofs.Spawning

namespace Puppy.Mm

open Libc Lib PhysicalPageManager

variable {inheritsSystem : Bool} {prio : ExecPriority} {r : Request}

-- ==== the counter of free pages

/-- The counter has gone down by so many pages. -/
def CountedDown (n : Nat) (pmm pmm' : PhysicalPageManager) : Prop :=
  pmm'.mFreePages = if n = 0 then pmm.mFreePages else sub32 pmm.mFreePages n

section CountedDown

variable {pmm pmm' pmm₁ : PhysicalPageManager} {m n : Nat}

theorem CountedDown.refl (pmm : PhysicalPageManager) : CountedDown 0 pmm pmm := rfl

theorem countedDown_iff (hpos : 0 < n) :
    CountedDown n pmm pmm' ↔ pmm'.mFreePages = sub32 pmm.mFreePages n := by
  unfold CountedDown
  rw [if_neg (by omega)]

theorem CountedDown.trans (h : CountedDown m pmm pmm₁) (h₁ : CountedDown n pmm₁ pmm') :
    CountedDown (m + n) pmm pmm' := by
  unfold CountedDown sub32 at *
  split_ifs at * <;> omega

/-- It takes a whole turn to be where it was. -/
theorem CountedDown.ne (h : CountedDown n pmm pmm') (hpos : 0 < n)
    (hlt : n < 0x100000000) : pmm'.mFreePages ≠ pmm.mFreePages := by
  rw [countedDown_iff hpos] at h
  unfold sub32 at h
  omega

theorem alloc_countedDown {base : Nat} (h : pmm.alloc = some (base, pmm')) :
    CountedDown 1 pmm pmm' := by
  obtain ⟨_, _, _, _, hfree⟩ := alloc_some h
  exact (countedDown_iff Nat.one_pos).2 hfree

theorem allocAt_countedDown {base : Nat} (h : pmm.allocAt base = .ok pmm') :
    ∃ n ≤ 1, CountedDown n pmm pmm' := by
  obtain ⟨_, hfree⟩ := allocAt_ok h
  split at hfree
  · exact ⟨1, Nat.le_refl 1, (countedDown_iff Nat.one_pos).2 hfree⟩
  · exact ⟨0, zero_le_one, hfree⟩

theorem allocPages_countedDown {pages : List Nat}
    (h : allocPages n pmm = .ok (pages, pmm')) : CountedDown n pmm pmm' := by
  induction n generalizing pmm pages with
  | zero =>
    obtain ⟨_, rfl⟩ := ok_pair h
    exact CountedDown.refl pmm
  | succ n ih =>
    rw [allocPages] at h
    cases halloc : pmm.alloc with
    | none =>
      rw [halloc] at h
      cases h
    | some x =>
      obtain ⟨phys, pmm₁⟩ := x
      rw [halloc] at h
      obtain ⟨⟨rest, pmm₂⟩, hrest, h⟩ := ok_bind h
      obtain ⟨_, rfl⟩ := ok_pair h
      rw [add_comm]
      exact (alloc_countedDown halloc).trans (ih hrest)

theorem createAddressSpace_countedDown {space : AddressSpace}
    (h : createAddressSpace pmm = .ok (space, pmm')) :
    CountedDown 771 pmm pmm' := by
  unfold createAddressSpace at h
  cases halloc : pmm.alloc with
  | none =>
    rw [halloc] at h
    cases h
  | some x =>
    obtain ⟨cr3, pmm₁⟩ := x
    rw [halloc] at h
    obtain ⟨⟨tables, pmm₂⟩, htables, h⟩ := ok_bind h
    cases h
    have hall := (alloc_countedDown halloc).trans (allocPages_countedDown htables)
    exact hall

end CountedDown

section CloneCountedDown

variable {vm vm' : Vm} {st st' : (Nat → TableEntry) × Vm}

theorem cloneEntry_countedDown {i : Nat} (hi : i < gNumPages) (h : cloneEntry st i = .ok st') :
    ∃ n ≤ 1, CountedDown n st.2.pmm st'.2.pmm := by
  cases hpresent : (st.2.table i).present with
  | false =>
    rw [cloneEntry_absent hpresent] at h
    cases h
    exact ⟨0, zero_le_one, CountedDown.refl _⟩
  | true =>
    rw [cloneEntry_present hi hpresent] at h
    obtain ⟨pmm, hpmm, h⟩ := ok_bind h
    cases h
    split at hpmm
    · exact allocAt_countedDown hpmm
    · cases hpmm
      exact ⟨0, zero_le_one, CountedDown.refl _⟩

/-- The loop draws at most one page for each round. -/
theorem cloneEntry_fold_countedDown : ∀ m ≤ gNumUserPages, ∀ st',
    (List.range m).foldlM cloneEntry st = .ok st' → ∃ n ≤ m, CountedDown n st.2.pmm st'.2.pmm := by
  intro m
  induction m with
  | zero =>
    intro _ st' hloop
    cases hloop
    exact ⟨0, Nat.le_refl 0, CountedDown.refl _⟩
  | succ m ih =>
    intro hm st' hloop
    rw [List.range_succ, List.foldlM_append] at hloop
    obtain ⟨st₁, hloop, hround⟩ := ok_bind hloop
    rw [List.foldlM_cons] at hround
    obtain ⟨st₂, hround, hlast⟩ := ok_bind hround
    cases hlast
    have hlt : m < gNumPages := by
      have := gNumUserPages_le
      omega
    obtain ⟨n, hn, hdown⟩ := ih (by omega) st₁ hloop
    obtain ⟨k, hk, hlast⟩ := cloneEntry_countedDown hlt hround
    exact ⟨n + k, by omega, hdown.trans hlast⟩

theorem cloneAddressSpace_countedDown {space : AddressSpace} {table : Nat → TableEntry}
    (h : cloneAddressSpace vm = .ok (space, table, vm')) :
    ∃ n, 771 ≤ n ∧ n < 0x100000000 ∧ CountedDown n vm.pmm vm'.pmm := by
  obtain ⟨⟨space₁, pmm⟩, hcreate, h⟩ := ok_bind h
  obtain ⟨⟨table₁, vm₁⟩, hloop, h⟩ := ok_bind h
  obtain ⟨_, _, rfl⟩ := ok_triple h
  unfold cloneEntries at hloop
  obtain ⟨n, hn, hdown⟩ := cloneEntry_fold_countedDown _ le_rfl _ hloop
  have huser := gNumUserPages_le
  refine ⟨771 + n, by omega, ?_, ?_⟩
  · unfold gNumPages at huser
    omega
  · exact (createAddressSpace_countedDown hcreate).trans hdown

end CloneCountedDown

end Puppy.Mm

namespace Puppy.Proc

open Libc Lib Mm State

namespace Creator

variable {c c' : Creator} {self : Ptr} {k : Process} {answer : Option Ptr}

-- ==== who is refused

theorem excessive_exec_iff : excessive k (execInfo k inheritsSystem prio) = false ↔
      Permitted k (.exec inheritsSystem prio) := by
  unfold excessive execInfo Permitted Request.prio
  cases k.system <;> simp

theorem excessive_clone_iff : excessive k (cloneInfo k) = false ↔ Permitted k .clone := by
  unfold excessive cloneInfo Permitted Request.prio
  cases k.system <;> simp

section Spawn

variable {si : SpawnInfo} {status : Status} {space : AddressSpace}
  {table : Nat → TableEntry} {mm : MemoryManager}

/-- `spawn` answers with no process if the request is too much, and then it
has done nothing. -/
theorem spawn_refused (h : c.spawn self si status space table mm = .ok (answer, c'))
    (hself : c.procs.procs self = some k) (hex : excessive k si = true) :
    answer = none ∧ c' = c := by
  unfold spawn deref at h
  rw [hself, bind_ok, if_pos hex] at h
  obtain ⟨hanswer, hc⟩ := ok_pair h
  exact ⟨hanswer.symm, hc.symm⟩

/-- Otherwise both models make the process. -/
theorem spawn_made (h : c.spawn self si status space table mm = .ok (answer, c'))
    (hself : c.procs.procs self = some k) (hex : excessive k si = false) :
    ∃ page pid, answer = some page ∧ c.procs.spawn self page si = .ok c'.procs ∧
      c.mem.addTask pid status space table mm = .ok c'.mem := by
  unfold spawn at h
  rw [deref, hself, bind_ok, if_neg (by rw [hex]; decide)] at h
  obtain ⟨⟨pid, _⟩, _, h⟩ := ok_bind h
  obtain ⟨mem, hmem, h⟩ := ok_bind h
  obtain ⟨t, _, h⟩ := ok_bind h
  obtain ⟨procs, hprocs, h⟩ := ok_bind h
  obtain ⟨hanswer, rfl⟩ := ok_pair h
  exact ⟨t.proc, pid, hanswer.symm, hprocs, hmem⟩

end Spawn

-- ==== the calls

theorem exec_eq_ok (hself : c.procs.procs self = some k) :
    c.exec self inheritsSystem prio = .ok (answer, c') ↔
      ∃ space pmm, createAddressSpace c.mem.pmm = .ok (space, pmm) ∧
        spawn { c with mem := { c.mem with pmm := pmm } } self
          (execInfo k inheritsSystem prio) .created space (fun _ => {})
          MemoryManager.init = .ok (answer, c') := by
  unfold exec
  rw [deref, hself, bind_ok, bind_eq_ok]
  constructor
  · rintro ⟨⟨space, pmm⟩, hcreate, h⟩
    exact ⟨space, pmm, hcreate, h⟩
  · rintro ⟨space, pmm, hcreate, h⟩
    exact ⟨⟨space, pmm⟩, hcreate, h⟩

theorem cloneProcess_ok (hself : c.procs.procs self = some k)
    (h : c.cloneProcess self = .ok (answer, c')) :
    ∃ t space table vm, c.mem.find k.pid .running = .ok t ∧
      cloneAddressSpace (c.mem.view t) = .ok (space, table, vm) ∧
      spawn { c with mem := c.mem.store k.pid t t.mm vm } self
        (cloneInfo k) .cloned space table t.mm = .ok (answer, c') := by
  unfold cloneProcess at h
  rw [deref, hself, bind_ok] at h
  obtain ⟨t, hfind, h⟩ := ok_bind h
  obtain ⟨⟨space, table, vm⟩, hclone, h⟩ := ok_bind h
  exact ⟨t, space, table, vm, hfind, hclone, h⟩

/-- The entry of the process in the table of tasks. -/
theorem task_of_find {s : Mm.System} {p : Pid} {status : Status} {t : Task}
    (h : s.find p status = .ok t) : s.tasks p = some t := by
  unfold Mm.System.find at h
  split at h
  next t' ht =>
    obtain ⟨_, h⟩ := check_eq_ok.1 h
    injection h with h
    rw [ht, h]
  · cases h

theorem exec_spent (hself : c.procs.procs self = some k)
    (h : c.exec self inheritsSystem prio = .ok (answer, c'))
    (hrefused : ¬ Permitted k (.exec inheritsSystem prio)) :
    answer = none ∧ c'.procs = c.procs ∧ Spent c c' k.pid (.exec inheritsSystem prio) := by
  obtain ⟨space, pmm, hcreate, hspawn⟩ := (exec_eq_ok hself).1 h
  rw [← excessive_exec_iff, Bool.not_eq_false] at hrefused
  obtain ⟨hanswer, rfl⟩ := spawn_refused hspawn hself hrefused
  have hdown := createAddressSpace_countedDown hcreate
  exact ⟨hanswer, rfl, (countedDown_iff (by decide)).1 hdown, rfl⟩

theorem cloneProcess_spent (hself : c.procs.procs self = some k)
    (h : c.cloneProcess self = .ok (answer, c'))
    (hrefused : ¬ Permitted k .clone) :
    answer = none ∧ c'.procs = c.procs ∧ Spent c c' k.pid .clone := by
  obtain ⟨t, space, table, vm, hfind, hclone, hspawn⟩ := cloneProcess_ok hself h
  rw [← excessive_clone_iff, Bool.not_eq_false] at hrefused
  obtain ⟨hanswer, hc⟩ := spawn_refused hspawn hself hrefused
  obtain ⟨n, hn, hlt, hdown⟩ := cloneAddressSpace_countedDown hclone
  have ht := task_of_find hfind
  rw [hc]
  refine ⟨hanswer, rfl, hdown.ne (by omega) hlt, (c.mem.view t).table,
    ((c.mem.store k.pid t t.mm vm).view { t with table := vm.table, mm := t.mm }).table, ?_, ?_, ?_⟩
  · unfold entries
    rw [ht]
    rfl
  · unfold entries
    rw [show (c.mem.store k.pid t t.mm vm).tasks k.pid =
      some { t with table := vm.table, mm := t.mm } from
      Function.update_self _ _ _]
    rfl
  · intro i hi hpresent
    have hshared := ((cloneAddressSpace_tables hclone).done i hi hpresent).1
    rw [← hshared]
    exact if_pos hi

/-- A request that is refused has left the processes alone, and not the
memory. -/
theorem create_spent (hself : c.procs.procs self = some k)
    (h : c.create self r = .ok (answer, c')) (hrefused : ¬ Permitted k r) :
    answer = none ∧ c'.procs = c.procs ∧ Spent c c' k.pid r := by
  cases r with
  | exec inheritsSystem prio => exact exec_spent hself h hrefused
  | clone => exact cloneProcess_spent hself h hrefused

theorem Spent.not_unaffected {pid : Pid} (h : Spent c c' pid r) : ¬ Unaffected c c' self pid := by
  intro hsame
  cases r with
  | exec inheritsSystem prio =>
    have hfree := h.1.symm.trans hsame.free
    unfold sub32 at hfree
    omega
  | clone => exact h.1 hsame.free

/-- A request that is not refused makes the process in both models. -/
theorem create_made (hself : c.procs.procs self = some k)
    (h : c.create self r = .ok (answer, c')) (hpermitted : Permitted k r) :
    ∃ page pid, answer = some page ∧ match r with
      | .exec inheritsSystem prio =>
        c.procs.exec self page inheritsSystem prio = .ok c'.procs ∧
          (c.mem.vacant pid = true → c.mem.spawn pid = .ok c'.mem)
      | .clone => c.procs.cloneProcess self page = .ok c'.procs ∧
          (c.mem.vacant pid = true → c.mem.clone k.pid pid = .ok c'.mem) := by
  cases r with
  | exec inheritsSystem prio =>
    obtain ⟨space, pmm, hcreate, hspawn⟩ := (exec_eq_ok hself).1 h
    obtain ⟨page, pid, hanswer, hprocs, hmem⟩ :=
      spawn_made hspawn hself (excessive_exec_iff.2 hpermitted)
    refine ⟨page, pid, hanswer, ?_, fun hvacant => ?_⟩
    · unfold State.exec
      rw [deref, hself]
      exact hprocs
    · unfold Mm.System.spawn
      rw [if_pos hvacant, hcreate]
      exact hmem
  | clone =>
    obtain ⟨t, space, table, vm, hfind, hclone, hspawn⟩ := cloneProcess_ok hself h
    obtain ⟨page, pid, hanswer, hprocs, hmem⟩ :=
      spawn_made hspawn hself (excessive_clone_iff.2 hpermitted)
    refine ⟨page, pid, hanswer, ?_, fun hvacant => ?_⟩
    · unfold State.cloneProcess
      rw [deref, hself]
      exact hprocs
    · unfold Mm.System.clone
      rw [if_pos hvacant, hfind, bind_ok, hclone]
      exact hmem

/-- A call that answers with no process leaves everything as it is only if
it does not come to that: one that is refused has kept the address space. -/
theorem unaffected_iff_permitted {r : Request} (hself : c.procs.procs self = some k)
    (h : c.create self r = .ok (answer, c')) :
    ((answer = none → Unaffected c c' self k.pid) ↔ Permitted k r) ∧ (¬ Permitted k r →
        answer = none ∧ c'.procs = c.procs ∧ Spent c c' k.pid r) := by
  refine ⟨⟨fun hclaim => ?_, fun hpermitted hnone => ?_⟩, create_spent hself h⟩
  · by_contra hrefused
    obtain ⟨hanswer, _, hspent⟩ := create_spent hself h hrefused
    exact hspent.not_unaffected (hclaim hanswer)
  · obtain ⟨page, _, hanswer, _⟩ := create_made hself h hpermitted
    cases hnone.symm.trans hanswer

section Plain

/-- Seven megabytes of memory, of which the tables of the new process are
taken in their order. -/
theorem exec_plain {s : State} (hself : s.procs self = some k)
    (inheritsSystem : Bool) (prio : ExecPriority) :
    exec ⟨s, System.plain⟩ self inheritsSystem prio =
      spawn ⟨s, { System.plain with pmm := System.plain.pmm.takeNext 771 }⟩
        self (execInfo k inheritsSystem prio) .created
        ⟨gPageSize * 1, (List.range 770).map fun u => gPageSize * (2 + u)⟩
        (fun _ => {}) MemoryManager.init := by
  have hahead : System.plain.pmm.Ahead 771 :=
    @System.blank_ahead 0x700 0xD0100000 771 (by decide) (by decide)
  unfold exec
  rw [deref, hself, bind_ok, createAddressSpace_ahead hahead]
  rfl

/-- The first process, which may give any priority, makes one that has the
first of the pages for processes. -/
theorem initial_unaffected : ∃ c', create ⟨State.initial, System.plain⟩ 0
      (.exec false gDefaultBasePriority) = .ok (some 0xD0000000, c') ∧
    (some 0xD0000000 = none → Unaffected ⟨State.initial, System.plain⟩ c' 0 0) := by
  have hself : State.initial.procs 0 = some gDummyProcess := rfl
  have hmade : ((create ⟨State.initial, System.plain⟩ 0
      (.exec false gDefaultBasePriority)).toOption.map Prod.fst) =
      some (some 0xD0000000) := by
    show (exec ⟨State.initial, System.plain⟩ 0 false gDefaultBasePriority).toOption.map Prod.fst = _
    rw [exec_plain hself]
    decide +kernel
  cases hcreate : create ⟨State.initial, System.plain⟩ 0 (.exec false gDefaultBasePriority) with
  | error e =>
    rw [hcreate] at hmade
    cases hmade
  | ok r =>
    obtain ⟨answer, c'⟩ := r
    rw [hcreate] at hmade
    injection hmade with hmade
    have hmade : answer = some 0xD0000000 := hmade
    rw [hmade] at hcreate
    exact ⟨c', by rw [hmade],
      (unaffected_iff_permitted hself hcreate).1.2 (.inl rfl)⟩

/-- A process that may have no more than a priority of 5 and asks for one
with the priorities of the start: there is none, and of the 1791 free pages
there are 1020 left. -/
theorem five_spends : ∃ s k c', State.initial.spawn 0 1
      { quantum := ⟨5, 1⟩, scheduling := ⟨5, 1⟩ } = .ok s ∧
    s.procs 1 = some k ∧
    create ⟨s, System.plain⟩ 1 (.exec false gDefaultBasePriority) = .ok (none, c') ∧
    getfreepages ⟨s, System.plain⟩ = 1791 ∧ c'.getfreepages = 1020 ∧
    ¬ Unaffected ⟨s, System.plain⟩ c' 1 k.pid := by
  obtain ⟨s, hspawn, hone⟩ : ∃ s, State.initial.spawn 0 1
      { quantum := ⟨5, 1⟩, scheduling := ⟨5, 1⟩ } = .ok s ∧
      (s.procs 1).map (fun k => (k.quantum.max, k.system)) = some (5, false) := by
    refine ⟨_, rfl, ?_⟩
    decide +kernel
  obtain ⟨k, hself, hk⟩ := Option.map_eq_some_iff.1 hone
  injection hk with hmax hsystem
  have hrefused : ¬ Permitted k (.exec false gDefaultBasePriority) := by
    rintro (h | ⟨h, _⟩)
    · cases hsystem.symm.trans h
    · rw [hmax] at h
      exact absurd h (show ¬ 10 ≤ 5 by decide)
  have hexcessive : excessive k (execInfo k false gDefaultBasePriority) = true := by
    rw [← excessive_exec_iff, Bool.not_eq_false] at hrefused
    exact hrefused
  have hcreate : create ⟨s, System.plain⟩ 1 (.exec false gDefaultBasePriority) = .ok (none, ⟨s,
        { System.plain with pmm := System.plain.pmm.takeNext 771 }⟩) := by
    show exec ⟨s, System.plain⟩ 1 false gDefaultBasePriority = _
    rw [exec_plain hself, spawn, deref, hself, bind_ok, if_pos hexcessive]
  exact ⟨s, k, _, hspawn, hself, hcreate, rfl, rfl,
    (create_spent hself hcreate hrefused).2.2.not_unaffected⟩

end Plain

end Creator

end Puppy.Proc
