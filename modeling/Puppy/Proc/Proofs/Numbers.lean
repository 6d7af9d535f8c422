/-
The process table names the processes, in every run.

Only `spawn` and the deleter write to the table, and each of them does so
together with the process itself. So whatever else goes wrong in a run, the
table has every process under its pid and nothing else, and all pids and
parents' pids are inside of it.
-/
import Puppy.Proc.Proofs.Rules

namespace Puppy.Proc

open Libc Lib State Function

variable {s s' : State} {p c : Ptr} {t t' : Process} {q : QueueId}

/-- The table has each process under its pid, and no pid is past its end. -/
structure Numbered (s : State) : Prop where
  named : ∀ pid p, s.gProcessTable.mTable pid = some p ↔ ∃ t, s.procs p = some t ∧ t.pid = pid
  bound : ∀ p t, s.procs p = some t → t.pid < gNumProcesses ∧ t.ppid < gNumProcesses

/-- Nothing that names a process has changed. -/
theorem Numbered.same (h : Numbered s) (hprocs : s'.procs = s.procs)
    (htable : s'.gProcessTable = s.gProcessTable) : Numbered s' := by
  refine ⟨?_, ?_⟩
  · rw [hprocs, htable]
    exact h.named
  · rw [hprocs]
    exact h.bound

/-- A process gets another record with the same pid. -/
theorem Numbered.edit (h : Numbered s) (ht : s.procs p = some t)
    (hprocs : s'.procs = update s.procs p (some t'))
    (htable : s'.gProcessTable = s.gProcessTable)
    (hpid : t'.pid = t.pid) (hppid : t'.ppid < gNumProcesses) : Numbered s' := by
  constructor
  · intro pid x
    rw [htable, h.named, hprocs]
    by_cases hx : x = p
    · simp [hx, ht, hpid]
    · simp [hx]
  intro x u hu
  rw [hprocs] at hu
  rcases update_eq_some hu with ⟨_, hu⟩ | ⟨_, hu⟩
  · rw [← Option.some.inj hu, hpid]
    exact ⟨(h.bound p t ht).1, hppid⟩
  · exact h.bound x u hu

/-- A new process takes a pid that nobody has. -/
theorem Numbered.born (h : Numbered s) (hborn : Born s p t s') : Numbered s' := by
  have htable := hborn.table
  unfold ProcessTable.set at htable
  split at htable
  · cases htable
  next hfree =>
  injection htable with htable
  constructor
  · intro pid x
    rw [← htable, hborn.procs]
    by_cases hpid : pid = t.pid
    · -- nobody else has the pid, since its place was free
      have hother : ∀ u, s.procs x = some u → u.pid ≠ t.pid := by
        intro u hu heq
        rw [(h.named t.pid x).2 ⟨u, hu, heq⟩] at hfree
        cases hfree
      by_cases hx : x = p
      · simp [hpid, hx]
      · simpa [hpid, hx, Ne.symm hx] using hother
    · by_cases hx : x = p
      · simp [hpid, hx, h.named, hborn.vacant, Ne.symm hpid]
      · simp [hpid, hx, h.named]
  · intro x u hu
    rw [hborn.procs] at hu
    rcases update_eq_some hu with ⟨_, hu⟩ | ⟨_, hu⟩
    · obtain ⟨y, k, hk, hppid⟩ := hborn.ppid
      rw [← Option.some.inj hu, hppid]
      exact ⟨hborn.bound, (h.bound y k hk).1⟩
    · exact h.bound x u hu

/-- A deleted one gives its pid back. -/
theorem Numbered.delete (h : Numbered s) (hdelete : s.delete p = .ok s') : Numbered s' := by
  obtain ⟨t, ht, hdelete⟩ := deref_bind hdelete
  cases hdelete
  constructor
  · intro pid x
    dsimp only [ProcessTable.free]
    by_cases hx : x = p
    · by_cases hpid : pid = t.pid
      · simp [hx, hpid]
      · simp [hx, hpid, h.named, ht, Ne.symm hpid]
    by_cases hpid : pid = t.pid
    · -- the pid was that of the process at `p`
      have hmine := (h.named t.pid p).2 ⟨t, ht, rfl⟩
      have hother : ∀ u, s.procs x = some u → u.pid ≠ t.pid := by
        intro u hu heq
        rw [(h.named t.pid x).2 ⟨u, hu, heq⟩] at hmine
        exact hx (Option.some.inj hmine)
      simpa [hx, hpid] using hother
    · simp [hx, hpid, h.named]
  · intro x u hu
    rcases update_eq_some hu with ⟨_, ⟨⟩⟩ | ⟨_, hu⟩
    · exact h.bound x u hu

/-- No function that keeps the pids in place does harm. -/
theorem numbered_editing : Editing (fun s s' => Numbered s → Numbered s')
    (fun _ t t' => t'.pid = t.pid ∧ t'.ppid = t.ppid) := by
  refine ⟨⟨⟨fun _ => id, fun h h' hs => h' (h hs), ?_⟩, ?_⟩, ?_, ?_, ?_, ?_, ?_⟩
  · intro s q e rest r _ h hs
    rcases wakeEntry_cases h with heq | ⟨t, ht, _, heq⟩
    · rw [heq]
      exact hs.same rfl rfl
    · rw [heq]
      exact @Numbered.edit _ _ _ _ (roused q t) hs ht rfl rfl rfl (hs.bound _ t ht).2
  · exact fun h hs => hs.same h.procs h.table
  · exact fun h hs => hs.same h.procs h.table
  · intro s s' p t t' ht hedit h hs
    exact hs.edit ht h.procs h.table hedit.1 (hedit.2 ▸ (hs.bound p t ht).2)
  · exact fun hborn hs => hs.born hborn
  · exact fun _ _ _ => ⟨rfl, rfl⟩
  · exact fun ht hk hs => hs.edit ht rfl rfl rfl (hs.bound _ _ hk).1

-- ==== the steps that the rules leave to do

theorem Numbered.exit {es : Nat} {closed : List QueueId} (h : Numbered s)
    (hexit : s.exit c es closed = .ok s') : Numbered s' :=
  numbered_editing.exit (fun _ _ _ => ⟨rfl, rfl⟩) (fun _ _ => ⟨rfl, rfl⟩)
    (fun _ => ⟨rfl, rfl⟩) hexit h

theorem Numbered.deschedule {newstate : ProcessState} {waitable : Option QueueId} (h : Numbered s)
    (hdesch : s.deschedule p newstate waitable = .ok s') : Numbered s' :=
  numbered_editing.deschedule (fun _ => ⟨rfl, rfl⟩) hdesch h

theorem Numbered.sleep {ms : Nat} (h : Numbered s) (hsleep : s.sleep c ms = .ok s') :
    Numbered s' := by
  obtain ⟨t, ht, hsleep⟩ := deref_bind hsleep
  obtain ⟨s₁, hdesch, hsleep⟩ := ok_bind hsleep
  obtain ⟨u, _, hsleep⟩ := ok_bind hsleep
  obtain ⟨queue, _, hsleep⟩ := ok_bind hsleep
  obtain ⟨s₂, hwake, hsleep⟩ := ok_bind hsleep
  have hset : Numbered (s.setProc c { t with sleeptill := s.millisUptime + ms }) :=
    h.edit ht rfl rfl rfl (h.bound c t ht).2
  have h₁ : Numbered s₁ := hset.deschedule hdesch
  have h₂ : Numbered s₂ := numbered_editing.wakeall hwake (h₁.same rfl rfl)
  exact of_ok hsleep (h₂.same rfl rfl)

theorem Numbered.waitYield {timeout : Nat} (h : Numbered s)
    (hwait : s.waitYield q c timeout = .ok s') : Numbered s' := by
  obtain ⟨s₁, hqueue, hwait⟩ := ok_bind hwait
  obtain ⟨t, _, hqueue⟩ := ok_bind hqueue
  have hfirst : Numbered (s.setQueue q (s.waitQueues q ++ [⟨t.waitToken, c⟩])) := h.same rfl rfl
  have h₁ : Numbered s₁ := hfirst.deschedule hqueue
  split at hwait
  · exact of_ok hwait (h₁.same rfl rfl)
  · exact h₁.sleep hwait

theorem Numbered.wake (h : Numbered s) (hwake : s.wake p = .ok s') : Numbered s' := by
  obtain ⟨t, ht, hwake⟩ := deref_bind hwake
  split at hwake
  · exact of_ok hwake h
  have hleave : (s.leaveQueue p t.wakeReason.waitable).procs = s.procs ∧
      (s.leaveQueue p t.wakeReason.waitable).gProcessTable = s.gProcessTable := by
    cases t.wakeReason.waitable <;> exact ⟨rfl, rfl⟩
  refine numbered_editing.reschedule (fun _ => ⟨rfl, rfl⟩) hwake ?_
  have ht' : (s.leaveQueue p t.wakeReason.waitable).procs p = some t := by rw [hleave.1, ht]
  exact (h.same hleave.1 hleave.2).edit ht' rfl rfl rfl (h.bound p t ht).2

theorem Numbered.awaker (h : Numbered s) (hround : s.awaker c = .ok s') : Numbered s' := by
  have hpop : ∀ {r}, s.popSleeper = .ok r → Numbered r.2 := by
    intro r hr
    unfold popSleeper at hr
    split at hr
    · cases hr
    obtain ⟨queue, _, hr⟩ := ok_bind hr
    cases hr
    exact h.same rfl rfl
  unfold State.awaker at hround
  split at hround
  · exact h.waitYield hround
  obtain ⟨t, _, hround⟩ := ok_bind hround
  split at hround
  · obtain ⟨r, hr, hround⟩ := ok_bind hround
    exact numbered_editing.enqueueForDeath hround (hpop hr)
  split at hround
  · split at hround
    · obtain ⟨r, hr, hround⟩ := ok_bind hround
      exact (hpop hr).wake hround
    · exact of_ok hround h
  · exact of_ok hround (h.same rfl rfl)

/-- The turns of the kernel tasks. -/
theorem Numbered.round {task : KernelTask} (h : Numbered s) (hround : s.round task = .ok s') :
    Numbered s' := by
  obtain ⟨self, _, _, hround⟩ := round_parts hround
  cases task with
  | collector =>
    have hround : s.collector self = .ok s' := hround
    obtain ⟨k, _, hround⟩ := ok_bind hround
    split at hround
    · exact h.waitYield hround
    · obtain ⟨t, _, hround⟩ := ok_bind hround
      exact numbered_editing.collect (fun _ _ => ⟨rfl, rfl⟩) (fun _ => ⟨rfl, rfl⟩) hround h
  | awaker => exact h.awaker hround
  | deleter =>
    have hround : s.deleter self = .ok s' := hround
    unfold State.deleter at hround
    split at hround
    · exact h.waitYield hround
    next proc rest _ =>
    have hrest : Numbered { s with gCollectedProcessList := rest } := h.same rfl rfl
    exact hrest.delete hround

/-- So no step does. -/
theorem Numbered.step {a : Action} (h : Numbered s) (hstep : s.step a = .ok s') : Numbered s' := by
  refine numbered_editing.step (fun hkeeps => hkeeps h) (fun _ _ _ _ => ⟨rfl, rfl⟩)
    (fun _ _ _ _ => ⟨rfl, rfl⟩) ?_ hstep
  cases a with
  | exit es closed => exact fun _ _ => h.exit
  | waitYield id timeout => exact fun _ _ => h.waitYield
  | sleep ms => exact fun _ _ => h.sleep
  | round task => exact h.round
  | _ => trivial

/-- In any run, the table has every process under its pid. -/
theorem numbered_of_reach (h : system.Reach Machine.anyStep s) : Numbered s := by
  refine h.invariant (I := Numbered) ?_ (fun _ _ _ hs _ hstep => hs.step hstep)
  intro s hs
  rw [show s = State.initial from hs]
  constructor
  · intro pid p
    by_cases hp : p = 0
    · simp [State.initial, gDummyProcess, hp, eq_comm]
    · simp [State.initial, hp, Ne.symm hp]
  intro p t ht
  have ht : update (fun _ => none) 0 (some gDummyProcess) p = some t := ht
  rcases update_eq_some ht with ⟨_, ht⟩ | ⟨_, ht⟩
  · cases ht
    decide
  · cases ht

end Puppy.Proc
