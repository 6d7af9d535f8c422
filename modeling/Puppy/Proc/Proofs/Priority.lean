/-
Ceilings for priorities.

Nothing raises a ceiling, whoever asks (`step_notRaised`). That the values
in use stay below is a different matter. `prioritize` sees to it for every
process, and `spawn` does when the caller is not a system process. A system
process may start another one with a priority above its own ceiling, which
is then the ceiling of the new one: it is enough that its ceiling has been
lowered to less than what `exec` asks for by default. Up to that, the
invariant holds.
-/
import Puppy.Proc.Priority
import Puppy.Proc.Proofs.Standing

namespace Puppy.Proc

open Lib Priority

-- ==== setting priorities

namespace Priority

variable {p q : Priority} {value : Nat}

theorem setCurrent_cases (h : p.setCurrent value = some q) : q = p ∨ q.max = p.max ∧ q.Within := by
  unfold setCurrent at h
  split at h
  · obtain ⟨hle, ⟨⟩⟩ := Option.ite_none_left_eq_some.1 h
    exact .inr ⟨rfl, Nat.le_of_not_lt hle⟩
  · injection h with h
    exact .inl h.symm

theorem setMax_cases (h : p.setMax value = some q) : q = p ∨ q.max ≤ p.max ∧ q.Within := by
  unfold setMax at h
  split at h
  · obtain ⟨hle, ⟨⟩⟩ := Option.ite_none_right_eq_some.1 h
    refine .inr ⟨hle, ?_⟩
    split
    · exact le_rfl
    next hlt => exact Nat.le_of_not_lt hlt
  · injection h with h
    exact .inl h.symm

/-- What both have in common: the ceiling is not raised, and a value within
its ceiling stays so. -/
def Tame (set : Priority → Nat → Option Priority) : Prop :=
  ∀ p value q, set p value = some q → q.max ≤ p.max ∧ (p.Within → q.Within)

theorem tame_setCurrent : Tame setCurrent := by
  intro p value q h
  rcases setCurrent_cases h with heq | ⟨hmax, hwithin⟩
  · rw [heq]
    exact ⟨le_rfl, id⟩
  · exact ⟨le_of_eq hmax, fun _ => hwithin⟩

theorem tame_setMax : Tame setMax := by
  intro p value q h
  rcases setMax_cases h with heq | ⟨hmax, hwithin⟩
  · rw [heq]
    exact ⟨le_rfl, id⟩
  · exact ⟨hmax, fun _ => hwithin⟩

end Priority

namespace Process

theorem CeilingsLe.refl (t : Process) : t.CeilingsLe t := ⟨le_rfl, le_rfl⟩

end Process

/-- Setting both, or only the first of them. -/
theorem setBoth_tame {set : Priority → Nat → Option Priority}
    (h : Tame set) (get : Priority → Nat) (process : Process)
    (prio_in : Option ExecPriority) :
    (setBoth set get process prio_in).2.CeilingsLe process ∧ (process.WithinLimits →
        (setBoth set get process prio_in).2.WithinLimits) := by
  unfold setBoth
  split
  · exact ⟨.refl process, id⟩
  next prio =>
  split
  · exact ⟨.refl process, id⟩
  next quantum hquantum =>
  have hq := h _ _ _ hquantum
  split
  · exact ⟨⟨hq.1, le_rfl⟩, fun hw => ⟨hq.2 hw.1, hw.2⟩⟩
  next scheduling hscheduling =>
  have hs := h _ _ _ hscheduling
  exact ⟨⟨hq.1, hs.1⟩, fun hw => ⟨hq.2 hw.1, hs.2 hw.2⟩⟩

-- ==== births

namespace State

variable {s s' : State} {self page : Ptr} {k : Process} {si : SpawnInfo}

/-- The priorities of the processes. -/
def ranks (s : State) (p : Ptr) : Option (Priority × Priority) :=
  (s.procs p).map fun t => (t.quantum, t.scheduling)

theorem ranks_of_proc {p : Ptr} {t : Process} (h : s.procs p = some t) :
    s.ranks p = some (t.quantum, t.scheduling) := by
  unfold ranks
  rw [h]
  rfl

-- ==== what a call does

theorem NotRaised.refl (s : State) (self : Ptr) : s.NotRaised self s :=
  fun _ t ht => .inl ⟨t, ht, .refl t⟩

/-- A new process with the ceilings of the one that starts it. -/
theorem spawn_notRaised (h : s.spawn self page si = .ok s')
    (hself : s.procs self = some k) (hquantum : si.quantum.max = k.quantum.max)
    (hscheduling : si.scheduling.max = k.scheduling.max) :
    s.NotRaised self s' := by
  rcases spawn_spawned hself h with ⟨heq, _⟩ | ⟨child, hchild⟩
  · rw [heq]
    exact .refl s self
  intro p t ht
  rcases hchild.back hself ht with ⟨hp, heq⟩ | ⟨_, u, hu, heq⟩
  · refine .inr ⟨by rw [hp, hchild.vacant], k, hself, ?_⟩
    rw [heq]
    exact ⟨by rw [hchild.quantum, hquantum],
      by rw [hchild.scheduling, hscheduling]⟩
  · rw [heq]
    exact .inl ⟨u, hu, le_rfl, le_rfl⟩

/-- The check that `spawn` makes. -/
theorem within_of_not_excessive (h : excessive k si = false)
    (hsystem : k.system = false) : si.quantum.Within ∧ si.scheduling.Within := by
  unfold excessive at h
  simp only [hsystem, Bool.not_false, Bool.true_and, Bool.or_eq_false_iff,
    decide_eq_false_iff_not, not_lt] at h
  exact ⟨h.1.2, h.2⟩

/-- A new process is within its limits, if a system process sees to that
itself. -/
theorem WithinLimits.spawn (hlimits : s.WithinLimits)
    (h : s.spawn self page si = .ok s') (hself : s.procs self = some k)
    (hasks : k.system = true → si.quantum.Within ∧ si.scheduling.Within) :
    s'.WithinLimits := by
  rcases spawn_spawned hself h with ⟨heq, _⟩ | ⟨child, hchild⟩
  · rw [heq]
    exact hlimits
  have hwithin : si.quantum.Within ∧ si.scheduling.Within := by
    cases hsystem : k.system with
    | true => exact hasks hsystem
    | false => exact within_of_not_excessive hchild.modest hsystem
  intro p t ht
  rcases hchild.back hself ht with ⟨_, heq⟩ | ⟨_, u, hu, heq⟩
  · unfold Process.WithinLimits
    rw [heq, hchild.quantum, hchild.scheduling]
    exact hwithin
  · rw [heq]
    exact hlimits p u hu

/-- `prioritize` changes at most one process, and tamely. -/
theorem prioritize_cases {pid : Pid} {setmax : PrioritizeTarget}
    {prio_in : Option ExecPriority} {response : PrioritizeResponse}
    (h : s.prioritize self pid setmax prio_in = .ok (response, s')) :
    s' = s ∨ ∃ p t t', s.procs p = some t ∧ s' = s.setProc p t' ∧
      t'.CeilingsLe t ∧ (t.WithinLimits → t'.WithinLimits) := by
  obtain ⟨k, _, h⟩ := ok_bind h
  obtain ⟨found, _, h⟩ := ok_bind h
  cases found with
  | none =>
    obtain ⟨_, h⟩ := ok_pair h
    exact .inl h.symm
  | some p =>
    obtain ⟨t, ht, h⟩ := deref_bind h
    split at h
    · obtain ⟨_, h⟩ := ok_pair h
      exact .inl h.symm
    cases setmax with
    | current =>
      obtain ⟨_, h⟩ := ok_pair h
      exact .inr ⟨p, t, _, ht, h.symm,
        setBoth_tame Priority.tame_setCurrent Priority.current t prio_in⟩
    | maximum =>
      obtain ⟨_, h⟩ := ok_pair h
      exact .inr ⟨p, t, _, ht, h.symm, setBoth_tame tame_setMax max t prio_in⟩

theorem setProc_some {p q : Ptr} {t u : Process} (h : (s.setProc p t).procs q = some u) :
    q = p ∧ u = t ∨ s.procs q = some u := by
  rcases update_eq_some h with ⟨hq, h⟩ | ⟨_, h⟩
  · exact .inl ⟨hq, (Option.some.inj h).symm⟩
  · exact .inr h

-- ==== whole runs

/-- **No call raises a ceiling**, or gives a new process one above those of
the caller, be it a system process or not. -/
theorem step_notRaised {a : PriorityAction}
    (h : prioritySystem.step a s = .ok s') : s.NotRaised a.self s' := by
  cases a with
  | exec self page inheritsSystem prio =>
    obtain ⟨k, hk, h⟩ := deref_bind h
    exact spawn_notRaised h hk rfl rfl
  | clone self page =>
    obtain ⟨k, hk, h⟩ := deref_bind h
    exact spawn_notRaised h hk rfl rfl
  | prioritize self pid setmax prio_in =>
    obtain ⟨⟨response, s₁⟩, hprioritize, h⟩ := ok_bind h
    refine of_ok h ?_
    rcases prioritize_cases hprioritize with heq | ⟨p, t, t', ht, heq, hle, _⟩
    · rw [heq]
      exact .refl s self
    rw [heq]
    intro q u hu
    rcases setProc_some hu with ⟨hq, hu⟩ | hu
    · exact .inl ⟨t, by rw [hq, ht], by rw [hu]; exact hle⟩
    · exact .inl ⟨u, hu, .refl u⟩

/-- One call, which does not ask for too much. -/
theorem WithinLimits.step (hlimits : s.WithinLimits) {a : PriorityAction}
    (ha : s.AsksWithin a) (h : prioritySystem.step a s = .ok s') :
    s'.WithinLimits := by
  cases a with
  | exec self page inheritsSystem prio =>
    obtain ⟨k, hk, h⟩ := deref_bind h
    exact hlimits.spawn h hk (ha k hk)
  | clone self page =>
    obtain ⟨k, hk, h⟩ := deref_bind h
    exact hlimits.spawn h hk fun _ => hlimits self k hk
  | prioritize self pid setmax prio_in =>
    obtain ⟨⟨response, s₁⟩, hprioritize, h⟩ := ok_bind h
    refine of_ok h ?_
    rcases prioritize_cases hprioritize with heq | ⟨p, t, t', ht, heq, _, hkeeps⟩
    · rw [heq]
      exact hlimits
    rw [heq]
    intro q u hu
    rcases setProc_some hu with ⟨_, hu⟩ | hu
    · rw [hu]
      exact hkeeps (hlimits p t ht)
    · exact hlimits q u hu

-- ==== boot

/-- What holds while boot starts processes: all are within their limits, and
the first one has its ceilings. -/
def Booting (s : State) : Prop :=
  s.WithinLimits ∧ s.ranks 0 = some (⟨128, 1⟩, ⟨128, 1⟩)

theorem booting_initial : Booting State.initial := by
  refine ⟨?_, rfl⟩
  intro p t ht
  rw [(initial_procs ht).2]
  exact ⟨by unfold Within; decide, by unfold Within; decide⟩

/-- The first process starts another. -/
theorem Booting.spawn (hboot : Booting s) (hself : s.procs 0 = some k)
    (h : s.spawn 0 page si = .ok s')
    (hsi : si.quantum.Within ∧ si.scheduling.Within) : Booting s' := by
  refine ⟨hboot.1.spawn h hself fun _ => hsi, ?_⟩
  rw [← hboot.2, ranks_of_proc hself]
  rcases spawn_spawned hself h with ⟨heq, _⟩ | ⟨child, hchild⟩
  · rw [heq]
    exact ranks_of_proc hself
  · have hparent : s'.procs 0 = _ := hchild.procs ▸ Function.update_self ..
    rw [ranks_of_proc hparent]

theorem gSystemTasks_within : ∀ task ∈ gSystemTasks.zipIdx 1,
    task.1.quantum.Within ∧ task.1.scheduling.Within := by
  unfold Within
  decide

/-- The processes that boot starts are within their limits. -/
theorem task0_withinLimits (h : State.task0 = .ok s) : s.WithinLimits := by
  obtain ⟨s₁, hs₁, h⟩ := ok_bind h
  obtain ⟨s₂, hs₂, h⟩ := ok_bind h
  obtain ⟨gInitTask, hinit, h⟩ := deref_bind h
  injection h with h
  have hboot₁ : Booting s₁ := by
    have hloop := Sat.foldlM_mem (E := fun _ => True) (I := Booting)
      (f := fun s (task : SpawnInfo × Nat) => s.spawn 0 task.2 task.1)
      (l := gSystemTasks.zipIdx 1) booting_initial ?_
    · exact hloop.result hs₁
    intro task htask s hs
    cases hspawn : s.spawn 0 task.2 task.1 with
    | error e => trivial
    | ok s' =>
      obtain ⟨k, hk, _⟩ := deref_bind hspawn
      exact hs.spawn hk hspawn (gSystemTasks_within task htask)
  obtain ⟨k, hk, hs₂⟩ := deref_bind hs₂
  have hranks := ranks_of_proc hk
  rw [hboot₁.2] at hranks
  injection hranks with hranks
  injection hranks with hquantum hscheduling
  have hboot₂ : Booting s₂ := by
    refine hboot₁.spawn hk hs₂ ?_
    unfold execInfo Within
    rw [← hquantum, ← hscheduling]
    show 10 ≤ 128 ∧ 20 ≤ 128
    decide
  rw [← h]
  intro p t ht
  rcases setProc_some ht with ⟨_, ht⟩ | ht
  · rw [ht]
    exact hboot₂.1 6 gInitTask hinit
  · exact hboot₂.1 p t ht

/-- **Ceilings hold.** As long as system processes start others only with
priorities within their own ceilings, every process is within its limits.
And no call ever raises a ceiling. -/
theorem ceilings_of_asksWithin : (∀ s, prioritySystem.Reach State.AsksWithin s → s.WithinLimits) ∧
      ∀ s s' a, prioritySystem.step a s = .ok s' → s.NotRaised a.self s' := by
  refine ⟨?_, fun s s' a h => step_notRaised h⟩
  intro s hreach
  refine Machine.Reach.invariant (I := State.WithinLimits) ?_ ?_ hreach
  · intro s hs
    exact task0_withinLimits hs
  · intro s s' a hlimits ha h
    exact hlimits.step ha h

/-- What boot leaves. -/
def booted : State := (task0.toOption).getD State.initial

theorem booted_eq : task0 = .ok booted := by
  have hok : task0.isOk = true := by decide
  unfold booted
  cases hboot : task0 with
  | ok s => rfl
  | error e =>
    rw [hboot] at hok
    cases hok

/-- `init` starts a process, which clones itself; both have the ceilings of
`init`. -/
theorem ceilings_of_asksWithin_init : ∃ s,
    prioritySystem.run [.exec 6 7 false gDefaultBasePriority, .clone 7 8] booted = .ok s ∧
    (s.procs 8).map Process.quantum = some ⟨128, 10⟩ ∧ s.WithinLimits := by
  obtain ⟨s, hrun, hclone⟩ := Machine.endsWith_iff.1 (show prioritySystem.endsWith
      [.exec 6 7 false gDefaultBasePriority, .clone 7 8] booted
      (fun s => (s.procs 8).map Process.quantum = some ⟨128, 10⟩) = true
      by decide +kernel)
  refine ⟨s, hrun, of_decide_eq_true hclone, ceilings_of_asksWithin.1 s ?_⟩
  refine Machine.Reach.run (.boot booted_eq) ?_ hrun
  constructor
  · intro k hk _
    have hmax : (booted.procs 6).map (fun k => (k.quantum.max, k.scheduling.max)) =
        some (128, 128) := by decide +kernel
    rw [hk] at hmax
    injection hmax with hmax
    injection hmax with hquantum hscheduling
    rw [hquantum, hscheduling]
    decide
  · cases prioritySystem.step (.exec 6 7 false gDefaultBasePriority) booted with
    | error e => trivial
    | ok s₁ =>
      refine ⟨trivial, ?_⟩
      cases prioritySystem.step (.clone 7 8) s₁ <;> trivial

/-- `init` lowers its own ceiling for the quantum to 5 and starts a process,
whose quantum is 10 with a ceiling of 5. -/
theorem init_exceeds_ceiling : ¬ ((∀ s, prioritySystem.Reach Machine.anyStep s → s.WithinLimits) ∧
      ∀ s s' a, prioritySystem.Reach Machine.anyStep s → prioritySystem.step a s = .ok s' →
        (∀ k, s.procs a.self = some k → k.system = false) → s.NotRaised a.self s') := by
  rintro ⟨hall, _⟩
  obtain ⟨s, hreach, hchild⟩ := Machine.exists_reach (M := prioritySystem)
    (P := fun s => (s.procs 7).map Process.quantum = some ⟨5, 10⟩) booted_eq
    [.prioritize 6 6 .maximum (some ⟨5, 0⟩),
      .exec 6 7 false gDefaultBasePriority] (by decide +kernel)
  obtain ⟨t, ht, hquantum⟩ := Option.map_eq_some_iff.1 hchild
  have hwithin := (hall s hreach 7 t ht).1
  unfold Within at hwithin
  rw [hquantum] at hwithin
  exact absurd hwithin (by decide)

end State

end Puppy.Proc
