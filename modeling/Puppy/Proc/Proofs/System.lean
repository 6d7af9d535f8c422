/-
The scheduler over whole runs.

Every action keeps the invariant of a level when the step meets the
level's condition (`step_sat`), so the invariant holds in every state that
such a run reaches (`settled_of_reach`). What is known about the awaker,
about deletion, about death and about the ready queue is read off it.

# What goes wrong otherwise

A timed wait puts a process on two queues, and a signal takes it off one.
The other entry stays in the sleep queue until it reaches the top and its
time has come, and then:

* if its process is alive and has been rescheduled since, the tokens
  differ, and the awaker goes round without removing the entry or giving
  up the processor;
* if its process is dead, the awaker puts it on the exited table, where
  the scheduler may have put it already;
* if its process has been collected and freed, the entry names freed
  memory.
-/
import Puppy.Proc.Proofs.Tasks

namespace Puppy.Proc

open Libc Lib State Machine List

variable {lvl : Level} {ph : Phase} {Q : List QueueId} {s s' : State}
  {p c : Ptr} {q : QueueId} {self : Ptr} {a : Action} {task : KernelTask}

-- ==== one step

theorem caller_sat : Sat s.caller (fun c => s.current = some c ∧ s.gCollectorTask ≠ some c)
    (Tolerated lvl) := by
  unfold caller
  cases hc : s.current with
  | none => exact tolerated_of_ne (by decide)
  | some c =>
    dsimp only
    split
    · exact tolerated_of_ne (by decide)
    next hnot => exact ⟨rfl, fun hcol => hnot (.inl hcol)⟩

theorem Undisturbed.quiet (h : Undisturbed s a) : Quiet (a.signals s) s := by
  intro q hq p hwait token
  have hpos : 0 < (s.waitQueues q).countP fun e => e.process == p := Nat.pos_of_ne_zero hwait
  obtain ⟨e, he, hep⟩ := countP_pos_iff.1 hpos
  refine count_eq_zero.2 (fun hmem => ?_)
  exact h q hq e he _ hmem (beq_iff_eq.1 hep).symm

/-- Signals that disturb nobody may be added. -/
theorem Inv.signalling (h : Inv lvl ph [] s) (hquiet : lvl = .fresh → Quiet Q s) : Inv lvl ph Q s :=
  ⟨h.proper, h.actor, hquiet, h.books, h.family⟩

theorem Settled.running (h : Settled lvl Q s) (hc : s.current = some c) :
    Inv lvl (.running c) Q s := by
  unfold Settled at h
  rw [hc] at h
  exact h

theorem Settled.forget (h : Settled lvl Q s) : Settled lvl [] s :=
  Inv.mono h (nil_subset Q)

/-- Waking somebody up does not change who runs. -/
theorem SameRest.settled (hrest : SameRest s s')
    (h : Inv lvl (Phase.ofCurrent s.current) Q s') : Settled lvl Q s' := by
  unfold Settled
  rw [hrest.current]
  exact h

theorem setTask_settled (h : Inv lvl (.running c) Q s)
    (hc : s.current = some c) : Settled lvl Q (s.setTask p task) := by
  have hsame : Inv lvl (.running c) Q (s.setTask p task) := by
    cases task <;> exact h.sameQueues rfl rfl rfl rfl rfl ⟨rfl, rfl, rfl, rfl⟩
  have hcur : (s.setTask p task).current = some c := by
    cases task <;> exact hc
  exact hsame.settled hcur

theorem kspawn_sat {si : SpawnInfo} (h : Inv lvl (.running c) Q s) (hc : s.current = some c) :
    Sat (s.kspawn c task p si) (Settled lvl Q) (Tolerated lvl) := by
  refine Sat.bind (deref_sat tolerated_fault) (fun k _ _ => ?_)
  by_cases hno : k.system = false ∨ s.taskOf task ≠ none
  · rw [if_pos hno]
    exact tolerated_of_ne (by decide)
  · rw [if_neg hno]
    refine Sat.bind (spawn_sat h) (fun s₁ _ hs₁ => ?_)
    exact setTask_settled hs₁.1 (hs₁.2.current.trans hc)

theorem round_sat (h : Settled lvl Q s) (hQ : lvl = .fresh → task = .collector → .deleter ∈ Q)
    (hready : lvl = .ready → task = .deleter → s.gCollectedProcessList = []) :
    Sat (s.round task) (Settled lvl Q) (Tolerated lvl) := by
  unfold State.round
  cases hself : s.taskOf task with
  | none => exact tolerated_of_ne (by decide)
  | some self =>
    dsimp only
    by_cases hcur : s.current ≠ some self
    · rw [if_pos hcur]
      exact tolerated_of_ne (by decide)
    rw [if_neg hcur]
    have hc := not_not.1 hcur
    have hrun := h.running hc
    cases task with
    | collector => exact collector_sat hrun hc (fun hlvl => hQ hlvl rfl)
    | awaker => exact awaker_sat hrun hc
    | deleter => exact deleter_sat hrun hc (fun hlvl => hready hlvl rfl)

/-- Every action keeps the invariant of a level under the condition of
that level. -/
theorem step_sat (h : Settled lvl [] s) (hok : lvl.Allows s a) :
    Sat (s.step a) (Settled lvl []) (Tolerated lvl) := by
  have hquiet : lvl = .fresh → Quiet (a.signals s) s := by
    intro hlvl
    subst hlvl
    exact Undisturbed.quiet hok
  have hsig : Settled lvl (a.signals s) s := Inv.signalling h hquiet
  cases a with
  | kspawn task page si =>
    refine Sat.bind caller_sat (fun c _ hc => ?_)
    exact kspawn_sat (h.running hc.1) hc.1
  | spawn page si =>
    refine Sat.bind caller_sat (fun c _ hc => ?_)
    refine (spawn_sat (h.running hc.1)).mono (fun s' hs' => ?_)
    exact hs'.1.settled (hs'.2.current.trans hc.1)
  | waitYield id timeout =>
    refine Sat.bind caller_sat (fun c _ hc => ?_)
    refine (waitYield_sat (hsig.running hc.1) ?_ ?_).mono (fun s' hs' => hs'.settled.forget)
    · intro _ hne hmem
      have hmem : _ ∈ if timeout = 0 then [] else [QueueId.awaker] := hmem
      rw [if_neg hne] at hmem
      cases mem_singleton.1 hmem
    intro _ hne
    show _ ∈ if timeout = 0 then [] else [QueueId.awaker]
    rw [if_neg hne]
    exact mem_singleton_self _
  | sleep ms =>
    refine Sat.bind caller_sat (fun c _ hc => ?_)
    exact (sleep_sat (hsig.running hc.1) (fun _ => mem_singleton_self _)).mono
      (fun s' hs' => hs'.settled.forget)
  | yield =>
    refine Sat.bind caller_sat (fun c _ hc => ?_)
    exact (h.running hc.1).toIdle.switch.settled
  | collect pid =>
    refine Sat.bind caller_sat (fun c _ hc => ?_)
    exact (collect_sat (hsig.running hc.1) hc.1 (fun _ => mem_singleton_self _)).mono
      (fun s' hs' => hs'.forget)
  | collectany wait =>
    refine Sat.bind caller_sat (fun c _ hc => ?_)
    exact (collectany_sat (hsig.running hc.1) hc.1 (fun _ => mem_singleton_self _)).mono
      (fun s' hs' => hs'.forget)
  | exit es closed =>
    refine Sat.bind caller_sat (fun c _ hc => ?_)
    have hrun := hsig.running hc.1
    obtain ⟨t, ht, _⟩ := hrun.actor c rfl
    refine (exit_sat hrun ht hc.2 ?_ ?_).mono (fun s' hs' => hs'.settled.forget)
    · intro _
      unfold Action.signals
      rw [hc.1, Option.bind_some, ht]
      refine ⟨mem_cons_self, fun q hq => ?_, ?_⟩
      · exact mem_append_left _ (mem_cons_of_mem _ hq)
      · exact mem_append_right _ (mem_singleton_self _)
    intro hlvl token
    subst hlvl
    refine count_eq_zero.2 (fun hmem => ?_)
    have hok : ExitsSleepless s (.exit es closed) := hok
    unfold ExitsSleepless at hok
    rw [hc.1] at hok
    exact hok _ hmem rfl
  | wakeone id =>
    exact (wakeone_sat_rest hsig (fun _ => mem_singleton_self _)).mono
      (fun s' hs' => (hs'.2.settled hs'.1).forget)
  | wakeall id =>
    exact (wakeall_sat_rest hsig (fun _ => mem_singleton_self _)).mono
      (fun s' hs' => (hs'.2.settled hs'.1).forget)
  | round task =>
    refine (round_sat hsig ?_ ?_).mono (fun s' hs' => hs'.forget)
    · intro _ htask
      rw [htask]
      exact mem_singleton_self _
    · intro hlvl htask
      subst hlvl htask
      exact hok rfl
  | schedule draw =>
    show Sat (if s.current = none then _ else _) _ _
    by_cases hc : s.current = none
    · rw [if_pos hc]
      unfold Settled at h
      rw [hc] at h
      exact schedule_sat h
    · rw [if_neg hc]
      exact tolerated_of_ne (by decide)
  | tick ms => exact h.sameQueues rfl rfl rfl rfl rfl ⟨rfl, rfl, rfl, rfl⟩

-- ==== whole runs

theorem initial_books : Books State.initial := by
  have hself : State.initial.procs 0 = some gDummyProcess := rfl
  refine ⟨?_, ?_, fun _ _ hslot => (by cases hslot), ?_, ?_⟩
  · intro pid p
    constructor
    · intro hs
      obtain ⟨hpid, hs⟩ := Option.ite_none_right_eq_some.1 hs
      rw [← Option.some.inj hs, hpid]
      exact ⟨gDummyProcess, hself, rfl⟩
    intro hs
    obtain ⟨t, ht, hpid⟩ := hs
    obtain ⟨hp, hdummy⟩ := initial_procs ht
    rw [hp, ← hpid, hdummy]
    rfl
  · intro p t ht
    rw [(initial_procs ht).2]
    rfl
  · intro p t ht hex
    rw [(initial_procs ht).2] at hex
    cases hex
  · intro p t ht
    rw [(initial_procs ht).2]
    rfl

theorem initial_settled : Settled lvl [] State.initial := by
  have hself : State.initial.procs 0 = some gDummyProcess := rfl
  have hrun : Inv lvl (.running 0) [] State.initial := by
    refine ⟨?_, ?_, fun _ q hq => (by cases hq), fun _ => initial_books, fun _ => ?_⟩
    · intro p
      refine ⟨?_, ?_, ?_, ?_, fun _ _ hn => absurd rfl hn,
        fun _ hn => absurd rfl hn, fun _ hn => absurd rfl hn⟩
      · intro hnone
        have hp : p ≠ 0 := by
          intro hp
          rw [hp] at hnone
          cases hself.symm.trans hnone
        exact count_singleton.trans (if_neg (by simpa using hp.symm))
      · intro t ht _
        rw [(initial_procs ht).1]
        rfl
      · intro t ht hex
        rw [(initial_procs ht).2] at hex
        cases hex
      · intro t ht hna
        rw [(initial_procs ht).2] at hna
        exact absurd rfl hna
    · intro k hk
      cases hk
      exact ⟨gDummyProcess, hself, rfl⟩
    · refine ⟨?_, ?_, fun _ _ _ hph => (by cases hph)⟩
      · intro k t ht _ x hx
        rw [(initial_procs ht).2] at hx
        cases hx
      · intro k t ht _
        rw [(initial_procs ht).2]
        exact nodup_nil
  exact hrun.settled rfl

/-- The invariant of a level holds in every state reached by steps that
meet its condition. -/
theorem settled_of_reach (h : system.Reach lvl.Allows s) : Settled lvl [] s := by
  refine h.invariant (fun s hb => ?_) (fun s s' a hs hok hst => ?_)
  · rw [show s = State.initial from hb]
    exact initial_settled
  · exact (step_sat hs hok).result hst

/-- And none of the errors it rules out can come next. -/
theorem step_error_tolerated {e : Panic} (h : system.Reach lvl.Allows s)
    (hok : lvl.Allows s a) (herr : s.step a = .error e) : Tolerated lvl e :=
  (step_sat (settled_of_reach h) hok).failure herr

-- ==== runs to look at

/-- A process with so many tickets in the lottery. -/
def tickets (n : Nat) : SpawnInfo :=
  { quantum := ⟨1, 1⟩, scheduling := ⟨n, n⟩ }

/-- The kernel tasks, a system process at 4 and its child at 5, which
runs. -/
def booted : List Action :=
  [.kspawn .collector 1 (tickets 5), .kspawn .awaker 2 (tickets 20), .kspawn .deleter 3 (tickets 5),
    .spawn 4 { tickets 20 with system := true }, .yield, .schedule 50,
    .spawn 5 (tickets 20), .yield, .schedule 70]

/-- The child waits with a time limit and is signalled at once. -/
def signalled : List Action :=
  booted ++ [.waitYield 1 1000, .wakeall 1, .schedule 70]

theorem reach_of_guarded {ok : State → Action → Prop} {acts : List Action}
    (hg : system.Guarded ok acts State.initial)
    (hrun : system.run acts State.initial = .ok s) : system.Reach ok s :=
  (Reach.boot rfl).run hg hrun

-- ==== the ready queue

theorem mem_readyQueue_iff : p ∈ s.gReadyQueue ↔ s.readyCount p ≠ 0 := by
  unfold readyCount
  rw [← Nat.pos_iff_ne_zero, count_pos_iff]

/-- A process in the ready queue is AVAILABLE or EXITED. -/
theorem Inv.state_of_ready (h : Inv lvl ph Q s) (hp : p ∈ s.gReadyQueue) :
    ∃ t, s.procs p = some t ∧ (t.state = .available ∨ t.state = .exited) := by
  have hready := mem_readyQueue_iff.1 hp
  cases hproc : s.procs p with
  | none => exact absurd ((h.proper p).absent hproc) hready
  | some t =>
    refine ⟨t, rfl, ?_⟩
    by_contra hst
    rw [not_or] at hst
    exact hready ((h.proper p).blocked t hproc hst.1 hst.2)

/-- The ready queue holds every AVAILABLE process, once, and otherwise
only EXITED ones; `deschedule` never finds a process in it twice. -/
theorem readyQueue_holds_available {s : State} (h : system.Reach NoDeletion s) :
    s.gReadyQueue.Nodup ∧
    (∀ p t, s.procs p = some t → t.state = .available → p ∈ s.gReadyQueue) ∧
    (∀ p ∈ s.gReadyQueue, ∃ t, s.procs p = some t ∧ (t.state = .available ∨ t.state = .exited)) ∧
    ∀ a, NoDeletion s a → s.step a ≠ .error .enqueuedTwice := by
  have hreach : system.Reach Level.ready.Allows s := h
  have hinv := settled_of_reach hreach
  refine ⟨?_, ?_, fun p hp => hinv.state_of_ready hp, ?_⟩
  · rw [nodup_iff_count_le_one]
    exact fun p => (hinv.proper p).ready_le
  · intro p t ht hst
    have hone : s.readyCount p = 1 := (hinv.proper p).available t ht hst
    exact mem_readyQueue_iff.2 (by omega)
  · intro a hok herr
    exact (step_error_tolerated hreach hok herr).1 rfl

/-- The child exits and is dead in the ready queue. -/
theorem readyQueue_holds_exited : ∃ s, system.run (booted ++ [.exit 0 []]) State.initial = .ok s ∧
      5 ∈ s.gReadyQueue ∧ s.gReadyQueue.Nodup := by
  obtain ⟨s, hrun, hmem⟩ := exists_run (M := system)
    (P := fun s => 5 ∈ s.gReadyQueue) (booted ++ [.exit 0 []])
    State.initial (by decide +kernel)
  refine ⟨s, hrun, hmem, ?_⟩
  exact (readyQueue_holds_available (reach_of_guarded (by decide +kernel) hrun)).1

-- ==== the awaker

theorem awaker_of_stuck (h : Stuck s) : s.awaker self = .ok s := by
  obtain ⟨top, rest, t, hsleep, ht, hne, hdue, htoken⟩ := h
  unfold awaker
  rw [hsleep]
  dsimp only
  rw [deref_eq ht]
  show (if t.state = .exited then _ else _) = _
  rw [if_neg hne, if_pos hdue, if_neg htoken]

theorem popSleeper_length {r : QEntry × State} (h : s.popSleeper = .ok r) :
    r.2.gSleepQueue.length < s.gSleepQueue.length := by
  cases hsleep : s.gSleepQueue with
  | nil =>
    unfold popSleeper at h
    rw [hsleep] at h
    cases h
  | cons top rest =>
    have hsat : Sat s.popSleeper _ (Tolerated .ready) := popSleeper_sat hsleep
    obtain ⟨queue, hperm, rfl⟩ := hsat.result h
    rw [hperm.length_eq, length_cons]
    exact Nat.lt_succ_self _

theorem enqueueForDeath_sleep (h : s.enqueueForDeath p = .ok s') :
    s'.gSleepQueue = s.gSleepQueue := by
  obtain ⟨t, _, h⟩ := ok_bind h
  obtain ⟨_, h⟩ := reject_eq_ok.1 h
  obtain ⟨table, _, h⟩ := ok_bind h
  injection h with h
  rw [← h]

theorem wake_sleep (h : s.wake p = .ok s') : s'.gSleepQueue = s.gSleepQueue := by
  obtain ⟨t, _, h⟩ := ok_bind h
  split at h
  · injection h with h
    rw [← h]
  have hrest := (reschedule_rest h).sleep
  rw [hrest]
  cases t.wakeReason.waitable <;> rfl

theorem waitYield_current (h : s.waitYield q self 0 = .ok s') : s'.current = none := by
  obtain ⟨s₁, _, h⟩ := ok_bind h
  cases h
  rfl

/-- A round of the awaker gets somewhere unless the top entry is out of
date. -/
theorem awaker_progress_iff (hself : s.current = some self)
    (h : s.awaker self = .ok s') : Progress s s' ↔ ¬ Stuck s := by
  constructor
  · intro hprog hstuck
    rw [awaker_of_stuck hstuck] at h
    injection h with h
    rw [← h] at hprog
    rcases hprog with hless | hnone
    · exact lt_irrefl _ hless
    · cases hself.symm.trans hnone
  intro hstuck
  unfold awaker at h
  split at h
  · exact .inr (waitYield_current h)
  next top rest hsleep =>
  obtain ⟨t, ht, h⟩ := deref_bind h
  by_cases hex : t.state = .exited
  · rw [if_pos hex] at h
    obtain ⟨r, hpop, h⟩ := ok_bind h
    left
    rw [enqueueForDeath_sleep h]
    exact popSleeper_length hpop
  rw [if_neg hex] at h
  by_cases hdue : t.sleeptill ≤ s.millisUptime
  · rw [if_pos hdue] at h
    by_cases htoken : t.waitToken = top.token
    · rw [if_pos htoken] at h
      obtain ⟨r, hpop, h⟩ := ok_bind h
      left
      rw [wake_sleep h]
      exact popSleeper_length hpop
    · exact absurd ⟨top, rest, t, hsleep, ht, hex, hdue, htoken⟩ hstuck
  · rw [if_neg hdue] at h
    injection h with h
    right
    rw [← h]
    rfl

/-- Entries of a fresh sleep queue are up to date. -/
theorem Inv.not_stuck (h : Inv .fresh ph Q s) : ¬ Stuck s := by
  intro hstuck
  obtain ⟨top, rest, t, hsleep, ht, _, _, htoken⟩ := hstuck
  obtain ⟨_, heq, _⟩ := h.maySleep_top (by decide) hsleep ht
  exact htoken heq

/-- As long as no signal reaches a queue with a timed waiter in it, every
round of the awaker removes an entry or gives up the processor; and what a
round needs for that is a top entry that is not due and out of date. -/
theorem awaker_progress {s : State} (h : system.Reach Undisturbed s) :
    (∀ s', s.step (.round .awaker) = .ok s' → Progress s s') ∧
    ∀ {r r' : State} {self : Ptr}, r.current = some self →
      r.awaker self = .ok r' → (Progress r r' ↔ ¬ Stuck r) := by
  refine ⟨fun s' hstep => ?_, awaker_progress_iff⟩
  have hreach : system.Reach Level.fresh.Allows s := h
  obtain ⟨self, hcur, _, hawaker⟩ := round_parts hstep
  exact (awaker_progress_iff hcur hawaker).2 (Inv.not_stuck (settled_of_reach hreach))

/-- The child sleeps, and the awaker wakes it in time. -/
theorem awaker_progress_sleep : ∃ s s',
    system.run (booted ++ [.sleep 10, .schedule 20, .tick 10]) State.initial = .ok s ∧
      s.gSleepQueue.length = 1 ∧ s.step (.round .awaker) = .ok s' ∧
      Progress s s' := by
  obtain ⟨s, hrun, htest⟩ := endsWith_iff.1
    (show system.endsWith (booted ++ [.sleep 10, .schedule 20, .tick 10])
      State.initial (fun s => decide (s.gSleepQueue.length = 1) &&
        (s.step (.round .awaker)).toBool) = true by decide +kernel)
  rw [Bool.and_eq_true, decide_eq_true_eq] at htest
  obtain ⟨hlen, hok⟩ := htest
  cases hstep : s.step (.round .awaker) with
  | error e =>
    rw [hstep] at hok
    cases hok
  | ok s' =>
    refine ⟨s, s', hrun, hlen, hstep, ?_⟩
    exact (awaker_progress (reach_of_guarded (by decide +kernel) hrun)).1 s' hstep

/-- The time limit of a wait that was signalled runs out, and the awaker
goes round without end. -/
theorem awaker_spins : ∃ s, system.Reach anyStep s ∧
    s.step (.round .awaker) = .ok s ∧ ¬ Progress s s := by
  obtain ⟨s, hreach, htask, hcur, hsleep, t, ht, hstuck⟩ :=
    exists_reach (M := system) (P := fun s => s.gAwakerTask = some 2 ∧
      s.current = some 2 ∧ s.gSleepQueue = [⟨1, 5⟩] ∧
      ∃ t ∈ s.procs 5, t.state ≠ .exited ∧ t.sleeptill ≤ s.millisUptime ∧ t.waitToken ≠ 1) rfl
      (signalled ++ [.yield, .schedule 20, .tick 1000]) (by decide +kernel)
  have hstuck : Stuck s := ⟨⟨1, 5⟩, [], t, hsleep, ht, hstuck⟩
  refine ⟨s, hreach, ?_, ?_⟩
  · show s.round .awaker = .ok s
    unfold State.round
    rw [show s.taskOf .awaker = some 2 from htask]
    dsimp only
    rw [if_neg (not_not.2 hcur)]
    exact awaker_of_stuck hstuck
  · intro hprog
    exact (awaker_progress_iff hcur (awaker_of_stuck hstuck)).1 hprog hstuck

-- ==== deletion

/-- No queue and no children list names a process that is gone, or that
waits to be freed. -/
theorem Inv.not_named (h : Inv .once ph Q s) (hph : ∀ k rest, ph ≠ .leaving k rest)
    (hgone : s.procs p = none ∨ ∃ t, s.procs p = some t ∧ t.state = .collected) : ¬ Named s p := by
  have hqueues : s.readyCount p = 0 ∧ (∀ token, s.sleepCount p token = 0) ∧
      ∀ q, s.waitCount p q = 0 := by
    rcases hgone with hnone | ⟨t, ht, hst⟩
    · exact ⟨(h.proper p).absent hnone,
        h.sleepCount_absent (by decide) hnone, h.waitCount_absent hnone⟩
    · exact h.collected_unqueued (by decide) ht hst
  obtain ⟨hready, hsleep, hwait⟩ := hqueues
  intro hnamed
  rcases hnamed with hmem | ⟨e, he, hep⟩ | ⟨q, e, he, hep⟩ | ⟨k, u, hu, hmem⟩
  · exact mem_readyQueue_iff.1 hmem hready
  · have hcount := hsleep e.token
    subst hep
    exact count_eq_zero.1 hcount he
  · have hcount := hwait q
    exact countP_eq_zero.1 hcount e he (beq_iff_eq.2 hep)
  obtain ⟨t, ht, _, hst⟩ := (h.family rfl).listed k u hu (hph k) p hmem
  rcases hgone with hnone | ⟨t', ht', hst'⟩
  · cases hnone.symm.trans ht
  · rw [Option.mem_unique ht' ht] at hst'
    exact hst hst'

theorem ofCurrent_ne_leaving (c : Option Ptr) (k : Ptr) (rest : List Ptr) :
    Phase.ofCurrent c ≠ .leaving k rest := by
  intro h
  cases c <;> cases h

/-- As long as no process exits with an entry in the sleep queue, nothing
refers to a process when the deleter frees it, or afterwards. -/
theorem not_named_when_freed {s : State} (h : system.Reach ExitsSleepless s) :
    (∀ p ∈ s.gCollectedProcessList, ¬ Named s p) ∧
    ∀ p, s.procs p = none → ¬ Named s p := by
  have hreach : system.Reach Level.once.Allows s := h
  have hinv := settled_of_reach hreach
  have hph := ofCurrent_ne_leaving s.current
  refine ⟨fun p hp => ?_, fun p hnone => hinv.not_named hph (.inl hnone)⟩
  have hcount : s.collectedCount p ≠ 0 := Nat.pos_iff_ne_zero.1 (count_pos_iff.2 hp)
  obtain ⟨_, t, ht, hst⟩ := (hinv.proper p).collected (by decide) hcount
  exact hinv.not_named hph (.inr ⟨t, ht, hst⟩)

/-- The child exits and is collected, and nothing names it any more. -/
theorem not_named_child : ∃ s, system.run (booted ++ [.exit 0 [], .schedule 40, .collect 5, .yield,
      .schedule 30]) State.initial = .ok s ∧
      s.gCollectedProcessList = [5] ∧ ¬ Named s 5 := by
  obtain ⟨s, hrun, hlist⟩ := exists_run (M := system) (P := fun s => s.gCollectedProcessList = [5])
    (booted ++ [.exit 0 [], .schedule 40, .collect 5, .yield, .schedule 30])
    State.initial (by decide +kernel)
  refine ⟨s, hrun, hlist, ?_⟩
  refine (not_named_when_freed (reach_of_guarded (by decide +kernel) hrun)).1 5 ?_
  rw [hlist]
  exact mem_singleton_self 5

/-- A wait that was signalled early leaves an entry in the sleep queue that
outlives the process. -/
theorem named_after_freed : ∃ s s', system.Reach anyStep s ∧
    s.gCollectedProcessList = [5] ∧ s.step (.round .deleter) = .ok s' ∧
    Named s 5 ∧ s'.procs 5 = none ∧ Named s' 5 := by
  obtain ⟨s, hrun, htest⟩ := endsWith_iff.1
    (show system.endsWith (signalled ++ [.exit 0 [], .schedule 40,
      .collect 5, .yield, .schedule 30]) State.initial
      (fun s => decide (s.gCollectedProcessList = [5] ∧ s.gSleepQueue = [⟨1, 5⟩]) &&
        (s.step (.round .deleter)).toOption.any fun s' =>
          decide (s'.gSleepQueue = [⟨1, 5⟩] ∧ s'.procs 5 = none)) = true by decide +kernel)
  rw [Bool.and_eq_true, decide_eq_true_eq] at htest
  obtain ⟨⟨hlist, hsleep⟩, htest⟩ := htest
  cases hstep : s.step (.round .deleter) with
  | error e =>
    rw [hstep] at htest
    cases htest
  | ok s' =>
    rw [hstep] at htest
    obtain ⟨hsleep', hnone⟩ := of_decide_eq_true htest
    have hmem : ∀ {r : State}, r.gSleepQueue = [⟨1, 5⟩] → Named r 5 := by
      intro r hr
      refine .inr (.inl ⟨⟨1, 5⟩, ?_, rfl⟩)
      rw [hr]
      exact mem_singleton_self _
    exact ⟨s, s', reach_run rfl hrun, hlist, hstep, hmem hsleep, hnone, hmem hsleep'⟩

-- ==== death

theorem Books.deathOnce {t : Process} (hb : Books s)
    (hproc : s.procs p = some t) : DeathOnce s p t := by
  have hcounted := hb.counted p t hproc
  unfold deathsOf at hcounted
  unfold DeathOnce
  cases hst : t.state with
  | exited =>
    by_cases hready : s.readyCount p = 0
    · right
      rw [if_pos (.inr ⟨hst, hready⟩)] at hcounted
      exact ⟨fun hmem => mem_readyQueue_iff.1 hmem hready, hcounted, hb.dead p t hproc hst hready⟩
    left
    rw [hst] at hcounted
    refine ⟨mem_readyQueue_iff.2 hready, ?_, hb.exited_free hproc hready⟩
    simpa [hready] using hcounted
  | collected =>
    rw [if_pos (.inl hst)] at hcounted
    exact hcounted
  | _ =>
    rw [hst] at hcounted
    exact hcounted

/-- As long as no process exits with an entry in the sleep queue, it is put
on the exited table once, by then its slot is free, and a process that
collects it finds it there. -/
theorem death_happens_once {s : State} (h : system.Reach ExitsSleepless s) :
    (∀ p t, s.procs p = some t → DeathOnce s p t) ∧
    (∀ c p t, s.current = some c → s.procs p = some t → t.state = .exited →
      s.gExitedProcesses.mTable t.pid = some p) ∧
    ∀ a, ExitsSleepless s a → s.step a ≠ .error .slotOccupied ∧ s.step a ≠ .error .notExited := by
  have hreach : system.Reach Level.once.Allows s := h
  have hinv := settled_of_reach hreach
  have hb := hinv.books rfl
  refine ⟨fun p t ht => hb.deathOnce ht, ?_, ?_⟩
  · intro c p t hc ht hst
    have hrun := Settled.running hinv hc
    exact hb.dead p t ht hst (((hrun.proper p).exited t ht hst).2 rfl)
  · intro a hok
    exact ⟨fun herr => ((step_error_tolerated hreach hok herr).2 rfl).1 rfl,
      fun herr => ((step_error_tolerated hreach hok herr).2 rfl).2 rfl⟩

/-- The child exits, and the scheduler puts it on the table. -/
theorem death_happens_child : ∃ s t,
    system.run (booted ++ [.exit 0 [], .schedule 40]) State.initial = .ok s ∧
      s.procs 5 = some t ∧ t.state = .exited ∧ s.deaths 5 = 1 ∧
      DeathOnce s 5 t := by
  obtain ⟨s, hrun, hdeaths, t, ht, hst⟩ := exists_run (M := system)
    (P := fun s => s.deaths 5 = 1 ∧ ∃ t ∈ s.procs 5, t.state = .exited)
    (booted ++ [.exit 0 [], .schedule 40]) State.initial (by decide +kernel)
  refine ⟨s, t, hrun, ht, hst, hdeaths, ?_⟩
  exact (death_happens_once (reach_of_guarded (by decide +kernel) hrun)).1 5 t ht

/-- A wait that was signalled early leaves an entry in the sleep queue, by
which the awaker finds the dead process a second time. -/
theorem slotOccupied_after_signal : ∃ s, system.Reach anyStep s ∧
    s.step (.round .awaker) = .error .slotOccupied := by
  obtain ⟨s, hrun, htest⟩ := endsWith_iff.1
    (show system.endsWith (signalled ++ [.exit 0 [], .schedule 20])
      State.initial (fun s => (s.step (.round .awaker)).casesOn
        (fun e => decide (e = .slotOccupied)) fun _ => false) = true by decide +kernel)
  refine ⟨s, reach_run rfl hrun, ?_⟩
  cases hstep : s.step (.round .awaker) with
  | ok s' =>
    rw [hstep] at htest
    cases htest
  | error e =>
    rw [hstep] at htest
    rw [of_decide_eq_true htest]

end Puppy.Proc
