/-
The collector and its children.

The collector collects its first child with a call that blocks until that
child has exited. Everybody who exits hands its children to it, dead ones
too, at the end of the list. So it may block with a child that is dead
already behind one that is not, and in two ways: it takes its round with
such a list, or it is given a dead child while it waits (`Prompt` rules
these out).

# The argument

Nobody but the collector makes the collector block, and nobody but a process
that exits adds to its list (`Aside`). What is on the list when it blocks
stays alive until somebody exits, and then the collector is woken up: from
its queue, if it is given children, or because the one that exits is one of
them. While it is on its queue it has no children, because it went there
without and a child that it is given wakes it up.
-/
import Puppy.Proc.Proofs.Collecting

namespace Puppy.Proc

open Libc Lib State Function

variable {s s' s'' : State} {p c k x : Ptr} {q : QueueId} {t t' u : Process}
  {a : Action} {kin : Prop}

theorem exited_iff : s.exited x = true ↔ (s.family x).map Member.stage = some .dead := by
  unfold State.exited State.family
  cases s.procs x with
  | none => simp
  | some u =>
    rw [Option.any_some, decide_eq_true_iff, ← stage_dead_iff]
    exact Option.some_inj.symm

theorem exited_eq_false (hu : s.procs x = some u) : s.exited x = false ↔ u.state ≠ .exited := by
  unfold State.exited
  rw [hu, Option.any_some, decide_eq_false_iff_not]

-- ==== who makes it block

/-- The process does not run. -/
def Process.Blocked (t : Process) : Prop :=
  t.state = .waiting ∨ t.state = .collecting

/-- A process that is blocked was so before, for the same reason, and with
the same children unless they matter not. -/
def Process.BlockedAsBefore (kin : Prop) (t t' : Process) : Prop :=
  t'.Blocked → t.state = t'.state ∧ t.wakeReason = t'.wakeReason ∧ (kin → t.children = t'.children)

def Aside (kin : Prop) (k : Ptr) (s s' : State) : Prop :=
  ∀ t', s'.procs k = some t' → t'.Blocked → ∃ t, s.procs k = some t ∧ t.BlockedAsBefore kin t'

theorem not_blocked (hwait : t.state ≠ .waiting) (hcollect : t.state ≠ .collecting) : ¬ t.Blocked :=
  fun h => h.elim hwait hcollect

theorem Aside.same (h : s'.procs k = s.procs k) : Aside kin k s s' :=
  fun t' ht' _ => ⟨t', h ▸ ht', fun _ => ⟨rfl, rfl, fun _ => rfl⟩⟩

theorem Aside.edit (hprocs : s'.procs = update s.procs p (some t'))
    (h : p = k → t'.Blocked → ∃ t, s.procs k = some t ∧
      t.BlockedAsBefore kin t') : Aside kin k s s' := by
  intro u hu hblocked
  rw [hprocs] at hu
  rcases update_eq_some hu with ⟨hkp, hu⟩ | ⟨_, hu⟩
  · rw [← Option.some.inj hu] at hblocked ⊢
    exact h hkp.symm hblocked
  · exact ⟨u, hu, fun _ => ⟨rfl, rfl, fun _ => rfl⟩⟩

theorem aside_editing : Editing (Aside kin k) (fun p t t' => p = k → t.BlockedAsBefore kin t') := by
  have hsame : ∀ {s s' : State}, SameRecords s s' → Aside kin k s s' :=
    fun h => .same (by rw [h.procs])
  refine ⟨⟨⟨fun _ => .same rfl, ?_, ?_⟩, fun h => hsame h.toSameRecords⟩, hsame, ?_, ?_, ?_, ?_⟩
  · intro s s' s'' h h' t'' ht'' hblocked
    obtain ⟨t', ht', hbefore'⟩ := h' t'' ht'' hblocked
    obtain ⟨hst', hreason', hlist'⟩ := hbefore' hblocked
    have hblocked' : t'.Blocked := by
      unfold Process.Blocked
      rwa [hst']
    obtain ⟨t, ht, hbefore⟩ := h t' ht' hblocked'
    obtain ⟨hst, hreason, hlist⟩ := hbefore hblocked'
    exact ⟨t, ht, fun _ => ⟨hst.trans hst', hreason.trans hreason',
      fun hkin => (hlist hkin).trans (hlist' hkin)⟩⟩
  · intro s q e rest r _ h
    rcases wakeEntry_cases h with heq | ⟨t, _, _, heq⟩
    · rw [heq]
      exact .same rfl
    · rw [heq]
      exact .edit rfl (fun _ h => absurd h (not_blocked nofun nofun))
  · intro s s' p t t' ht hedit h
    exact .edit h.procs (fun hpk _ => ⟨t, hpk ▸ ht, hedit hpk⟩)
  · intro s s' p t h
    refine .edit h.procs (fun _ hblocked => ?_)
    rcases h.state with hst | hst <;> rcases hblocked with hblocked | hblocked <;>
      rw [hst] at hblocked <;> cases hblocked
  · exact fun _ _ _ _ h => absurd h (not_blocked nofun nofun)
  · intro s p t q u ht _
    exact .edit rfl (fun hpk _ => ⟨t, hpk ▸ ht, fun _ => ⟨rfl, rfl, fun _ => rfl⟩⟩)

theorem blockedAsBefore_up (p : Ptr) (t : Process) :
    p = k → t.BlockedAsBefore kin (rescheduled t) :=
  fun _ h => absurd h (not_blocked nofun nofun)

/-- Somebody else waits. -/
theorem waitYield_aside (hck : c ≠ k) (h : s.waitYield q c 0 = .ok s') : Aside kin k s s' := by
  obtain ⟨s₁, hwait, h⟩ := ok_bind h
  obtain ⟨t, _, hwait⟩ := ok_bind hwait
  cases h
  rcases deschedule_cases hwait with heq | ⟨t', _, heq⟩
  · rw [heq]
    exact .same rfl
  · rw [heq]
    exact .edit rfl (fun heq => absurd heq hck)

/-- A round of another kernel task. There is nobody to wake up by time. -/
theorem round_aside {task : KernelTask} (hempty : s.gSleepQueue = [])
    (hne : task ≠ .collector) (hself : s.current ≠ some k)
    (h : s.round task = .ok s') : Aside kin k s s' := by
  obtain ⟨self, hcurrent, _, htask⟩ := round_parts h
  have hsk : self ≠ k := fun heq => hself (heq ▸ hcurrent)
  cases task with
  | collector => exact absurd rfl hne
  | awaker =>
    have htask : s.awaker self = .ok s' := htask
    unfold awaker at htask
    rw [hempty] at htask
    exact waitYield_aside hsk htask
  | deleter =>
    have htask : s.deleter self = .ok s' := htask
    unfold deleter at htask
    split at htask
    · exact waitYield_aside hsk htask
    next proc rest _ =>
    obtain ⟨t, _, htask⟩ := ok_bind htask
    cases htask
    intro t' ht' _
    rcases update_eq_some ht' with ⟨_, ⟨⟩⟩ | ⟨_, ht'⟩
    · exact ⟨t', ht', fun _ => ⟨rfl, rfl, fun _ => rfl⟩⟩

theorem step_aside (hempty : s.gSleepQueue = []) (huntimed : Untimed a)
    (hkills : ¬ a.kills) (hcaller : ∀ c, s.caller = .ok c → c ≠ k)
    (hround : ∀ task, a = .round task → task ≠ .collector ∧ s.current ≠ some k)
    (h : s.step a = .ok s') : Aside kin k s s' := by
  -- what the caller does to its own record is of no interest
  have hother : ∀ c, s.caller = .ok c → ∀ {t t' : Process}, c = k → t.BlockedAsBefore kin t' :=
    fun c hc t t' heq => absurd heq (hcaller c hc)
  refine aside_editing.step id (fun c hc _ _ => hother c hc) (fun _ c hc _ => hother c hc) ?_ h
  cases a with
  | waitYield id timeout =>
    intro c hc h
    have huntimed : timeout = 0 := huntimed
    rw [huntimed] at h
    exact waitYield_aside (hcaller c hc) h
  | sleep ms => exact huntimed.elim
  | exit es closed => exact absurd trivial hkills
  | round task =>
    obtain ⟨hne, hself⟩ := hround task rfl
    exact round_aside hempty hne hself
  | _ => trivial

-- ==== the kernel tasks

/-- A kernel task is new, or was there before. -/
theorem step_posts (hsettled : Settled .once [] s) (hs : Sane s)
    (h : s.step a = .ok s') {task : KernelTask}
    (htask : s'.taskOf task = some p) :
    s.taskOf task = some p ∨ s.procs p = none ∧
      ∀ task', s'.taskOf task' = some p → task' = task := by
  by_cases hne : ∀ task page si, a ≠ .kspawn task page si
  · rw [(step_evolves hsettled hs hne h).1.tasks] at htask
    exact .inl htask
  push Not at hne
  obtain ⟨new, page, si, rfl⟩ := hne
  obtain ⟨c, hc, h⟩ := ok_bind h
  obtain ⟨u, hu, _⟩ := (Settled.running hsettled (caller_current hc)).actor_living
  obtain ⟨t, s₁, si, _, _, hborn, heq⟩ := kspawn_parts hu h
  have hold : ∀ task' ≠ new, s'.taskOf task' = s.taskOf task' := by
    intro task' hne
    rw [← heq, ← hborn.tasks]
    cases new <;> cases task' <;> first | rfl | exact absurd rfl hne
  by_cases hnew : task = new
  · have hpage : s'.taskOf new = some page := by
      rw [← heq]
      cases new <;> rfl
    rw [hnew, hpage] at htask
    rw [← Option.some.inj htask]
    refine .inr ⟨hborn.vacant, fun task' htask' => ?_⟩
    by_contra hne
    rw [hold task' (hnew ▸ hne)] at htask'
    obtain ⟨m, hm, _⟩ := hs.tasks task' page htask'
    obtain ⟨v, hv, _⟩ := family_some hm
    cases hborn.vacant.symm.trans hv
  · rw [hold task hnew] at htask
    exact .inl htask

/-- No process is two kernel tasks, and the collector is on its queue
without children, or COLLECTING without a dead one. -/
structure Minded (s : State) : Prop where
  posts : ∀ task task' p, s.taskOf task = some p → s.taskOf task' = some p → task = task'
  idle : ∀ k t, s.gCollectorTask = some k → s.procs k = some t →
    t.state = .waiting → t.children = [] ∧ t.wakeReason.waitable = some .collector
  busy : ∀ k t, s.gCollectorTask = some k → s.procs k = some t →
    t.state = .collecting → ∀ x ∈ t.children, s.exited x = false

theorem Minded.noZombie (h : Minded s) : NoZombie s := by
  rintro k t hk ht (hst | hst) x hx
  · rw [(h.idle k t hk ht hst).1] at hx
    cases hx
  · exact h.busy k t hk ht hst x hx

/-- What is known of the runs in which nobody sleeps. -/
structure Awake (s : State) : Prop where
  settled : Settled .once [] s
  tickets : Ticketed s
  sane : Sane s
  empty : s.gSleepQueue = []

theorem awake_of_reach (h : system.Reach (fun _ a => Untimed a) s) : Awake s := by
  obtain ⟨hreach, hempty⟩ := sleepless_of_untimed h
  obtain ⟨hsettled, htickets, hsane⟩ := sane_of_reach hreach
  exact ⟨hsettled, htickets, hsane, hempty⟩

theorem Awake.child (h : Awake s) (ht : s.procs k = some t) (hx : x ∈ t.children) :
    x ≠ k ∧ ∃ u, s.procs x = some u ∧ u.stage ≠ .settled := by
  obtain ⟨hne, m, hm, _, hstage⟩ := h.sane.tree.listed k _ (family_eq ht) x hx
  obtain ⟨u, hu, rfl⟩ := family_some hm
  exact ⟨hne, u, hu, hstage⟩

/-- A child that is not dead is alive, and stays so if nobody exits. -/
theorem Awake.stays {C D : Ptr → Prop} (h : Awake s) (hmild : Mild C D s s')
    (ht : s.procs k = some t) (hx : x ∈ t.children)
    (hlive : s.exited x = false) (hD : ¬ D x) : s'.exited x = false := by
  obtain ⟨_, u, hu, hstage⟩ := h.child ht hx
  have hliving : u.stage = .living := by
    refine stage_living ((exited_eq_false hu).1 hlive) (fun hcol => ?_)
    exact hstage (stage_settled_iff.2 hcol)
  rcases hmild.alive x u hu hliving with hdead | ⟨u', hu', hliving'⟩
  · exact absurd hdead hD
  rw [exited_eq_false hu']
  intro hst
  rw [stage_dead_iff.2 hst] at hliving'
  cases hliving'

theorem Awake.posts (h : Awake s) (hminded : Minded s)
    (hstep : s.step a = .ok s') (task task' : KernelTask) (p : Ptr)
    (htask : s'.taskOf task = some p) (htask' : s'.taskOf task' = some p) :
    task = task' := by
  rcases step_posts h.settled h.sane hstep htask with hold | ⟨_, hnew⟩
  · rcases step_posts h.settled h.sane hstep htask' with hold' | ⟨_, hnew⟩
    · exact hminded.posts task task' p hold hold'
    · exact hnew task htask
  · exact (hnew task' htask').symm

/-- Whatever else happens, the collector is minded. -/
theorem Minded.other (hminded : Minded s) (h : Awake s) (huntimed : Untimed a) (hkills : ¬ a.kills)
    (hround : a ≠ .round .collector) (hstep : s.step a = .ok s') :
    Minded s' := by
  have hback : ∀ k t', s'.gCollectorTask = some k → s'.procs k = some t' →
      t'.Blocked → ∃ t, s.gCollectorTask = some k ∧ s.procs k = some t ∧
        t.state = t'.state ∧ t.wakeReason = t'.wakeReason ∧
        t.children = t'.children := by
    intro k t' hk ht' hblocked
    have hposts := step_posts h.settled h.sane hstep (show s'.taskOf .collector = some k from hk)
    have haside : Aside True k s s' := by
      refine step_aside h.empty huntimed hkills ?_ ?_ hstep
      · intro c hc hck
        have hsat : Sat s.caller _ (Tolerated .once) := caller_sat
        obtain ⟨hcurrent, hnot⟩ := hsat.result hc
        obtain ⟨u, hu, _⟩ := (Settled.running h.settled hcurrent).actor_living
        rw [hck] at hnot hu
        rcases hposts with hold | ⟨hnone, _⟩
        · exact hnot hold
        · cases hnone.symm.trans hu
      intro task ha
      have htask : task ≠ .collector := fun heq => hround (heq ▸ ha)
      refine ⟨htask, fun hcurrent => ?_⟩
      rw [ha] at hstep
      obtain ⟨u, hu, _⟩ := (Settled.running h.settled hcurrent).actor_living
      obtain ⟨self, hrunning, hself, _⟩ := round_parts hstep
      rw [← hrunning, hcurrent] at hself
      rcases hposts with hold | ⟨hnone, _⟩
      · exact htask (hminded.posts task .collector k hself hold)
      · cases hnone.symm.trans hu
    obtain ⟨t, ht, hbefore⟩ := haside t' ht' hblocked
    obtain ⟨hst, hreason, hlist⟩ := hbefore hblocked
    refine ⟨t, ?_, ht, hst, hreason, hlist trivial⟩
    rcases hposts with hold | ⟨hnone, _⟩
    · exact hold
    · cases hnone.symm.trans ht
  refine ⟨h.posts hminded hstep, ?_, ?_⟩
  · intro k t' hk ht' hst'
    obtain ⟨t, hk, ht, hst, hreason, hlist⟩ := hback k t' hk ht' (.inl hst')
    rw [← hlist, ← hreason]
    exact hminded.idle k t hk ht (hst.trans hst')
  intro k t' hk ht' hst' x hx
  obtain ⟨t, hk, ht, hst, _, hlist⟩ := hback k t' hk ht' (.inr hst')
  rw [← hlist] at hx
  exact h.stays (step_mild h.settled hstep) ht hx
    (hminded.busy k t hk ht (hst.trans hst') x hx) (fun hD => hkills hD.2)

-- ==== somebody exits

theorem wakeallLoop_empties : ∀ {n : Nat} {s : State},
    (s.waitQueues q).length ≤ n → wakeallLoop q n s = .ok s' →
    s'.waitQueues q = [] := by
  intro n
  induction n with
  | zero =>
    intro s hlen h
    cases h
    exact List.length_eq_zero_iff.1 (Nat.le_zero.1 hlen)
  | succ n ih =>
    intro s hlen h
    unfold wakeallLoop at h
    split at h
    next hqueue =>
      cases h
      exact hqueue
    next e rest hqueue =>
    obtain ⟨⟨woken, s₁⟩, hentry, h⟩ := ok_bind h
    refine ih ?_ h
    have hsame : s₁.waitQueues = (s.setQueue q rest).waitQueues := by
      rcases wakeEntry_cases hentry with heq | ⟨_, _, _, heq⟩
      · exact congrArg waitQueues heq
      · exact (congrArg waitQueues heq).trans rfl
    rw [hqueue, List.length_cons] at hlen
    rw [hsame, show (s.setQueue q rest).waitQueues q = rest from
      update_self ..]
    exact Nat.le_of_succ_le_succ hlen

/-- Whoever leaves children behind wakes everybody in the collector's
queue. -/
theorem reparentAll_empties (hu : s.procs c = some u) (hne : u.children ≠ [])
    (h : s.reparentAll c = .ok s') : s'.waitQueues .collector = [] := by
  unfold State.reparentAll at h
  rw [deref_eq hu, bind_ok] at h
  obtain ⟨s₁, hloop, h⟩ := ok_bind h
  obtain ⟨v, _, h⟩ := ok_bind h
  cases h
  obtain ⟨child, rest, hchildren⟩ := List.exists_cons_of_ne_nil hne
  unfold reparentLoop at hloop
  rw [hchildren] at hloop
  split at hloop
  next heq => cases heq
  · cases hloop
  rw [List.foldlM_cons] at hloop
  obtain ⟨s₂, hfirst, hloop⟩ := ok_bind hloop
  have hempty : s₂.waitQueues .collector = [] := by
    obtain ⟨_, _, hfirst⟩ := ok_bind hfirst
    obtain ⟨_, _, hfirst⟩ := ok_bind hfirst
    obtain ⟨_, _, hfirst⟩ := ok_bind hfirst
    exact wakeallLoop_empties le_rfl hfirst
  have hrest : Drains s₂ s₁ := drains_editing.foldlM (fun _ _ _ =>
    drains_editing.reparent (fun _ _ => .inr ⟨rfl, rfl, rfl⟩)) hloop
  have hsub := hrest.queues .collector
  rw [hempty] at hsub
  exact List.sublist_nil.1 hsub

/-- What the death of a process is to the collector. -/
theorem exit_kin {es : Nat} {closed : List QueueId} (htree : Rooted s)
    (hk : s.gCollectorTask = some k) (hck : c ≠ k) (ht : s.procs k = some t)
    (hu : s.procs c = some u) (h : s.exit c es closed = .ok s') :
    (∀ t', s'.procs k = some t' → t'.children = t.children ++ u.children) ∧
      ∀ x ≠ c, s'.exited x = s.exited x := by
  obtain ⟨v, s₁, s₂, w, s₃, parent, kp, s₄, hexit, heq⟩ := exit_parts h
  obtain ⟨⟨K', horphans, hfamily⟩, _⟩ := hexit.family htree
  rw [Option.mem_unique hexit.proc hu] at horphans
  rw [← hexit.roused_steady.family, ← heq] at hfamily
  constructor
  · intro t' ht'
    obtain ⟨m, hm, hchildren⟩ := horphans.inherits hk (family_eq ht)
    have hm' := congrFun hfamily k
    rw [update_of_ne hck.symm, family_eq ht', hm] at hm'
    rw [← Option.some.inj hm'] at hchildren
    exact hchildren
  · intro x hxc
    rw [Bool.eq_iff_iff, exited_iff, exited_iff, hfamily, update_of_ne hxc, horphans.stage]

theorem Minded.exit {es : Nat} {closed : List Nat} (hminded : Minded s)
    (h : Awake s) (hprompt : Prompt s (.exit es closed))
    (hstep : s.step (.exit es closed) = .ok s') : Minded s' := by
  have htasks := (step_evolves h.settled h.sane (by nofun) hstep).1.tasks
  have hposts := h.posts hminded hstep
  obtain ⟨c, hc, hexit⟩ := ok_bind hstep
  have hsat : Sat s.caller _ (Tolerated .once) := caller_sat
  obtain ⟨hcurrent, hnot⟩ := hsat.result hc
  obtain ⟨u, hu, hava⟩ :=  (Settled.running h.settled hcurrent).actor c rfl
  obtain ⟨_, s₁, s₂, w, s₃, parent, kp, s₄, hparts, heq⟩ := exit_parts hexit
  have hbefore : ∀ p, Aside False p s s₁ := fun p =>
    aside_editing.reparentAll (fun _ _ _ _ _ => ⟨rfl, rfl, nofun⟩) hparts.handed
  have hafter : ∀ p, Aside False p s₁ s' := fun p => heq ▸
    aside_editing.leave hparts blockedAsBefore_up (fun _ _ h => absurd h (not_blocked nofun nofun))
  refine ⟨hposts, ?_, ?_⟩
  all_goals
    intro k t' hk ht' hst'
    have hk : s.gCollectorTask = some k := (congrFun htasks .collector).symm.trans hk
    have hck : c ≠ k := fun heq => hnot (heq ▸ hk)
  · obtain ⟨t₁, ht₁, hsame₁⟩ := hafter k t' ht' (.inl hst')
    obtain ⟨hst₁, hreason₁, _⟩ := hsame₁ (.inl hst')
    obtain ⟨t, ht, hsame⟩ := hbefore k t₁ ht₁ (.inl (hst₁.trans hst'))
    obtain ⟨hst, hreason, _⟩ := hsame (.inl (hst₁.trans hst'))
    obtain ⟨hnone, hqueue⟩ := hminded.idle k t hk ht (hst.trans (hst₁.trans hst'))
    have hkin := (exit_kin h.sane.tree hk hck ht hu hexit).1 t' ht'
    refine ⟨?_, by rw [← hreason₁, ← hreason]; exact hqueue⟩
    rw [hkin, hnone, List.nil_append]
    by_contra hne
    -- it would have been woken up
    have htickets : Ticketed s₁ := (drains_editing.reparentAll
      (fun _ _ _ => .inr ⟨rfl, rfl, rfl⟩) hparts.handed).tickets h.tickets
    obtain ⟨q, hq, hmem⟩ := htickets k t₁ ht₁ (hst₁.trans hst')
    rw [← hreason, hqueue] at hq
    rw [← Option.some.inj hq, reparentAll_empties hu hne hparts.handed] at hmem
    cases hmem
  intro x hx
  obtain ⟨t₁, ht₁, hsame₁⟩ := hafter k t' ht' (.inr hst')
  have hst₁ := (hsame₁ (.inr hst')).1
  obtain ⟨t, ht, hsame⟩ := hbefore k t₁ ht₁ (.inr (hst₁.trans hst'))
  have hst := (hsame (.inr (hst₁.trans hst'))).1
  have hcollecting := hst.trans (hst₁.trans hst')
  obtain ⟨hkin, hdead⟩ := exit_kin h.sane.tree hk hck ht hu hexit
  have hcx : c ∉ t.children := fun hmem =>
    (exit_rouses h.sane.tree hu hava hexit (h.sane.parent_of_mem
      (h.settled.books rfl) ht hu hmem)).1 t' ht' hst'
  rw [hkin t' ht', List.mem_append] at hx
  rcases hx with hx | hx
  · rw [hdead x (fun heq => hcx (heq ▸ hx))]
    exact hminded.busy k t hk ht hcollecting x hx
  rw [hdead x (h.child hu hx).1]
  rcases hprompt c hcurrent u hu k hk t ht hcollecting with hmem | hnone
  · exact absurd hmem hcx
  · exact hnone x hx

-- ==== the collector's round

/-- With no children it waits on its queue, with a dead one in front it goes
on, and otherwise it blocks. -/
theorem collector_cases (h : Awake s) (hcurrent : s.current = some k)
    (ht : s.procs k = some t) (hround : s.collector k = .ok s') :
    (t.children = [] ∧ s'.procs = update s.procs k
        (some (descheduled t .waiting (some .collector)))) ∨
    (∃ x, t.children.head? = some x ∧ s.exited x = true ∧
      ∀ t', s'.procs k = some t' → ¬ t'.Blocked) ∨
    (∃ x, t.children.head? = some x ∧ s.exited x = false ∧ s'.procs = update s.procs k
        (some (descheduled t .collecting none))) := by
  have hrunning := Settled.running h.settled hcurrent
  have hready := hrunning.readyCount_actor rfl
  unfold collector at hround
  rw [deref_eq ht, bind_ok] at hround
  split at hround
  next hnone =>
    unfold waitYield State.wait at hround
    rw [deref_eq ht, bind_ok] at hround
    rw [deschedule_eq (s := s.setQueue .collector _) hready ht] at hround
    cases hround
    exact .inl ⟨hnone, rfl⟩
  next x rest hchildren =>
  obtain ⟨u, hu, hround⟩ := deref_bind hround
  have hhead : t.children.head? = some x := by rw [hchildren]; rfl
  right
  obtain ⟨found, hfound, hround⟩ := ok_bind hround
  have hnamed := ((h.settled.books rfl).named u.pid x).2 ⟨u, hu, rfl⟩
  split at hround
  · cases hround
  next task =>
  have htask : task = x := Option.some.inj ((ProcessTable.get_ok hfound).symm.trans hnamed)
  rw [htask, deref_eq hu, bind_ok] at hround
  obtain ⟨_, _, hround⟩ := ok_bind hround
  obtain ⟨_, hround⟩ := reject_eq_ok.1 hround
  split at hround
  next hlive =>
    rw [deschedule_eq hready ht] at hround
    cases hround
    exact .inr ⟨x, hhead, (exited_eq_false hu).2 hlive, rfl⟩
  next hdead =>
  have hdead := not_not.1 hdead
  refine .inl ⟨x, hhead, ?_, fun t' ht' hblocked => ?_⟩
  · rw [exited_iff, family_eq hu]
    exact congrArg some (stage_dead_iff.2 hdead)
  have haside : Aside False k s s' := aside_editing.collectDead (fun _ _ _ _ => ⟨rfl, rfl, nofun⟩)
    (fun v hv => Option.mem_unique hv hu ▸ hdead) hround
  obtain ⟨v, hv, hsame⟩ := haside t' ht' hblocked
  obtain ⟨w, hw, hava⟩ := hrunning.actor k rfl
  have hst := (hsame hblocked).1
  rw [Option.mem_unique hv hw, hava] at hst
  rcases hblocked with hblocked | hblocked <;> rw [← hst] at hblocked <;> cases hblocked

theorem Minded.round (hminded : Minded s) (h : Awake s) (hprompt : Prompt s (.round .collector))
    (hstep : s.step (.round .collector) = .ok s') : Minded s' := by
  have htasks := (step_evolves h.settled h.sane (by nofun) hstep).1.tasks
  obtain ⟨self, hcurrent, hself, hround⟩ := round_parts hstep
  have hself : s.gCollectorTask = some self := hself
  obtain ⟨t, ht, _⟩ := (Settled.running h.settled hcurrent).actor self rfl
  have hother : ∀ k, s'.gCollectorTask = some k → k = self := fun k hk =>
    Option.some.inj (((congrFun htasks .collector).symm.trans hk).symm.trans hself)
  have hcases := collector_cases h hcurrent ht hround
  refine ⟨h.posts hminded hstep, ?_, ?_⟩
  · intro k t' hk ht' hst'
    rw [hother k hk] at ht'
    rcases hcases with ⟨hnone, heq⟩ | ⟨_, _, _, hgoes⟩ | ⟨_, _, _, heq⟩
    · rw [heq, update_self] at ht'
      rw [← Option.some.inj ht']
      exact ⟨hnone, rfl⟩
    · exact absurd (.inl hst') (hgoes t' ht')
    · rw [heq, update_self] at ht'
      rw [← Option.some.inj ht'] at hst'
      cases hst'
  intro k t' hk ht' hst' x hx
  rw [hother k hk] at ht'
  rcases hcases with ⟨_, heq⟩ | ⟨_, _, _, hgoes⟩ | ⟨y, hy, hlive, heq⟩
  · rw [heq, update_self] at ht'
    rw [← Option.some.inj ht'] at hst'
    cases hst'
  · exact absurd (.inr hst') (hgoes t' ht')
  rw [heq, update_self] at ht'
  rw [← Option.some.inj ht'] at hx
  have hsame : s'.exited x = s.exited x := by
    unfold State.exited
    rw [heq, update_of_ne (h.child ht hx).1]
  rw [hsame]
  rcases hprompt self hself t ht with hfirst | hnone
  · rw [hfirst y hy] at hlive
    cases hlive
  · exact hnone x hx

-- ==== whole runs

/-- **No zombie is left behind** the blocked collector, in the runs in which
it is prompt. -/
theorem noZombie_of_prompt (h : system.Reach (fun s a => Untimed a ∧ Prompt s a) s) :
    NoZombie s := by
  suffices hminded : Minded s from hminded.noZombie
  induction h with
  | boot hb =>
    have hb : _ = State.initial := hb
    rw [hb]
    exact ⟨fun task _ _ htask => (by cases task <;> cases htask),
      fun _ _ hk => (by cases hk), fun _ _ hk => (by cases hk)⟩
  | @step s s' a hr hok hst ih =>
    have hawake := awake_of_reach (hr.mono (fun _ _ hboth => hboth.1))
    by_cases hkills : a.kills
    · cases a with
      | exit es closed => exact ih.exit hawake hok.2 hst
      | _ => exact hkills.elim
    by_cases hround : a = .round .collector
    · rw [hround] at hok hst
      exact ih.round hawake hok.2 hst
    · exact ih.other hawake hok.1 hkills hround hst

/-- A process exits and leaves a child, which the collector waits for. -/
theorem noZombie_of_prompt_orphan : ∃ s, system.Reach (fun s a => Untimed a ∧ Prompt s a) s ∧
    (s.procs 1).map (fun t => (t.state, t.children)) = some (.collecting, [6]) ∧ NoZombie s := by
  obtain ⟨s, hreach, hcollecting⟩ := Machine.exists_guarded (M := system)
    (G := fun s a => Untimed a ∧ Prompt s a)
    (P := fun s => (s.procs 1).map (fun t => (t.state, t.children)) = some (.collecting, [6])) rfl
    (booted ++ [.spawn 6 (tickets 20), .exit 0 [], .schedule 3,
      .round .collector]) (by decide +kernel) (by decide +kernel)
  exact ⟨s, hreach, hcollecting, noZombie_of_prompt hreach⟩

/-- The collector is COLLECTING with a dead child. -/
def hasZombie (s : State) : Bool :=
  s.gCollectorTask.any fun k => (s.procs k).any fun t =>
    decide (t.state = .collecting) && t.children.any s.exited

theorem not_noZombie (h : hasZombie s = true) : ¬ NoZombie s := by
  unfold hasZombie at h
  simp only [Option.any_eq_true, Bool.and_eq_true, decide_eq_true_eq, List.any_eq_true] at h
  obtain ⟨k, hk, t, ht, hst, x, hx, hdead⟩ := h
  intro hnone
  rw [hnone k t hk ht (.inr hst) x hx] at hdead
  cases hdead

/-- Two ways to leave a zombie. The second of two orphans exits first. And
a process exits whose child is dead, while the collector waits for that
child's own child. -/
theorem zombie_behind_living : (∃ s, system.run (booted ++ [.spawn 6 (tickets 20),
        .spawn 7 (tickets 20), .exit 0 [], .schedule 3, .round .collector,
        .schedule 75, .exit 0 [], .schedule 69, .round .collector])
        State.initial = .ok s ∧
      system.Reach (fun _ a => Untimed a) s ∧ ¬ NoZombie s) ∧
    ∃ s, system.run (booted ++ [.spawn 6 (tickets 20), .yield,
        .schedule 80, .spawn 7 (tickets 20), .exit 0 [], .schedule 3,
        .round .collector, .schedule 50, .exit 0 []]) State.initial = .ok s ∧
      system.Reach (fun _ a => Untimed a) s ∧ ¬ NoZombie s := by
  have hends : ∀ {acts : List Action}, system.endsWith acts State.initial hasZombie = true →
      system.Guarded (fun _ a => Untimed a) acts State.initial →
      ∃ s, system.run acts State.initial = .ok s ∧
        system.Reach (fun _ a => Untimed a) s ∧ ¬ NoZombie s := by
    intro acts htest hguarded
    obtain ⟨s, hrun, htest⟩ := Machine.endsWith_iff.1 htest
    exact ⟨s, hrun, reach_of_guarded hguarded hrun, not_noZombie htest⟩
  exact ⟨hends (by decide +kernel) (by decide +kernel),
    hends (by decide +kernel) (by decide +kernel)⟩

end Puppy.Proc
