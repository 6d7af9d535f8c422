/-
Nobody collects in vain.

`collect` and `collectany` block until a child dies, and the only thing that
ends the wait is the exit of a child: `exit` looks its parent up and makes
it AVAILABLE if it finds it COLLECTING. So a wait that begins while some
child is alive is ended by that child (`exit_rouses`), and as long as the
child lives it stays in the list.

Two waits begin without one. `collectany` does not look whether there are
children at all, and `collect` takes every process that is not EXITED for
one that is still alive, also the child that has been collected already and
is waiting to be deleted. In the runs without those two, every COLLECTING
process has a living child.
-/
import Puppy.Proc.Proofs.Calm

namespace Puppy.Proc

open Libc Lib State Function

variable {s s' s'' : State} {p c : Ptr} {q : QueueId} {C D : Ptr → Prop}
  {k t t' u : Process} {es : Nat} {closed : List QueueId} {a : Action}

/-- Some child is alive. -/
def Attended (s : State) (t : Process) : Prop :=
  ∃ x u, x ∈ t.children ∧ s.procs x = some u ∧ u.stage = .living

/-- Every COLLECTING process has a living child. -/
def AllAttended (s : State) : Prop :=
  ∀ p t, s.procs p = some t → t.state = .collecting → Attended s t

theorem stage_collecting (h : t.state = .collecting) : t.stage = .living := by
  unfold Process.stage
  rw [h]

/-- Everybody else keeps a living child, unless it is the one that dies. -/
theorem Mild.attended (hmild : Mild C D s s')
    (hgrows : Genealogy.Grows s.gCollectorTask (· < gNumProcesses) s.family
      s'.family) (hall : AllAttended s)
    (hC : ∀ p t', C p → s'.procs p = some t' → t'.state = .collecting → Attended s' t')
    (hD : ∀ x p t t', D x → s.procs p = some t → s'.procs p = some t' →
      t'.state = .collecting → x ∉ t.children) : AllAttended s' := by
  intro p t' ht' hst'
  rcases hmild.collecting p t' ht' hst' with hp | ⟨t, ht, hst⟩
  · exact hC p t' hp ht' hst'
  obtain ⟨x, u, hx, hu, hliving⟩ := hall p t ht hst
  rcases hmild.alive x u hu hliving with hdead | ⟨u', hu', hliving'⟩
  · exact absurd hx (hD x p t t' hdead ht ht' hst')
  · refine ⟨x, u', ?_, hu', hliving'⟩
    exact hgrows.keeps (family_eq ht) hx (family_eq ht')
      (stage_collecting hst') (family_eq hu') hliving'

/-- In a step in which nobody begins to collect, and nobody dies. -/
theorem Mild.attended_still (hmild : Mild (fun _ => False) (fun _ => False) s s')
    (hgrows : Genealogy.Grows s.gCollectorTask (· < gNumProcesses) s.family
      s'.family) (hall : AllAttended s) : AllAttended s' :=
  hmild.attended hgrows hall (fun _ _ hC => hC.elim) (fun _ _ _ _ hD => hD.elim)

-- ==== sleeping, and the other kernel tasks

theorem sleep_mild {ms : Nat} (h : s.sleep p ms = .ok s') : Mild C D s s' := by
  obtain ⟨t, ht, h⟩ := deref_bind h
  obtain ⟨s₁, hdesch, h⟩ := ok_bind h
  obtain ⟨u, _, h⟩ := ok_bind h
  obtain ⟨queue, _, h⟩ := ok_bind h
  obtain ⟨s₂, hwake, h⟩ := ok_bind h
  injection h with h
  have hset : Mild C D s (s.setProc p { t with sleeptill := s.millisUptime + ms }) :=
    .tweak ht rfl Or.inr Or.inr
  have hdesch : Calm C D _ s₁ :=
    deschedule_calm (fun hst => by cases hst) (by decide) (by decide) hdesch
  have hqueue : Mild C D s₁ { s₁ with gSleepQueue := queue } := .same rfl
  have hwake : Calm C D _ s₂ := calm_editing.wakeall hwake
  rw [← h]
  exact (hset.trans hdesch.toMild).trans (hqueue.trans (hwake.trans calm_editing.switch).toMild)

theorem waitYield_mild {timeout : Nat} (h : s.waitYield q p timeout = .ok s') : Mild C D s s' := by
  obtain ⟨s₁, hwait, h⟩ := ok_bind h
  have hwait : Calm C D s s₁ := wait_calm hwait
  split at h
  · exact of_ok h ((hwait.trans calm_editing.switch).toMild)
  · exact hwait.toMild.trans (sleep_mild h)

theorem popSleeper_mild {r : QEntry × State} (h : s.popSleeper = .ok r) : Mild C D s r.2 := by
  unfold popSleeper at h
  split at h
  · cases h
  obtain ⟨queue, _, h⟩ := ok_bind h
  cases h
  exact .same rfl

theorem awaker_mild (h : s.awaker c = .ok s') : Mild C D s s' := by
  unfold awaker at h
  split at h
  · exact waitYield_mild h
  obtain ⟨t, _, h⟩ := ok_bind h
  split at h
  · obtain ⟨r, hpop, h⟩ := ok_bind h
    exact (popSleeper_mild hpop).trans (calm_editing.enqueueForDeath h).toMild
  split at h
  · split at h
    · obtain ⟨r, hpop, h⟩ := ok_bind h
      exact (popSleeper_mild hpop).trans (wake_calm h).toMild
    · exact of_ok h (.same rfl)
  · exact of_ok h (.same rfl)

/-- The deleter removes nobody who is alive. -/
theorem deleter_mild {ph : Phase} {Q : List QueueId} (hinv : Inv .once ph Q s)
    (h : s.deleter c = .ok s') : Mild C D s s' := by
  unfold deleter at h
  split at h
  · exact waitYield_mild h
  next x rest hlist =>
  obtain ⟨t, _, h⟩ := ok_bind h
  refine of_ok h ?_
  have hcount : s.collectedCount x ≠ 0 := by
    unfold collectedCount
    rw [hlist, List.count_cons_self]
    exact Nat.succ_ne_zero _
  obtain ⟨_, v, hv, hcol⟩ := (hinv.proper x).collected (by decide) hcount
  have hv : s.procs x = some v := hv
  constructor
  · intro y u hy hst
    rcases update_eq_some hy with ⟨_, ⟨⟩⟩ | ⟨_, hy⟩
    · exact .inr ⟨u, hy, hst⟩
  intro y u hy hliving
  have hyx : y ≠ x := by
    intro heq
    rw [heq, hv] at hy
    rw [← Option.some.inj hy, stage_settled_iff.2 hcol] at hliving
    cases hliving
  refine .inr ⟨u, ?_, hliving⟩
  show update s.procs x none y = some u
  rw [update_of_ne hyx, hy]

-- ==== beginning to collect

theorem Steady.attended (h : Steady s s') (hc : s.procs c = some k)
    (hatt : Attended s k) (hc' : s'.procs c = some t') : Attended s' t' := by
  have hmember : some t'.member = some k.member := by rw [← family_eq hc', h.family, family_eq hc]
  have hchildren : t'.children = k.children := congrArg Member.children (Option.some.inj hmember)
  obtain ⟨x, u, hx, hu, hliving⟩ := hatt
  have hfam : s'.family x = some u.member := by rw [h.family, family_eq hu]
  obtain ⟨u', hu', hmember'⟩ := family_some hfam
  refine ⟨x, u', hchildren ▸ hx, hu', ?_⟩
  exact (congrArg Member.stage hmember').trans hliving

/-- The current process blocks, with a living child. -/
theorem deschedule_attended {r : State} (hk : s.procs c = some k)
    (hava : k.state = .available) (hatt : Attended s k)
    (h : s.deschedule c .collecting none = .ok r)
    (hc' : r.switchtoscheduler.procs c = some t') :
    Attended r.switchtoscheduler t' := by
  have hsteady := deschedule_steady hk (stage_available hava) (by decide) (by decide) h
  have hswitch : Steady r r.switchtoscheduler := ⟨rfl, rfl, rfl, rfl⟩
  exact (hsteady.trans hswitch).attended hk hatt hc'

/-- `collect` of a child that is alive, or dead, but not yet collected. -/
theorem collect_attended {pid : Pid} (hk : s.procs c = some k) (hava : k.state = .available)
    (hchild : ∀ task t, s.gProcessTable.mTable pid = some task →
      s.procs task = some t → s.gProcessTable.get t.ppid = .ok (some c) →
      task ∈ k.children ∧ t.state ≠ .collected)
    (h : s.collect c pid = .ok s') (hc' : s'.procs c = some t')
    (hst' : t'.state = .collecting) : Attended s' t' := by
  obtain ⟨found, hfound, h⟩ := ok_bind h
  cases found with
  | none => cases h
  | some task =>
    obtain ⟨t, ht, h⟩ := deref_bind h
    obtain ⟨named, hnamed, h⟩ := ok_bind h
    obtain ⟨hparent, h⟩ := reject_eq_ok.1 h
    rw [not_not] at hparent
    rw [hparent] at hnamed
    obtain ⟨hmem, hcol⟩ := hchild task t (ProcessTable.get_ok hfound) ht hnamed
    by_cases hex : t.state = .exited
    · -- then nobody blocks
      rw [if_neg (not_not.2 hex)] at h
      have hcalm : Calm (fun _ => False) (fun _ => False) s s' := by
        refine collectDead_calm ?_ h
        intro u hu
        rw [Option.mem_unique hu ht, hex]
      rcases hcalm.collecting c t' hc' hst' with hC | ⟨u, hu, hst⟩
      · exact hC.elim
      · rw [Option.mem_unique hu hk, hava] at hst
        cases hst
    · rw [if_pos hex] at h
      obtain ⟨s₁, hdesch, h⟩ := ok_bind h
      injection h with h
      rw [← h] at hc' ⊢
      exact deschedule_attended hk hava ⟨task, t, hmem, ht, stage_living hex hcol⟩ hdesch hc'

/-- A child in the list is not collected yet, and looking its pid up finds
it. -/
theorem Sane.child_of_pid {x task : Ptr} (hs : Sane s) (hb : Books s)
    (hk : s.procs c = some k) (hx : x ∈ k.children)
    (hu : s.procs x = some u) (htask : s.gProcessTable.mTable u.pid = some task)
    (ht : s.procs task = some t) : task ∈ k.children ∧ t.state ≠ .collected := by
  have hfound := (hb.named u.pid x).2 ⟨u, hu, rfl⟩
  have heq : task = x := Option.mem_unique htask hfound
  rw [heq] at ht ⊢
  obtain ⟨_, m, hm, _, hstage⟩ := hs.tree.listed c _ (family_eq hk) x hx
  rw [family_eq ht] at hm
  refine ⟨hx, fun hcol => hstage ?_⟩
  rw [← Option.some.inj hm]
  exact stage_settled_iff.2 hcol

theorem collectany_attended {wait : Bool} (hs : Sane s) (hb : Books s)
    (hk : s.procs c = some k) (hava : k.state = .available)
    (hsome : wait = true → k.children ≠ [])
    (h : s.collectany c wait = .ok s') (hc' : s'.procs c = some t')
    (hst' : t'.state = .collecting) : Attended s' t' := by
  unfold collectany at h
  rw [deref_step hk] at h
  obtain ⟨found, hfound, h⟩ := ok_bind h
  have hsat : Sat (s.firstExited k.children) _ (Tolerated .ready) :=
    firstExited_sat
  have hfound := hsat.result hfound
  cases found with
  | some child =>
    obtain ⟨hx, u, hu, _⟩ := hfound
    obtain ⟨u', hu', h⟩ := deref_bind h
    rw [Option.mem_unique hu' hu] at h
    exact collect_attended hk hava (fun task t htask ht _ => hs.child_of_pid hb hk hx hu htask ht)
      h hc' hst'
  | none =>
    cases wait with
    | true =>
      obtain ⟨s₁, hdesch, h⟩ := ok_bind h
      injection h with h
      rw [← h] at hc' ⊢
      obtain ⟨x, hx⟩ := List.exists_mem_of_ne_nil _ (hsome rfl)
      obtain ⟨u, hu, hex⟩ := hfound x hx
      have hfound := (hb.named u.pid x).2 ⟨u, hu, rfl⟩
      obtain ⟨_, hcol⟩ := hs.child_of_pid hb hk hx hu hfound hu
      exact deschedule_attended hk hava ⟨x, u, hx, hu, stage_living hex hcol⟩ hdesch hc'
    | false =>
      injection h with h
      rw [← h, hk] at hc'
      rw [← Option.some.inj hc', hava] at hst'
      cases hst'

-- ==== the exit of a child

/-- Whoever was COLLECTING still is. -/
def Steadfast (s s' : State) : Prop :=
  ∀ p t, s.procs p = some t → t.state = .collecting →
    ∃ t', s'.procs p = some t' ∧ t'.state = .collecting

theorem Steadfast.trans (h : Steadfast s s') (h' : Steadfast s' s'') : Steadfast s s'' := by
  intro p t ht hst
  obtain ⟨t', ht', hst'⟩ := h p t ht hst
  exact h' p t' ht' hst'

theorem Steadfast.refl (s : State) : Steadfast s s :=
  fun _ t ht hst => ⟨t, ht, hst⟩

theorem Steadfast.tweak (hc : s.procs c = some k) (hprocs : s'.procs = update s.procs c (some t'))
    (hst : k.state = .collecting → t'.state = .collecting) :
    Steadfast s s' := by
  intro p t ht hp
  rw [hprocs]
  by_cases hpc : p = c
  · rw [hpc] at ht ⊢
    rw [← Option.mem_unique hc ht] at hp
    exact ⟨t', update_self .., hst hp⟩
  · exact ⟨t, by rw [update_of_ne hpc, ht], hp⟩

theorem steadfast_editing : Editing Steadfast
    (fun _ t t' => t.state = .collecting → t'.state = .collecting) := by
  have hsame : ∀ {s s' : State}, s'.procs = s.procs → Steadfast s s' :=
    fun h p t ht hst => ⟨t, by rw [h, ht], hst⟩
  refine ⟨⟨⟨.refl, .trans, ?_⟩, fun h => hsame h.procs⟩, fun h => hsame h.procs, ?_, ?_, ?_, ?_⟩
  · intro s q e rest r _ h
    rcases wakeEntry_cases h with heq | ⟨t, ht, hst, heq⟩
    · rw [heq]
      exact hsame rfl
    rw [heq]
    refine .tweak ht rfl (fun hcollecting => ?_)
    cases hst.symm.trans hcollecting
  · exact fun ht hedit h => .tweak ht h.procs hedit
  · intro s s' p t h x u hx hu
    have hxp : x ≠ p := ne_of_entry hx h.vacant
    exact ⟨u, by rw [h.procs, update_of_ne hxp, hx], hu⟩
  · intro p t hst hcollecting
    cases hst.symm.trans hcollecting
  · exact fun ht _ => .tweak ht rfl id

/-- The parent of a process that exits does not go on collecting: it is
AVAILABLE if it was. -/
theorem exit_rouses (htree : Rooted s) (hu : s.procs c = some u) (hava : u.state = .available)
    (h : s.exit c es closed = .ok s')
    (hparent : s.gProcessTable.get u.ppid = .ok (some p)) :
    (∀ t', s'.procs p = some t' → t'.state ≠ .collecting) ∧
      ∀ t, s.procs p = some t → t.state = .collecting →
        ∃ t', s'.procs p = some t' ∧ t'.state = .available := by
  obtain ⟨u', s₁, s₂, w, s₃, parent, k, s₄, hexit, heq⟩ := exit_parts h
  have huu : u' = u := Option.mem_unique hexit.proc hu
  rw [huu] at hexit
  obtain ⟨_, _, hfound⟩ := hexit.evolves htree (stage_available hava)
  have hpp : parent = p := by
    rw [hparent] at hfound
    exact (Option.some.inj (Except.ok.inj hfound)).symm
  rw [hpp] at hexit
  have hprocs : s'.procs = s₄.procs := by rw [heq]; rfl
  rw [hprocs]
  rcases hexit.roused with ⟨hst, hresched⟩ | ⟨hst, hsame⟩
  · rw [reschedule_eq hexit.record] at hresched
    injection hresched with hresched
    have hrec : s₄.procs p = some (rescheduled k) := by
      rw [← hresched]
      exact update_self ..
    refine ⟨?_, fun _ _ _ => ⟨_, hrec, rfl⟩⟩
    intro t' ht' hcollecting
    rw [← Option.mem_unique hrec ht'] at hcollecting
    cases hcollecting
  rw [hsame]
  constructor
  · intro t' ht'
    rw [← Option.mem_unique hexit.record ht']
    exact hst
  -- a parent that collects is not overlooked
  intro t ht hcollecting
  have hbefore := (steadfast_editing.reparentAll (fun _ _ _ => id) hexit.handed).trans
    (steadfast_editing.closeAll hexit.closing)
  obtain ⟨t₂, ht₂, hst₂⟩ := hbefore p t ht hcollecting
  have hpc : p ≠ c := by
    intro hpc
    rw [hpc, hu] at ht
    rw [← Option.some.inj ht, hava] at hcollecting
    cases hcollecting
  have hdead : (s₂.setProc c { w with
      state := .exited, exitstatus := es }).procs p = some t₂ := by
    rw [setProc_procs, update_of_ne hpc, ht₂]
  obtain ⟨t₃, ht₃, hst₃⟩ := steadfast_editing.wakeall hexit.released p t₂ hdead hst₂
  rw [Option.mem_unique ht₃ hexit.record] at hst₃
  exact absurd hst₃ hst

-- ==== steps

/-- The one whose child dies is its parent by the `ppid`. -/
theorem Sane.parent_of_mem (hs : Sane s) (hb : Books s)
    (hp : s.procs p = some t) (hu : s.procs c = some u)
    (hmem : c ∈ t.children) : s.gProcessTable.get u.ppid = .ok (some p) := by
  obtain ⟨_, m, hm, hppid, _⟩ := hs.tree.listed p _ (family_eq hp) c hmem
  rw [family_eq hu] at hm
  have hpid : u.ppid = t.pid := by
    rw [← Option.some.inj hm] at hppid
    exact hppid
  have hbound : t.pid < gNumProcesses := hs.tree.supply p _ (family_eq hp)
  unfold ProcessTable.get
  rw [hpid, if_neg (Nat.not_le.2 hbound)]
  exact congrArg Except.ok ((hb.named t.pid p).2 ⟨t, hp, rfl⟩)

theorem exit_attended (hs : Sane s) (hb : Books s) (hall : AllAttended s)
    (hu : s.procs c = some u) (hava : u.state = .available)
    (h : s.exit c es closed = .ok s') : AllAttended s' := by
  have hmild : Calm (fun _ => False) (· = c) s s' := exit_calm rfl h
  refine hmild.toMild.attended (exit_rests hs.tree hu
    (stage_available hava) h).grows hall (fun _ _ hC => hC.elim) ?_
  intro x p t t' hx hp hp' hst' hmem
  rw [hx] at hmem
  exact (exit_rouses hs.tree hu hava h (hs.parent_of_mem hb hp hu hmem)).1 t' hp' hst'

/-- The collector waits for the first of its children. -/
theorem collector_attended (hs : Sane s) (hb : Books s) (hall : AllAttended s)
    (hgrows : Genealogy.Grows s.gCollectorTask (· < gNumProcesses) s.family
      s'.family) (hk : s.procs c = some k) (hava : k.state = .available)
    (h : s.collector c = .ok s') : AllAttended s' := by
  unfold collector at h
  rw [deref_step hk] at h
  split at h
  · exact (waitYield_mild h).attended_still hgrows hall
  next child rest hchildren =>
  obtain ⟨u, hu, h⟩ := deref_bind h
  have hx : child ∈ k.children := by
    rw [hchildren]
    exact List.mem_cons_self
  have hcalm : Calm (· = c) (fun _ => False) s s' := collect_calm rfl h
  refine hcalm.toMild.attended hgrows hall ?_ (fun _ _ _ _ hD => hD.elim)
  intro p t' hp ht' hst'
  rw [hp] at ht'
  exact collect_attended hk hava (fun task t htask ht _ =>
    hs.child_of_pid hb hk hx hu htask ht) h ht' hst'

theorem round_attended {task : KernelTask} (h : Settled .once [] s)
    (hs : Sane s) (hall : AllAttended s) (hround : s.round task = .ok s') :
    AllAttended s' := by
  have hgrows := (round_tends h hs hround).grows
  obtain ⟨self, hself, _, htask⟩ := round_parts hround
  have hrun := Settled.running h hself
  cases task with
  | collector =>
    obtain ⟨k, hk, hava⟩ := hrun.actor self rfl
    exact collector_attended hs (h.books rfl) hall hgrows hk hava htask
  | awaker => exact (awaker_mild htask).attended_still hgrows hall
  | deleter => exact (deleter_mild hrun htask).attended_still hgrows hall

/-- Everybody else is left alone by a step: only the current process begins
to collect, or dies. -/
theorem step_mild (h : Settled .once [] s) (hstep : s.step a = .ok s') :
    Mild (fun p => s.current = some p ∧ a.collects)
      (fun p => s.current = some p ∧ a.kills) s s' := by
  refine calm_editing.step (P := Mild _ _ s s') Calm.toMild
    (fun _ _ t _ => ⟨rfl, .inr, .inr⟩) ?_ ?_ hstep
  · intro hcollects c hc t
    exact ⟨rfl, fun _ => .inl ⟨caller_current hc, hcollects⟩, fun _ => .inr rfl⟩
  cases a with
  | waitYield id timeout => exact fun c _ hstep => waitYield_mild hstep
  | sleep ms => exact fun c _ hstep => sleep_mild hstep
  | exit es closed =>
    intro c hc hstep
    exact (exit_calm ⟨caller_current hc, trivial⟩ hstep).toMild
  | round task =>
    intro hstep
    obtain ⟨self, hself, _, htask⟩ := round_parts hstep
    have hrun := Settled.running h hself
    cases task with
    | collector =>
      obtain ⟨k, _, htask⟩ := ok_bind htask
      split at htask
      · exact waitYield_mild htask
      · obtain ⟨t, _, htask⟩ := ok_bind htask
        exact (collect_calm ⟨hself, trivial⟩ htask).toMild
    | awaker => exact awaker_mild htask
    | deleter => exact deleter_mild hrun htask
  | _ => trivial

theorem step_attended (h : Settled .once [] s) (hs : Sane s)
    (hall : AllAttended s) (hguard : WaitsForSomebody s a)
    (hstep : s.step a = .ok s') : AllAttended s' := by
  have hb := h.books rfl
  have hgrows := (step_tends h hs hstep).grows
  have hmild := step_mild h hstep
  have hactor : ∀ {c : Ptr}, s.caller = .ok c → ∃ t, s.procs c = some t ∧ t.state = .available :=
    fun hc => (Settled.running h (caller_current hc)).actor _ rfl
  cases a with
  | collect pid =>
    obtain ⟨c, hc, hstep⟩ := ok_bind hstep
    obtain ⟨k, hk, hava⟩ := hactor hc
    refine hmild.attended hgrows hall ?_ (fun _ _ _ _ hD => hD.2.elim)
    intro p t' hp ht' hst'
    rw [Option.mem_unique hp.1 (caller_current hc)] at ht'
    refine collect_attended hk hava ?_ hstep ht' hst'
    intro task t htask ht hparent
    obtain ⟨hzero, hcol⟩ := hguard task htask
    exact ⟨hs.mem_children hb hk ht hzero (hcol t ht) hparent, hcol t ht⟩
  | collectany wait =>
    obtain ⟨c, hc, hstep⟩ := ok_bind hstep
    obtain ⟨k, hk, hava⟩ := hactor hc
    refine hmild.attended hgrows hall ?_ (fun _ _ _ _ hD => hD.2.elim)
    intro p t' hp ht' hst'
    rw [Option.mem_unique hp.1 (caller_current hc)] at ht'
    refine collectany_attended hs hb hk hava ?_ hstep ht' hst'
    intro hwait
    refine hguard hwait k ?_
    rw [caller_current hc]
    exact hk
  | exit es closed =>
    obtain ⟨c, hc, hstep⟩ := ok_bind hstep
    obtain ⟨k, hk, hava⟩ := hactor hc
    exact exit_attended hs hb hall hk hava hstep
  | round task => exact round_attended h hs hall hstep
  | _ => exact hmild.attended hgrows hall (fun _ _ hC => hC.2.elim) (fun _ _ _ _ hD => hD.2.elim)

-- ==== runs

/-- What a living child is good for. -/
theorem AllAttended.noVainWait (hall : AllAttended s) (hs : Sane s)
    (h : Settled .once [] s) : NoVainWait s := by
  intro p t ht hst
  obtain ⟨x, u, hx, hu, hliving⟩ := hall p t ht hst
  refine ⟨x, u, hx, hu, ?_, ?_, ?_⟩
  · intro hex
    cases hliving.symm.trans (stage_dead_iff.2 hex)
  · intro hcol
    cases hliving.symm.trans (stage_settled_iff.2 hcol)
  intro es closed s' hcurrent hstep
  have hrun := Settled.running h hcurrent
  obtain ⟨u', hu', hava⟩ := hrun.actor x rfl
  rw [Option.mem_unique hu' hu] at hava
  -- the ready queue is in order after any exit
  have hsettled : Settled .ready [] s' := by
    have hrelaxed : Settled .ready [] s := Inv.relax h
    refine (step_sat hrelaxed ?_).result hstep
    nofun
  obtain ⟨c, hc, hexit⟩ := ok_bind hstep
  have hcx : c = x := Option.mem_unique (caller_current hc) hcurrent
  rw [hcx] at hexit
  obtain ⟨t', ht', hready⟩ := (exit_rouses hs.tree hu hava hexit
    (hs.parent_of_mem (h.books rfl) ht hu hx)).2 t ht hst
  exact ⟨⟨t', ht', hready⟩, (hsettled.proper p).available t' ht' hready⟩

/-- **No process collects in vain**, in the runs in which nobody exits with
an entry in the sleep queue (such as those in which nobody sleeps), and
nobody waits for a child that it does not have. -/
theorem noVainWait_of_waitsForSomebody {s : State}
    (h : system.Reach (fun s a => Untimed a ∧ WaitsForSomebody s a) s ∨
      system.Reach (fun s a => ExitsSleepless s a ∧ WaitsForSomebody s a) s) :
    NoVainWait s := by
  have hguarded : ∀ {s : State} {ok : State → Action → Prop},
      (∀ s, system.Reach ok s → system.Reach ExitsSleepless s) →
      system.Reach (fun s a => ok s a ∧ WaitsForSomebody s a) s →
      AllAttended s ∧ Settled .once [] s ∧ Sane s := by
    intro s ok hok h
    have hsane : ∀ {s : State}, system.Reach (fun s a => ok s a ∧ WaitsForSomebody s a) s →
        Settled .once [] s ∧ Sane s := by
      intro s h
      obtain ⟨hsettled, _, hsane⟩ := sane_of_reach (hok s (h.mono (fun _ _ hboth => hboth.1)))
      exact ⟨hsettled, hsane⟩
    refine ⟨?_, hsane h⟩
    induction h with
    | boot hb =>
      have hb : _ = State.initial := hb
      rw [hb]
      intro p t ht hst
      rw [(initial_procs ht).2] at hst
      cases hst
    | step a hr hboth hst ih =>
      obtain ⟨hsettled, hs⟩ := hsane hr
      exact step_attended hsettled hs ih hboth.2 hst
  rcases h with h | h
  · obtain ⟨hall, hsettled, hs⟩ := hguarded (fun _ hs => (sleepless_of_untimed hs).1) h
    exact hall.noVainWait hs hsettled
  · obtain ⟨hall, hsettled, hs⟩ := hguarded (fun _ hs => hs) h
    exact hall.noVainWait hs hsettled

/-- The process at 4 collects its child at 5, which is alive. -/
theorem noVainWait_of_waitsForSomebody_child : ∃ s,
    system.Reach (fun s a => Untimed a ∧ WaitsForSomebody s a) s ∧
    (s.procs 4).map (fun t => (t.state, t.children)) = some (.collecting, [5]) ∧ NoVainWait s := by
  obtain ⟨s, hreach, hcollecting⟩ := Machine.exists_guarded (M := system)
    (G := fun s a => Untimed a ∧ WaitsForSomebody s a)
    (P := fun s => (s.procs 4).map (fun t => (t.state, t.children)) = some (.collecting, [5])) rfl
    (booted ++ [.yield, .schedule 45, .collect 5]) (by decide +kernel)
    (by decide +kernel)
  exact ⟨s, hreach, hcollecting, noVainWait_of_waitsForSomebody (.inl hreach)⟩

/-- A process without children that collects is COLLECTING for good. -/
theorem not_noVainWait (h : (s.procs p).map
    (fun t => (t.state, t.children)) = some (.collecting, [])) :
    ¬ NoVainWait s := by
  obtain ⟨t, ht, heq⟩ := Option.map_eq_some_iff.1 h
  injection heq with hst hchildren
  intro hall
  obtain ⟨x, _, hx, _⟩ := hall p t ht hst
  rw [hchildren] at hx
  cases hx

/-- Two ways to wait for nobody: `collectany` without children, and a second
`collect` of a child before the deleter has removed it. -/
theorem collects_in_vain : (∃ s, system.run (booted ++ [.collectany true]) State.initial = .ok s ∧
      system.Reach (fun _ a => Untimed a) s ∧
      (s.procs 5).map (fun t => (t.state, t.children)) = some (.collecting, []) ∧ ¬ NoVainWait s) ∧
    ∃ s, system.run (booted ++ [.exit 42 [], .schedule 45, .collect 5,
        .collect 5]) State.initial = .ok s ∧
      system.Reach (fun _ a => Untimed a) s ∧
      (s.procs 4).map (fun t => (t.state, t.children))
        = some (.collecting, []) ∧ ¬ NoVainWait s := by
  constructor
  · obtain ⟨s, hrun, htest⟩ := Machine.exists_run (M := system)
      (P := fun s => (s.procs 5).map (fun t => (t.state, t.children))
        = some (.collecting, [])) (booted ++ [.collectany true])
      State.initial (by decide +kernel)
    exact ⟨s, hrun, reach_of_guarded (by decide +kernel) hrun, htest, not_noVainWait htest⟩
  obtain ⟨s, hrun, htest⟩ := Machine.exists_run (M := system)
    (P := fun s => (s.procs 4).map (fun t => (t.state, t.children)) = some (.collecting, []))
    (booted ++ [.exit 42 [], .schedule 45, .collect 5, .collect 5])
    State.initial (by decide +kernel)
  exact ⟨s, hrun, reach_of_guarded (by decide +kernel) hrun, htest, not_noVainWait htest⟩

end Puppy.Proc
