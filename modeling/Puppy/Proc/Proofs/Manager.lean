/-
What each function of the process manager preserves.

One specification for each function: from the invariant, the call ends in
a state with the invariant or in an error that the level tolerates. The
proofs follow the bind chains of the definitions with the rules of `Sat`,
and appeal to the rule for one process where a queue changes.
-/
import Puppy.Proc.Proofs.Standing

namespace Puppy.Proc

open Libc Lib State Function

variable {lvl : Level} {ph : Phase} {Q : List QueueId} {s s' : State}
  {p c : Ptr} {q : QueueId} {t t' : Process} {e : QEntry} {rest : List QEntry}

theorem tolerated_of_ne {e : Panic} (he : e ≠ .enqueuedTwice ∧ e ≠ .slotOccupied ∧ e ≠ .notExited) :
    Tolerated lvl e :=
  ⟨he.1, fun _ => he.2⟩

theorem tolerated_fault : Tolerated lvl .fault := tolerated_of_ne (by decide)

/-- Two processes with one pid are one. -/
theorem Books.pid_inj (hb : Books s) {p p' : Ptr} (hp : s.procs p = some t)
    (hp' : s.procs p' = some t') (hpid : t.pid = t'.pid) : p = p' := by
  have h := (hb.named t.pid p).2 ⟨t, hp, rfl⟩
  have h' := (hb.named t.pid p').2 ⟨t', hp', hpid.symm⟩
  rw [h] at h'
  injection h'

-- ==== waking up

/-- A blocked process becomes AVAILABLE. -/
theorem Inv.awaken (h : Inv lvl ph Q s) (hproc : s.procs p = some t)
    (hna : t.state ≠ .available) (hne : t.state ≠ .exited)
    (hnc : lvl ≠ .ready → t.state ≠ .collected) (hpid : t'.pid = t.pid)
    (hppid : t'.ppid = t.ppid) (hchildren : t'.children = t.children)
    (hst : t'.state = .available)
    (hsleep : lvl = .fresh → ∀ token, s.sleepCount p token = 0)
    (hwait : ∀ q, s.waitCount p q = 0) :
    Inv lvl ph Q (s.awaken p t') := by
  have hp := h.agrees hproc
  have hzero : s.readyCount p = 0 := hp.blocked hna hne
  refine h.ordinary hproc rfl (fun hlvl => ?_) ⟨rfl, rfl, rfl, rfl⟩
    (fun x hx => standing_awaken_ne t' hx) (fun _ he => absurd he hne) ?_
    (fun _ => hst) (fun hlvl q _ _ token => hsleep hlvl token)
  · have hnc' := hnc (by rw [hlvl]; decide)
    refine ⟨hpid, hppid, hchildren, ?_, ?_⟩
    · rw [hst]
      exact ⟨nofun, fun hx => absurd hx hne⟩
    · rw [hst]
      exact ⟨nofun, fun hx => absurd hx hnc'⟩
  rw [standing_awaken_self]
  refine ⟨?_, ?_, fun hna' => absurd hst hna', ?_, ?_, ?_⟩
  · intro _
    rw [hzero]
  · intro hex
    cases hst.symm.trans hex
  · intro hlvl token hn
    cases lvl with
    | ready => exact absurd rfl hlvl
    | fresh => exact absurd (hsleep rfl token) hn
    | once =>
      show t'.state ≠ .exited ∧ t'.state ≠ .collected
      rw [hst]
      exact ⟨by decide, by decide⟩
  · intro hlvl hcol
    exact absurd (hp.collected hlvl hcol).2 (hnc hlvl)
  · intro q hq
    exact absurd (hwait q) hq

theorem ready_eq (hproc : s.procs p = some t) (hna : t.state ≠ .available) :
    s.ready p q = .ok (s.awaken p (rescheduled { t with wakeReason := ⟨false, some q⟩ })) := by
  have hproc' : (s.setProc p { t with wakeReason := ⟨false, some q⟩ }).procs p
      = some { t with wakeReason := ⟨false, some q⟩ } :=
    update_self ..
  unfold ready
  rw [deref_eq hproc]
  show (if t.state = .available then _ else _) = _
  rw [if_neg hna, reschedule_eq hproc']
  unfold awaken setProc
  simp only [update_idem]

-- ==== wait queues

theorem waitCount_cons (hqueue : s.waitQueues q = e :: rest) (x : Ptr) : s.waitCount x q =
      rest.countP (fun e => e.process == x) + if e.process = x then 1 else 0 := by
  unfold waitCount
  rw [hqueue, List.countP_cons]
  simp only [beq_iff_eq]

/-- An entry leaves a wait queue. -/
theorem Inv.drop (h : Inv lvl ph Q s) (hqueue : s.waitQueues q = e :: rest)
    (hproc : s.procs e.process = some t) :
    Inv lvl ph Q (s.setQueue q rest) := by
  have hself := waitCount_cons hqueue e.process
  rw [if_pos rfl] at hself
  have hle : ∀ q', (s.setQueue q rest).waitCount e.process q' ≤ s.waitCount e.process q' := by
    intro q'
    rw [waitCount_setQueue]
    by_cases hq : q' = q
    · rw [if_pos hq, hq]
      omega
    · rw [if_neg hq]
  have hp := h.agrees hproc
  refine h.requeue hproc rfl ⟨rfl, rfl, rfl, rfl⟩ ?_ rfl ?_ ?_
  · intro x hx
    apply standing_setQueue_ne
    rw [waitCount_cons hqueue, if_neg (Ne.symm hx)]
    rfl
  · refine ⟨hp.available, hp.exited, hp.blocked, hp.asleep, hp.collected, ?_⟩
    intro q' hq'
    have hq' : (s.setQueue q rest).waitCount e.process q' ≠ 0 := hq'
    have hold : s.waitCount e.process q' ≠ 0 := by
      have := hle q'
      omega
    obtain ⟨hone, hstate⟩ := hp.waiting q' hold
    have hone : s.waitCount e.process q' = 1 := hone
    refine ⟨?_, hstate⟩
    show (s.setQueue q rest).waitCount e.process q' = 1
    have := hle q'
    omega
  · intro hlvl q' hq' hwait token
    have := hle q'
    exact h.quiet hlvl q' hq' e.process (by omega) token

/-- A process waits in one queue, once. -/
theorem Inv.waitCount_after_drop (h : Inv lvl ph Q s)
    (hqueue : s.waitQueues q = e :: rest) (q' : QueueId) :
    (s.setQueue q rest).waitCount e.process q' = 0 := by
  have hself := waitCount_cons hqueue e.process
  rw [if_pos rfl] at hself
  have hhere : s.waitCount e.process q ≠ 0 := by omega
  obtain ⟨hone, t, ht, _, hq⟩ := (h.proper e.process).waiting q hhere
  have hone : s.waitCount e.process q = 1 := hone
  rw [waitCount_setQueue]
  by_cases hqq : q' = q
  · rw [if_pos hqq]
    omega
  rw [if_neg hqq]
  by_contra hthere
  obtain ⟨_, _, hq'⟩ := (h.agrees ht).waiting q' hthere
  rw [hq] at hq'
  injection hq' with hq'
  exact hqq hq'.symm

theorem wakeEntry_sat (h : Inv lvl ph Q s) (hq : lvl = .fresh → q ∈ Q)
    (hqueue : s.waitQueues q = e :: rest) :
    Sat ((s.setQueue q rest).wakeEntry q e) (fun r => Inv lvl ph Q r.2) (Tolerated lvl) := by
  refine Sat.bind (deref_sat tolerated_fault) (fun t _ ht => ?_)
  have hdrop := h.drop hqueue ht
  by_cases hwake : t.state = .waiting ∧ t.waitToken = e.token
  · have hna : t.state ≠ .available := by rw [hwake.1]; decide
    rw [if_pos hwake, ready_eq ht hna]
    refine Sat.ok ?_
    refine hdrop.awaken ht hna (by rw [hwake.1]; decide)
      (fun _ => by rw [hwake.1]; decide) rfl rfl rfl rfl ?_ ?_
    · intro hlvl token
      have hself := waitCount_cons hqueue e.process
      rw [if_pos rfl] at hself
      exact h.quiet hlvl q (hq hlvl) e.process (by omega) token
    · exact h.waitCount_after_drop hqueue
  · rw [if_neg hwake]
    exact hdrop

theorem wakeoneLoop_sat {n : Nat} (hq : lvl = .fresh → q ∈ Q) : ∀ {s : State}, Inv lvl ph Q s →
      Sat (wakeoneLoop q n s) (Inv lvl ph Q) (Tolerated lvl) := by
  induction n with
  | zero =>
    intro s h
    exact h
  | succ n ih =>
    intro s h
    unfold wakeoneLoop
    cases hqueue : s.waitQueues q with
    | nil => exact h
    | cons e rest =>
      refine Sat.bind (wakeEntry_sat h hq hqueue) (fun r _ hr => ?_)
      obtain ⟨woken, s'⟩ := r
      cases woken with
      | true => exact hr
      | false => exact ih hr

theorem wakeone_sat (h : Inv lvl ph Q s) (hq : lvl = .fresh → q ∈ Q) :
    Sat (s.wakeone q) (Inv lvl ph Q) (Tolerated lvl) :=
  wakeoneLoop_sat hq h

theorem wakeallLoop_sat {n : Nat} (hq : lvl = .fresh → q ∈ Q) : ∀ {s : State}, Inv lvl ph Q s →
      Sat (wakeallLoop q n s) (Inv lvl ph Q) (Tolerated lvl) := by
  induction n with
  | zero =>
    intro s h
    exact h
  | succ n ih =>
    intro s h
    unfold wakeallLoop
    cases hqueue : s.waitQueues q with
    | nil => exact h
    | cons e rest =>
      refine Sat.bind (wakeEntry_sat h hq hqueue) (fun r _ hr => ?_)
      exact ih hr

theorem wakeall_sat (h : Inv lvl ph Q s) (hq : lvl = .fresh → q ∈ Q) :
    Sat (s.wakeall q) (Inv lvl ph Q) (Tolerated lvl) :=
  wakeallLoop_sat hq h

-- ==== going to sleep

theorem Inv.readyCount_actor (h : Inv lvl ph Q s) (hc : ph.actor = some c) :
    s.readyCount c = 1 := by
  obtain ⟨t, ht, hst⟩ := h.actor c hc
  exact (h.proper c).available t ht hst

/-- An AVAILABLE process has no entry in a wait queue. -/
theorem Inv.waitCount_actor (h : Inv lvl ph Q s) (hc : ph.actor = some c)
    (q : QueueId) : s.waitCount c q = 0 := by
  by_contra hne
  obtain ⟨t, ht, hst⟩ := h.actor c hc
  obtain ⟨_, hw, _⟩ := (h.agrees ht).waiting q hne
  cases hst.symm.trans hw

/-- A fresh sleep queue has no entry for an AVAILABLE process. -/
theorem Inv.sleepCount_actor (h : Inv .fresh ph Q s) (hc : ph.actor = some c)
    (token : Nat) : s.sleepCount c token = 0 := by
  by_contra hne
  obtain ⟨t, ht, hst⟩ := h.actor c hc
  obtain ⟨hsleep, _, _⟩ := (h.agrees ht).asleep (by decide) token hne
  rw [hst] at hsleep
  rcases hsleep with hsleep | hsleep <;> cases hsleep

/-- The running process blocks, and the scheduler takes over. -/
theorem Inv.block {s' : State} (h : Inv lvl (.running c) Q s) (hproc : s.procs c = some t)
    (hprocs : s'.procs = update s.procs c (some t'))
    (htables : SameTables s s') (hpid : t'.pid = t.pid)
    (hppid : t'.ppid = t.ppid) (hchildren : t'.children = t.children)
    (hst : t'.state = .waiting ∨ t'.state = .sleeping ∨ t'.state = .collecting)
    (hother : ∀ x ≠ c, s'.standing x = s.standing x)
    (hready : s'.readyCount c = 0) (hsleep : s'.sleepCount c = s.sleepCount c)
    (hcollected : s'.collectedCount c = s.collectedCount c)
    (hwait : ∀ q, s'.waitCount c q ≠ 0 → s'.waitCount c q = 1 ∧
      t'.state = .waiting ∧ t'.wakeReason.waitable = some q) :
    Inv lvl .idle Q s' := by
  obtain ⟨u, hu, hava⟩ := h.actor c rfl
  have hut : u = t := Option.mem_unique hu hproc
  rw [hut] at hava
  have hproc' : s'.procs c = some t' := by rw [hprocs, update_self]
  have hne : t'.state ≠ .exited := by
    rcases hst with hst | hst | hst <;> rw [hst] <;> decide
  have hnc : t'.state ≠ .collected := by
    rcases hst with hst | hst | hst <;> rw [hst] <;> decide
  have hsame : SameBooks s s' := by
    refine .update hproc hprocs ⟨hpid, hppid, hchildren, ?_, ?_⟩ htables
      (fun x hx => congrArg Standing.ready (hother x hx)) ?_
    · exact ⟨fun hx => absurd hx hne, fun hx => by rw [hava] at hx; cases hx⟩
    · exact ⟨fun hx => absurd hx hnc, fun hx => by rw [hava] at hx; cases hx⟩
    · intro hx
      cases hava.symm.trans hx
  refine h.toIdle.change c hother ?_ (.inl rfl) ?_ ?_ (fun hlvl => (h.books hlvl).congr hsame)
    (fun hlvl => (h.toIdle.family hlvl).congr hsame)
  · refine (Standing.proper_iff hproc').2
      ⟨?_, fun hex => absurd hex hne, fun _ _ => hready, ?_, ?_, hwait⟩
    · intro hav
      rcases hst with hst | hst | hst <;> rw [hst] at hav <;> cases hav
    · intro hlvl token hn
      have hn : s'.sleepCount c token ≠ 0 := hn
      cases lvl with
      | ready => exact absurd rfl hlvl
      | fresh =>
        rw [hsleep] at hn
        exact absurd (h.sleepCount_actor rfl token) hn
      | once => exact ⟨hne, hnc⟩
    · intro hlvl hcol
      have hcol : s'.collectedCount c ≠ 0 := hcol
      rw [hcollected] at hcol
      have hvst := ((h.agrees hproc).collected hlvl hcol).2
      cases hava.symm.trans hvst
  · intro k hk
    cases hk
  · intro hlvl q hq _ token
    subst hlvl
    rw [hsleep]
    exact h.sleepCount_actor rfl token

/-- `deschedule` of the running process, other than for a wait queue. -/
theorem Inv.deschedule {newstate : ProcessState} (h : Inv lvl (.running c) Q s)
    (hst : newstate = .sleeping ∨ newstate = .collecting) :
    ∃ t, s.procs c = some t ∧ s.deschedule c newstate none
        = .ok (s.suspend c (descheduled t newstate none)) ∧
      Inv lvl .idle Q (s.suspend c (descheduled t newstate none)) := by
  obtain ⟨t, ht, _⟩ := h.actor c rfl
  refine ⟨t, ht, deschedule_eq (h.readyCount_actor rfl) ht, ?_⟩
  have hself := @standing_suspend_self s c (descheduled t newstate none)
  refine h.block ht rfl ⟨rfl, rfl, rfl, rfl⟩ rfl rfl rfl (.inr hst)
    (fun x hx => standing_suspend_ne _ hx)
    (congrArg Standing.ready hself) rfl rfl ?_
  intro q hq
  exact absurd (h.waitCount_actor rfl q) hq

/-- The record of one process changes, and with it perhaps its place in
the exited table. -/
protected theorem Books.update (hb : Books s) (hproc : s.procs p = some t)
    (hprocs : s'.procs = update s.procs p (some t'))
    (hpid : t'.pid = t.pid) (htable : s'.gProcessTable = s.gProcessTable)
    (hpids : s'.gPidBitmap = s.gPidBitmap)
    (hexited : ∀ pid x, x ≠ p → (s'.gExitedProcesses.mTable pid = some x ↔
      s.gExitedProcesses.mTable pid = some x))
    (hready : ∀ x ≠ p, s'.readyCount x = s.readyCount x)
    (hslot : ∀ pid, s'.gExitedProcesses.mTable pid = some p →
      t'.pid = pid ∧ t'.state = .exited ∧ s'.readyCount p = 0)
    (hdead : t'.state = .exited → s'.readyCount p = 0 → s'.gExitedProcesses.mTable t'.pid = some p)
    (hdeaths : ∀ x ≠ p, s'.deaths x = s.deaths x)
    (hcounted : s'.deaths p = deathsOf t' (s'.readyCount p)) : Books s' := by
  have hproc' : s'.procs p = some t' := by rw [hprocs, update_self]
  have hother : ∀ x ≠ p, s'.procs x = s.procs x := by
    intro x hx
    rw [hprocs, update_of_ne hx]
  refine ⟨?_, ?_, ?_, ?_, ?_⟩
  · intro pid x
    rw [htable, hb.named]
    by_cases hx : x = p
    · subst hx
      simp only [hproc', hproc, Option.some.injEq, exists_eq_left', hpid]
    · rw [hother x hx]
  · intro x u hu
    rw [hpids]
    by_cases hx : x = p
    · subst hx
      cases hproc'.symm.trans hu
      rw [hpid]
      exact hb.reserved x t hproc
    · rw [hother x hx] at hu
      exact hb.reserved x u hu
  · intro pid x hs
    by_cases hx : x = p
    · subst hx
      exact ⟨t', hproc', hslot pid hs⟩
    · rw [hexited pid x hx] at hs
      rw [hother x hx, hready x hx]
      exact hb.slot pid x hs
  · intro x u hu hex hzero
    by_cases hx : x = p
    · subst hx
      rw [hproc'] at hu
      injection hu with hu
      rw [← hu] at hex ⊢
      exact hdead hex hzero
    · rw [hother x hx] at hu
      rw [hready x hx] at hzero
      rw [hexited _ x hx]
      exact hb.dead x u hu hex hzero
  · intro x u hu
    by_cases hx : x = p
    · subst hx
      rw [hproc'] at hu
      rw [hcounted, Option.some.inj hu]
    · rw [hother x hx] at hu
      rw [hdeaths x hx, hready x hx]
      exact hb.counted x u hu

/-- The record of a process changes, but not what the tables know. -/
theorem Books.setProc (hb : Books s) (hproc : s.procs p = some t)
    (hpid : t'.pid = t.pid) (hst : t'.state = t.state) :
    Books (s.setProc p t') := by
  refine hb.update hproc rfl hpid rfl rfl (fun _ _ _ => Iff.rfl)
    (fun _ _ => rfl) ?_ ?_ (fun _ _ => rfl) ?_
  · intro pid hs
    obtain ⟨u, hu, hp, hex, hready⟩ := hb.slot pid p hs
    have hut : u = t := Option.mem_unique hu hproc
    rw [hut] at hp hex
    exact ⟨hpid.trans hp, hst.trans hex, hready⟩
  · intro hex hready
    rw [hpid]
    exact hb.dead p t hproc (hst ▸ hex) hready
  show s.deaths p = _
  rw [hb.counted p t hproc]
  unfold deathsOf
  rw [hst]
  rfl

/-- A change to fields that no queue depends on. The family of the new
state is the caller's business. -/
theorem Inv.rekin {ph' : Phase} (h : Inv lvl ph Q s)
    (hproc : s.procs p = some t) (hpid : t'.pid = t.pid) (hst : t'.state = t.state)
    (htoken : t'.waitToken = t.waitToken) (hwake : t'.wakeReason = t.wakeReason)
    (hidle : ph'.isIdle = ph.isIdle) (hactor : ph'.actor = ph.actor)
    (hfamily : lvl = .once → Family ph' (s.setProc p t')) :
    Inv lvl ph' Q (s.setProc p t') := by
  have hp := h.agrees hproc
  refine h.change p (fun x hx => standing_setProc_ne t' hx) ?_ (.inl hidle)
    ?_ (fun hlvl q hq hw => h.quiet hlvl q hq p hw)
    (fun hlvl => (h.books hlvl).setProc hproc hpid hst) hfamily
  · rw [standing_setProc_self, hidle]
    refine (Standing.proper_iff rfl).2 ⟨?_, ?_, ?_, ?_, ?_, ?_⟩
    · rw [hst]
      exact hp.available
    · rw [hst]
      exact hp.exited
    · rw [hst]
      exact hp.blocked
    · unfold MaySleep
      rw [hst, htoken]
      exact hp.asleep
    · rw [hst]
      exact hp.collected
    · rw [hst, hwake]
      exact hp.waiting
  · intro c hc
    rw [hactor] at hc
    obtain ⟨u, hu, hav⟩ := h.actor c hc
    rw [setProc_procs]
    by_cases hcp : c = p
    · subst hcp
      have hut : u = t := Option.mem_unique hu hproc
      refine ⟨t', update_self .., ?_⟩
      rw [hst, ← hut]
      exact hav
    · rw [update_of_ne hcp]
      exact ⟨u, hu, hav⟩

/-- A change to fields that neither a queue nor the books depend on. -/
theorem Inv.tweak (h : Inv lvl ph Q s) (hproc : s.procs p = some t)
    (hpid : t'.pid = t.pid) (hppid : t'.ppid = t.ppid)
    (hchildren : t'.children = t.children) (hst : t'.state = t.state)
    (htoken : t'.waitToken = t.waitToken)
    (hwake : t'.wakeReason = t.wakeReason) :
    Inv lvl ph Q (s.setProc p t') := by
  have hsame : SameBooks s (s.setProc p t') :=
    .update hproc rfl ⟨hpid, hppid, hchildren, by rw [hst], by rw [hst]⟩
      ⟨rfl, rfl, rfl, rfl⟩ (fun _ _ => rfl) (fun _ => rfl)
  exact h.rekin hproc hpid hst htoken hwake rfl rfl (fun hlvl => (h.family hlvl).congr hsame)

/-- A blocked process gets an entry in the sleep queue. -/
theorem Inv.insertSleeper {queue : List QEntry} (h : Inv lvl .idle Q s) (hproc : s.procs p = some t)
    (hst : t.state = .sleeping ∨ t.state = .waiting)
    (hperm : queue.Perm (⟨t.waitToken, p⟩ :: s.gSleepQueue))
    (hfresh : lvl = .fresh → ∀ token, s.sleepCount p token = 0)
    (hquiet : lvl = .fresh → ∀ q ∈ Q, s.waitCount p q = 0) :
    Inv lvl .idle Q { s with gSleepQueue := queue } := by
  have hp := h.agrees hproc
  have hcount := fun x token => @sleepCount_cons s x queue _ hperm token
  refine h.requeue hproc rfl ⟨rfl, rfl, rfl, rfl⟩ ?_ rfl ?_
    (fun hlvl q hq hw => absurd (hquiet hlvl q hq) hw)
  · intro x hx
    apply standing_sleepQueue
    intro token
    rw [hcount, if_neg]
    · rfl
    · intro heq
      injection heq with _ hpx
      exact hx hpx.symm
  refine ⟨hp.available, hp.exited, hp.blocked, ?_, hp.collected, hp.waiting⟩
  intro hlvl token hn
  have hn : ({ s with gSleepQueue := queue } : State).sleepCount p token ≠ 0 := hn
  have hgoal : ({ s with gSleepQueue := queue } : State).sleepCount p token =
      s.sleepCount p token + if (⟨t.waitToken, p⟩ : QEntry) = ⟨token, p⟩
        then 1 else 0 := hcount p token
  cases lvl with
  | ready => exact absurd rfl hlvl
  | fresh =>
    rw [hgoal, hfresh rfl] at hn
    by_cases htoken : (⟨t.waitToken, p⟩ : QEntry) = ⟨token, p⟩
    · injection htoken with htoken
      refine ⟨hst, htoken, ?_⟩
      show ({ s with gSleepQueue := queue } : State).sleepCount p token = 1
      rw [hgoal, hfresh rfl, htoken, if_pos rfl]
    · rw [if_neg htoken] at hn
      exact absurd rfl hn
  | once =>
    rcases hst with hst | hst
    · exact ⟨by rw [hst]; decide, by rw [hst]; decide⟩
    · exact ⟨by rw [hst]; decide, by rw [hst]; decide⟩

theorem sleepCompare_error {a b : QEntry} {e : Panic}
    (h : s.sleepCompare a b = .error e) : e = .fault := by
  have hsat : Sat (s.sleepCompare a b) (fun _ => True) (fun e => e = .fault) := by
    refine Sat.bind (deref_sat rfl) (fun t _ _ => ?_)
    refine Sat.bind (deref_sat rfl) (fun t' _ _ => ?_)
    exact trivial
  exact hsat.failure h

theorem sleepCompare_tolerated {a b : QEntry} {e : Panic}
    (h : s.sleepCompare a b = .error e) : Tolerated lvl e := by
  rw [sleepCompare_error h]
  exact tolerated_fault

/-- The scheduler runs, and the invariant holds. -/
def Idle (lvl : Level) (Q : List QueueId) (s : State) : Prop :=
  s.current = none ∧ Inv lvl .idle Q s

theorem Inv.switch (h : Inv lvl .idle Q s) : Idle lvl Q s.switchtoscheduler :=
  ⟨rfl, h.setCurrent none⟩

/-- `sleep` once the process is off the ready queue. -/
theorem sleep_tail_sat (h : Inv lvl .idle Q s) (hproc : s.procs p = some t)
    (hst : t.state = .sleeping ∨ t.state = .waiting)
    (hfresh : lvl = .fresh → ∀ token, s.sleepCount p token = 0)
    (hquiet : lvl = .fresh → ∀ q ∈ Q, s.waitCount p q = 0)
    (hawaker : lvl = .fresh → .awaker ∈ Q) :
    Sat (do
        let t ← s.deref p
        let queue ← PQueue.insert s.sleepCompare ⟨t.waitToken, p⟩ s.gSleepQueue
        let s ← wakeall { s with gSleepQueue := queue } .awaker
        .ok s.switchtoscheduler) (Idle lvl Q) (Tolerated lvl) := by
  refine Sat.step (deref_eq hproc) ?_
  refine Sat.bind (PQueue.insert_sat (fun _ _ _ h => sleepCompare_tolerated h) _ _) ?_
  intro queue _ hperm
  refine Sat.bind (wakeall_sat (h.insertSleeper hproc hst hperm hfresh hquiet) hawaker) ?_
  intro s' _ hs'
  exact hs'.switch

/-- `sleep` by the running process. -/
theorem sleep_sat {ms : Nat} (h : Inv lvl (.running c) Q s) (hawaker : lvl = .fresh → .awaker ∈ Q) :
    Sat (s.sleep c ms) (Idle lvl Q) (Tolerated lvl) := by
  obtain ⟨t, ht, hst⟩ := h.actor c rfl
  have htweak : Inv lvl (.running c) Q (s.setProc c { t with sleeptill := s.millisUptime + ms }) :=
    h.tweak ht rfl rfl rfl rfl rfl rfl
  obtain ⟨t', ht', hdes, hidle⟩ := htweak.deschedule (.inl rfl)
  refine Sat.step (deref_eq ht) (Sat.step hdes ?_)
  refine sleep_tail_sat hidle (update_self ..) (.inl rfl) ?_ ?_ hawaker
  · intro hlvl token
    subst hlvl
    exact htweak.sleepCount_actor rfl token
  · intro _ q _
    exact htweak.waitCount_actor rfl q

/-- What `wait` leaves behind. -/
theorem Inv.wait (h : Inv lvl (.running c) Q s) (q : QueueId) :
    ∃ t s', s.wait q c = .ok s' ∧ Inv lvl .idle Q s' ∧
      s'.procs c = some (descheduled t .waiting (some q)) ∧
      s'.readyCount c = 0 ∧ s'.sleepCount c = s.sleepCount c ∧
      ∀ q' ≠ q, s'.waitCount c q' = 0 := by
  obtain ⟨t, ht, hst⟩ := h.actor c rfl
  have hnowait := fun q => h.waitCount_actor rfl q
  let s₁ := s.setQueue q (s.waitQueues q ++ [⟨t.waitToken, c⟩])
  let s₂ := s₁.suspend c (descheduled t .waiting (some q))
  have hready : s₁.readyCount c = 1 := h.readyCount_actor rfl
  have hcount : ∀ q', s₂.waitCount c q' = if q' = q then 1 else 0 := by
    intro q'
    show s₁.waitCount c q' = _
    have hq := hnowait q
    unfold waitCount at hq
    rw [waitCount_setQueue, List.countP_append, hq, hnowait q']
    simp
  have hself := @standing_suspend_self s₁ c (descheduled t .waiting (some q))
  refine ⟨t, s₂, ?_, ?_, update_self .., ?_, rfl, ?_⟩
  · unfold State.wait
    rw [deref_eq ht]
    exact deschedule_eq hready ht
  · refine h.block ht rfl ⟨rfl, rfl, rfl, rfl⟩ rfl rfl rfl (.inl rfl) ?_
      (congrArg Standing.ready hself) rfl rfl ?_
    · intro x hx
      rw [standing_suspend_ne _ hx]
      apply standing_setQueue_ne
      rw [List.countP_append]
      simp [Ne.symm hx, waitCount]
    intro q' hq'
    rw [hcount] at hq' ⊢
    by_cases hqq : q' = q
    · rw [if_pos hqq, hqq]
      exact ⟨rfl, rfl, rfl⟩
    · rw [if_neg hqq] at hq'
      exact absurd rfl hq'
  · exact congrArg Standing.ready hself
  · intro q' hq'
    rw [hcount, if_neg hq']

/-- `WaitQueue::yield` by the running process. -/
theorem waitYield_sat {timeout : Nat} (h : Inv lvl (.running c) Q s)
    (hq : lvl = .fresh → timeout ≠ 0 → q ∉ Q)
    (hawaker : lvl = .fresh → timeout ≠ 0 → .awaker ∈ Q) :
    Sat (s.waitYield q c timeout) (Idle lvl Q) (Tolerated lvl) := by
  obtain ⟨t, s', hwait, hidle, hproc, hready, hsleep, hothers⟩ := h.wait q
  refine Sat.step hwait ?_
  by_cases hzero : timeout = 0
  · rw [if_pos hzero]
    exact hidle.switch
  rw [if_neg hzero]
  have htweak : Inv lvl .idle Q (s'.setProc c
      { descheduled t .waiting (some q) with
        sleeptill := s'.millisUptime + timeout }) :=
    hidle.tweak hproc rfl rfl rfl rfl rfl rfl
  unfold sleep
  -- the wait has taken the process off the ready queue already
  refine Sat.step (deref_eq hproc) (Sat.step (deschedule_of_zero hready) ?_)
  refine sleep_tail_sat htweak (update_self ..) (.inr rfl) ?_ ?_ (fun hlvl => hawaker hlvl hzero)
  · intro hlvl token
    subst hlvl
    show s'.sleepCount c token = 0
    rw [hsleep]
    exact h.sleepCount_actor rfl token
  · intro hlvl q' hq'
    exact hothers q' (fun heq => hq hlvl hzero (heq ▸ hq'))

end Puppy.Proc
