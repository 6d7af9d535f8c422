/-
Birth, deletion, and the rounds of the kernel's tasks.

Birth and deletion are the two ends of a pointer's life. A page that no
process object lives on is named by no queue, list or table, which is what
makes it safe to put a new process there; deletion has to leave such a
page behind. At the weakest level of the invariant that second half is
not available, and runs with deletions are out of its scope.
-/
import Puppy.Proc.Proofs.LifeCycle

namespace Puppy.Proc

open Libc Lib State Function List

variable {lvl : Level} {ph : Phase} {Q : List QueueId} {s s' : State}
  {p c : Ptr} {q : QueueId} {t : Process} {top : QEntry}
  {rest queue : List QEntry} {table : ProcessTable} {x : Ptr} {pid : Pid}
  {b : ProcessBitmap} {l : List Ptr}

-- ==== birth

theorem Inv.waitCount_absent (h : Inv lvl ph Q s) (hnone : s.procs p = none)
    (q : QueueId) : s.waitCount p q = 0 := by
  by_contra hn
  obtain ⟨_, t, ht, _⟩ := (h.proper p).waiting q hn
  rw [show s.procs p = some t from ht] at hnone
  cases hnone

theorem Inv.sleepCount_absent (h : Inv lvl ph Q s) (hlvl : lvl ≠ .ready)
    (hnone : s.procs p = none) (token : Nat) : s.sleepCount p token = 0 := by
  by_contra hn
  obtain ⟨t, ht, _⟩ := (h.proper p).asleep hlvl token hn
  rw [show s.procs p = some t from ht] at hnone
  cases hnone

/-- A page without a process is nobody's child. -/
theorem not_childOf_absent (hnone : s.procs p = none) (pid : Pid) : ¬ ChildOf s pid p := by
  intro h
  obtain ⟨t, ht, _⟩ := h
  cases hnone.symm.trans ht

/-- A process object appears on a page that had none. -/
theorem Inv.birth (h : Inv lvl (.running c) Q s) (hnone : s.procs p = none)
    (hprocs : s'.procs = update s.procs p (some t))
    (hnew : t.state = .new) (hchildren : t.children = [])
    (hother : ∀ x ≠ p, s'.standing x = s.standing x)
    (hself : s'.standing p = { s.standing p with proc := some t })
    (hbooks : lvl = .once → Books s') : Inv lvl (.running c) Q s' := by
  have hp := h.proper p
  have hwaits : s'.waitCount p = s.waitCount p := congrArg Standing.waits hself
  refine h.change p hother ?_ (.inl rfl) ?_ ?_ hbooks (fun hlvl => ?_)
  · rw [hself]
    have hzero : s.readyCount p = 0 := hp.absent hnone
    refine (Standing.proper_iff rfl).2 ⟨?_, ?_, fun _ _ => hzero, ?_, ?_, ?_⟩
    · intro hav
      cases hnew.symm.trans hav
    · intro hex
      cases hnew.symm.trans hex
    · intro hlvl token hn
      exact absurd (h.sleepCount_absent hlvl hnone token) hn
    · intro hlvl hn
      obtain ⟨_, u, hu, _⟩ := hp.collected hlvl hn
      rw [show s.procs p = some u from hu] at hnone
      cases hnone
    · intro q hq
      exact absurd (h.waitCount_absent hnone q) hq
  · intro k hk
    cases hk
    obtain ⟨u, hu, hav⟩ := h.actor c rfl
    have hne : c ≠ p := ne_of_entry hu hnone
    exact ⟨u, by rw [hprocs, update_of_ne hne, hu], hav⟩
  · intro _ q _ hw
    rw [hwaits] at hw
    exact absurd (h.waitCount_absent hnone q) hw
  · refine (h.family hlvl).restrict ?_ ?_ nofun
    · intro x u hu _
      rw [hprocs] at hu
      rcases update_eq_some hu with ⟨_, ⟨⟩⟩ | ⟨_, hu⟩
      · exact .inl hchildren
      · exact .inr ⟨u, hu, nofun, rfl, .refl _⟩
    · intro x u y _ _ _ hchild
      have hyp : y ≠ p := fun heq => not_childOf_absent hnone u.pid (heq ▸ hchild)
      obtain ⟨v, hv, hppid, hst⟩ := hchild
      exact ⟨v, by rw [hprocs, update_of_ne hyp, hv], hppid, hst⟩

/-- The process table has room for a pid that was free. -/
theorem Books.table_free (hb : Books s) (hfree : s.gPidBitmap.mBitmap pid = false) :
    s.gProcessTable.mTable pid = none := by
  cases hslot : s.gProcessTable.mTable pid with
  | none => rfl
  | some x =>
    obtain ⟨t, ht, hpid⟩ := (hb.named pid x).1 hslot
    have hres := hb.reserved x t ht
    rw [hpid, hfree] at hres
    cases hres

theorem Books.birth (hb : Books s) (hnone : s.procs p = none)
    (hnew : t.state = .new) (hfree : s.gProcessTable.mTable t.pid = none)
    (hprocs : s'.procs = update s.procs p (some t))
    (htable : s'.gProcessTable.mTable = update s.gProcessTable.mTable t.pid (some p))
    (hpids : s'.gPidBitmap.mBitmap = update s.gPidBitmap.mBitmap t.pid true)
    (hexited : s'.gExitedProcesses = s.gExitedProcesses)
    (hready : ∀ x, s'.readyCount x = s.readyCount x)
    (hdeaths : s'.deaths = update s.deaths p 0) : Books s' := by
  have hself : s'.procs p = some t := by rw [hprocs, update_self]
  have hother : ∀ x ≠ p, s'.procs x = s.procs x := by
    intro x hx
    rw [hprocs, update_of_ne hx]
  have halive : ∀ {x u}, s.procs x = some u → x ≠ p := by
    intro x u hu heq
    rw [heq, hnone] at hu
    cases hu
  refine ⟨?_, ?_, ?_, ?_, ?_⟩
  · intro pid x
    rw [htable]
    by_cases hpid : pid = t.pid
    · rw [hpid, update_self]
      constructor
      · intro hs
        exact ⟨t, (Option.some.inj hs) ▸ hself, rfl⟩
      intro hs
      obtain ⟨u, hu, hupid⟩ := hs
      by_contra hx
      have hx : x ≠ p := fun heq => hx (by rw [heq])
      rw [hother x hx] at hu
      have := (hb.named t.pid x).2 ⟨u, hu, hupid⟩
      cases hfree.symm.trans this
    rw [update_of_ne hpid, hb.named]
    constructor
    · intro hs
      obtain ⟨u, hu, hupid⟩ := hs
      exact ⟨u, (hother x (halive hu)).trans hu, hupid⟩
    intro hs
    obtain ⟨u, hu, hupid⟩ := hs
    have hx : x ≠ p := by
      intro heq
      rw [heq, hself] at hu
      rw [← Option.some.inj hu] at hupid
      exact hpid hupid.symm
    exact ⟨u, (hother x hx) ▸ hu, hupid⟩
  · intro x u hu
    rw [hpids]
    by_cases hpid : u.pid = t.pid
    · rw [hpid, update_self]
    rw [update_of_ne hpid]
    have hx : x ≠ p := by
      intro heq
      rw [heq, hself] at hu
      exact hpid (by rw [← Option.some.inj hu])
    exact hb.reserved x u ((hother x hx) ▸ hu)
  · intro pid x hs
    rw [hexited] at hs
    obtain ⟨u, hu, hrest⟩ := hb.slot pid x hs
    rw [hother x (halive hu), hready]
    exact ⟨u, hu, hrest⟩
  · intro x u hu hex hzero
    have hx : x ≠ p := by
      intro heq
      rw [heq, hself] at hu
      rw [← Option.some.inj hu, hnew] at hex
      cases hex
    rw [hother x hx] at hu
    rw [hready] at hzero
    rw [hexited]
    exact hb.dead x u hu hex hzero
  · intro x u hu
    rw [hdeaths, hready]
    by_cases hx : x = p
    · rw [hx, hself] at hu
      rw [hx, update_self, ← Option.some.inj hu]
      unfold deathsOf
      rw [hnew]
      rfl
    · rw [hother x hx] at hu
      rw [update_of_ne hx]
      exact hb.counted x u hu

theorem nextFrom_error {left i : Nat} {e : Panic}
    (h : b.nextFrom left i = .error e) : e = .outOfEntries := by
  induction left generalizing i with
  | zero =>
    injection h with h
    exact h.symm
  | succ left ih =>
    unfold ProcessBitmap.nextFrom at h
    dsimp only at h
    split at h
    · cases h
    · exact ih h

theorem next_sat : Sat b.next (fun r => b.mBitmap r.1 = false ∧
      r.2.mBitmap = update b.mBitmap r.1 true) (Tolerated lvl) := by
  cases hnext : b.next with
  | ok r =>
    obtain ⟨hfree, _, hset⟩ := ProcessBitmap.next_ok hnext
    exact ⟨hfree, hset⟩
  | error e =>
    unfold ProcessBitmap.next at hnext
    cases hfrom : b.nextFrom gNumProcesses 0 with
    | ok idx =>
      rw [hfrom] at hnext
      cases hnext
    | error e' =>
      rw [hfrom] at hnext
      cases hnext
      rw [nextFrom_error hfrom]
      exact tolerated_of_ne (by decide)

/-- A table refuses a process only if the slot is taken. -/
theorem set_sat {t : ProcessTable} {proc : Ptr} (hfree : lvl = .once → t.mTable pid = none) :
    Sat (t.set pid proc) (fun t' => t.mTable pid = none ∧
      t'.mTable = update t.mTable pid (some proc))
      (Tolerated lvl) := by
  unfold ProcessTable.set
  cases hslot : t.mTable pid with
  | none => exact ⟨rfl, rfl⟩
  | some x =>
    refine ⟨by decide, fun hlvl => ?_⟩
    rw [hfree hlvl] at hslot
    cases hslot

theorem spawn_sat {si : SpawnInfo} (h : Inv lvl (.running c) Q s) : Sat (s.spawn c p si)
      (fun s' => Inv lvl (.running c) Q s' ∧ SameRest s s')
      (Tolerated lvl) := by
  obtain ⟨k, hk, _⟩ := h.actor c rfl
  refine Sat.step (deref_eq hk) ?_
  by_cases hexcess : excessive k si
  · rw [if_pos hexcess]
    exact ⟨h, .refl s⟩
  rw [if_neg hexcess]
  refine Sat.reject (fun _ => tolerated_of_ne (by decide)) (fun hpage => ?_)
  have hnone : s.procs p = none := by
    rw [← Option.not_isSome_iff_eq_none]
    exact hpage
  have hcp : c ≠ p := ne_of_entry hk hnone
  refine Sat.bind next_sat (fun r _ hr => ?_)
  obtain ⟨pid, pids⟩ := r
  refine Sat.bind next_sat (fun g _ _ => ?_)
  obtain ⟨gdtidx, gdts⟩ := g
  refine Sat.bind (set_sat fun hlvl => (h.books hlvl).table_free hr.1) (fun table _ htable => ?_)
  let t : Process :=
    { pid := pid
      ppid := k.pid
      gdtidx := gdtidx
      tty := k.tty
      quantum := si.quantum
      scheduling := si.scheduling
      system := si.system }
  let s₁ : State := { s.setProc p t with
    gPidBitmap := pids
    gGDTBitmap := gdts
    gProcessTable := table
    deaths := update s.deaths p 0 }
  have hbirth : Inv lvl (.running c) Q s₁ :=
    h.birth hnone rfl rfl rfl (fun x hx => standing_setProc_ne t hx)
      (standing_setProc_self t) (fun hlvl => (h.books hlvl).birth hnone rfl
        htable.1 rfl htable.2 hr.2 rfl (fun _ => rfl) rfl)
  have ht₁ : s₁.procs p = some t := update_self ..
  have hk₁ : s₁.procs c = some k := (update_of_ne hcp ..).trans hk
  have hnot : lvl = .once → p ∉ k.children := fun hlvl hmem =>
    not_childOf_absent hnone k.pid ((h.family hlvl).listed c k hk
      (fun _ heq => by cases heq) p hmem)
  by_cases hsched : si.schedulable = true
  · rw [if_pos hsched]
    have hwake : Inv lvl (.running c) Q (s₁.awaken p (rescheduled t)) := by
      refine hbirth.awaken ht₁ nofun nofun (fun _ hst => (by cases hst))
        rfl rfl rfl rfl ?_ (fun q => h.waitCount_absent hnone q)
      intro hlvl token
      exact h.sleepCount_absent (by rw [hlvl]; decide) hnone token
    have hk₂ : (s₁.awaken p (rescheduled t)).procs c = some k := (update_of_ne hcp ..).trans hk₁
    refine Sat.step (reschedule_eq ht₁) (Sat.step (deref_eq hk₂) ?_)
    refine ⟨hwake.adopt hk₂ (fun _ => ?_) hnot, ⟨rfl, rfl, rfl, rfl, rfl⟩⟩
    exact ⟨rescheduled t, update_self .., rfl, nofun⟩
  · rw [if_neg hsched]
    refine Sat.step rfl (Sat.step (deref_eq hk₁) ?_)
    refine ⟨hbirth.adopt hk₁ (fun _ => ?_) hnot, ⟨rfl, rfl, rfl, rfl, rfl⟩⟩
    exact ⟨t, ht₁, rfl, nofun⟩

-- ==== deletion

/-- The state after a collected process has been freed. -/
def State.dispose (s : State) (p : Ptr) (t : Process) (rest : List Ptr) :
    State :=
  { s with
    gCollectedProcessList := rest
    gPidBitmap := s.gPidBitmap.free t.pid
    gGDTBitmap := s.gGDTBitmap.free t.gdtidx
    gProcessTable := s.gProcessTable.free t.pid
    procs := update s.procs p none }

theorem standing_dispose_ne {rest : List Ptr}
    (hlist : s.gCollectedProcessList = p :: rest) (hx : x ≠ p) :
    (s.dispose p t rest).standing x = s.standing x := by
  have hcol : (s.dispose p t rest).collectedCount x = s.collectedCount x := by
    unfold collectedCount
    rw [hlist, count_cons_of_ne hx.symm]
    rfl
  have hproc : (s.dispose p t rest).procs x = s.procs x := update_of_ne hx ..
  unfold standing
  rw [hcol, hproc]
  rfl

theorem Books.dispose {rest : List Ptr} (hb : Books s)
    (hproc : s.procs p = some t) (hst : t.state = .collected) :
    Books (s.dispose p t rest) := by
  have hself : (s.dispose p t rest).procs p = none := update_self ..
  have hother : ∀ x ≠ p, (s.dispose p t rest).procs x = s.procs x :=
    fun x hx => update_of_ne hx ..
  have halive : ∀ {x u}, (s.dispose p t rest).procs x = some u → x ≠ p := by
    intro x u hu heq
    rw [heq, hself] at hu
    cases hu
  have hdistinct : ∀ {x u}, x ≠ p → s.procs x = some u → u.pid ≠ t.pid :=
    fun hx hu hpid => hx (hb.pid_inj hu hproc hpid)
  refine ⟨?_, ?_, ?_, ?_, ?_⟩
  · intro pid x
    show update s.gProcessTable.mTable t.pid none pid = some x ↔ _
    by_cases hpid : pid = t.pid
    · rw [hpid, update_self]
      constructor
      · nofun
      intro hs
      obtain ⟨u, hu, hupid⟩ := hs
      have hx := halive hu
      rw [hother x hx] at hu
      exact absurd hupid (hdistinct hx hu)
    rw [update_of_ne hpid, hb.named]
    constructor
    · intro hs
      obtain ⟨u, hu, hupid⟩ := hs
      have hx : x ≠ p := by
        intro heq
        rw [heq] at hu
        rw [Option.mem_unique hu hproc] at hupid
        exact hpid hupid.symm
      exact ⟨u, (hother x hx).trans hu, hupid⟩
    · intro hs
      obtain ⟨u, hu, hupid⟩ := hs
      exact ⟨u, (hother x (halive hu)) ▸ hu, hupid⟩
  · intro x u hu
    have hx := halive hu
    rw [hother x hx] at hu
    show update s.gPidBitmap.mBitmap t.pid false u.pid = true
    rw [update_of_ne (hdistinct hx hu)]
    exact hb.reserved x u hu
  · intro pid x hs
    obtain ⟨u, hu, hupid, hex, hzero⟩ := hb.slot pid x hs
    have hx := ne_of_state hu hproc (by rw [hex, hst]; decide)
    exact ⟨u, (hother x hx).trans hu, hupid, hex, hzero⟩
  · intro x u hu hex hzero
    rw [hother x (halive hu)] at hu
    exact hb.dead x u hu hex hzero
  · intro x u hu
    rw [hother x (halive hu)] at hu
    exact hb.counted x u hu

theorem Family.dispose {rest : List Ptr} (hf : Family (.running c) s)
    (hproc : s.procs p = some t) (hst : t.state = .collected) :
    Family (.running c) (s.dispose p t rest) := by
  refine hf.restrict ?_ ?_ nofun
  · intro x u hu _
    rcases update_eq_some hu with ⟨_, ⟨⟩⟩ | ⟨_, hu⟩
    · exact .inr ⟨u, hu, nofun, rfl, .refl _⟩
  intro x u y _ _ _ hchild
  obtain ⟨v, hv, hppid, hvst⟩ := hchild
  have hyp := ne_of_state hv hproc (by rw [hst]; exact hvst)
  exact ⟨v, (update_of_ne hyp ..).trans hv, hppid, hvst⟩

/-- No queue names a COLLECTED process. -/
theorem Inv.collected_unqueued (h : Inv lvl ph Q s) (hlvl : lvl ≠ .ready)
    (hproc : s.procs p = some t) (hst : t.state = .collected) :
    s.readyCount p = 0 ∧ (∀ token, s.sleepCount p token = 0) ∧ ∀ q, s.waitCount p q = 0 := by
  have hp := h.agrees hproc
  refine ⟨hp.blocked (by rw [hst]; decide) (by rw [hst]; decide), ?_, ?_⟩
  · intro token
    by_contra hn
    exact ((hp.asleep hlvl token hn).alive hlvl).2 hst
  intro q
  by_contra hn
  obtain ⟨_, hw, _⟩ := hp.waiting q hn
  cases hst.symm.trans hw

section

variable (h : Inv lvl (.running c) Q s)
include h

theorem Inv.dispose {rest : List Ptr} (hlvl : lvl ≠ .ready)
    (hlist : s.gCollectedProcessList = p :: rest)
    (hproc : s.procs p = some t) :
    Inv lvl (.running c) Q (s.dispose p t rest) := by
  have hone : s.collectedCount p = 1 + rest.count p := by
    unfold collectedCount
    rw [hlist, count_cons_self, add_comm]
  obtain ⟨hcount, u, hu, hst⟩ := (h.proper p).collected hlvl (show s.collectedCount p ≠ 0 by omega)
  have hcount : s.collectedCount p = 1 := hcount
  rw [Option.mem_unique hu hproc] at hst
  obtain ⟨hready, hsleep, hwait⟩ := h.collected_unqueued hlvl hproc hst
  have hnone : (s.dispose p t rest).procs p = none := update_self ..
  refine h.change p (fun x hx => standing_dispose_ne hlist hx) ?_ (.inl rfl)
    ?_ (fun _ q _ hw => absurd (hwait q) hw)
    (fun hlvl => (h.books hlvl).dispose hproc hst)
    (fun hlvl => (h.family hlvl).dispose hproc hst)
  · refine ⟨fun _ => hready, ?_, ?_, ?_, ?_, ?_, ?_⟩
    · intro v hv
      cases hnone.symm.trans hv
    · intro v hv
      cases hnone.symm.trans hv
    · intro v hv
      cases hnone.symm.trans hv
    · intro _ token hn
      exact absurd (hsleep token) hn
    · intro _ hn
      have hrest : rest.count p = 0 := by omega
      exact absurd hrest hn
    · intro q hq
      exact absurd (hwait q) hq
  · intro k hk
    cases hk
    obtain ⟨v, hv, hav⟩ := h.actor c rfl
    have hne := ne_of_state hv hproc (by rw [hav, hst]; decide)
    exact ⟨v, (update_of_ne hne ..).trans hv, hav⟩

/-- A task of the kernel with nothing to do waits. -/
theorem waitYield_settled (q : QueueId) : Sat (s.waitYield q c 0) (Settled lvl Q) (Tolerated lvl) :=
  (waitYield_sat h (fun _ hne => absurd rfl hne)
    (fun _ hne => absurd rfl hne)).mono (fun _ hs' => hs'.settled)

/-- A round of the deleter. -/
theorem deleter_sat (hc : s.current = some c) (hlvl : lvl = .ready → s.gCollectedProcessList = []) :
    Sat (s.deleter c) (Settled lvl Q) (Tolerated lvl) := by
  unfold deleter
  cases hlist : s.gCollectedProcessList with
  | nil => exact waitYield_settled h _
  | cons proc rest =>
    have hlvl' : lvl ≠ .ready := by
      intro heq
      rw [hlvl heq] at hlist
      cases hlist
    refine Sat.bind (deref_sat tolerated_fault) (fun t _ ht => ?_)
    exact (h.dispose hlvl' hlist ht).settled hc

-- ==== the collector

/-- A round of the collector. -/
theorem collector_sat (hc : s.current = some c) (hQ : lvl = .fresh → .deleter ∈ Q) :
    Sat (s.collector c) (Settled lvl Q) (Tolerated lvl) := by
  refine Sat.bind (deref_sat tolerated_fault) (fun k _ _ => ?_)
  cases k.children with
  | nil => exact waitYield_settled h _
  | cons child rest =>
    refine Sat.bind (deref_sat tolerated_fault) (fun t _ _ => ?_)
    exact collect_sat h hc hQ

end

-- ==== the scheduler

/-- A dead process leaves the ready queue for the exited table. -/
def State.retire (s : State) (p : Ptr) (table : ProcessTable) : State :=
  { s with
    gExitedProcesses := table
    gReadyQueue := s.gReadyQueue.erase p
    deaths := update s.deaths p (s.deaths p + 1) }

theorem readyCount_retire_self : (s.retire p table).readyCount p = s.readyCount p - 1 :=
  count_erase_self ..

theorem readyCount_retire_ne (hx : x ≠ p) : (s.retire p table).readyCount x = s.readyCount x :=
  count_erase_of_ne hx

theorem standing_retire_ne (hx : x ≠ p) : (s.retire p table).standing x = s.standing x := by
  unfold standing
  rw [readyCount_retire_ne hx]
  rfl

/-- The exited table has no process that is still in the ready queue. -/
theorem Books.exited_free (hb : Books s) (hproc : s.procs p = some t)
    (hready : s.readyCount p ≠ 0) :
    s.gExitedProcesses.mTable t.pid = none := by
  cases hslot : s.gExitedProcesses.mTable t.pid with
  | none => rfl
  | some x =>
    obtain ⟨u, hu, hpid, _, hzero⟩ := hb.slot t.pid x hslot
    rw [hb.pid_inj hu hproc hpid] at hzero
    exact absurd hzero hready

theorem Inv.retire (h : Inv lvl .idle Q s) (hproc : s.procs p = some t)
    (hex : t.state = .exited) (hready : s.readyCount p ≠ 0)
    (hfree : s.gExitedProcesses.mTable t.pid = none) (htable : table.mTable
      = update s.gExitedProcesses.mTable t.pid (some p)) :
    Inv lvl .idle Q (s.retire p table) := by
  have hp := h.agrees hproc
  have hzero : (s.retire p table).readyCount p = 0 := by
    have hle : s.readyCount p ≤ 1 := (h.proper p).ready_le
    rw [readyCount_retire_self]
    omega
  have hsame : update s.procs p (some t) = s.procs := update_eq_self_iff.2 hproc.symm
  refine h.change p (fun x hx => standing_retire_ne hx) ?_ (.inl rfl)
    (fun k hk => by cases hk) (fun hlvl q hq hw => h.quiet hlvl q hq p hw)
    (fun hlvl => ?_) (fun hlvl => ?_)
  · refine (Standing.proper_iff hproc).2 ⟨?_, fun _ => ⟨?_, fun _ => hzero⟩,
      fun _ _ => hzero, hp.asleep, hp.collected, hp.waiting⟩
    · intro hav
      cases hex.symm.trans hav
    · show (s.retire p table).readyCount p ≤ 1
      omega
  · refine (h.books hlvl).update hproc hsame.symm rfl rfl rfl ?_
      (fun x hx => readyCount_retire_ne hx) ?_ ?_
      (fun x hx => update_of_ne hx ..) ?_
    · intro pid x hx
      show table.mTable pid = some x ↔ _
      rw [htable]
      by_cases hpid : pid = t.pid
      · rw [hpid, update_self, hfree]
        constructor
        · intro hs
          exact absurd (Option.some.inj hs).symm hx
        · nofun
      · rw [update_of_ne hpid]
    · intro pid hs
      have hs : table.mTable pid = some p := hs
      rw [htable] at hs
      rcases update_eq_some hs with ⟨hpid, _⟩ | ⟨hpid, hs⟩
      · exact ⟨hpid.symm, hex, hzero⟩
      · obtain ⟨u, hu, hup, _⟩ := (h.books hlvl).slot pid p hs
        rw [Option.mem_unique hu hproc] at hup
        exact absurd hup.symm hpid
    · intro _ _
      show table.mTable t.pid = some p
      rw [htable, update_self]
    · show update s.deaths p (s.deaths p + 1) p = _
      rw [update_self, (h.books hlvl).counted p t hproc, hzero]
      unfold deathsOf
      rw [hex]
      simp [hready]
  · exact ⟨(h.family hlvl).listed, (h.family hlvl).nodup, (h.family hlvl).pending⟩

theorem enqueueForDeath_sat (hproc : s.procs p = some t) (hex : lvl = .once → t.state = .exited)
    (hfree : lvl = .once → s.gExitedProcesses.mTable t.pid = none) :
    Sat (s.enqueueForDeath p) (fun s' => ∃ table,
      s' = { s with
        gExitedProcesses := table
        deaths := update s.deaths p (s.deaths p + 1) } ∧
      s.gExitedProcesses.mTable t.pid = none ∧ table.mTable
        = update s.gExitedProcesses.mTable t.pid (some p))
      (Tolerated lvl) := by
  refine Sat.step (deref_eq hproc) ?_
  refine Sat.reject (fun hst => ⟨by decide, fun hlvl => absurd (hex hlvl) hst⟩) (fun _ => ?_)
  refine Sat.bind (set_sat hfree) (fun table _ htable => ?_)
  exact ⟨table, rfl, htable⟩

/-- Every dead process is off the ready queue. -/
def Purged (s : State) : Prop :=
  ∀ p t, s.procs p = some t → t.state = .exited → s.readyCount p = 0

theorem purged_of_firstExited
    (h : ∀ p ∈ s.gReadyQueue, ∃ t, s.procs p = some t ∧ t.state ≠ .exited) :
    Purged s := by
  intro p t ht hex
  refine count_eq_zero.2 (fun hmem => ?_)
  obtain ⟨u, hu, hne⟩ := h p hmem
  rw [Option.mem_unique hu ht] at hne
  exact hne hex

/-- The first loop of `lottery::next` ends with no dead process in the
ready queue. -/
theorem purge_sat : ∀ {n : Nat} {s : State}, s.gReadyQueue.length ≤ n →
    Inv lvl .idle Q s → Sat (purge n s)
      (fun s' => Inv lvl .idle Q s' ∧ Purged s') (Tolerated lvl) := by
  intro n
  induction n with
  | zero =>
    intro s hlen h
    have hempty : s.gReadyQueue = [] := length_eq_zero_iff.1 (Nat.le_zero.1 hlen)
    refine ⟨h, purged_of_firstExited ?_⟩
    rw [hempty]
    intro p hp
    cases hp
  | succ n ih =>
    intro s hlen h
    refine Sat.bind firstExited_sat (fun found _ hfound => ?_)
    cases found with
    | none => exact ⟨h, purged_of_firstExited hfound⟩
    | some p =>
      obtain ⟨hmem, t, ht, hex⟩ := hfound
      have hready : s.readyCount p ≠ 0 := fun hzero => count_eq_zero.1 hzero hmem
      have hfree := fun hlvl => (h.books hlvl).exited_free ht hready
      refine Sat.bind (enqueueForDeath_sat ht (fun _ => hex) hfree) (fun s' _ hs' => ?_)
      obtain ⟨table, rfl, hslot, htable⟩ := hs'
      refine ih ?_ (h.retire ht hex hready hslot htable)
      rw [length_erase_of_mem hmem]
      omega

theorem totalTickets_sat : Sat (s.totalTickets l) (fun _ => True) (Tolerated lvl) := by
  induction l with
  | nil => exact trivial
  | cons p rest ih =>
    refine Sat.bind (deref_sat tolerated_fault) (fun t _ _ => ?_)
    exact Sat.bind ih (fun others _ _ => trivial)

/-- The winner is AVAILABLE. -/
theorem pickWinner_sat {winner : Nat} : ∀ {counted : Nat}, Sat (s.pickWinner winner counted l)
      (fun p => ∃ t, s.procs p = some t ∧ t.state = .available)
      (Tolerated lvl) := by
  induction l with
  | nil =>
    intro counted
    exact tolerated_of_ne (by decide)
  | cons p rest ih =>
    intro counted
    refine Sat.bind (deref_sat tolerated_fault) (fun t _ ht => ?_)
    dsimp only
    split
    next hwin => exact ⟨t, ht, hwin.2⟩
    · exact ih

/-- The scheduler hands over to an AVAILABLE process. -/
theorem Inv.resume (h : Inv lvl .idle Q s) (hpurged : Purged s)
    (hproc : s.procs c = some t) (hst : t.state = .available) :
    Inv lvl (.running c) Q s := by
  refine ⟨?_, ?_, h.quiet, h.books, fun hlvl => ?_⟩
  · intro p
    have hp := h.proper p
    refine ⟨hp.absent, hp.available, ?_, hp.blocked, hp.asleep, hp.collected, hp.waiting⟩
    intro u hu hex
    exact ⟨(hp.exited u hu hex).1, fun _ => hpurged p u hu hex⟩
  · intro k hk
    cases hk
    exact ⟨t, hproc, hst⟩
  · exact (h.family hlvl).rephase nofun nofun

theorem schedule_sat {draw : Nat} (h : Inv lvl .idle Q s) :
    Sat (s.schedule draw) (Settled lvl Q) (Tolerated lvl) := by
  refine Sat.bind (purge_sat le_rfl h) (fun s₁ _ hs₁ => ?_)
  refine Sat.bind totalTickets_sat (fun total _ _ => ?_)
  refine Sat.reject (fun _ => tolerated_of_ne (by decide)) (fun _ => ?_)
  refine Sat.bind pickWinner_sat (fun winner _ hwinner => ?_)
  obtain ⟨t, ht, hst⟩ := hwinner
  exact ((hs₁.1.resume hs₁.2 ht hst).setCurrent (some winner)).settled rfl

-- ==== the awaker

theorem sleepCount_top (hsleep : s.gSleepQueue = top :: rest) (x : Ptr) (token : Nat) :
    s.sleepCount x token = rest.count ⟨token, x⟩ + if top = ⟨token, x⟩ then 1 else 0 := by
  unfold sleepCount
  rw [hsleep, count_cons]
  simp only [beq_iff_eq]

/-- The process of the top entry has an entry in the sleep queue. -/
theorem Inv.maySleep_top (h : Inv lvl ph Q s) (hlvl : lvl ≠ .ready)
    (hsleep : s.gSleepQueue = top :: rest)
    (hproc : s.procs top.process = some t) :
    MaySleep lvl t top.token (s.sleepCount top.process top.token) := by
  have hcount := sleepCount_top hsleep top.process top.token
  rw [if_pos rfl] at hcount
  exact (h.agrees hproc).asleep hlvl top.token
    (show s.sleepCount top.process top.token ≠ 0 by omega)

/-- The top entry leaves the sleep queue. -/
theorem Inv.popSleeper (h : Inv lvl ph Q s) (hsleep : s.gSleepQueue = top :: rest)
    (hproc : s.procs top.process = some t) (hperm : queue.Perm rest) :
    Inv lvl ph Q { s with gSleepQueue := queue } := by
  have hcount : ∀ x token, s.sleepCount x token =
        ({ s with gSleepQueue := queue } : State).sleepCount x token +
          if top = ⟨token, x⟩ then 1 else 0 := by
    intro x token
    rw [sleepCount_top hsleep, ← hperm.count_eq]
    rfl
  have hp := h.agrees hproc
  refine h.requeue hproc rfl ⟨rfl, rfl, rfl, rfl⟩ ?_ rfl ?_ ?_
  · intro x hx
    apply standing_sleepQueue
    intro token
    rw [hcount x token, if_neg]
    · rfl
    · intro heq
      rw [heq] at hx
      exact hx rfl
  · refine ⟨hp.available, hp.exited, hp.blocked, ?_, hp.collected, hp.waiting⟩
    intro hlvl token hn
    have hn : ({ s with gSleepQueue := queue } : State).sleepCount top.process token ≠ 0 := hn
    have hold := hcount top.process token
    have hmay := hp.asleep hlvl token (show s.sleepCount top.process token ≠ 0 by omega)
    cases lvl with
    | ready => exact absurd rfl hlvl
    | fresh =>
      obtain ⟨hst, htoken, hone⟩ := hmay
      have hone : s.sleepCount top.process token = 1 := hone
      refine ⟨hst, htoken, ?_⟩
      show ({ s with gSleepQueue := queue } : State).sleepCount top.process token = 1
      omega
    | once => exact hmay
  · intro hlvl q hq hw token
    have hzero := h.quiet hlvl q hq top.process hw token
    have := hcount top.process token
    omega

/-- A fresh sleep queue has one entry for a process, so none is left. -/
theorem Inv.woken_sleepless (h : Inv .fresh ph Q s) (hsleep : s.gSleepQueue = top :: rest)
    (hproc : s.procs top.process = some t) (hperm : queue.Perm rest)
    (token : Nat) :
    ({ s with gSleepQueue := queue } : State).sleepCount top.process token = 0 := by
  show queue.count ⟨token, top.process⟩ = 0
  rw [hperm.count_eq]
  have hcount := sleepCount_top hsleep top.process token
  obtain ⟨_, htop, hone⟩ := h.maySleep_top (by decide) hsleep hproc
  by_cases heq : top = ⟨token, top.process⟩
  · rw [if_pos heq] at hcount
    have htoken : top.token = token := by rw [heq]
    rw [htoken] at hone
    omega
  rw [if_neg heq] at hcount
  by_contra hn
  obtain ⟨_, htok, _⟩ := (h.agrees hproc).asleep (by decide) token
    (show s.sleepCount top.process token ≠ 0 by omega)
  exact heq (by rw [← htok, htop])

section

variable (h : Inv lvl ph Q s) (hproc : s.procs p = some t)
include h hproc

/-- All entries of a process leave one wait queue. -/
theorem Inv.removeWaiter (q : QueueId) : Inv lvl ph Q (s.removeWaiter q p) ∧
      (s.removeWaiter q p).waitCount p q = 0 := by
  have hzero : ((s.waitQueues q).filter fun e => e.process != p).countP
      (fun e => e.process == p) = 0 := by
    rw [countP_eq_zero]
    intro e he heq
    have hne := (mem_filter.1 he).2
    rw [bne_iff_ne] at hne
    exact hne (beq_iff_eq.1 heq)
  have hself : (s.removeWaiter q p).waitCount p q = 0 := by
    unfold State.removeWaiter
    rw [waitCount_setQueue, if_pos rfl]
    exact hzero
  have hle : ∀ q', (s.removeWaiter q p).waitCount p q' = 0 ∨
      (s.removeWaiter q p).waitCount p q' = s.waitCount p q' := by
    intro q'
    by_cases hq : q' = q
    · rw [hq]
      exact .inl hself
    · unfold State.removeWaiter
      rw [waitCount_setQueue, if_neg hq]
      exact .inr rfl
  have hp := h.agrees hproc
  refine ⟨?_, hself⟩
  refine h.requeue hproc rfl ⟨rfl, rfl, rfl, rfl⟩ ?_ rfl ?_ ?_
  · intro x hx
    apply standing_setQueue_ne
    rw [countP_filter]
    refine countP_congr (fun e _ => ?_)
    rw [Bool.and_eq_true, bne_iff_ne, beq_iff_eq]
    exact ⟨fun he => he.1, fun he => ⟨he, fun hep => hx (he.symm.trans hep)⟩⟩
  · refine ⟨hp.available, hp.exited, hp.blocked, hp.asleep, hp.collected, ?_⟩
    intro q' hq'
    have hq' : (s.removeWaiter q p).waitCount p q' ≠ 0 := hq'
    rcases hle q' with hz | hsame
    · exact absurd hz hq'
    rw [hsame] at hq'
    show (s.removeWaiter q p).waitCount p q' = 1 ∧ _
    rw [hsame]
    exact hp.waiting q' hq'
  · intro hlvl q' hq' hw token
    rcases hle q' with hz | hsame
    · exact absurd hz hw
    · rw [hsame] at hw
      exact h.quiet hlvl q' hq' p hw token

/-- A process that has left the queue it waits in waits in none. -/
theorem Inv.leaveQueue : Inv lvl ph Q (s.leaveQueue p t.wakeReason.waitable) ∧
      (s.leaveQueue p t.wakeReason.waitable).procs = s.procs ∧
      SameRest s (s.leaveQueue p t.wakeReason.waitable) ∧
      ∀ q, (s.leaveQueue p t.wakeReason.waitable).waitCount p q = 0 := by
  cases hq : t.wakeReason.waitable with
  | none =>
    refine ⟨h, rfl, .refl s, fun q => ?_⟩
    by_contra hn
    obtain ⟨_, _, hwait⟩ := (h.agrees hproc).waiting q hn
    cases hq.symm.trans hwait
  | some q =>
    obtain ⟨hinv, hzero⟩ := h.removeWaiter hproc q
    refine ⟨hinv, rfl, ⟨rfl, rfl, rfl, rfl, rfl⟩, fun q' => ?_⟩
    by_contra hn
    obtain ⟨_, _, hwait⟩ := (hinv.agrees hproc).waiting q' hn
    rw [hq] at hwait
    injection hwait with hwait
    rw [← hwait] at hn
    exact hn hzero

theorem wake_sat (hne : t.state ≠ .exited) (hnc : lvl ≠ .ready → t.state ≠ .collected)
    (hsleep : lvl = .fresh → ∀ token, s.sleepCount p token = 0) :
    Sat (s.wake p) (fun s' => Inv lvl ph Q s' ∧ SameRest s s') (Tolerated lvl) := by
  obtain ⟨hinv, hprocs, hrest, hwait⟩ := h.leaveQueue hproc
  refine Sat.step (deref_eq hproc) ?_
  by_cases hav : t.state = .available
  · rw [if_pos hav]
    exact ⟨h, .refl s⟩
  rw [if_neg hav]
  generalize s.leaveQueue p t.wakeReason.waitable = s₁ at hinv hprocs hrest hwait ⊢
  have hproc₁ : s₁.procs p = some t := by rw [hprocs]; exact hproc
  have hproc₂ : (s₁.setProc p { t with wakeReason := ⟨true, none⟩ }).procs p
      = some { t with wakeReason := ⟨true, none⟩ } := update_self ..
  rw [reschedule_eq hproc₂]
  have hsame : (s₁.setProc p { t with wakeReason := ⟨true, none⟩ }).awaken p
        (rescheduled { t with wakeReason := ⟨true, none⟩ })
      = s₁.awaken p (rescheduled { t with wakeReason := ⟨true, none⟩ }) := by
    unfold State.awaken setProc
    simp only [update_idem]
  rw [hsame]
  refine ⟨?_, hrest.trans ⟨rfl, rfl, rfl, rfl, rfl⟩⟩
  refine hinv.awaken hproc₁ hav hne hnc rfl rfl rfl rfl ?_ hwait
  intro hlvl token
  rw [hrest.sleepCount]
  exact hsleep hlvl token

end

theorem popSleeper_sat (hsleep : s.gSleepQueue = top :: rest) :
    Sat s.popSleeper (fun r => ∃ queue, queue.Perm rest ∧
      r = (top, { s with gSleepQueue := queue })) (Tolerated lvl) := by
  unfold popSleeper
  rw [hsleep]
  refine Sat.bind (PQueue.pop_sat (fun _ _ _ h => sleepCompare_tolerated h) _)
    (fun queue _ hperm => ?_)
  exact ⟨queue, hperm, rfl⟩

/-- A round of the awaker. -/
theorem awaker_sat (h : Inv lvl (.running c) Q s) (hc : s.current = some c) :
    Sat (s.awaker c) (Settled lvl Q) (Tolerated lvl) := by
  unfold awaker
  cases hsleep : s.gSleepQueue with
  | nil => exact waitYield_settled h _
  | cons top rest =>
    refine Sat.bind (deref_sat tolerated_fault) (fun t _ ht => ?_)
    by_cases hex : t.state = .exited
    · rw [if_pos hex]
      -- only at the weakest level can a dead process be in this queue
      have hlvl : lvl = .ready := by
        by_contra hlvl
        exact ((h.maySleep_top hlvl hsleep ht).alive hlvl).1 hex
      subst hlvl
      refine Sat.bind (popSleeper_sat hsleep) ?_
      rintro _ _ ⟨queue, hperm, rfl⟩
      have hinv := h.popSleeper hsleep ht hperm
      refine Sat.mono (enqueueForDeath_sat ht nofun nofun) (fun s₂ hs₂ => ?_)
      obtain ⟨table, rfl, _⟩ := hs₂
      have hready : Inv .ready (.running c) Q
          { s with
            gSleepQueue := queue
            gExitedProcesses := table
            deaths := update s.deaths top.process (s.deaths top.process + 1) } :=
        ⟨hinv.proper, hinv.actor, nofun, nofun, nofun⟩
      exact hready.settled hc
    rw [if_neg hex]
    by_cases hdue : t.sleeptill ≤ s.millisUptime
    · rw [if_pos hdue]
      by_cases htoken : t.waitToken = top.token
      · rw [if_pos htoken]
        refine Sat.bind (popSleeper_sat hsleep) ?_
        rintro _ _ ⟨queue, hperm, rfl⟩
        have hinv := h.popSleeper hsleep ht hperm
        refine (wake_sat hinv ht hex ?_ ?_).mono (fun s₂ hs₂ => ?_)
        · intro hlvl
          exact ((h.maySleep_top hlvl hsleep ht).alive hlvl).2
        · intro hlvl token
          subst hlvl
          exact h.woken_sleepless hsleep ht hperm token
        · exact hs₂.1.settled (hs₂.2.current.trans hc)
      · rw [if_neg htoken]
        exact h.settled hc
    · rw [if_neg hdue]
      exact h.toIdle.switch.settled

end Puppy.Proc
