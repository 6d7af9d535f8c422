/-
How the standing of a process changes.

Each change a step makes to the queues concerns one process, and leaves
the standing of every other as it was. The lemmas here say so for the
primitive updates, and `Inv.step` turns it into the rule by which every
ordinary change preserves the invariant: look at the one process, and at
nothing else.
-/
import Puppy.Proc.Standing

namespace Puppy.Proc

open Libc Lib Function

variable {lvl : Level} {t t' : Process} {ph ph' : Phase} {Q : List QueueId}
  {idle : Bool} {st : Standing} {s s' : State} {p x : Ptr}

namespace State

variable {s s' : State} {p x c page : Ptr} {k : Process} {si : SpawnInfo}
  {newstate : ProcessState} {waitable : Option QueueId} {queue : List QEntry}

theorem deref_ok (h : s.deref p = .ok t) : s.procs p = some t := by
  unfold deref at h
  split at h
  next found =>
    injection h with h
    rw [found, h]
  · cases h

/-- The process that a function begins with is there. -/
theorem deref_bind {α : Type} {f : Process → Except Panic α} {a : α}
    (h : (s.deref p >>= f) = .ok a) : ∃ t, s.procs p = some t ∧ f t = .ok a := by
  obtain ⟨t, ht, h⟩ := ok_bind h
  exact ⟨t, deref_ok ht, h⟩

theorem deref_eq (h : s.procs p = some t) : s.deref p = .ok t := by
  unfold deref
  rw [h]

/-- Reading through a pointer fails only when nothing lives there. -/
theorem deref_step {α : Type} {f : Process → Except Panic α} (h : s.procs p = some t) :
    (s.deref p >>= f) = f t := by
  rw [deref_eq h]
  rfl

theorem deref_sat {E : Panic → Prop} (hE : E .fault) :
    Sat (s.deref p) (fun t => s.procs p = some t) E := by
  unfold deref
  cases hp : s.procs p with
  | none => exact hE
  | some t => exact rfl

/-- The process manager starts with one process. -/
theorem initial_procs (h : State.initial.procs p = some t) : p = 0 ∧ t = gDummyProcess := by
  have h : update (fun _ => none) 0 (some gDummyProcess) p = some t := h
  rcases update_eq_some h with ⟨hp, h⟩ | ⟨_, h⟩
  · exact ⟨hp, (Option.some.inj h).symm⟩
  · cases h

-- ==== one process changes

@[simp]
theorem setProc_procs (t : Process) : (s.setProc p t).procs = update s.procs p (some t) := rfl

theorem standing_setProc_self (t : Process) :
    (s.setProc p t).standing p = { s.standing p with proc := some t } := by
  unfold standing
  rw [setProc_procs, update_self]
  rfl

theorem standing_setProc_ne (t : Process) (hx : x ≠ p) :
    (s.setProc p t).standing x = s.standing x := by
  unfold standing
  rw [setProc_procs, update_of_ne hx]
  rfl

/-- A process enters the ready queue, with a new record. -/
def awaken (s : State) (p : Ptr) (t : Process) : State :=
  { s.setProc p t with gReadyQueue := s.gReadyQueue ++ [p] }

theorem standing_awaken_self (t : Process) : (s.awaken p t).standing p =
      { s.standing p with proc := some t, ready := s.readyCount p + 1 } := by
  have hready : (s.awaken p t).readyCount p = s.readyCount p + 1 := by
    show (s.gReadyQueue ++ [p]).count p = _
    rw [List.count_append, List.count_singleton_self]
    rfl
  have hproc : (s.awaken p t).procs p = some t := update_self ..
  unfold standing
  rw [hready, hproc]
  rfl

theorem standing_awaken_ne (t : Process) (hx : x ≠ p) :
    (s.awaken p t).standing x = s.standing x := by
  have hready : (s.awaken p t).readyCount x = s.readyCount x := by
    show (s.gReadyQueue ++ [p]).count x = _
    rw [List.count_append, List.count_singleton, if_neg (by simpa using hx.symm)]
    rfl
  have hproc : (s.awaken p t).procs x = s.procs x := update_of_ne hx ..
  unfold standing
  rw [hready, hproc]
  rfl

/-- What `reschedule` writes into the process. -/
def rescheduled (t : Process) : Process :=
  { t with
    waitToken := (t.waitToken + 1) % 0x10000000000000000
    state := .available }

theorem reschedule_eq (h : s.procs p = some t) :
    s.reschedule p = .ok (s.awaken p (rescheduled t)) := by
  unfold reschedule
  rw [deref_eq h]
  rfl

/-- What `spawn` leaves when it is not refused: a process on a page that had
none, in the list of its parent. -/
structure Spawned (s : State) (parent page : Ptr) (si : SpawnInfo)
    (k t : Process) (s' : State) : Prop where
  modest : excessive k si = false
  vacant : s.procs page = none
  pid : s.gPidBitmap.next = .ok (t.pid, s'.gPidBitmap)
  gdt : s.gGDTBitmap.next = .ok (t.gdtidx, s'.gGDTBitmap)
  ppid : t.ppid = k.pid
  children : t.children = []
  state : t.state = .new ∨ t.state = .available
  quantum : t.quantum = si.quantum
  scheduling : t.scheduling = si.scheduling
  system : t.system = si.system
  procs : s'.procs = update (update s.procs page (some t))
    parent (some { k with children := k.children ++ [page] })
  queues : s'.waitQueues = s.waitQueues
  sleep : s'.gSleepQueue = s.gSleepQueue
  tasks : s'.taskOf = s.taskOf
  table : s.gProcessTable.set t.pid page = .ok s'.gProcessTable

/-- Unless too much is asked for, there is a new process. -/
theorem spawn_spawned (hk : s.procs c = some k) (h : s.spawn c page si = .ok s') :
    (s' = s ∧ excessive k si = true) ∨ ∃ t, Spawned s c page si k t s' := by
  unfold spawn at h
  rw [deref_step hk] at h
  by_cases hex : excessive k si = true
  · rw [if_pos hex] at h
    injection h with h
    exact .inl ⟨h.symm, hex⟩
  rw [if_neg hex] at h
  obtain ⟨hpage, h⟩ := reject_eq_ok.1 h
  have hnone := Option.not_isSome_iff_eq_none.1 hpage
  have hne : c ≠ page := ne_of_entry hk hnone
  obtain ⟨⟨pid, pids⟩, hpid, h⟩ := ok_bind h
  obtain ⟨⟨gdtidx, gdts⟩, hgdt, h⟩ := ok_bind h
  obtain ⟨table, htable, h⟩ := ok_bind h
  right
  have hmodest := Bool.not_eq_true _ ▸ hex
  -- the child's record, before it becomes AVAILABLE
  let t : Process :=
    { pid := pid, ppid := k.pid, gdtidx := gdtidx, tty := k.tty,
      quantum := si.quantum, scheduling := si.scheduling,
      system := si.system }
  by_cases hsched : si.schedulable = true
  · rw [if_pos hsched, reschedule_eq (update_self ..), bind_ok] at h
    obtain ⟨k', hk', h⟩ := deref_bind h
    dsimp only [awaken, setProc] at hk'
    rw [update_idem, update_of_ne hne, hk] at hk'
    cases hk'
    cases h
    refine ⟨rescheduled t, hmodest, hnone, hpid, hgdt, rfl, rfl, .inr rfl,
      rfl, rfl, rfl, ?_, rfl, rfl, rfl, htable⟩
    dsimp only [awaken, setProc]
    rw [update_idem]
  · rw [if_neg hsched, bind_ok] at h
    obtain ⟨k', hk', h⟩ := deref_bind h
    have hk' := (update_of_ne hne ..).symm.trans hk'
    cases hk.symm.trans hk'
    cases h
    exact ⟨t, hmodest, hnone, hpid, hgdt, rfl, rfl, .inl rfl, rfl, rfl, rfl, rfl, rfl, rfl, rfl,
      htable⟩

theorem Spawned.child (h : Spawned s c page si k t s') (hk : s.procs c = some k) :
    s'.procs page = some t := by
  have hne : page ≠ c := (ne_of_entry hk h.vacant).symm
  rw [h.procs, update_of_ne hne, update_self]

/-- A process is the new one, or was there before and has at most another
list of children. -/
theorem Spawned.back {u : Process} (h : Spawned s c page si k t s') (hk : s.procs c = some k)
    (hu : s'.procs p = some u) : (p = page ∧ u = t) ∨ (p ≠ page ∧
      ∃ v, s.procs p = some v ∧ u = { v with children := u.children }) := by
  rw [h.procs] at hu
  rcases update_eq_some hu with ⟨hpc, hu⟩ | ⟨_, hu⟩
  · refine .inr ⟨?_, k, hpc ▸ hk, by rw [← Option.some.inj hu]⟩
    intro heq
    rw [← hpc, heq, h.vacant] at hk
    cases hk
  rcases update_eq_some hu with ⟨hpage, hu⟩ | ⟨hpage, hu⟩
  · exact .inl ⟨hpage, (Option.some.inj hu).symm⟩
  · exact .inr ⟨hpage, u, hu, rfl⟩

/-- A process leaves the ready queue, with a new record. -/
def suspend (s : State) (p : Ptr) (t : Process) : State :=
  { s.setProc p t with
    gReadyQueue := s.gReadyQueue.filter fun y => y != p }

theorem standing_suspend_self (t : Process) : (s.suspend p t).standing p =
      { s.standing p with proc := some t, ready := 0 } := by
  have hready : (s.suspend p t).readyCount p = 0 := by
    show (s.gReadyQueue.filter fun y => y != p).count p = 0
    rw [List.count_eq_zero]
    intro hmem
    have := (List.mem_filter.1 hmem).2
    simp at this
  have hproc : (s.suspend p t).procs p = some t := update_self ..
  unfold standing
  rw [hready, hproc]
  rfl

theorem standing_suspend_ne (t : Process) (hx : x ≠ p) :
    (s.suspend p t).standing x = s.standing x := by
  have hready : (s.suspend p t).readyCount x = s.readyCount x := by
    show (s.gReadyQueue.filter fun y => y != p).count x = _
    rw [List.count_filter (by simpa using hx)]
    rfl
  have hproc : (s.suspend p t).procs x = s.procs x := update_of_ne hx ..
  unfold standing
  rw [hready, hproc]
  rfl

/-- What `deschedule` writes into the process. -/
def descheduled (t : Process) (newstate : ProcessState) (waitable : Option QueueId) : Process :=
  { t with
    state := newstate
    wakeReason := { t.wakeReason with waitable := waitable } }

theorem deschedule_eq (hready : s.readyCount p = 1) (h : s.procs p = some t) :
    s.deschedule p newstate waitable = .ok (s.suspend p (descheduled t newstate waitable)) := by
  have hcount : s.gReadyQueue.count p = 1 := hready
  unfold deschedule
  rw [hcount, deref_eq h]
  rfl

/-- A process that is not in the ready queue is left alone. -/
theorem deschedule_of_zero (hready : s.readyCount p = 0) :
    s.deschedule p newstate waitable = .ok s := by
  have hcount : s.gReadyQueue.count p = 0 := hready
  unfold deschedule
  rw [hcount]
  rfl

-- ==== one queue changes

theorem waitCount_setQueue (q : QueueId) (entries : List QEntry)
    (q' : QueueId) : (s.setQueue q entries).waitCount x q' =
      if q' = q then entries.countP fun e => e.process == x
      else s.waitCount x q' := by
  show (update s.waitQueues q entries q').countP _ = _
  by_cases hq : q' = q
  · rw [if_pos hq, hq, update_self]
  · rw [if_neg hq, update_of_ne hq]
    rfl

/-- Entries of other processes do not count. -/
theorem standing_setQueue_ne {q : QueueId} {entries : List QEntry}
    (h : entries.countP (fun e => e.process == x) = s.waitCount x q) :
    (s.setQueue q entries).standing x = s.standing x := by
  have hwait : (s.setQueue q entries).waitCount x = s.waitCount x := by
    funext q'
    rw [waitCount_setQueue]
    by_cases hq : q' = q
    · rw [if_pos hq, hq, h]
    · rw [if_neg hq]
  unfold standing
  rw [hwait]
  rfl

/-- One more entry in the sleep queue. -/
theorem sleepCount_cons {e : QEntry} (h : queue.Perm (e :: s.gSleepQueue)) (token : Nat) :
    ({ s with gSleepQueue := queue } : State).sleepCount x token =
      s.sleepCount x token + if e = ⟨token, x⟩ then 1 else 0 := by
  show queue.count ⟨token, x⟩ = _
  rw [h.count_eq, List.count_cons]
  simp only [beq_iff_eq]
  rfl

theorem standing_sleepQueue
    (h : ∀ token, ({ s with gSleepQueue := queue } : State).sleepCount x token
      = s.sleepCount x token) :
    ({ s with gSleepQueue := queue } : State).standing x = s.standing x := by
  have hsleep : ({ s with gSleepQueue := queue } : State).sleepCount x = s.sleepCount x := funext h
  unfold standing
  rw [hsleep]
  rfl

end State

-- ==== the invariant, one process at a time

/-- An EXITED process in the ready queue is no offence while the scheduler
runs. -/
theorem Standing.Proper.toIdle (h : st.Proper lvl idle) : st.Proper lvl true :=
  ⟨h.absent, h.available,
    fun t ht hst => ⟨(h.exited t ht hst).1, nofun⟩,
    h.blocked, h.asleep, h.collected, h.waiting⟩

theorem Standing.Proper.ready_le (h : st.Proper lvl idle) : st.ready ≤ 1 := by
  cases hp : st.proc with
  | none => rw [h.absent hp]; exact zero_le_one
  | some t =>
    by_cases ha : t.state = .available
    · rw [h.available t hp ha]
    by_cases he : t.state = .exited
    · exact (h.exited t hp he).1
    · rw [h.blocked t hp ha he]
      exact zero_le_one

/-- What `Proper` says of a process that is there. -/
structure Standing.Agrees (lvl : Level) (idle : Bool) (t : Process)
    (st : Standing) : Prop where
  available : t.state = .available → st.ready = 1
  exited : t.state = .exited → st.ready ≤ 1 ∧ (idle = false → st.ready = 0)
  blocked : t.state ≠ .available → t.state ≠ .exited → st.ready = 0
  asleep : lvl ≠ .ready → ∀ token, st.sleeps token ≠ 0 → MaySleep lvl t token (st.sleeps token)
  collected : lvl ≠ .ready → st.collected ≠ 0 → st.collected = 1 ∧ t.state = .collected
  waiting : ∀ q, st.waits q ≠ 0 → st.waits q = 1 ∧ t.state = .waiting ∧
    t.wakeReason.waitable = some q

/-- What is asked of a process that exists. -/
theorem Standing.proper_iff (hproc : st.proc = some t) :
    st.Proper lvl idle ↔ st.Agrees lvl idle t := by
  have hsame : ∀ {u}, st.proc = some u → u = t := fun hu => Option.mem_unique hu hproc
  constructor
  · intro h
    refine ⟨h.available t hproc, h.exited t hproc, h.blocked t hproc, ?_, ?_, ?_⟩
    · intro hlvl token hn
      obtain ⟨u, hu, hmay⟩ := h.asleep hlvl token hn
      exact hsame hu ▸ hmay
    · intro hlvl hn
      obtain ⟨hone, u, hu, hst⟩ := h.collected hlvl hn
      exact ⟨hone, hsame hu ▸ hst⟩
    · intro q hn
      obtain ⟨hone, u, hu, hw⟩ := h.waiting q hn
      exact ⟨hone, hsame hu ▸ hw⟩
  intro h
  refine ⟨fun hnone => (by cases hproc.symm.trans hnone),
    fun u hu => hsame hu ▸ h.available, fun u hu => hsame hu ▸ h.exited,
    fun u hu => hsame hu ▸ h.blocked,
    fun hlvl token hn => ⟨t, hproc, h.asleep hlvl token hn⟩, ?_, ?_⟩
  · intro hlvl hn
    obtain ⟨hone, hst⟩ := h.collected hlvl hn
    exact ⟨hone, t, hproc, hst⟩
  · intro q hn
    obtain ⟨hone, hw⟩ := h.waiting q hn
    exact ⟨hone, t, hproc, hw⟩

theorem Inv.agrees (h : Inv lvl ph Q s) (hproc : s.procs p = some t) :
    (s.standing p).Agrees lvl ph.isIdle t :=
  (Standing.proper_iff hproc).1 (h.proper p)

/-- A process with an entry in the sleep queue lives. -/
theorem MaySleep.alive {token n : Nat} (h : MaySleep lvl t token n)
    (hlvl : lvl ≠ .ready) : t.state ≠ .exited ∧ t.state ≠ .collected := by
  cases lvl with
  | ready => exact absurd rfl hlvl
  | fresh =>
    obtain ⟨hst, _, _⟩ := h
    rcases hst with hst | hst <;> rw [hst] <;> decide
  | once => exact h

/-- The tables that only birth, death and deletion write. -/
structure SameTables (s s' : State) : Prop where
  processes : s'.gProcessTable = s.gProcessTable
  pids : s'.gPidBitmap = s.gPidBitmap
  exited : s'.gExitedProcesses = s.gExitedProcesses
  deaths : s'.deaths = s.deaths

/-- Two records of one process that agree on family and death. -/
structure SameKin (t t' : Process) : Prop where
  pid : t'.pid = t.pid
  ppid : t'.ppid = t.ppid
  children : t'.children = t.children
  exited : t'.state = .exited ↔ t.state = .exited
  collected : t'.state = .collected ↔ t.state = .collected

/-- Every process keeps its kin, dead ones also their place in the ready
queue. -/
structure SameBooks (s s' : State) : Prop where
  tables : SameTables s s'
  kin : ∀ x, (s'.procs x = none ∧ s.procs x = none) ∨
    ∃ t t', s.procs x = some t ∧ s'.procs x = some t' ∧ SameKin t t'
  ready : ∀ x t, s.procs x = some t → t.state = .exited → s'.readyCount x = s.readyCount x

theorem SameBooks.forward (h : SameBooks s s') (hx : s.procs x = some t) :
    ∃ t', s'.procs x = some t' ∧ SameKin t t' := by
  rcases h.kin x with ⟨_, hnone⟩ | ⟨u, t', hu, ht', hkin⟩
  · cases hnone.symm.trans hx
  cases hu.symm.trans hx
  exact ⟨t', ht', hkin⟩

theorem SameBooks.backward (h : SameBooks s s') (hx : s'.procs x = some t') :
    ∃ t, s.procs x = some t ∧ SameKin t t' := by
  rcases h.kin x with ⟨hnone, _⟩ | ⟨t, u', ht, hu', hkin⟩
  · cases hnone.symm.trans hx
  cases hu'.symm.trans hx
  exact ⟨t, ht, hkin⟩

/-- The books depend on the kin of each process only. -/
theorem Books.congr (h : SameBooks s s') (hb : Books s) : Books s' := by
  refine ⟨?_, ?_, ?_, ?_, ?_⟩
  · intro pid p
    rw [h.tables.processes, hb.named]
    constructor
    · intro hs
      obtain ⟨t, ht, hpid⟩ := hs
      obtain ⟨t', ht', hkin⟩ := h.forward ht
      exact ⟨t', ht', hkin.pid.trans hpid⟩
    intro hs
    obtain ⟨t', ht', hpid⟩ := hs
    obtain ⟨t, ht, hkin⟩ := h.backward ht'
    exact ⟨t, ht, hkin.pid.symm.trans hpid⟩
  · intro p t' ht'
    obtain ⟨t, ht, hkin⟩ := h.backward ht'
    rw [h.tables.pids, hkin.pid]
    exact hb.reserved p t ht
  · intro pid p hslot
    rw [h.tables.exited] at hslot
    obtain ⟨t, ht, hpid, hst, hready⟩ := hb.slot pid p hslot
    obtain ⟨t', ht', hkin⟩ := h.forward ht
    exact ⟨t', ht', hkin.pid.trans hpid, hkin.exited.2 hst, (h.ready p t ht hst).trans hready⟩
  · intro p t' ht' hst hready
    obtain ⟨t, ht, hkin⟩ := h.backward ht'
    have hst₀ := hkin.exited.1 hst
    rw [h.tables.exited, hkin.pid]
    exact hb.dead p t ht hst₀ ((h.ready p t ht hst₀).symm.trans hready)
  · intro p t' ht'
    obtain ⟨t, ht, hkin⟩ := h.backward ht'
    rw [h.tables.deaths, hb.counted p t ht]
    unfold deathsOf
    by_cases hst : t.state = .exited
    · rw [h.ready p t ht hst]
      simp only [hkin.collected, hkin.exited]
    · simp only [hkin.collected, hkin.exited, hst, false_and]

theorem ChildOf.congr (h : SameBooks s s') {pid : Pid} (hc : ChildOf s pid p) :
    ChildOf s' pid p := by
  obtain ⟨t, ht, hppid, hst⟩ := hc
  obtain ⟨t', ht', hkin⟩ := h.forward ht
  exact ⟨t', ht', hkin.ppid.trans hppid, fun hcol => hst (hkin.collected.1 hcol)⟩

/-- Lists that lose children, or keep them, still name living children once
each if those they keep live on. -/
theorem Family.restrict (hf : Family ph s) (hback : ∀ k t', s'.procs k = some t' →
      (∀ rest, ph' ≠ .leaving k rest) → t'.children = [] ∨
        ∃ t, s.procs k = some t ∧ (∀ rest, ph ≠ .leaving k rest) ∧
          t'.pid = t.pid ∧ t'.children.Sublist t.children)
    (hchild : ∀ k t' p, s'.procs k = some t' → (∀ rest, ph' ≠ .leaving k rest) → p ∈ t'.children →
      ChildOf s t'.pid p → ChildOf s' t'.pid p)
    (hpending : ∀ k t' rest, ph' = .leaving k rest → s'.procs k = some t' →
      rest.Nodup ∧ ∀ p ∈ rest, ChildOf s' t'.pid p) : Family ph' s' := by
  refine ⟨?_, ?_, hpending⟩
  · intro k t' ht' hph p hp
    rcases hback k t' ht' hph with hnil | ⟨t, ht, hold, hpid, hsub⟩
    · rw [hnil] at hp
      cases hp
    · refine hchild k t' p ht' hph hp ?_
      rw [hpid]
      exact hf.listed k t ht hold p (hsub.subset hp)
  · intro k t' ht' hph
    rcases hback k t' ht' hph with hnil | ⟨t, ht, hold, _, hsub⟩
    · rw [hnil]
      exact List.nodup_nil
    · exact (hf.nodup k t ht hold).sublist hsub

theorem Family.congr (h : SameBooks s s') (hf : Family ph s) : Family ph s' := by
  refine hf.restrict ?_ (fun _ _ _ _ _ _ hc => hc.congr h) ?_
  · intro k t' ht' hph
    obtain ⟨t, ht, hkin⟩ := h.backward ht'
    exact .inr ⟨t, ht, hph, hkin.pid, hkin.children ▸ .refl _⟩
  intro k t' rest hph ht'
  obtain ⟨t, ht, hkin⟩ := h.backward ht'
  obtain ⟨hnodup, hall⟩ := hf.pending k t rest hph ht
  rw [hkin.pid]
  exact ⟨hnodup, fun p hp => (hall p hp).congr h⟩

theorem Family.rephase (hf : Family ph s) (hph : ∀ k rest, ph ≠ .leaving k rest)
    (hph' : ∀ k rest, ph' ≠ .leaving k rest) : Family ph' s :=
  ⟨fun k t ht _ => hf.listed k t ht (hph k),
    fun k t ht _ => hf.nodup k t ht (hph k),
    fun k _ rest heq _ => absurd heq (hph' k rest)⟩

/-- A change to the record of one process that leaves its kin alone. -/
theorem SameBooks.update (hproc : s.procs p = some t)
    (hprocs : s'.procs = update s.procs p (some t'))
    (hkin : SameKin t t') (htables : SameTables s s')
    (hother : ∀ x ≠ p, s'.readyCount x = s.readyCount x)
    (hself : t.state = .exited → s'.readyCount p = s.readyCount p) :
    SameBooks s s' := by
  refine ⟨htables, ?_, ?_⟩
  · intro x
    by_cases hx : x = p
    · refine .inr ⟨t, t', hx ▸ hproc, ?_, hkin⟩
      rw [hprocs, hx, update_self]
    have hsame : s'.procs x = s.procs x := by rw [hprocs, update_of_ne hx]
    cases hold : s.procs x with
    | none => exact .inl ⟨hsame.trans hold, rfl⟩
    | some u => exact .inr ⟨u, u, rfl, hsame.trans hold, ⟨rfl, rfl, rfl, Iff.rfl, Iff.rfl⟩⟩
  · intro x u hu hst
    by_cases hx : x = p
    · subst hx
      rw [hproc] at hu
      injection hu with hu
      exact hself (hu ▸ hst)
    · exact hother x hx

/-- The rule behind every step: the standing of one process changes, and
that process is in order afterwards. -/
theorem Inv.change (p : Ptr) (h : Inv lvl ph Q s) (hother : ∀ x ≠ p, s'.standing x = s.standing x)
    (hself : (s'.standing p).Proper lvl ph'.isIdle)
    (hidle : ph'.isIdle = ph.isIdle ∨ ph'.isIdle = true)
    (hactor : ∀ c, ph'.actor = some c → ∃ t, s'.procs c = some t ∧ t.state = .available)
    (hquiet : lvl = .fresh → ∀ q ∈ Q, s'.waitCount p q ≠ 0 →
      ∀ token, s'.sleepCount p token = 0) (hbooks : lvl = .once → Books s')
    (hfamily : lvl = .once → Family ph' s') : Inv lvl ph' Q s' := by
  refine ⟨?_, hactor, ?_, hbooks, hfamily⟩
  · intro x
    by_cases hx : x = p
    · rw [hx]
      exact hself
    rw [hother x hx]
    rcases hidle with hsame | hto
    · rw [hsame]
      exact h.proper x
    · rw [hto]
      exact (h.proper x).toIdle
  intro hlvl q hq x hwait token
  by_cases hx : x = p
  · rw [hx] at hwait ⊢
    exact hquiet hlvl q hq hwait token
  have hst := hother x hx
  have hw : s'.waitCount x = s.waitCount x := congrArg Standing.waits hst
  have hsl : s'.sleepCount x = s.sleepCount x := congrArg Standing.sleeps hst
  rw [hw] at hwait
  rw [hsl]
  exact h.quiet hlvl q hq x hwait token

/-- The same for a change that leaves the books alone. -/
theorem Inv.ordinary (h : Inv lvl ph Q s) (hproc : s.procs p = some t)
    (hprocs : s'.procs = update s.procs p (some t'))
    (hkin : lvl = .once → SameKin t t') (htables : SameTables s s')
    (hother : ∀ x ≠ p, s'.standing x = s.standing x)
    (hready : lvl = .once → t.state = .exited → s'.readyCount p = s.readyCount p)
    (hself : (s'.standing p).Agrees lvl ph.isIdle t')
    (hactor : ph.actor = some p → t'.state = .available)
    (hquiet : lvl = .fresh → ∀ q ∈ Q, s'.waitCount p q ≠ 0 →
      ∀ token, s'.sleepCount p token = 0) : Inv lvl ph Q s' := by
  have hsame : lvl = .once → SameBooks s s' := fun hlvl =>
    .update hproc hprocs (hkin hlvl) htables
      (fun x hx => congrArg Standing.ready (hother x hx)) (hready hlvl)
  have hproc' : s'.procs p = some t' := by rw [hprocs, update_self]
  refine h.change p hother ((Standing.proper_iff hproc').2 hself) (.inl rfl)
    ?_ hquiet (fun hlvl => (h.books hlvl).congr (hsame hlvl))
    (fun hlvl => (h.family hlvl).congr (hsame hlvl))
  intro c hc
  by_cases hcp : c = p
  · subst hcp
    exact ⟨t', hproc', hactor hc⟩
  · rw [hprocs, update_of_ne hcp]
    exact h.actor c hc

/-- The same for a process that only changes its place in the queues. -/
theorem Inv.requeue (h : Inv lvl ph Q s) (hproc : s.procs p = some t) (hprocs : s'.procs = s.procs)
    (htables : SameTables s s')
    (hother : ∀ x ≠ p, s'.standing x = s.standing x)
    (hready : s'.readyCount p = s.readyCount p)
    (hself : (s'.standing p).Agrees lvl ph.isIdle t)
    (hquiet : lvl = .fresh → ∀ q ∈ Q, s'.waitCount p q ≠ 0 →
      ∀ token, s'.sleepCount p token = 0) : Inv lvl ph Q s' := by
  refine h.ordinary hproc (hprocs.trans (update_eq_self_iff.2 hproc.symm).symm)
    (fun _ => ⟨rfl, rfl, rfl, Iff.rfl, Iff.rfl⟩) htables hother
    (fun _ _ => hready) hself ?_ hquiet
  intro hactor
  obtain ⟨u, hu, hst⟩ := h.actor p hactor
  rw [Option.mem_unique hproc hu]
  exact hst

/-- The scheduler takes over. -/
theorem Inv.toIdle {c : Ptr} (h : Inv lvl (.running c) Q s) : Inv lvl .idle Q s := by
  refine ⟨fun x => (h.proper x).toIdle, ?_, h.quiet, h.books, fun hlvl => ?_⟩
  · intro c hc
    cases hc
  · exact (h.family hlvl).rephase nofun nofun

/-- Fewer queues left to signal. -/
theorem Inv.mono {Q' : List QueueId} (h : Inv lvl ph Q s) (hsub : Q' ⊆ Q) : Inv lvl ph Q' s :=
  ⟨h.proper, h.actor, fun hlvl q hq => h.quiet hlvl q (hsub hq), h.books, h.family⟩

/-- The clock, the current process and the kernel's task pointers are no
part of it. -/
theorem Inv.sameQueues (h : Inv lvl ph Q s) (hprocs : s'.procs = s.procs)
    (hready : s'.gReadyQueue = s.gReadyQueue)
    (hsleep : s'.gSleepQueue = s.gSleepQueue)
    (hwait : s'.waitQueues = s.waitQueues)
    (hcollected : s'.gCollectedProcessList = s.gCollectedProcessList)
    (htables : SameTables s s') : Inv lvl ph Q s' := by
  have hstanding : ∀ x, s'.standing x = s.standing x := by
    intro x
    unfold State.standing State.readyCount State.waitCount State.sleepCount State.collectedCount
    rw [hprocs, hready, hsleep, hwait, hcollected]
  have hsame : SameBooks s s' := by
    refine ⟨htables, ?_, fun x _ _ _ => congrArg Standing.ready (hstanding x)⟩
    intro x
    rw [hprocs]
    cases hx : s.procs x with
    | none => exact .inl ⟨rfl, rfl⟩
    | some t => exact .inr ⟨t, t, rfl, rfl, ⟨rfl, rfl, rfl, Iff.rfl, Iff.rfl⟩⟩
  refine ⟨?_, ?_, ?_, fun hlvl => (h.books hlvl).congr hsame,
    fun hlvl => (h.family hlvl).congr hsame⟩
  · intro x
    rw [hstanding x]
    exact h.proper x
  · intro c hc
    rw [hprocs]
    exact h.actor c hc
  intro hlvl q hq x hw token
  have hwx : s'.waitCount x = s.waitCount x := congrArg Standing.waits (hstanding x)
  have hsx : s'.sleepCount x = s.sleepCount x := congrArg Standing.sleeps (hstanding x)
  rw [hwx] at hw
  rw [hsx]
  exact h.quiet hlvl q hq x hw token

theorem Inv.setCurrent (h : Inv lvl ph Q s) (c : Option Ptr) :
    Inv lvl ph Q { s with current := c } :=
  h.sameQueues rfl rfl rfl rfl rfl ⟨rfl, rfl, rfl, rfl⟩

end Puppy.Proc
