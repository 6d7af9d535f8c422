/-
What the functions of the process manager are made of.

Most of what is said about a step is a relation between the state before
and the state after: a queue has only become shorter, nobody has begun to
collect, the processes are the same family. Such a relation is shown for
each function by going through the same code. Here this is done once. A
relation that allows what `wakeEntry` does to a queue (`Waking`) allows all
that waking up does; one that also allows some edits of one record
(`Editing`) allows every function that makes no others. Which edits are
`fine` is up to the relation.
-/
import Puppy.Proc.Proofs.Manager

namespace Puppy.Proc

open Libc Lib State

variable {s s' s'' : State} {p c : Ptr} {q : QueueId}
  {R : State → State → Prop} {fine : Ptr → Process → Process → Prop}
  {closed : List QueueId} {es n : Nat}

-- ==== the parts of some functions

/-- What waking up writes into a process. -/
def roused (q : QueueId) (t : Process) : Process :=
  rescheduled { t with wakeReason := ⟨false, some q⟩ }

/-- An entry wakes a process up that waits, or nobody. -/
theorem wakeEntry_cases {e : QEntry} {r : Bool × State} (h : s.wakeEntry q e = .ok r) : r.2 = s ∨
      ∃ t, s.procs e.process = some t ∧ t.state = .waiting ∧
        r.2 = s.awaken e.process (roused q t) := by
  obtain ⟨t, ht, h⟩ := deref_bind h
  split at h
  next hwake =>
    rw [ready_eq ht (by rw [hwake.1]; decide)] at h
    injection h with h
    exact .inr ⟨t, ht, hwake.1, by rw [← h]; rfl⟩
  · injection h with h
    exact .inl (by rw [← h])

/-- `deschedule` changes the record of a process, or nothing. -/
theorem deschedule_cases {newstate : ProcessState} {waitable : Option QueueId}
    (h : s.deschedule p newstate waitable = .ok s') : s' = s ∨ ∃ t, s.procs p = some t ∧
        s' = s.suspend p (descheduled t newstate waitable) := by
  unfold deschedule at h
  dsimp only at h
  split at h
  · injection h with h
    exact .inl h.symm
  obtain ⟨t, ht, h⟩ := deref_bind h
  obtain ⟨_, h⟩ := reject_eq_ok.1 h
  injection h with h
  exact .inr ⟨t, ht, h.symm⟩

/-- What an `exit` that goes through is made of: the children are handed
over, the files closed, the process is dead and its terminal released, and
a parent that collects is made AVAILABLE. -/
structure Exits (s : State) (p : Ptr) (es : Nat) (closed : List QueueId)
    (t : Process) (s₁ s₂ : State) (u : Process) (s₃ : State) (parent : Ptr)
    (k : Process) (s₄ : State) : Prop where
  proc : s.procs p = some t
  mortal : t.system = false
  handed : s.reparentAll p = .ok s₁
  closing : closed.foldlM wakeall s₁ = .ok s₂
  last : s₂.procs p = some u
  released : (s₂.setProc p { u with
    state := .exited, exitstatus := es }).wakeall t.tty = .ok s₃
  found : s₃.gProcessTable.get u.ppid = .ok (some parent)
  record : s₃.procs parent = some k
  roused : (k.state = .collecting ∧ s₃.reschedule parent = .ok s₄) ∨
    (k.state ≠ .collecting ∧ s₄ = s₃)

/-- The stages of an exit, one by one. -/
theorem exit_parts (h : s.exit p es closed = .ok s') : ∃ t s₁ s₂ u s₃ parent k s₄,
      Exits s p es closed t s₁ s₂ u s₃ parent k s₄ ∧ s' = s₄.switchtoscheduler := by
  obtain ⟨t, ht, h⟩ := deref_bind h
  by_cases hsys : t.system = true
  · rw [if_pos hsys] at h
    cases h
  rw [if_neg hsys] at h
  obtain ⟨s₁, hhanded, h⟩ := ok_bind h
  obtain ⟨s₂, hclosed, h⟩ := ok_bind h
  obtain ⟨u, hu, h⟩ := deref_bind h
  obtain ⟨s₃, htty, h⟩ := ok_bind h
  obtain ⟨found, hfound, h⟩ := ok_bind h
  cases found with
  | none => cases h
  | some parent =>
    obtain ⟨k, hk, h⟩ := deref_bind h
    have hend : ∀ s₄, ((k.state = .collecting ∧ s₃.reschedule parent = .ok s₄) ∨
        (k.state ≠ .collecting ∧ s₄ = s₃)) →
        Exits s p es closed t s₁ s₂ u s₃ parent k s₄ :=
      fun s₄ hroused => ⟨ht, Bool.not_eq_true _ ▸ hsys, hhanded,
        hclosed, hu, htty, hfound, hk, hroused⟩
    by_cases hcollecting : k.state = .collecting
    · rw [if_pos hcollecting] at h
      obtain ⟨s₄, hresched, h⟩ := ok_bind h
      injection h with h
      exact ⟨t, s₁, s₂, u, s₃, parent, k, s₄, hend s₄ (.inl ⟨hcollecting, hresched⟩), h.symm⟩
    · rw [if_neg hcollecting, bind_ok] at h
      injection h with h
      exact ⟨t, s₁, s₂, u, s₃, parent, k, s₃, hend s₃ (.inr ⟨hcollecting, rfl⟩), h.symm⟩

theorem caller_current (h : s.caller = .ok c) : s.current = some c := by
  unfold caller at h
  split at h
  · cases h
  next hc =>
  split at h
  · cases h
  · cases h
    exact hc

/-- A round of a kernel task is made by the process in its role. -/
theorem round_parts {task : KernelTask} (h : s.round task = .ok s') :
    ∃ self, s.current = some self ∧ s.taskOf task = some self ∧ match task with
      | .collector => s.collector self = .ok s'
      | .awaker => s.awaker self = .ok s'
      | .deleter => s.deleter self = .ok s' := by
  unfold State.round at h
  split at h
  · cases h
  next self hself =>
  obtain ⟨hc, h⟩ := reject_eq_ok.1 h
  refine ⟨self, not_not.1 hc, hself, ?_⟩
  cases task <;> exact h

/-- A step in which the current process may begin to collect. -/
def Action.collects : Action → Prop
  | .collect _ | .collectany _ | .round .collector => True
  | _ => False

/-- A step in which the current process may die. -/
def Action.kills : Action → Prop
  | .exit _ _ => True
  | _ => False

-- ==== waking up

/-- An entry may leave its queue and wake its process up. -/
structure Waking (R : State → State → Prop) : Prop where
  refl : ∀ s, R s s
  trans : ∀ {s s' s''}, R s s' → R s' s'' → R s s''
  entry : ∀ {s q e rest r}, s.waitQueues q = e :: rest →
    (s.setQueue q rest).wakeEntry q e = .ok r → R s r.2

namespace Waking

/-- A relation that every wake-up respects holds over the loop. -/
theorem wakeallLoop (hR : Waking R) : ∀ {s s' : State},
    State.wakeallLoop q n s = .ok s' → R s s' := by
  induction n with
  | zero =>
    intro s s' h
    cases h
    exact hR.refl s
  | succ n ih =>
    intro s s' h
    unfold State.wakeallLoop at h
    split at h
    · cases h
      exact hR.refl s
    next e rest hqueue =>
    obtain ⟨r, hwake, h⟩ := ok_bind h
    exact hR.trans (hR.entry hqueue hwake) (ih h)

theorem wakeall (hR : Waking R) (h : s.wakeall q = .ok s') : R s s' :=
  hR.wakeallLoop h

/-- The same for the loop that stops at the first waiter. -/
theorem wakeoneLoop (hR : Waking R) : ∀ {s s' : State},
    State.wakeoneLoop q n s = .ok s' → R s s' := by
  induction n with
  | zero =>
    intro s s' h
    cases h
    exact hR.refl s
  | succ n ih =>
    intro s s' h
    unfold State.wakeoneLoop at h
    split at h
    · cases h
      exact hR.refl s
    next e rest hqueue =>
    obtain ⟨⟨woken, s₁⟩, hwake, h⟩ := ok_bind h
    have hfirst := hR.entry hqueue hwake
    cases woken with
    | true =>
      cases h
      exact hfirst
    | false => exact hR.trans hfirst (ih h)

/-- A loop respects what its rounds respect. -/
theorem foldlM (hR : Waking R) {β : Type} {f : State → β → Except Panic State}
    {l : List β} (hf : ∀ b s s', f s b = .ok s' → R s s')
    (h : l.foldlM f s = .ok s') : R s s' := by
  have hsat : Sat (l.foldlM f s) (R s) (fun _ => True) := by
    refine Sat.foldlM_mem (hR.refl s) ?_
    intro b _ r hr
    cases hfb : f r b with
    | error e => trivial
    | ok r' => exact hR.trans hr (hf b r r' hfb)
  exact hsat.result h

/-- The objects that a process leaves are closed one after the other. -/
theorem closeAll (hR : Waking R) (h : closed.foldlM State.wakeall s = .ok s') : R s s' :=
  hR.foldlM (fun _ _ _ => hR.wakeall) h

end Waking

-- ==== the scheduler

/-- The records, the wait queues, the sleep queue and the process table are
the same. -/
structure SameRecords (s s' : State) : Prop where
  procs : s'.procs = s.procs
  queues : s'.waitQueues = s.waitQueues
  sleep : s'.gSleepQueue = s.gSleepQueue
  table : s'.gProcessTable = s.gProcessTable

/-- So are the kernel tasks. -/
structure SameView (s s' : State) : Prop extends SameRecords s s' where
  tasks : s'.taskOf = s.taskOf

/-- Besides, anything else may change. -/
structure Turning (R : State → State → Prop) : Prop extends Waking R where
  rest : ∀ {s s'}, SameView s s' → R s s'

namespace Turning

theorem switch (hR : Turning R) : R s s.switchtoscheduler :=
  hR.rest ⟨⟨rfl, rfl, rfl, rfl⟩, rfl⟩

theorem enqueueForDeath (hR : Turning R) (h : s.enqueueForDeath p = .ok s') : R s s' := by
  obtain ⟨t, _, h⟩ := ok_bind h
  obtain ⟨_, h⟩ := reject_eq_ok.1 h
  obtain ⟨table, _, h⟩ := ok_bind h
  cases h
  exact hR.rest ⟨⟨rfl, rfl, rfl, rfl⟩, rfl⟩

/-- The loop that takes the exited processes out of the queue. -/
theorem purge (hR : Turning R) : ∀ {s s' : State}, State.purge n s = .ok s' → R s s' := by
  induction n with
  | zero =>
    intro s s' h
    cases h
    exact hR.refl s
  | succ n ih =>
    intro s s' h
    obtain ⟨found, _, h⟩ := ok_bind h
    split at h
    · cases h
      exact hR.refl s
    next x _ =>
    obtain ⟨s₁, hdeath, h⟩ := ok_bind h
    have herase : R s₁ { s₁ with gReadyQueue := s₁.gReadyQueue.erase x } :=
      hR.rest ⟨⟨rfl, rfl, rfl, rfl⟩, rfl⟩
    exact hR.trans (hR.trans (hR.enqueueForDeath hdeath) herase) (ih h)

/-- A turn of the scheduler. -/
theorem schedule (hR : Turning R) {draw : Nat} (h : s.schedule draw = .ok s') : R s s' := by
  obtain ⟨s₁, hpurge, h⟩ := ok_bind h
  obtain ⟨total, _, h⟩ := ok_bind h
  obtain ⟨_, h⟩ := reject_eq_ok.1 h
  obtain ⟨winner, _, h⟩ := ok_bind h
  cases h
  exact hR.trans (hR.purge hpurge) (hR.rest ⟨⟨rfl, rfl, rfl, rfl⟩, rfl⟩)

end Turning

-- ==== edits of one record

/-- A process has come into being, as the child of another one, at a place
and with a pid that were free. -/
structure Born (s : State) (p : Ptr) (t : Process) (s' : State) : Prop where
  vacant : s.procs p = none
  state : t.state = .new ∨ t.state = .available
  ppid : ∃ q k, s.procs q = some k ∧ t.ppid = k.pid
  bound : t.pid < gNumProcesses
  procs : s'.procs = Function.update s.procs p (some t)
  queues : s'.waitQueues = s.waitQueues
  sleep : s'.gSleepQueue = s.gSleepQueue
  table : s.gProcessTable.set t.pid p = .ok s'.gProcessTable

/-- Besides, a process may be born, have another parent, or get another
record if the edit is fine, which being collected always is. -/
structure Editing (R : State → State → Prop)
    (fine : Ptr → Process → Process → Prop) : Prop extends Turning R where
  same : ∀ {s s'}, SameRecords s s' → R s s'
  edit : ∀ {s s' p t t'}, s.procs p = some t → fine p t t' →
    SameRecords (s.setProc p t') s' → R s s'
  birth : ∀ {s s' p t}, Born s p t s' → R s s'
  buried : ∀ p t, t.state = .exited → fine p t { t with state := .collected }
  rehome : ∀ {s p t q k}, s.procs p = some t → s.procs q = some k →
    R s (s.setProc p { t with ppid := k.pid })

namespace Editing

section

variable (hR : Editing R fine)
include hR

theorem reschedule (hup : ∀ t, fine p t (rescheduled t))
    (h : s.reschedule p = .ok s') : R s s' := by
  obtain ⟨t, ht, h⟩ := deref_bind h
  cases h
  exact hR.edit ht (hup t) ⟨rfl, rfl, rfl, rfl⟩

theorem deschedule {newstate : ProcessState} {waitable : Option QueueId}
    (hfine : ∀ t, fine p t (descheduled t newstate waitable))
    (h : s.deschedule p newstate waitable = .ok s') : R s s' := by
  rcases deschedule_cases h with heq | ⟨t, ht, heq⟩
  · rw [heq]
    exact hR.refl s
  · rw [heq]
    exact hR.edit ht (hfine t) ⟨rfl, rfl, rfl, rfl⟩

-- ==== death

theorem reparent {collector child : Ptr} (hlist : ∀ t l, fine collector t { t with children := l })
    (h : reparent collector s child = .ok s') : R s s' := by
  obtain ⟨t, ht, h⟩ := deref_bind h
  obtain ⟨k, hk, h⟩ := deref_bind h
  obtain ⟨k', hk', h⟩ := deref_bind h
  have hfirst : R s (s.setProc child { t with ppid := k.pid }) := hR.rehome ht hk
  have hsecond : R (s.setProc child { t with ppid := k.pid })
      ((s.setProc child { t with ppid := k.pid }).setProc collector
        { k' with children := k'.children ++ [child] }) :=
    hR.edit hk' (hlist k' _) ⟨rfl, rfl, rfl, rfl⟩
  exact hR.trans (hR.trans hfirst hsecond) (hR.wakeall h)

/-- The children are handed on one after the other. -/
theorem reparentAll (hlist : ∀ p t l, fine p t { t with children := l })
    (h : s.reparentAll p = .ok s') : R s s' := by
  obtain ⟨t, _, h⟩ := ok_bind h
  obtain ⟨s₁, hloop, h⟩ := ok_bind h
  obtain ⟨u, hu, h⟩ := deref_bind h
  cases h
  have hfirst : R s s₁ := by
    unfold reparentLoop at hloop
    split at hloop
    · cases hloop
      exact hR.refl s
    · cases hloop
    · exact hR.foldlM (fun child _ _ => hR.reparent (hlist _)) hloop
  exact hR.trans hfirst (hR.edit hu (hlist p u _) ⟨rfl, rfl, rfl, rfl⟩)

/-- What is left to do when the children have been handed over. -/
theorem leave {t u k : Process} {s₁ s₂ s₃ s₄ : State} {parent : Ptr}
    (hexit : Exits s p es closed t s₁ s₂ u s₃ parent k s₄)
    (hup : ∀ p t, fine p t (rescheduled t))
    (hdead : ∀ t, fine p t { t with state := .exited, exitstatus := es }) :
    R s₁ s₄.switchtoscheduler := by
  have hdies : R s₂ (s₂.setProc p { u with state := .exited, exitstatus := es }) :=
    hR.edit hexit.last (hdead u) ⟨rfl, rfl, rfl, rfl⟩
  have hsofar : R s₁ s₃ :=
    hR.trans (hR.trans (hR.closeAll hexit.closing) hdies) (hR.wakeall hexit.released)
  refine hR.trans ?_ hR.switch
  rcases hexit.roused with ⟨_, hresched⟩ | ⟨_, hsame⟩
  · exact hR.trans hsofar (hR.reschedule (hup parent) hresched)
  · rw [hsame]
    exact hsofar

/-- An exit as a whole. -/
theorem exit (hlist : ∀ p t l, fine p t { t with children := l })
    (hup : ∀ p t, fine p t (rescheduled t))
    (hdead : ∀ t, fine p t { t with state := .exited, exitstatus := es })
    (h : s.exit p es closed = .ok s') : R s s' := by
  obtain ⟨t, s₁, s₂, u, s₃, parent, k, s₄, hexit, rfl⟩ := exit_parts h
  exact hR.trans (hR.reparentAll hlist hexit.handed) (hR.leave hexit hup hdead)

theorem collectDead (hlist : ∀ t l, fine c t { t with children := l })
    (hdead : ∀ t, s.procs p = some t → t.state = .exited)
    (h : s.collectDead c p = .ok s') : R s s' := by
  obtain ⟨k, hk, h⟩ := deref_bind h
  obtain ⟨_, h⟩ := check_eq_ok.1 h
  obtain ⟨t, ht, h⟩ := deref_bind h
  obtain ⟨u, _, h⟩ := ok_bind h
  obtain ⟨_, h⟩ := reject_eq_ok.1 h
  have hst : t.state = .exited := by
    rcases update_eq_some ht with ⟨hpc, ht⟩ | ⟨_, ht⟩
    · rw [← Option.some.inj ht]
      exact hdead k (hpc ▸ hk)
    · exact hdead t ht
  have hparent : R s (s.setProc c { k with children := k.children.erase p }) :=
    hR.edit hk (hlist k _) ⟨rfl, rfl, rfl, rfl⟩
  refine hR.trans (hR.trans hparent ?_) (hR.wakeall h)
  exact hR.edit ht (hR.buried p t hst) ⟨rfl, rfl, rfl, rfl⟩

/-- Waiting for one child. -/
theorem collect {pid : Pid} (hlist : ∀ t l, fine c t { t with children := l })
    (hblock : ∀ t, fine c t (descheduled t .collecting none))
    (h : s.collect c pid = .ok s') : R s s' := by
  obtain ⟨found, _, h⟩ := ok_bind h
  split at h
  · cases h
  next task =>
  obtain ⟨t, ht, h⟩ := deref_bind h
  obtain ⟨named, _, h⟩ := ok_bind h
  obtain ⟨_, h⟩ := reject_eq_ok.1 h
  split at h
  · obtain ⟨s₁, hdesch, h⟩ := ok_bind h
    cases h
    exact hR.trans (hR.deschedule hblock hdesch) hR.switch
  next hex =>
  refine hR.collectDead hlist ?_ h
  intro u hu
  rw [Option.mem_unique hu ht]
  exact not_not.1 hex

/-- Waiting for any child. -/
theorem collectany {wait : Bool} (hlist : ∀ t l, fine c t { t with children := l })
    (hblock : ∀ t, fine c t (descheduled t .collecting none))
    (h : s.collectany c wait = .ok s') : R s s' := by
  obtain ⟨k, _, h⟩ := ok_bind h
  obtain ⟨found, _, h⟩ := ok_bind h
  split at h
  next child =>
    obtain ⟨t, _, h⟩ := ok_bind h
    exact hR.collect hlist hblock h
  split at h
  · obtain ⟨s₁, hdesch, h⟩ := ok_bind h
    cases h
    exact hR.trans (hR.deschedule hblock hdesch) hR.switch
  · cases h
    exact hR.refl s

-- ==== birth

theorem spawn {page : Ptr} {si : SpawnInfo} (hlist : ∀ t l, fine c t { t with children := l })
    (h : s.spawn c page si = .ok s') : R s s' := by
  obtain ⟨k, hk, _⟩ := deref_bind h
  rcases spawn_spawned hk h with ⟨heq, _⟩ | ⟨t, hborn⟩
  · rw [heq]
    exact hR.refl s
  have hfirst : R s { s.setProc page t with gProcessTable := s'.gProcessTable } :=
    hR.birth ⟨hborn.vacant, hborn.state, ⟨c, k, hk, hborn.ppid⟩,
      (ProcessBitmap.next_ok hborn.pid).2.1, rfl, rfl, rfl, hborn.table⟩
  refine hR.trans hfirst (hR.edit ?_ (hlist k _) ⟨hborn.procs, hborn.queues, hborn.sleep, rfl⟩)
  show Function.update s.procs page (some t) c = some k
  rw [Function.update_of_ne (ne_of_entry hk hborn.vacant), hk]

/-- A kernel task, which is then remembered. -/
theorem kspawn {task : KernelTask} {page : Ptr} {si : SpawnInfo}
    (hlist : ∀ t l, fine c t { t with children := l })
    (h : s.kspawn c task page si = .ok s') : R s s' := by
  obtain ⟨k, _, h⟩ := ok_bind h
  obtain ⟨_, h⟩ := reject_eq_ok.1 h
  obtain ⟨s₁, hspawn, h⟩ := ok_bind h
  cases h
  refine hR.trans (hR.spawn hlist hspawn) (hR.same ?_)
  cases task <;> exact ⟨rfl, rfl, rfl, rfl⟩

-- ==== steps

/-- A step is one of the functions above, or it is left to do: the end of a
process, waiting, sleeping, and the rounds of the kernel tasks. -/
theorem step {a : Action} {P : Prop} (hup : R s s' → P)
    (hlist : ∀ c, s.caller = .ok c → ∀ t l, fine c t { t with children := l })
    (hblock : a.collects → ∀ c, s.caller = .ok c →
      ∀ t, fine c t (descheduled t .collecting none)) (hleft : match a with
      | .exit es closed => ∀ c, s.caller = .ok c →
          s.exit c es (closed.map QueueId.object) = .ok s' → P
      | .waitYield id timeout => ∀ c, s.caller = .ok c →
          s.waitYield (.object id) c timeout = .ok s' → P
      | .sleep ms => ∀ c, s.caller = .ok c → s.sleep c ms = .ok s' → P
      | .round task => s.round task = .ok s' → P
      | _ => True) (h : s.step a = .ok s') : P := by
  cases a with
  | kspawn task page si =>
    obtain ⟨c, hc, h⟩ := ok_bind h
    exact hup (hR.kspawn (hlist c hc) h)
  | spawn page si =>
    obtain ⟨c, hc, h⟩ := ok_bind h
    exact hup (hR.spawn (hlist c hc) h)
  | yield =>
    obtain ⟨c, _, h⟩ := ok_bind h
    cases h
    exact hup hR.switch
  | collect pid =>
    obtain ⟨c, hc, h⟩ := ok_bind h
    exact hup (hR.collect (hlist c hc) (hblock trivial c hc) h)
  | collectany wait =>
    obtain ⟨c, hc, h⟩ := ok_bind h
    exact hup (hR.collectany (hlist c hc) (hblock trivial c hc) h)
  | exit es closed =>
    obtain ⟨c, hc, h⟩ := ok_bind h
    exact hleft c hc h
  | waitYield id timeout =>
    obtain ⟨c, hc, h⟩ := ok_bind h
    exact hleft c hc h
  | sleep ms =>
    obtain ⟨c, hc, h⟩ := ok_bind h
    exact hleft c hc h
  | wakeone id => exact hup (hR.wakeoneLoop h)
  | wakeall id => exact hup (hR.wakeall h)
  | round task => exact hleft h
  | schedule draw =>
    simp only [State.step] at h
    obtain ⟨_, h⟩ := check_eq_ok.1 h
    exact hup (hR.schedule h)
  | tick ms =>
    cases h
    exact hup (hR.same ⟨rfl, rfl, rfl, rfl⟩)

end

end Editing

end Puppy.Proc
