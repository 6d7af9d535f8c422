/-
No wake-up is lost.

The invariant of the system already says that an entry of a wait queue
names a WAITING process, and no process twice. What it does not say is the
converse: that a WAITING process has an entry, with its current token
(`Ticketed`). That holds in every run. An entry leaves its queue only
together with its process leaving the WAITING state, so everything a step
does to the queues but `wait` only drains them (`Drains`), and `wait` adds
one entry at the end, for the process that runs (`Moves`).

The same two facts keep each queue in the order in which its processes
began to wait.
-/
import Puppy.Lib.Blocking
import Puppy.Proc.Waiting
import Puppy.Proc.Proofs.System

namespace Puppy.Proc

open Libc Lib State Function List

variable {lvl : Level} {ph : Phase} {Q : List QueueId} {s s' s'' : State}
  {p c : Ptr} {q : QueueId} {e : QEntry} {rest : List QEntry} {w : Watched}
  {t' t : Process} {a : Action}

/-- A WAITING process has an entry in the queue that it waits on. -/
def Ticketed (s : State) : Prop :=
  ∀ p t, s.procs p = some t → t.state = .waiting →
    ∃ q, t.wakeReason.waitable = some q ∧ ⟨t.waitToken, p⟩ ∈ s.waitQueues q

-- ==== steps that drain the queues

/-- Processes may have left queues, and nobody has joined one. -/
structure Drains (s s' : State) : Prop where
  tickets : Ticketed s → Ticketed s'
  queues : ∀ q, (s'.waitQueues q).Sublist (s.waitQueues q)

theorem Drains.refl (s : State) : Drains s s :=
  ⟨fun h => h, fun _ => List.Sublist.refl _⟩

theorem Drains.trans (h : Drains s s') (h' : Drains s' s'') : Drains s s'' :=
  ⟨fun ht => h'.tickets (h.tickets ht), fun q => (h'.queues q).trans (h.queues q)⟩

/-- The queues stay as they are, and nobody begins to wait. -/
theorem Drains.of_procs (hqueues : s'.waitQueues = s.waitQueues)
    (hprocs : ∀ p t', s'.procs p = some t' → t'.state = .waiting →
      ∃ t, s.procs p = some t ∧ t.state = .waiting ∧ t.waitToken = t'.waitToken ∧
        t.wakeReason.waitable = t'.wakeReason.waitable) : Drains s s' := by
  constructor
  · intro hticketed p t' hp hst
    obtain ⟨t, ht, hwaiting, htoken, hwaitable⟩ := hprocs p t' hp hst
    obtain ⟨q, hq, hmem⟩ := hticketed p t ht hwaiting
    refine ⟨q, hwaitable ▸ hq, ?_⟩
    rw [hqueues, ← htoken]
    exact hmem
  · intro q
    rw [hqueues]

theorem Drains.same (hprocs : s'.procs = s.procs)
    (hqueues : s'.waitQueues = s.waitQueues) : Drains s s' := by
  refine .of_procs hqueues ?_
  intro p t' hp hst
  rw [hprocs] at hp
  exact ⟨t', hp, hst, rfl, rfl⟩

/-- A process gets a record that does not wait. -/
theorem Drains.awake (hprocs : s'.procs = update s.procs p (some t'))
    (hqueues : s'.waitQueues = s.waitQueues) (hst : t'.state ≠ .waiting) :
    Drains s s' := by
  refine .of_procs hqueues ?_
  intro x u hx hu
  rw [hprocs] at hx
  rcases update_eq_some hx with ⟨_, hx⟩ | ⟨_, hx⟩
  · rw [← Option.some.inj hx] at hu
    exact absurd hu hst
  · exact ⟨u, hx, hu, rfl, rfl⟩

/-- A process gets a record that differs in other fields. -/
theorem Drains.tweak (ht : s.procs p = some t) (hprocs : s'.procs = update s.procs p (some t'))
    (hqueues : s'.waitQueues = s.waitQueues) (hst : t'.state = t.state)
    (htoken : t'.waitToken = t.waitToken)
    (hreason : t'.wakeReason = t.wakeReason) : Drains s s' := by
  refine .of_procs hqueues ?_
  intro x u hx hu
  rw [hprocs] at hx
  rcases update_eq_some hx with ⟨hxp, hx⟩ | ⟨_, hx⟩
  · rw [← Option.some.inj hx] at hu ⊢
    exact ⟨t, hxp ▸ ht, hst ▸ hu, htoken.symm, by rw [hreason]⟩
  · exact ⟨u, hx, hu, rfl, rfl⟩

/-- An entry leaves its queue, and its process, if it was the current one,
stops waiting. -/
theorem wakeEntry_drains {r : Bool × State} (hqueue : s.waitQueues q = e :: rest)
    (h : (s.setQueue q rest).wakeEntry q e = .ok r) : Drains s r.2 := by
  have hqueues : ∀ q', ((s.setQueue q rest).waitQueues q').Sublist (s.waitQueues q') := by
    intro q'
    show (update s.waitQueues q rest q').Sublist _
    by_cases hq : q' = q
    · rw [hq, update_self, hqueue]
      exact sublist_cons_self e rest
    · rw [update_of_ne hq]
  -- an entry other than the one that was taken off is still there
  have hkept : ∀ q' e', e' ∈ s.waitQueues q' → e' ≠ e → e' ∈ (s.setQueue q rest).waitQueues q' := by
    intro q' e' hmem hne
    show e' ∈ update s.waitQueues q rest q'
    by_cases hq : q' = q
    · rw [hq, hqueue] at hmem
      rw [hq, update_self]
      exact (mem_cons.1 hmem).resolve_left hne
    · rw [update_of_ne hq]
      exact hmem
  obtain ⟨t, ht, h⟩ := deref_bind h
  have ht : s.procs e.process = some t := ht
  by_cases hwake : t.state = .waiting ∧ t.waitToken = e.token
  · rw [if_pos hwake, ready_eq (s := s.setQueue q rest) ht (by rw [hwake.1]; decide)] at h
    cases h
    refine ⟨?_, hqueues⟩
    intro hticketed x u hx hu
    rcases update_eq_some hx with ⟨_, hx⟩ | ⟨hxe, hx⟩
    · rw [← Option.some.inj hx] at hu
      cases hu
    obtain ⟨q', hq', hmem⟩ := hticketed x u hx hu
    refine ⟨q', hq', hkept q' _ hmem ?_⟩
    intro heq
    rw [← heq] at hxe
    exact hxe rfl
  rw [if_neg hwake] at h
  cases h
  refine ⟨?_, hqueues⟩
  intro hticketed x u hx hu
  obtain ⟨q', hq', hmem⟩ := hticketed x u hx hu
  refine ⟨q', hq', hkept q' _ hmem ?_⟩
  intro heq
  have hx : s.procs x = some u := hx
  rw [← heq] at ht hwake
  rw [hx] at ht
  injection ht with ht
  rw [← ht] at hwake
  exact hwake ⟨hu, rfl⟩

/-- The process does not wait, or as it did before. -/
def WaitsAsBefore (_ : Ptr) (t t' : Process) : Prop :=
  t'.state ≠ .waiting ∨ t'.state = t.state ∧ t'.waitToken = t.waitToken ∧
    t'.wakeReason = t.wakeReason

/-- The functions that edit one record let nobody into a queue. -/
theorem drains_editing : Editing Drains WaitsAsBefore := by
  refine ⟨⟨⟨.refl, .trans, wakeEntry_drains⟩, ?_⟩, ?_, ?_, ?_, ?_, ?_⟩
  · exact fun h => .same h.procs h.queues
  · exact fun h => .same h.procs h.queues
  · rintro s s' p t t' ht (hst | ⟨hst, htoken, hreason⟩) h
    · exact .awake h.procs h.queues hst
    · exact .tweak ht h.procs h.queues hst htoken hreason
  · intro s s' p t h
    refine .awake h.procs h.queues (fun hwaiting => ?_)
    rcases h.state with hst | hst <;> rw [hst] at hwaiting <;> cases hwaiting
  · exact fun _ _ _ => .inl nofun
  · exact fun ht _ => .tweak ht rfl rfl rfl rfl rfl

/-- The end of a sleep takes a process out of its queue and out of the
WAITING state. -/
theorem wake_drains (h : s.wake p = .ok s') : Drains s s' := by
  obtain ⟨t, ht, h⟩ := ok_bind h
  split at h
  · exact of_ok h (.refl s)
  have hprocs : (s.leaveQueue p t.wakeReason.waitable).procs = s.procs := by
    cases t.wakeReason.waitable <;> rfl
  have hqueues : ∀ q, (s.leaveQueue p t.wakeReason.waitable).waitQueues q = s.waitQueues q ∨
      (s.leaveQueue p t.wakeReason.waitable).waitQueues q
        = (s.waitQueues q).filter fun e => e.process != p := by
    intro q
    cases t.wakeReason.waitable with
    | none => exact .inl rfl
    | some q₀ =>
      show update s.waitQueues q₀ _ q = _ ∨ _
      by_cases hq : q = q₀
      · right
        show update s.waitQueues q₀ _ q = _
        rw [hq, update_self]
      · left
        rw [update_of_ne hq]
  obtain ⟨u, _, h⟩ := ok_bind h
  refine of_ok h ?_
  constructor
  · intro hticketed x v hx hv
    have hx : update (update (s.leaveQueue p t.wakeReason.waitable).procs p _) p _ x = some v := hx
    by_cases hxp : x = p
    · rw [hxp, update_self] at hx
      injection hx with hx
      rw [← hx] at hv
      cases hv
    rw [update_of_ne hxp, update_of_ne hxp, hprocs] at hx
    obtain ⟨q, hq, hmem⟩ := hticketed x v hx hv
    refine ⟨q, hq, ?_⟩
    show _ ∈ (s.leaveQueue p t.wakeReason.waitable).waitQueues q
    rcases hqueues q with heq | heq
    · rw [heq]
      exact hmem
    · rw [heq]
      exact mem_filter.2 ⟨hmem, by simpa using hxp⟩
  · intro q
    show ((s.leaveQueue p t.wakeReason.waitable).waitQueues q).Sublist _
    rcases hqueues q with heq | heq
    · rw [heq]
    · rw [heq]
      exact filter_sublist

-- ==== the other functions

theorem sleep_drains {ms : Nat} (h : s.sleep p ms = .ok s') : Drains s s' := by
  obtain ⟨t, ht, h⟩ := deref_bind h
  obtain ⟨s₁, hdesch, h⟩ := ok_bind h
  obtain ⟨u, _, h⟩ := ok_bind h
  obtain ⟨queue, _, h⟩ := ok_bind h
  obtain ⟨s₂, hwake, h⟩ := ok_bind h
  refine of_ok h ?_
  have hset : Drains s (s.setProc p { t with sleeptill := s.millisUptime + ms }) :=
    .tweak ht rfl rfl rfl rfl rfl
  have hqueue : Drains s₁ { s₁ with gSleepQueue := queue } := .same rfl rfl
  have hswitch : Drains s₂ s₂.switchtoscheduler := .same rfl rfl
  have hdesch : Drains _ s₁ := drains_editing.deschedule (fun _ => .inl (by nofun)) hdesch
  exact (((hset.trans hdesch).trans hqueue).trans (drains_editing.wakeall hwake)).trans hswitch

theorem collect_drains {pid : Pid} (h : s.collect c pid = .ok s') : Drains s s' :=
  drains_editing.collect (fun _ _ => .inr ⟨rfl, rfl, rfl⟩) (fun _ => .inl nofun) h

theorem delete_drains (h : s.delete p = .ok s') : Drains s s' := by
  obtain ⟨t, _, h⟩ := ok_bind h
  refine of_ok h ?_
  refine .of_procs rfl ?_
  intro x u hx hu
  rcases update_eq_some hx with ⟨_, ⟨⟩⟩ | ⟨_, hx⟩
  · exact ⟨u, hx, hu, rfl, rfl⟩

-- ==== steps

/-- Processes may have left queues, and the one that runs may have joined
one, at its end. -/
structure Moves (s s' : State) : Prop where
  tickets : Ticketed s → Ticketed s'
  queues : ∀ q, ∃ new, (s'.waitQueues q).Sublist (s.waitQueues q ++ new) ∧
    new.length ≤ 1 ∧ ∀ e ∈ new, s.current = some e.process

theorem Drains.moves (h : Drains s s') : Moves s s' := by
  refine ⟨h.tickets, fun q => ⟨[], ?_, zero_le, ?_⟩⟩
  · rw [append_nil]
    exact h.queues q
  · intro e he
    cases he

theorem Moves.drains (h : Moves s s') (h' : Drains s' s'') : Moves s s'' := by
  refine ⟨fun ht => h'.tickets (h.tickets ht), fun q => ?_⟩
  obtain ⟨new, hsub, hlen, hnew⟩ := h.queues q
  exact ⟨new, (h'.queues q).trans hsub, hlen, hnew⟩

section

variable (hc : s.current = some c)
include hc

/-- A process gets to the end of the queue it waits in. -/
theorem wait_moves (h : s.wait q c = .ok s') : Moves s s' := by
  obtain ⟨t, ht, h⟩ := deref_bind h
  have hqueues : ∀ q', ∃ new, ((s.setQueue q (s.waitQueues q ++ [⟨t.waitToken, c⟩])).waitQueues
        q').Sublist (s.waitQueues q' ++ new) ∧
      new.length ≤ 1 ∧ ∀ e ∈ new, s.current = some e.process := by
    intro q'
    show ∃ new, (update s.waitQueues q _ q').Sublist _ ∧ _
    by_cases hq : q' = q
    · refine ⟨[⟨t.waitToken, c⟩], ?_, le_rfl, ?_⟩
      · rw [hq, update_self]
      · intro e he
        rw [mem_singleton.1 he]
        exact hc
    · refine ⟨[], ?_, zero_le, ?_⟩
      · rw [update_of_ne hq, append_nil]
      · intro e he
        cases he
  have hkept : ∀ q' e, e ∈ s.waitQueues q' →
      e ∈ (s.setQueue q (s.waitQueues q ++ [⟨t.waitToken, c⟩])).waitQueues
        q' := by
    intro q' e he
    show e ∈ update s.waitQueues q _ q'
    by_cases hq : q' = q
    · rw [hq] at he
      rw [hq, update_self]
      exact mem_append_left _ he
    · rw [update_of_ne hq]
      exact he
  unfold deschedule at h
  dsimp only at h
  split at h
  · refine of_ok h ?_
    refine ⟨?_, hqueues⟩
    intro hticketed x u hx hu
    obtain ⟨q', hq', hmem⟩ := hticketed x u hx hu
    exact ⟨q', hq', hkept q' _ hmem⟩
  obtain ⟨t', ht', h⟩ := deref_bind h
  have ht' : s.procs c = some t' := ht'
  rw [ht] at ht'
  injection ht' with ht'
  obtain ⟨_, ⟨⟩⟩ := reject_eq_ok.1 h
  refine ⟨?_, hqueues⟩
  intro hticketed x u hx hu
  have hx : update s.procs c _ x = some u := hx
  rcases update_eq_some hx with ⟨hxc, hx⟩ | ⟨_, hx⟩
  · rw [← Option.some.inj hx]
    refine ⟨q, rfl, ?_⟩
    show (⟨t'.waitToken, x⟩ : QEntry) ∈ update s.waitQueues q _ q
    rw [update_self, ← ht', hxc]
    exact mem_append_right _ (mem_singleton_self _)
  · obtain ⟨q', hq', hmem⟩ := hticketed x u hx hu
    exact ⟨q', hq', hkept q' _ hmem⟩

theorem waitYield_moves {timeout : Nat} (h : s.waitYield q c timeout = .ok s') : Moves s s' := by
  obtain ⟨s₁, hwait, h⟩ := ok_bind h
  have hmoves := wait_moves hc hwait
  split at h
  · exact of_ok h (hmoves.drains (.same rfl rfl))
  · exact hmoves.drains (sleep_drains h)

theorem awaker_moves (h : s.awaker c = .ok s') : Moves s s' := by
  have hpop : ∀ {r : QEntry × State}, s.popSleeper = .ok r → Drains s r.2 := by
    intro r hr
    unfold popSleeper at hr
    split at hr
    · cases hr
    obtain ⟨queue, _, hr⟩ := ok_bind hr
    cases hr
    exact .same rfl rfl
  unfold awaker at h
  split at h
  · exact waitYield_moves hc h
  obtain ⟨t, _, h⟩ := ok_bind h
  split at h
  · obtain ⟨r, hr, h⟩ := ok_bind h
    exact ((hpop hr).trans (drains_editing.enqueueForDeath h)).moves
  split at h
  · split at h
    · obtain ⟨r, hr, h⟩ := ok_bind h
      exact ((hpop hr).trans (wake_drains h)).moves
    · refine of_ok h ?_
      exact (Drains.refl s).moves
  · injection h with h
    have hswitch : Drains s s.switchtoscheduler := .same rfl rfl
    rw [← h]
    exact hswitch.moves

theorem collector_moves (h : s.collector c = .ok s') : Moves s s' := by
  obtain ⟨k, _, h⟩ := ok_bind h
  split at h
  · exact waitYield_moves hc h
  · obtain ⟨t, _, h⟩ := ok_bind h
    exact (collect_drains h).moves

theorem deleter_moves (h : s.deleter c = .ok s') : Moves s s' := by
  unfold deleter at h
  split at h
  · exact waitYield_moves hc h
  next x rest _ =>
  have hlist : Drains s { s with gCollectedProcessList := rest } := .same rfl rfl
  exact (hlist.trans (delete_drains h)).moves

end

theorem round_moves {task : KernelTask} (h : s.round task = .ok s') : Moves s s' := by
  obtain ⟨self, hc, _, h⟩ := round_parts h
  cases task with
  | collector => exact collector_moves hc h
  | awaker => exact awaker_moves hc h
  | deleter => exact deleter_moves hc h

/-- Every step takes somebody out of queues or adds one at the end. -/
theorem step_moves (h : s.step a = .ok s') : Moves s s' := by
  refine drains_editing.step Drains.moves
    (fun _ _ _ _ => .inr ⟨rfl, rfl, rfl⟩) (fun _ _ _ _ => .inl nofun) ?_ h
  cases a with
  | waitYield id timeout => exact fun c hc h => waitYield_moves (caller_current hc) h
  | sleep ms => exact fun c _ h => (sleep_drains h).moves
  | exit es closed =>
    intro c _ h
    exact (drains_editing.exit (fun _ _ _ => .inr ⟨rfl, rfl, rfl⟩) (fun _ _ => .inl nofun)
      (fun _ => .inl nofun) h).moves
  | round task => exact round_moves
  | _ => trivial

-- ==== who is in a queue

theorem waits_iff : s.waits p = true ↔ ∃ t, s.procs p = some t ∧ t.state = .waiting := by
  unfold State.waits
  cases s.procs p with
  | none => simp
  | some t => simp

/-- An entry names a process that waits on the queue, and is its only
one. -/
theorem Inv.of_entry (h : Inv lvl ph Q s) (he : e ∈ s.waitQueues q) :
    s.waitCount e.process q = 1 ∧ s.waitsOn e.process q := by
  have hcount : s.waitCount e.process q ≠ 0 := by
    unfold waitCount
    rw [Ne, countP_eq_zero]
    intro hnone
    exact hnone e he (beq_self_eq_true _)
  exact (h.proper e.process).waiting q hcount

section

variable (h : Inv lvl ph Q s) (hticketed : Ticketed s)
include h hticketed

/-- There is one entry of a process that waits, and it has its token. -/
theorem Inv.token_of_entry (he : e ∈ s.waitQueues q)
    (ht : s.procs e.process = some t) : e = ⟨t.waitToken, e.process⟩ := by
  obtain ⟨hone, u, hu, hst, hq⟩ := h.of_entry he
  have hut : u = t := Option.mem_unique hu ht
  rw [hut] at hst hq
  obtain ⟨q', hq', hmem⟩ := hticketed e.process t ht hst
  rw [hq] at hq'
  injection hq' with hq'
  rw [← hq'] at hmem
  unfold waitCount at hone
  rw [countP_eq_length_filter] at hone
  obtain ⟨x, hx⟩ := length_eq_one_iff.1 hone
  have h1 : e ∈ (s.waitQueues q).filter fun x => x.process == e.process :=
    mem_filter.2 ⟨he, beq_self_eq_true _⟩
  have h2 : (⟨t.waitToken, e.process⟩ : QEntry)
      ∈ (s.waitQueues q).filter fun x => x.process == e.process :=
    mem_filter.2 ⟨hmem, beq_self_eq_true _⟩
  rw [hx, mem_singleton] at h1 h2
  exact h1.trans h2.symm

/-- Who waits is in the queue, and who is in the queue waits. -/
theorem Inv.queued : Queued s := by
  constructor
  · intro p t ht hst
    obtain ⟨q, hq, hmem⟩ := hticketed p t ht hst
    refine ⟨q, hq, fun q' => ?_⟩
    -- at most one, since at most one entry names the process
    have hle : (s.waitQueues q').count ⟨t.waitToken, p⟩ ≤ s.waitCount p q' := by
      rw [count_eq_countP]
      refine countP_mono_left ?_
      intro e _ he
      rw [beq_iff_eq] at he ⊢
      rw [he]
    split
    next heq =>
      rw [heq] at hle ⊢
      have hone := (h.of_entry hmem).1
      have hpos := count_pos_iff.2 hmem
      have hone : s.waitCount p q = 1 := hone
      omega
    next hne =>
    by_contra hcount
    obtain ⟨_, u, hu, _, hq'⟩ := (h.proper p).waiting q' (show s.waitCount p q' ≠ 0 by omega)
    have hut : u = t := Option.mem_unique hu ht
    rw [hut, hq] at hq'
    injection hq' with hq'
    exact hne hq'.symm
  · intro p hp q e he hep
    obtain ⟨_, t, ht, hst, _⟩ := h.of_entry he
    rw [hep] at ht
    rw [waits_iff.2 ⟨t, ht, hst⟩] at hp
    cases hp

-- ==== signals

/-- An entry that a signal accepts: its process waits, with its token. -/
def Live (s : State) (e : QEntry) : Prop :=
  ∃ t, s.procs e.process = some t ∧ t.state = .waiting ∧ t.waitToken = e.token

theorem Inv.live (he : e ∈ s.waitQueues q) : Live s e := by
  obtain ⟨_, t, ht, hst, _⟩ := h.of_entry he
  refine ⟨t, ht, hst, ?_⟩
  rw [h.token_of_entry hticketed he ht]

end

/-- An entry of a process that waits is acted upon. -/
theorem wakeEntry_live (h : Live s e) : ∃ t, s.procs e.process = some t ∧
      (s.setQueue q rest).wakeEntry q e
        = .ok (true, (s.setQueue q rest).awaken e.process (roused q t)) := by
  obtain ⟨t, ht, hst, htoken⟩ := h
  have ht' : (s.setQueue q rest).procs e.process = some t := ht
  refine ⟨t, ht, ?_⟩
  unfold wakeEntry
  rw [deref_step ht', if_pos ⟨hst, htoken⟩, ready_eq ht' (by rw [hst]; decide)]
  rfl

/-- The processes in a queue, from the front to the end. -/
def State.waiters (s : State) (q : QueueId) : List Ptr :=
  (s.waitQueues q).map QEntry.process

theorem mem_waiters_iff (h : Inv lvl ph Q s) (hticketed : Ticketed s) :
    p ∈ s.waiters q ↔ s.waitsOn p q := by
  constructor
  · intro hp
    obtain ⟨e, he, rfl⟩ := mem_map.1 hp
    exact (h.of_entry he).2
  intro hp
  obtain ⟨t, ht, hst, hq⟩ := hp
  obtain ⟨q', hq', hmem⟩ := hticketed p t ht hst
  rw [hq] at hq'
  injection hq' with hq'
  rw [hq']
  exact mem_map.2 ⟨_, hmem, rfl⟩

theorem Inv.waiters_nodup (h : Inv lvl ph Q s) : (s.waiters q).Nodup := by
  rw [nodup_iff_count_le_one]
  intro p
  have hcount : (s.waiters q).count p = s.waitCount p q := by
    unfold State.waiters waitCount
    rw [count_eq_countP, countP_map]
    rfl
  rw [hcount]
  by_cases hzero : s.waitCount p q = 0
  · rw [hzero]
    exact zero_le_one
  · exact le_of_eq ((h.proper p).waiting q hzero).1

/-- The loop of `wakeall` gets through, and wakes everybody in turn. -/
theorem wakeallLoop_live : ∀ {l : List QEntry} {s : State},
    s.waitQueues q = l → (∀ e ∈ l, Live s e) →
    (l.map QEntry.process).Nodup →
    ∃ s', wakeallLoop q l.length s = .ok s' ∧ s'.waitQueues q = [] ∧
      s'.gReadyQueue = s.gReadyQueue ++ l.map QEntry.process ∧
      (∀ p ∈ l.map QEntry.process, ∃ t, s.procs p = some t ∧ s'.procs p = some (roused q t)) ∧
      ∀ p, p ∉ l.map QEntry.process → s'.procs p = s.procs p := by
  intro l
  induction l with
  | nil =>
    intro s hqueue _ _
    refine ⟨s, rfl, hqueue, (append_nil _).symm, ?_, fun _ _ => rfl⟩
    intro p hp
    cases hp
  | cons e rest ih =>
    intro s hqueue hlive hnodup
    rw [map_cons, nodup_cons] at hnodup
    obtain ⟨t, ht, hwake⟩ := @wakeEntry_live s q e rest (hlive e mem_cons_self)
    -- the others are as they were
    have hother : ∀ p ≠ e.process, ((s.setQueue q rest).awaken e.process (roused q t)).procs p
          = s.procs p := fun p hp => update_of_ne hp ..
    obtain ⟨s', hloop, hempty, hready, hwoken, hrest⟩ :=
      @ih ((s.setQueue q rest).awaken e.process (roused q t)) (update_self ..) (by
          intro e' he'
          obtain ⟨u, hu, hlive'⟩ := hlive e' (mem_cons_of_mem e he')
          refine ⟨u, ?_, hlive'⟩
          rw [hother e'.process, hu]
          intro heq
          exact hnodup.1 (heq ▸ mem_map.2 ⟨e', he', rfl⟩))
        hnodup.2
    refine ⟨s', ?_, hempty, ?_, ?_, ?_⟩
    · rw [length_cons]
      unfold wakeallLoop
      rw [hqueue]
      dsimp only
      rw [hwake, bind_ok]
      exact hloop
    · rw [hready, map_cons, append_cons]
      rfl
    · intro p hp
      rcases mem_cons.1 hp with heq | hp
      · refine ⟨t, heq ▸ ht, ?_⟩
        rw [heq, hrest e.process hnodup.1]
        exact update_self ..
      obtain ⟨u, hu, hu'⟩ := hwoken p hp
      have hne : p ≠ e.process := fun heq => hnodup.1 (heq ▸ hp)
      rw [hother p hne] at hu
      exact ⟨u, hu, hu'⟩
    · intro p hp
      rw [map_cons, mem_cons, not_or] at hp
      rw [hrest p hp.2, hother p hp.1]

/-- Nobody who waits is in the ready queue. -/
theorem Inv.readyCount_waiting (h : Inv lvl ph Q s) (hp : s.waitsOn p q) : s.readyCount p = 0 := by
  obtain ⟨t, ht, hst, _⟩ := hp
  exact (h.proper p).blocked t ht (by rw [hst]; decide) (by rw [hst]; decide)

/-- A signal wakes all that wait, and nobody else. -/
theorem Inv.wakesAll (h : Inv lvl ph Q s) (hticketed : Ticketed s)
    (q : QueueId) : WakesAll s q := by
  obtain ⟨s', hloop, hempty, hready, hwoken, hrest⟩ := wakeallLoop_live rfl
    (fun e he => h.live hticketed he) (h.waiters_nodup (q := q))
  have hcount : ∀ p, s'.readyCount p = s.readyCount p + (s.waiters q).count p := by
    intro p
    unfold readyCount
    rw [hready, count_append]
    rfl
  refine ⟨s', hloop, hempty, ?_, ?_⟩
  · intro p hp
    have hmem := (mem_waiters_iff h hticketed).2 hp
    have hzero := h.readyCount_waiting hp
    obtain ⟨t, _, ht'⟩ := hwoken p hmem
    refine ⟨hzero, ⟨_, ht', rfl⟩, ?_⟩
    rw [hcount, hzero, count_eq_one_of_mem h.waiters_nodup hmem]
  · intro p hp
    have hmem : p ∉ s.waiters q := fun hmem => hp ((mem_waiters_iff h hticketed).1 hmem)
    refine ⟨hrest p hmem, ?_⟩
    rw [hcount, count_eq_zero_of_not_mem hmem, add_zero]

/-- Where a process is, as far as wait queues go: it waits on one, or was
last woken up by one. -/
def State.places (s : State) : Places QueueId := fun p =>
  match s.procs p with
  | none => .outside
  | some t =>
    match t.state, t.wakeReason with
    | .waiting, ⟨_, some q⟩ => .blocked q
    | .available, ⟨false, some q⟩ => .woken q false
    | _, _ => .outside

theorem places_eq_blocked : s.places p = .blocked q ↔ s.waitsOn p q := by
  unfold State.places State.waitsOn
  cases s.procs p with
  | none => simp
  | some t =>
    dsimp only
    split
    next q' hst hreason => simp [hst, hreason]
    next hst _ => simp [hst]
    next hwaiting _ =>
    constructor
    · nofun
    rintro ⟨u, hu, hst, hq⟩
    injection hu with hu
    rw [← hu] at hst hq
    exact (hwaiting t.wakeReason.timeout q hst (by rw [← hq])).elim

/-- What the kernel shows of a place: after a timeout, only the process itself
knows what it was waiting for. -/
def shown : Place QueueId → Place QueueId
  | .woken _ true => .outside
  | place => place

theorem shown_places (p : Ptr) : shown (s.places p) = s.places p := by
  unfold State.places
  split
  · rfl
  · split <;> rfl

/-- The end of a sleep is the timeout of the call that the process is in. -/
theorem expire_refines (h : s.places p = .blocked q) : ∃ s', s.wake p = .ok s' ∧
      (s'.procs p).map (·.wakeReason) = some ⟨true, none⟩ ∧
      (s.places.expire (fun _ => true) p).map (shown ∘ ·) = some s'.places := by
  obtain ⟨t, ht, hstate, hreason⟩ := places_eq_blocked.1 h
  obtain ⟨s', hwake, t', hprocs, hstate', hreason'⟩ : ∃ s', s.wake p = .ok s' ∧
      ∃ t', s'.procs = update s.procs p (some t') ∧ t'.state = .available ∧
        t'.wakeReason = ⟨true, none⟩ := by
    unfold State.wake State.reschedule State.deref State.setProc
    simp only [ht, hstate, hreason, bind_ok, update_self, reduceCtorEq, if_false]
    exact ⟨_, rfl, _, update_idem _ _ _, rfl, rfl⟩
  refine ⟨s', hwake, by rw [hprocs, update_self, Option.map_some, hreason'], ?_⟩
  unfold Places.expire
  rw [h]
  refine congrArg some (funext fun r => ?_)
  show shown (s.places.put p (.woken q true) r) = _
  by_cases hr : r = p
  · rw [hr, Places.put_self]
    unfold State.places
    rw [hprocs, update_self]
    simp only [hstate', hreason', shown]
  · rw [Places.put_of_ne hr, shown_places]
    unfold State.places
    rw [hprocs, update_of_ne hr]

/-- `wakeone` wakes up the process at the front. -/
theorem Inv.wakeone_front (h : Inv lvl ph Q s) (hticketed : Ticketed s)
    (hqueue : s.waitQueues q = e :: rest) :
    ∃ s', s.wakeone q = .ok s' ∧ s'.isReady e.process ∧
      ∀ p ≠ e.process, s'.procs p = s.procs p ∧ s'.readyCount p = s.readyCount p := by
  have he : e ∈ s.waitQueues q := by
    rw [hqueue]
    exact mem_cons_self
  obtain ⟨t, ht, hwake⟩ := @wakeEntry_live s q e rest (h.live hticketed he)
  refine ⟨(s.setQueue q rest).awaken e.process (roused q t), ?_, ?_, ?_⟩
  · unfold wakeone
    rw [hqueue, length_cons]
    unfold wakeoneLoop
    rw [hqueue]
    dsimp only
    rw [hwake, bind_ok]
    rfl
  · refine ⟨⟨roused q t, update_self .., rfl⟩, ?_⟩
    show (s.gReadyQueue ++ [e.process]).count e.process = 1
    rw [count_append, count_singleton_self]
    have hzero := h.readyCount_waiting (h.of_entry he).2
    unfold readyCount at hzero
    rw [hzero]
  · intro p hp
    refine ⟨update_of_ne hp .., ?_⟩
    show (s.gReadyQueue ++ [e.process]).count p = s.gReadyQueue.count p
    rw [count_append, count_singleton, if_neg (by simpa using hp.symm), add_zero]

-- ==== runs

/-- Each queue is in the order in which its processes began to wait. -/
structure Ordered (w : Watched) : Prop where
  past : ∀ p, w.state.waits p = true → w.since p ≤ w.now
  queues : ∀ q, (w.state.waitQueues q).Pairwise fun e e' => w.since e.process < w.since e'.process

theorem Ordered.longest (h : Ordered w)
    (hqueue : w.state.waitQueues q = e :: rest) (hp : p ∈ w.state.waiters q) :
    w.since e.process ≤ w.since p := by
  unfold State.waiters at hp
  have hpairs := h.queues q
  rw [hqueue] at hp hpairs
  rw [map_cons, mem_cons] at hp
  rcases hp with heq | hp
  · rw [heq]
  · obtain ⟨e', he', rfl⟩ := mem_map.1 hp
    exact le_of_lt ((pairwise_cons.1 hpairs).1 e' he')

/-- The notes say when somebody began to wait who still waits. -/
theorem Ordered.step {w' : Watched} (h : Ordered w)
    (hinv : Settled lvl [] w.state) (hinv' : Settled lvl [] w'.state)
    (hstep : w.step a = .ok w') : Ordered w' := by
  obtain ⟨s', hs', hstep⟩ := ok_bind hstep
  injection hstep with hstep
  have hmoves := step_moves hs'
  rw [← hstep] at hinv' ⊢
  have hinv' : Inv lvl _ [] s' := hinv'
  have hwaits : ∀ {s : State} {ph : Phase} {q : QueueId} {e : QEntry},
      Inv lvl ph [] s → e ∈ s.waitQueues q → s.waits e.process = true := by
    intro s ph q e hs he
    obtain ⟨_, t, ht, hst, _⟩ := hs.of_entry he
    exact waits_iff.2 ⟨t, ht, hst⟩
  constructor
  · intro p hp
    have hp : s'.waits p = true := hp
    show (if s'.waits p && !w.state.waits p then w.now + 1 else w.since p) ≤ w.now + 1
    split
    · exact le_rfl
    next hold =>
    rw [hp, Bool.true_and, Bool.not_eq_true', Bool.not_eq_false] at hold
    exact Nat.le_succ_of_le (h.past p hold)
  intro q
  obtain ⟨new, hsub, hlen, hnew⟩ := hmoves.queues q
  -- those who waited before began earlier than the one who joins now
  have hold : ∀ e ∈ w.state.waitQueues q,
      (if s'.waits e.process && !w.state.waits e.process then w.now + 1
        else w.since e.process) = w.since e.process := by
    intro e he
    rw [hwaits hinv he, Bool.not_true, Bool.and_false, if_neg Bool.false_ne_true]
  have hnow : ∀ e ∈ new, e ∈ s'.waitQueues q →
      (if s'.waits e.process && !w.state.waits e.process then w.now + 1
        else w.since e.process) = w.now + 1 := by
    intro e he he'
    obtain ⟨t, ht, hst⟩ := (Settled.running hinv (hnew e he)).actor e.process rfl
    have hbefore : w.state.waits e.process = false := by
      rw [← Bool.not_eq_true, waits_iff]
      rintro ⟨u, hu, hwaiting⟩
      have hut : u = t := Option.mem_unique hu ht
      rw [hut, hst] at hwaiting
      cases hwaiting
    rw [hwaits hinv' he', hbefore, Bool.not_false, Bool.and_true, if_pos rfl]
  have hpairs : (w.state.waitQueues q ++ new).Pairwise fun e e' =>
      e ∈ s'.waitQueues q → e' ∈ s'.waitQueues q →
      (if s'.waits e.process && !w.state.waits e.process then w.now + 1
        else w.since e.process)
      < (if s'.waits e'.process && !w.state.waits e'.process then w.now + 1
        else w.since e'.process) := by
    rw [pairwise_append]
    refine ⟨?_, ?_, ?_⟩
    · refine (h.queues q).imp_of_mem ?_
      intro e e' he he' hlt _ _
      rw [hold e he, hold e' he']
      exact hlt
    · match new, hlen with
      | [], _ => exact List.Pairwise.nil
      | [e], _ => exact pairwise_singleton _ _
    · intro e he e' he' _ hmem'
      rw [hold e he, hnow e' he' hmem']
      exact Nat.lt_succ_of_le (h.past _ (hwaits hinv he))
  refine (hpairs.sublist hsub).imp_of_mem ?_
  intro e e' he he' hlt
  exact hlt he he'

/-- The invariants, along every run that is watched. -/
theorem watched_sound (h : watched.Reach (fun w => lvl.Allows w.state) w) :
    system.Reach lvl.Allows w.state ∧ Ticketed w.state ∧ Ordered w := by
  refine Machine.Reach.invariant (I := fun w =>
    system.Reach lvl.Allows w.state ∧ Ticketed w.state ∧ Ordered w) ?_ ?_ h
  · intro w hw
    have hw : w = ⟨State.initial, 0, fun _ => 0⟩ := hw
    rw [hw]
    refine ⟨.boot rfl, ?_, ?_, ?_⟩
    · intro p t ht hst
      rw [(initial_procs ht).2] at hst
      cases hst
    · intro p hp
      exact Nat.le_refl 0
    · intro q
      exact List.Pairwise.nil
  rintro w w' a ⟨hreach, hticketed, hordered⟩ hok hstep
  obtain ⟨s', hs', hw'⟩ := ok_bind (show (w.state.step a >>= _) = .ok w' from hstep)
  injection hw' with hw'
  have hstate : w'.state = s' := by rw [← hw']
  have hreach' : system.Reach lvl.Allows w'.state := by
    rw [hstate]
    exact .step a hreach hok hs'
  refine ⟨hreach', ?_, ?_⟩
  · rw [hstate]
    exact (step_moves hs').tickets hticketed
  · exact hordered.step (settled_of_reach hreach) (settled_of_reach hreach') hstep

/-- The notes are no part of the system: each of its runs can be watched. -/
theorem reach_watched (h : system.Reach lvl.Allows s) :
    ∃ w, watched.Reach (fun w => lvl.Allows w.state) w ∧ w.state = s := by
  induction h with
  | boot hb => exact ⟨_, .boot rfl, hb.symm⟩
  | @step _ s' a _ hok hst ih =>
    obtain ⟨w, hw, heq⟩ := ih
    have hst : State.step a w.state = .ok s' := heq ▸ hst
    refine ⟨⟨s', w.now + 1, fun p =>
      if s'.waits p && !w.state.waits p then w.now + 1 else w.since p⟩,
      .step a hw (heq ▸ hok) ?_, rfl⟩
    show Watched.step a w = _
    unfold Watched.step
    rw [hst, bind_ok]

/-- What the objects that processes synchronize on take a signal to do is
what `wakeall` does, in every run. -/
theorem wakeall_refines {lvl : Level} {s : State} (hreach : system.Reach lvl.Allows s)
    (q : QueueId) : ∃ s', s.wakeall q = .ok s' ∧
      s'.places = s.places.wakeall fun q' => q' == q := by
  obtain ⟨w, hw, hs⟩ := reach_watched hreach
  have hticketed : Ticketed s := hs ▸ (watched_sound hw).2.1
  have h := settled_of_reach hreach
  obtain ⟨s', hloop, _, _, hwoken, hrest⟩ := wakeallLoop_live rfl
    (fun e he => h.live hticketed he) (h.waiters_nodup (q := q))
  refine ⟨s', hloop, funext fun p => ?_⟩
  by_cases hp : s.waitsOn p q
  · obtain ⟨t, _, ht'⟩ := hwoken p ((mem_waiters_iff h hticketed).2 hp)
    unfold Places.wakeall
    rw [places_eq_blocked.2 hp]
    dsimp only
    rw [if_pos (beq_self_eq_true q)]
    unfold State.places
    rw [ht']
    rfl
  have hsame : s'.places p = s.places p := by
    unfold State.places
    rw [hrest p (fun hmem => hp ((mem_waiters_iff h hticketed).1 hmem))]
  rw [hsame]
  unfold Places.wakeall
  split
  next q' hq' =>
    split
    next heq =>
      rw [beq_iff_eq] at heq
      rw [heq] at hq'
      exact absurd (places_eq_blocked.1 hq') hp
    · exact hq'
  · rfl

theorem wakeall_refines_one : ∃ s s', system.Reach Level.ready.Allows s ∧
    s.waiters (.object 7) = [5] ∧ s.wakeall (.object 7) = .ok s' ∧
    s'.places = s.places.wakeall fun q => q == .object 7 := by
  obtain ⟨s, hreach, hwaits⟩ := Machine.exists_guarded (M := system) (G := Level.ready.Allows)
    (P := fun s => s.waiters (.object 7) = [5]) rfl (booted ++ [.waitYield 7 0])
    (show system.Guarded NoDeletion _ _ by decide) (by decide)
  obtain ⟨s', hwake⟩ := wakeall_refines hreach (.object 7)
  exact ⟨s, s', hreach, hwaits, hwake⟩

/-- No wake-up is lost: who waits stands in one queue, and a signal to it
reaches everybody, or the one who has waited longest. -/
theorem no_wakeup_lost {lvl : Level} {w : Watched}
    (h : watched.Reach (fun w => lvl.Allows w.state) w) :
    Queued w.state ∧ (∀ q, WakesAll w.state q) ∧ ∀ q, WakesLongest w q := by
  obtain ⟨hreach, hticketed, hordered⟩ := watched_sound h
  have hinv := settled_of_reach hreach
  refine ⟨Inv.queued hinv hticketed, Inv.wakesAll hinv hticketed, ?_⟩
  rintro q ⟨p, hp⟩
  have hmem := (mem_waiters_iff hinv hticketed).2 hp
  cases hqueue : w.state.waitQueues q with
  | nil =>
    unfold State.waiters at hmem
    rw [hqueue] at hmem
    cases hmem
  | cons e rest =>
    have he : e ∈ w.state.waitQueues q := by
      rw [hqueue]
      exact mem_cons_self
    have hon := (Inv.of_entry hinv he).2
    obtain ⟨s', hwake, hready, hother⟩ := Inv.wakeone_front hinv hticketed hqueue
    refine ⟨e.process, s', hon, ?_, hwake, Inv.readyCount_waiting hinv hon, hready, hother⟩
    intro p' hp'
    exact hordered.longest hqueue ((mem_waiters_iff hinv hticketed).2 hp')

/-- Two processes wait on one object, the second with a time limit, and a
signal wakes the first. -/
theorem no_wakeup_lost_two : ∃ w, watched.Reach (fun w => Level.ready.Allows w.state) w ∧
      w.state.waiters (.object 7) = [5, 4] ∧
      Queued w.state ∧ (∀ q, WakesAll w.state q) ∧ ∀ q, WakesLongest w q := by
  obtain ⟨w, hreach, hwaiters⟩ := Machine.exists_guarded (M := watched)
    (G := fun w => Level.ready.Allows w.state)
    (P := fun w => w.state.waiters (.object 7) = [5, 4]) rfl
    (booted ++ [.waitYield 7 0, .schedule 40, .waitYield 7 100])
    (show watched.Guarded (fun w => NoDeletion w.state) _ _
      by decide +kernel) (by decide +kernel)
  exact ⟨w, hreach, hwaiters, no_wakeup_lost hreach⟩

end Puppy.Proc
