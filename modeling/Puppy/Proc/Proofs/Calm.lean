/-
What the functions of the process manager leave alone.

Two kinds of facts about a process are changed by few functions. Its
deadline is written by `sleep` only, and the sleep queue by `sleep` and the
awaker. It begins to collect in `collect` and `collectany` only, and it dies
in `exit` only. `Calm` says that a function does none of this, up to a set
of processes `C` that may have begun to collect and a set `D` that may have
died. `Mild` is the part of it that is about collecting and dying.
-/
import Puppy.Proc.Blocked
import Puppy.Proc.Proofs.Tree

namespace Puppy.Proc

open Libc Lib State Function

variable {s s' s'' : State} {p c : Ptr} {q : QueueId} {C D : Ptr → Prop}
  {t : Process} {parent : Ptr}

theorem stage_available (h : t.state = .available) : t.stage = .living := by
  unfold Process.stage
  rw [h]

-- ==== what leaves sleepers and collectors alone

/-- Nobody has begun to collect but those in `C`, and nobody has died but
those in `D`. -/
structure Mild (C D : Ptr → Prop) (s s' : State) : Prop where
  collecting : ∀ p t', s'.procs p = some t' → t'.state = .collecting →
    C p ∨ ∃ t, s.procs p = some t ∧ t.state = .collecting
  alive : ∀ p t, s.procs p = some t → t.stage = .living →
    D p ∨ ∃ t', s'.procs p = some t' ∧ t'.stage = .living

/-- Besides, the sleep queue is as it was, and no process has another
deadline. -/
structure Calm (C D : Ptr → Prop) (s s' : State) : Prop
    extends Mild C D s s' where
  sleep : s'.gSleepQueue = s.gSleepQueue
  kept : ∀ p t, s.procs p = some t → ∃ t', s'.procs p = some t' ∧ t'.sleeptill = t.sleeptill

theorem Mild.trans (h : Mild C D s s') (h' : Mild C D s' s'') : Mild C D s s'' := by
  constructor
  · intro p t'' ht'' hst
    rcases h'.collecting p t'' ht'' hst with hC | ⟨t', ht', hst'⟩
    · exact .inl hC
    · exact h.collecting p t' ht' hst'
  intro p t ht hst
  rcases h.alive p t ht hst with hD | ⟨t', ht', hst'⟩
  · exact .inl hD
  · exact h'.alive p t' ht' hst'

theorem Mild.same (hprocs : s'.procs = s.procs) : Mild C D s s' := by
  constructor
  · intro p t ht hst
    exact .inr ⟨t, hprocs ▸ ht, hst⟩
  · intro p t ht hst
    exact .inr ⟨t, hprocs ▸ ht, hst⟩

/-- A process gets another record. -/
theorem Mild.tweak {t' : Process} (ht : s.procs p = some t)
    (hprocs : s'.procs = update s.procs p (some t'))
    (hst : t'.state = .collecting → C p ∨ t.state = .collecting)
    (hlive : t.stage = .living → D p ∨ t'.stage = .living) :
    Mild C D s s' := by
  constructor
  · intro x u hx hu
    rw [hprocs] at hx
    rcases update_eq_some hx with ⟨hxp, hx⟩ | ⟨_, hx⟩
    · rw [hxp]
      rcases hst (Option.some.inj hx ▸ hu) with hC | hst
      · exact .inl hC
      · exact .inr ⟨t, ht, hst⟩
    · exact .inr ⟨u, hx, hu⟩
  intro x u hx hu
  rw [hprocs]
  by_cases hxp : x = p
  · rw [hxp] at hx ⊢
    rw [← Option.mem_unique ht hx] at hu
    rcases hlive hu with hD | hlive
    · exact .inl hD
    · exact .inr ⟨t', update_self .., hlive⟩
  · exact .inr ⟨u, by rw [update_of_ne hxp, hx], hu⟩

theorem Calm.trans (h : Calm C D s s') (h' : Calm C D s' s'') : Calm C D s s'' := by
  refine ⟨h.toMild.trans h'.toMild, h'.sleep.trans h.sleep, ?_⟩
  intro p t ht
  obtain ⟨t', ht', heq⟩ := h.kept p t ht
  obtain ⟨t'', ht'', heq'⟩ := h'.kept p t' ht'
  exact ⟨t'', ht'', heq'.trans heq⟩

theorem Calm.same (hprocs : s'.procs = s.procs)
    (hsleep : s'.gSleepQueue = s.gSleepQueue) : Calm C D s s' :=
  ⟨.same hprocs, hsleep, fun _ t ht => ⟨t, hprocs ▸ ht, rfl⟩⟩

theorem Calm.refl (s : State) : Calm C D s s := .same rfl rfl

/-- A process gets another record with the same deadline. -/
theorem Calm.tweak {t' : Process} (ht : s.procs p = some t)
    (hprocs : s'.procs = update s.procs p (some t'))
    (hsleep : s'.gSleepQueue = s.gSleepQueue)
    (htill : t'.sleeptill = t.sleeptill)
    (hst : t'.state = .collecting → C p ∨ t.state = .collecting)
    (hlive : t.stage = .living → D p ∨ t'.stage = .living) :
    Calm C D s s' := by
  refine ⟨.tweak ht hprocs hst hlive, hsleep, ?_⟩
  intro x u hx
  rw [hprocs]
  by_cases hxp : x = p
  · rw [hxp] at hx ⊢
    rw [← Option.mem_unique ht hx]
    exact ⟨t', update_self .., htill⟩
  · exact ⟨u, by rw [update_of_ne hxp, hx], rfl⟩

/-- There is a new process. -/
theorem Calm.birth (hnew : s.procs p = none) (hprocs : s'.procs = update s.procs p (some t))
    (hsleep : s'.gSleepQueue = s.gSleepQueue) (hst : t.state ≠ .collecting) :
    Calm C D s s' := by
  have hold : ∀ {x : Ptr} {u : Process}, s.procs x = some u → s'.procs x = some u := by
    intro x u hx
    have hxp : x ≠ p := ne_of_entry hx hnew
    rw [hprocs, update_of_ne hxp, hx]
  refine ⟨⟨?_, fun x u hx hu => .inr ⟨u, hold hx, hu⟩⟩, hsleep, fun x u hx => ⟨u, hold hx, rfl⟩⟩
  intro x u hx hu
  rw [hprocs] at hx
  rcases update_eq_some hx with ⟨_, hx⟩ | ⟨_, hx⟩
  · exact absurd (Option.some.inj hx ▸ hu) hst
  · exact .inr ⟨u, hx, hu⟩

-- ==== the functions, one by one

/-- The edits of one record that a calm step makes. -/
structure CalmEdit (C D : Ptr → Prop) (p : Ptr) (t t' : Process) : Prop where
  till : t'.sleeptill = t.sleeptill
  state : t'.state = .collecting → C p ∨ t.state = .collecting
  live : t.stage = .living → D p ∨ t'.stage = .living

/-- The functions that edit one record, as long as the edit is calm. -/
theorem calm_editing : Editing (Calm C D) (CalmEdit C D) := by
  refine ⟨⟨⟨.refl, .trans, ?_⟩, ?_⟩, ?_, ?_, ?_, ?_, ?_⟩
  · intro s q e rest r _ h
    have hqueue : Calm C D s (s.setQueue q rest) := .same rfl rfl
    refine hqueue.trans ?_
    rcases wakeEntry_cases h with heq | ⟨t, ht, _, heq⟩
    · rw [heq]
      exact .refl _
    · rw [heq]
      exact .tweak ht rfl rfl rfl nofun (fun _ => .inr (stage_available rfl))
  · exact fun h => .same h.procs h.sleep
  · exact fun h => .same h.procs h.sleep
  · exact fun ht hedit h => .tweak ht h.procs h.sleep hedit.till hedit.state hedit.live
  · intro s s' p t h
    refine .birth h.vacant h.procs h.sleep (fun hcollecting => ?_)
    rcases h.state with hst | hst <;> rw [hst] at hcollecting <;> cases hcollecting
  · intro p t hst
    refine ⟨rfl, nofun, fun hliving => ?_⟩
    rw [stage_dead_iff.2 hst] at hliving
    cases hliving
  · exact fun ht _ => .tweak ht rfl rfl rfl .inr .inr

/-- A process becomes AVAILABLE, or gets another list of children. -/
theorem calmEdit_up (p : Ptr) (t : Process) : CalmEdit C D p t (rescheduled t) :=
  ⟨rfl, nofun, fun _ => .inr (stage_available rfl)⟩

theorem calmEdit_kin (t : Process) (l : List Ptr) : CalmEdit C D p t { t with children := l } :=
  ⟨rfl, .inr, .inr⟩

/-- A process that stops may be a collector only if it is expected to. -/
theorem deschedule_calm {newstate : ProcessState} {waitable : Option QueueId}
    (hC : newstate = .collecting → C p) (hex : newstate ≠ .exited)
    (hcol : newstate ≠ .collected)
    (h : s.deschedule p newstate waitable = .ok s') : Calm C D s s' :=
  calm_editing.deschedule (fun _ => ⟨rfl, fun hst => .inl (hC hst),
    fun _ => .inr (stage_living hex hcol)⟩) h

theorem wake_calm (h : s.wake p = .ok s') : Calm C D s s' := by
  obtain ⟨t, ht, h⟩ := deref_bind h
  split at h
  · exact of_ok h (.refl s)
  have hleave : Calm C D s (s.leaveQueue p t.wakeReason.waitable) := by
    cases t.wakeReason.waitable <;> exact .same rfl rfl
  have ht' : (s.leaveQueue p t.wakeReason.waitable).procs p = some t := by
    cases t.wakeReason.waitable <;> exact ht
  have hset : Calm C D (s.leaveQueue p t.wakeReason.waitable)
      ((s.leaveQueue p t.wakeReason.waitable).setProc p { t with wakeReason := ⟨true, none⟩ }) :=
    .tweak ht' rfl rfl rfl .inr .inr
  exact (hleave.trans hset).trans (calm_editing.reschedule (calmEdit_up p) h)

theorem wait_calm (h : s.wait q c = .ok s') : Calm C D s s' := by
  obtain ⟨t, _, h⟩ := ok_bind h
  have hqueue : Calm C D s (s.setQueue q (s.waitQueues q ++ [⟨t.waitToken, c⟩])) := .same rfl rfl
  exact hqueue.trans (deschedule_calm (fun hst => by cases hst) (by decide) (by decide) h)

/-- An exit disturbs nobody but the process itself. -/
theorem exit_calm {es : Nat} {closed : List QueueId} (hD : D p)
    (h : s.exit p es closed = .ok s') : Calm C D s s' :=
  calm_editing.exit (fun _ => calmEdit_kin) calmEdit_up (fun _ => ⟨rfl, nofun, fun _ => .inl hD⟩) h

/-- A child that has exited is collected. -/
theorem collectDead_calm (hdead : ∀ t, s.procs p = some t → t.state = .exited)
    (h : s.collectDead parent p = .ok s') : Calm C D s s' :=
  calm_editing.collectDead calmEdit_kin hdead h

/-- The process that collects may have to wait. -/
theorem calmEdit_block (hC : C p) : CalmEdit C D p t (descheduled t .collecting none) :=
  ⟨rfl, fun _ => .inl hC, fun _ => .inr (stage_living nofun nofun)⟩

theorem collect_calm {pid : Pid} (hC : C parent)
    (h : s.collect parent pid = .ok s') : Calm C D s s' :=
  calm_editing.collect calmEdit_kin (fun _ => calmEdit_block hC) h

end Puppy.Proc
