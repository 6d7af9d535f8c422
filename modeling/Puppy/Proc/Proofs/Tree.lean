/-
The processes stay a tree.

What the process manager does to the family is what may happen in one: a
birth in `spawn`, a death in `exit`, a settlement in `collect`, a removal
in the deleter, and nothing otherwise (`step_grows`). So the tree is kept
by the rules for families, and what is left to show here is what each
function does to the family.

Most of them leave it as it is (`Steady`). A function that makes a process
AVAILABLE is one of them only if the process is alive, which is where the
invariant of the system comes in: an entry of the sleep queue must not
name a dead process.
-/
import Puppy.Proc.Tree
import Puppy.Proc.Proofs.Waiting

namespace Puppy.Proc

open Libc Lib State Genealogy Process Function List

variable {lvl : Level} {ph : Phase} {Q : List QueueId} {s s' s'' : State}
  {p c child : Ptr} {q : QueueId} {t k u : Process} {closed : List QueueId}
  {es timeout : Nat} {page collector parent : Ptr} {a : Action}
  {task : KernelTask} {si : SpawnInfo} {s₁ s₂ s₃ s₄ : State} {m : Member Ptr}
  {C : List Ptr} {pid : Pid}

-- ==== what leaves the family as it is

/-- The kernel tasks, the process table and the sleep queue are the same. -/
structure Still (s s' : State) : Prop where
  tasks : s'.taskOf = s.taskOf
  table : s'.gProcessTable = s.gProcessTable
  sleep : s'.gSleepQueue = s.gSleepQueue

theorem Still.trans (h : Still s s') (h' : Still s' s'') : Still s s'' :=
  ⟨h'.tasks.trans h.tasks, h'.table.trans h.table, h'.sleep.trans h.sleep⟩

/-- And so is the family. -/
structure Steady (s s' : State) : Prop where
  family : s'.family = s.family
  still : Still s s'

theorem Steady.refl (s : State) : Steady s s := ⟨rfl, rfl, rfl, rfl⟩

theorem Steady.trans (h : Steady s s') (h' : Steady s' s'') : Steady s s'' :=
  ⟨h'.family.trans h.family, h.still.trans h'.still⟩

theorem family_eq (ht : s.procs p = some t) : s.family p = some t.member := by
  unfold State.family
  rw [ht]
  rfl

theorem family_some (h : s.family p = some m) : ∃ t, s.procs p = some t ∧ t.member = m :=
  Option.map_eq_some_iff.1 h

/-- A process that is alive is alive in a family that is the same. -/
theorem living_of_family (hfamily : s'.family = s.family)
    (ht : s.procs p = some t) (hliving : t.stage = .living) :
    ∃ t', s'.procs p = some t' ∧ t'.stage = .living := by
  obtain ⟨t', ht', hmember⟩ := family_some (hfamily ▸ family_eq ht)
  exact ⟨t', ht', (congrArg Member.stage hmember).trans hliving⟩

/-- Editing a record edits the member that it stands for. -/
theorem family_setProc : (s.setProc p t).family = update s.family p (some t.member) := by
  funext x
  unfold State.family
  rw [setProc_procs]
  by_cases hx : x = p
  · rw [hx, update_self, update_self]
    rfl
  · rw [update_of_ne hx, update_of_ne hx]

/-- A record that says the same about the family. -/
theorem family_tweak {t' : Process} (ht : s.procs p = some t)
    (heq : t'.member = t.member) : (s.setProc p t').family = s.family := by
  rw [family_setProc, heq, ← family_eq ht]
  exact update_eq_self p s.family

theorem stage_living (hex : t.state ≠ .exited) (hcol : t.state ≠ .collected) :
    t.stage = .living := by
  unfold stage
  split
  next hst => exact absurd hst hex
  next hst => exact absurd hst hcol
  · rfl

/-- A process that is alive becomes AVAILABLE. -/
theorem reschedule_steady (ht : s.procs p = some t)
    (hliving : t.stage = .living) (h : s.reschedule p = .ok s') :
    Steady s s' := by
  rw [reschedule_eq ht] at h
  refine of_ok h ?_
  refine ⟨?_, rfl, rfl, rfl⟩
  refine (family_tweak ht ?_ : (s.setProc p (rescheduled t)).family = _)
  show Member.mk _ _ _ Stage.living _ _ = Member.mk _ _ _ t.stage _ _
  rw [hliving]
  rfl

/-- A process that is alive stops being AVAILABLE. -/
theorem deschedule_steady {newstate : ProcessState} {waitable : Option QueueId}
    (ht : s.procs p = some t) (hliving : t.stage = .living)
    (hex : newstate ≠ .exited) (hcol : newstate ≠ .collected)
    (h : s.deschedule p newstate waitable = .ok s') : Steady s s' := by
  unfold deschedule at h
  dsimp only at h
  split at h
  · exact of_ok h (.refl s)
  rw [deref_step ht] at h
  obtain ⟨_, ⟨⟩⟩ := reject_eq_ok.1 h
  refine ⟨?_, rfl, rfl, rfl⟩
  refine (family_tweak ht ?_ : (s.setProc p { t with
    state := newstate
    wakeReason := { t.wakeReason with waitable := waitable } }).family = _)
  show Member.mk _ _ _ (stage _) _ _ = Member.mk _ _ _ t.stage _ _
  rw [hliving, stage_living hex hcol]

/-- The scheduler leaves the family as it is. -/
theorem steady_turning : Turning Steady := by
  refine ⟨⟨.refl, .trans, ?_⟩, ?_⟩
  · intro s q e rest r _ h
    have hqueue : Steady s (s.setQueue q rest) := ⟨rfl, rfl, rfl, rfl⟩
    refine hqueue.trans ?_
    rcases wakeEntry_cases h with heq | ⟨t, ht, hst, heq⟩
    · rw [heq]
      exact .refl _
    rw [heq]
    refine ⟨?_, rfl, rfl, rfl⟩
    refine (family_tweak ht ?_ : ((s.setQueue q rest).setProc e.process (roused q t)).family = _)
    show Member.mk _ _ _ Stage.living _ _ = Member.mk _ _ _ t.stage _ _
    rw [stage_living (by rw [hst]; decide) (by rw [hst]; decide)]
    rfl
  · intro s s' h
    refine ⟨?_, h.tasks, h.table, h.sleep⟩
    unfold State.family
    rw [h.procs]

/-- The end of a sleep makes a process AVAILABLE that is alive. -/
theorem wake_steady (ht : s.procs p = some t) (hliving : t.stage = .living)
    (h : s.wake p = .ok s') : Steady s s' := by
  unfold wake at h
  rw [deref_step ht] at h
  split at h
  · exact of_ok h (.refl s)
  have hleave : Steady s (s.leaveQueue p t.wakeReason.waitable) := by
    cases t.wakeReason.waitable <;> exact ⟨rfl, rfl, rfl, rfl⟩
  have ht' : (s.leaveQueue p t.wakeReason.waitable).procs p = some t := by
    cases t.wakeReason.waitable <;> exact ht
  have hset : Steady (s.leaveQueue p t.wakeReason.waitable)
      ((s.leaveQueue p t.wakeReason.waitable).setProc p { t with wakeReason := ⟨true, none⟩ }) :=
    ⟨family_tweak ht' rfl, rfl, rfl, rfl⟩
  exact (hleave.trans hset).trans (reschedule_steady (t := { t with wakeReason := ⟨true, none⟩ })
      (update_self ..) hliving h)

/-- So does a process that waits. -/
theorem wait_steady (ht : s.procs c = some t) (hliving : t.stage = .living)
    (h : s.wait q c = .ok s') :
    Steady s s' := by
  unfold State.wait at h
  rw [deref_step ht] at h
  have hqueue : Steady s (s.setQueue q (s.waitQueues q
      ++ [⟨t.waitToken, c⟩])) := ⟨rfl, rfl, rfl, rfl⟩
  exact hqueue.trans (deschedule_steady ht hliving (by decide) (by decide) h)

-- ==== what changes the family

/-- What a step does to the family is what may happen in one, and nobody
loses a post. -/
structure Evolves (s s' : State) : Prop where
  grows : Grows s.gCollectorTask (· < gNumProcesses) s.family s'.family
  tasks : s'.taskOf = s.taskOf

/-- Nothing has changed, so nothing has gone wrong. -/
theorem Steady.evolves (h : Steady s s') : Evolves s s' := by
  refine ⟨?_, h.still.tasks⟩
  rw [h.family]
  exact .same

theorem Evolves.steady (h : Evolves s s') (h' : Steady s' s'') : Evolves s s'' := by
  refine ⟨?_, h'.still.tasks.trans h.tasks⟩
  rw [h'.family]
  exact h.grows

/-- The sleep queue stays as it is, too. -/
structure Rests (s s' : State) : Prop extends Evolves s s' where
  sleep : s'.gSleepQueue = s.gSleepQueue

theorem Steady.rests (h : Steady s s') : Rests s s' := ⟨h.evolves, h.still.sleep⟩

theorem Rests.sleepless (h : Rests s s') :
    Evolves s s' ∧ (s.gSleepQueue = [] → s'.gSleepQueue = []) :=
  ⟨h.toEvolves, h.sleep.trans⟩

/-- The current process goes to sleep. -/
theorem sleep_evolves {ms : Nat} (ht : s.procs c = some t)
    (hliving : t.stage = .living) (h : s.sleep c ms = .ok s') :
    s'.family = s.family ∧ s'.taskOf = s.taskOf := by
  unfold State.sleep at h
  rw [deref_step ht] at h
  obtain ⟨s₁, hdesch, h⟩ := ok_bind h
  obtain ⟨u, _, h⟩ := ok_bind h
  obtain ⟨queue, _, h⟩ := ok_bind h
  obtain ⟨s₂, hwake, h⟩ := ok_bind h
  injection h with h
  have hset : Steady s (s.setProc c { t with sleeptill := s.millisUptime + ms }) :=
    ⟨family_tweak ht rfl, rfl, rfl, rfl⟩
  have hdesch' := hset.trans (deschedule_steady (t := { t with sleeptill := s.millisUptime + ms })
    (update_self ..) hliving (by decide) (by decide) hdesch)
  have hwake' := steady_turning.wakeall hwake
  rw [← h]
  exact ⟨hwake'.family.trans hdesch'.family, hwake'.still.tasks.trans hdesch'.still.tasks⟩

theorem waitYield_family (ht : s.procs c = some t)
    (hliving : t.stage = .living) (h : s.waitYield q c timeout = .ok s') :
    s'.family = s.family ∧ s'.taskOf = s.taskOf ∧
      (timeout = 0 → s'.gSleepQueue = s.gSleepQueue) := by
  obtain ⟨s₁, hwait, h⟩ := ok_bind h
  have hsteady := wait_steady ht hliving hwait
  split at h
  · cases h
    exact ⟨hsteady.family, hsteady.still.tasks, fun _ => hsteady.still.sleep⟩
  next hne =>
  obtain ⟨t₁, ht₁, hliving₁⟩ := living_of_family hsteady.family ht hliving
  obtain ⟨hfamily, htasks⟩ := sleep_evolves ht₁ hliving₁ h
  exact ⟨hfamily.trans hsteady.family, htasks.trans hsteady.still.tasks, fun hzero => absurd hzero hne⟩

/-- A step that leaves the family and the posts as they are. -/
theorem Evolves.same (hfamily : s'.family = s.family)
    (htasks : s'.taskOf = s.taskOf) : Evolves s s' := by
  refine ⟨?_, htasks⟩
  rw [hfamily]
  exact .same

theorem waitYield_evolves (ht : s.procs c = some t)
    (hliving : t.stage = .living) (h : s.waitYield q c timeout = .ok s') :
    Evolves s s' ∧ (timeout = 0 → s'.gSleepQueue = s.gSleepQueue) := by
  obtain ⟨hfamily, htasks, hsleep⟩ := waitYield_family ht hliving h
  exact ⟨.same hfamily htasks, hsleep⟩

-- ==== birth

/-- The child joins the family. -/
theorem State.Spawned.family (h : Spawned s c page si k t s') : s'.family =
    update (update s.family page (some t.member)) c
      (some { k.member with children := k.children ++ [page] }) := by
  have hprocs : s'.procs = ((s.setProc page t).setProc c
      { k with children := k.children ++ [page] }).procs := h.procs
  have hfamily : s'.family = ((s.setProc page t).setProc c
      { k with children := k.children ++ [page] }).family := by
    unfold State.family
    rw [hprocs]
  rw [hfamily, family_setProc, family_setProc]
  rfl

/-- A process is born to the one that spawns it. -/
theorem State.Spawned.evolves (h : Spawned s c page si k t s') (hb : Books s)
    (hk : s.procs c = some k) (hliving : k.stage = .living) : Evolves s s' := by
  obtain ⟨hfree, hbound, _⟩ := ProcessBitmap.next_ok h.pid
  have hyoung : t.stage = .living := by
    rcases h.state with hst | hst <;> exact stage_living (by rw [hst]; decide) (by rw [hst]; decide)
  refine ⟨?_, h.tasks⟩
  rw [h.family]
  refine .birth (family_eq hk) hliving ?_ h.ppid h.children hyoung hbound ?_
  · unfold State.family
    rw [h.vacant]
    rfl
  intro p m hp heq
  obtain ⟨u, hu, hmember⟩ := family_some hp
  have hreserved := hb.reserved p u hu
  have hpid : u.pid = t.pid := (congrArg Member.id hmember).trans heq
  rw [hpid, hfree] at hreserved
  cases hreserved

-- ==== death

/-- The loop of `exit` hands the children over. -/
theorem reparent_family {u : Member Ptr} (hne : child ≠ collector)
    (hu : s.family collector = some u)
    (h : reparent collector s child = .ok s') :
    ∃ m, s.family child = some m ∧ s'.family = update (update s.family child
        (some { m with parent := u.id })) collector
        (some { u with children := u.children ++ [child] }) ∧
      Still s s' := by
  obtain ⟨t, ht, h⟩ := deref_bind h
  obtain ⟨k, hk, h⟩ := deref_bind h
  obtain ⟨k', hk', h⟩ := deref_bind h
  rw [setProc_procs, update_of_ne hne.symm, hk] at hk'
  injection hk' with hk'
  obtain ⟨v, hv, hmember⟩ := family_some hu
  have hvk : v = k := Option.mem_unique hv hk
  rw [hvk] at hmember
  have hsteady := steady_turning.wakeall h
  refine ⟨t.member, family_eq ht, ?_, hsteady.still.1, hsteady.still.2, hsteady.still.3⟩
  rw [hsteady.family, family_setProc, family_setProc, ← hk', ← hmember]
  rfl

/-- The loop of an exit hands the children over one by one. -/
theorem reparentLoop_family : ∀ {s s' : State} {u : Member Ptr}, C.Nodup → collector ∉ C →
      s.family collector = some u →
      C.foldlM (reparent collector) s = .ok s' →
      s'.family = handedOver s.family collector u C ∧ Still s s' := by
  induction C with
  | nil =>
    intro s s' u _ _ hu h
    cases h
    rw [handedOver_nil hu]
    exact ⟨rfl, rfl, rfl, rfl⟩
  | cons child rest ih =>
    intro s s' u hnodup hnot hu h
    rw [nodup_cons] at hnodup
    rw [mem_cons, not_or] at hnot
    rw [foldlM_cons] at h
    obtain ⟨s₁, hround, h⟩ := ok_bind h
    obtain ⟨m, hm, hfamily, hstill⟩ := reparent_family (Ne.symm hnot.1) hu hround
    have hu₁ : s₁.family collector = some { u with children := u.children ++ [child] } := by
      rw [hfamily, update_self]
    obtain ⟨hfamily', hstill'⟩ := ih hnodup.2 hnot.2 hu₁ h
    refine ⟨?_, hstill.trans hstill'⟩
    rw [hfamily', hfamily, handedOver_cons (Ne.symm hnot.1) hm hnodup.1]

/-- The family of a state, with the conditions of the tree. -/
abbrev Rooted (s : State) : Prop :=
  Tree 0 s.gCollectorTask (· < gNumProcesses) s.family

/-- The list of a process in the family is the list of its record. -/
theorem Rooted.self_not_mem (h : Rooted s) (ht : s.procs c = some t) : c ∉ t.children :=
  fun hmem => (h.listed c _ (family_eq ht) c hmem).1 rfl

/-- A process that may exit is none of the lasting ones. -/
theorem mortal_ne {k : Ptr} (ht : s.procs c = some t)
    (hmortal : t.system = false) (hm : s.family k = some m)
    (hlast : m.lasting = true) : k ≠ c := by
  intro heq
  rw [heq, family_eq ht] at hm
  injection hm with hm
  rw [← hm] at hlast
  cases hmortal.symm.trans hlast

/-- What handing the children over does to the family. -/
theorem reparentAll_family (htree : Rooted s) (ht : s.procs c = some t)
    (hmortal : t.system = false) (h : s.reparentAll c = .ok s') :
    ∃ K', Orphaned s.gCollectorTask s.family t.children K' ∧ s'.family = update K' c
        (some { t.member with children := [] }) ∧ Still s s' := by
  have hnodup := htree.nodup c _ (family_eq ht)
  have hself := htree.self_not_mem ht
  unfold reparentAll at h
  rw [deref_step ht] at h
  obtain ⟨s₁, hloop, h⟩ := ok_bind h
  obtain ⟨t', ht', h⟩ := deref_bind h
  injection h with h
  have hlast : ∀ {K' : Genealogy Ptr}, s₁.family = K' → K' c = s.family c → s'.family = update K' c
        (some { t.member with children := [] }) := by
    intro K' hK' hc
    have hmember : some t'.member = some t.member := by rw [← family_eq ht', hK', hc, family_eq ht]
    have hmember := Option.some.inj hmember
    rw [← h, family_setProc, hK', ← hmember]
    rfl
  have hrest : Still s₁ s' := by
    rw [← h]
    exact ⟨rfl, rfl, rfl⟩
  unfold reparentLoop at hloop
  cases hchildren : t.children with
  | nil =>
    rw [hchildren] at hloop
    injection hloop with hloop
    rw [← hloop] at hlast hrest
    exact ⟨s.family, .inl ⟨rfl, rfl⟩, hlast rfl rfl, hrest⟩
  | cons child rest =>
    cases hcol : s.gCollectorTask with
    | none =>
      rw [hchildren, hcol] at hloop
      cases hloop
    | some k =>
      rw [hchildren, hcol] at hloop
      dsimp only at hloop
      have hck : c ≠ k := by
        obtain ⟨v, hv, hlasting⟩ := htree.keeper k hcol
        exact (mortal_ne ht hmortal hv hlasting).symm
      have hnot := htree.guardian_not_mem hcol (family_eq ht) hmortal
      have hchildren' : t.member.children = child :: rest := hchildren
      rw [hchildren'] at hnodup hnot
      rw [hchildren] at hself
      -- the loop reads the collector in its first round
      obtain ⟨u, hu⟩ : ∃ u, s.family k = some u := by
        have hfirst := hloop
        rw [foldlM_cons] at hfirst
        obtain ⟨_, hround, _⟩ := ok_bind hfirst
        obtain ⟨_, _, hround⟩ := ok_bind hround
        obtain ⟨v, hv, _⟩ := deref_bind hround
        exact ⟨_, family_eq hv⟩
      obtain ⟨hfamily, hstill⟩ := reparentLoop_family hnodup hnot hu hloop
      exact ⟨_, .inr ⟨k, u, rfl, hu, rfl⟩, hlast hfamily (handedOver_other hck hself),
        hstill.trans hrest⟩

section

variable (h : Exits s c es closed t s₁ s₂ u s₃ parent k s₄)
include h

/-- What is known of the parts of an `exit`: up to the parent, the family
has grown by a death, and the parent is the one that the process had. -/
theorem Exits.family (htree : Rooted s) : (∃ K', Orphaned s.gCollectorTask s.family t.children K' ∧
      s₃.family = update K' c (some { t.member with
        children := [], stage := .dead, legacy := es })) ∧
      s₃.taskOf = s.taskOf ∧ s₃.gSleepQueue = s.gSleepQueue ∧
      s.gProcessTable.get t.ppid = .ok (some parent) := by
  have ht := h.proc
  obtain ⟨K', horphans, hfamily, hstill⟩ := reparentAll_family htree ht h.mortal h.handed
  have hclose := steady_turning.closeAll h.closing
  have htty := steady_turning.wakeall h.released
  have hmember : some u.member = some { t.member with children := [] } := by
    rw [← family_eq h.last, hclose.family, hfamily, update_self]
  have hmember := Option.some.inj hmember
  have hpar : u.ppid = t.ppid := congrArg Member.parent hmember
  have hdead : ({ u with state := .exited, exitstatus := es } : Process).member
      = { t.member with
          children := [], stage := Stage.dead, legacy := es } := by
    have hid : u.pid = t.pid := congrArg Member.id hmember
    have hch : u.children = [] := congrArg Member.children hmember
    have hlast : u.system = t.system := congrArg Member.lasting hmember
    rw [hid, hpar, hch, hlast]
    rfl
  refine ⟨⟨K', horphans, ?_⟩, (htty.still.tasks.trans hclose.still.tasks).trans hstill.tasks,
    (htty.still.sleep.trans hclose.still.sleep).trans hstill.sleep, ?_⟩
  · rw [htty.family, family_setProc, hclose.family, hfamily, update_idem, hdead]
  have hfound := h.found
  rw [htty.still.table, hpar] at hfound
  rw [← hstill.table, ← hclose.still.table]
  exact hfound

/-- A process dies: its children go to the collector. -/
theorem Exits.evolves (htree : Rooted s) (hliving : t.stage = .living) :
    Evolves s s₃ ∧ s₃.gSleepQueue = s.gSleepQueue ∧
      s.gProcessTable.get t.ppid = .ok (some parent) := by
  obtain ⟨⟨K', horphans, hfamily⟩, htasks, hsleep, hfound⟩ := h.family htree
  refine ⟨⟨?_, htasks⟩, hsleep, hfound⟩
  rw [hfamily]
  exact .death es (family_eq h.proc) hliving h.mortal horphans

/-- The parent that is made AVAILABLE keeps its place in the family. -/
theorem Exits.roused_steady : Steady s₃ s₄.switchtoscheduler := by
  have hswitch : Steady s₄ s₄.switchtoscheduler := ⟨rfl, rfl, rfl, rfl⟩
  rcases h.roused with ⟨hcollecting, hresched⟩ | ⟨_, hsame⟩
  · refine (reschedule_steady h.record ?_ hresched).trans hswitch
    exact stage_living (by rw [hcollecting]; decide) (by rw [hcollecting]; decide)
  · rw [hsame] at hswitch ⊢
    exact hswitch

end

theorem exit_rests (htree : Rooted s) (ht : s.procs c = some t)
    (hliving : t.stage = .living) (h : s.exit c es closed = .ok s') :
    Rests s s' := by
  obtain ⟨t', s₁, s₂, u, s₃, parent, k, s₄, hexit, heq⟩ := exit_parts h
  have htt : t' = t := Option.mem_unique hexit.proc ht
  obtain ⟨hevolves, hsleep, _⟩ := hexit.evolves htree (htt ▸ hliving)
  rw [heq]
  exact ⟨hevolves.steady hexit.roused_steady, hexit.roused_steady.still.sleep.trans hsleep⟩

-- ==== collection and removal

/-- What the collection of a dead child does to the family. -/
theorem collectDead_family (htree : Rooted s) (hk : s.procs c = some k)
    (ht : s.procs p = some t) (h : s.collectDead c p = .ok s') :
    p ∈ k.children ∧ s'.family = update (update s.family c
        (some { k.member with children := k.children.erase p })) p
        (some { t.member with stage := .settled }) ∧
      s'.taskOf = s.taskOf ∧ s'.gSleepQueue = s.gSleepQueue := by
  unfold collectDead at h
  rw [deref_step hk] at h
  obtain ⟨hmem, h⟩ := check_eq_ok.1 h
  have hpc : p ≠ c := (htree.listed c _ (family_eq hk) p hmem).1
  obtain ⟨u, hu, h⟩ := deref_bind h
  rw [setProc_procs, update_of_ne hpc, ht] at hu
  injection hu with hu
  obtain ⟨v, _, h⟩ := ok_bind h
  obtain ⟨_, h⟩ := reject_eq_ok.1 h
  have hsteady := steady_turning.wakeall h
  refine ⟨hmem, ?_, hsteady.still.tasks, hsteady.still.sleep⟩
  rw [hsteady.family]
  show ((s.setProc c { k with children := k.children.erase p }).setProc p
      { u with state := .collected }).family = _
  rw [family_setProc, family_setProc, ← hu]
  rfl

/-- Its parent takes care of it. -/
theorem collectDead_rests (htree : Rooted s) (hk : s.procs c = some k)
    (ht : s.procs p = some t) (hdead : t.state = .exited)
    (h : s.collectDead c p = .ok s') :
    Rests s s' := by
  obtain ⟨hmem, hfamily, htasks, hsleep⟩ := collectDead_family htree hk ht h
  have hnodup : k.children.Nodup := htree.nodup c _ (family_eq hk)
  have hdead' : t.member.stage = .dead := by
    show t.stage = .dead
    unfold stage
    rw [hdead]
  refine ⟨⟨?_, htasks⟩, hsleep⟩
  rw [hfamily]
  refine .settle (family_eq hk) (family_eq ht) hdead' hmem ?_ (hnodup.erase p)
  intro x
  rw [hnodup.mem_erase_iff]
  exact And.comm

/-- A parent that waits for a child to exit. -/
theorem block_rests (hk : s.procs c = some k) (hliving : k.stage = .living) (h : (do
      let s ← s.deschedule c .collecting none
      .ok s.switchtoscheduler) = .ok s') :
    Rests s s' := by
  obtain ⟨s₁, hdesch, h⟩ := ok_bind h
  cases h
  have hsteady := deschedule_steady hk hliving (by decide) (by decide) hdesch
  have hswitch : Steady s₁ s₁.switchtoscheduler := ⟨rfl, rfl, rfl, rfl⟩
  exact (hsteady.trans hswitch).rests

theorem collect_rests (htree : Rooted s) (hk : s.procs c = some k)
    (hliving : k.stage = .living) (h : s.collect c pid = .ok s') :
    Rests s s' := by
  obtain ⟨found, _, h⟩ := ok_bind h
  split at h
  · cases h
  next task =>
  obtain ⟨t, ht, h⟩ := deref_bind h
  obtain ⟨named, _, h⟩ := ok_bind h
  obtain ⟨_, h⟩ := reject_eq_ok.1 h
  by_cases hex : t.state = .exited
  · rw [if_neg (not_not.2 hex)] at h
    exact collectDead_rests htree hk ht hex h
  rw [if_pos hex] at h
  exact block_rests hk hliving h

theorem collectany_rests {wait : Bool} (htree : Rooted s)
    (hk : s.procs c = some k) (hliving : k.stage = .living)
    (h : s.collectany c wait = .ok s') :
    Rests s s' := by
  unfold collectany at h
  rw [deref_step hk] at h
  obtain ⟨found, _, h⟩ := ok_bind h
  split at h
  next child =>
    obtain ⟨t, _, h⟩ := ok_bind h
    exact collect_rests htree hk hliving h
  split at h
  · exact block_rests hk hliving h
  · exact of_ok h ((Steady.refl s).rests)

theorem delete_family (h : s.delete p = .ok s') :
    s'.family = update s.family p none ∧ s'.taskOf = s.taskOf ∧ s'.gSleepQueue = s.gSleepQueue := by
  obtain ⟨t, _, h⟩ := ok_bind h
  cases h
  refine ⟨?_, rfl, rfl⟩
  funext x
  show (update s.procs p none x).map member = _
  by_cases hx : x = p
  · rw [hx, update_self, update_self]
    rfl
  · rw [update_of_ne hx, update_of_ne hx]
    rfl

/-- And the deleter removes it. -/
theorem delete_rests (ht : s.procs p = some t) (hcol : t.state = .collected)
    (h : s.delete p = .ok s') :
    Rests s s' := by
  obtain ⟨hfamily, htasks, hsleep⟩ := delete_family h
  have hsettled : t.member.stage = .settled := by
    show t.stage = .settled
    unfold stage
    rw [hcol]
  refine ⟨⟨?_, htasks⟩, hsleep⟩
  rw [hfamily]
  exact .removal (family_eq ht) hsettled

-- ==== steps

/-- The current process is alive. -/
theorem Inv.actor_living (h : Inv lvl (.running c) Q s) :
    ∃ t, s.procs c = some t ∧ t.stage = .living := by
  obtain ⟨t, ht, hst⟩ := h.actor c rfl
  exact ⟨t, ht, stage_living (by rw [hst]; decide) (by rw [hst]; decide)⟩

theorem popSleeper_steady {r : QEntry × State} {top : QEntry}
    {rest : List QEntry} (hsleep : s.gSleepQueue = top :: rest)
    (h : s.popSleeper = .ok r) :
    r.1 = top ∧ r.2.family = s.family ∧ r.2.taskOf = s.taskOf := by
  unfold popSleeper at h
  rw [hsleep] at h
  obtain ⟨queue, _, h⟩ := ok_bind h
  cases h
  exact ⟨rfl, rfl, rfl⟩

section

variable (h : Inv .once (.running c) Q s)
include h

theorem awaker_family (hawaker : s.awaker c = .ok s') :
    s'.family = s.family ∧ s'.taskOf = s.taskOf ∧ (s.gSleepQueue = [] → s'.gSleepQueue = []) := by
  unfold awaker at hawaker
  split at hawaker
  next hempty =>
    obtain ⟨t, ht, hliving⟩ := h.actor_living
    obtain ⟨hfamily, htasks, hsleep⟩ := waitYield_family ht hliving hawaker
    exact ⟨hfamily, htasks, fun _ => (hsleep rfl).trans hempty⟩
  next top rest hsleep =>
  rw [← and_assoc]
  refine ⟨?_, fun hempty => by rw [hsleep] at hempty; cases hempty⟩
  obtain ⟨t, ht, hawaker⟩ := deref_bind hawaker
  split at hawaker
  · obtain ⟨r, hr, hawaker⟩ := ok_bind hawaker
    obtain ⟨_, hfamily, htasks⟩ := popSleeper_steady hsleep hr
    have hsteady := steady_turning.enqueueForDeath hawaker
    exact ⟨hsteady.family.trans hfamily, hsteady.still.tasks.trans htasks⟩
  split at hawaker
  · split at hawaker
    · obtain ⟨⟨e, s₁⟩, hr, hawaker⟩ := ok_bind hawaker
      obtain ⟨htop, hfamily, htasks⟩ := popSleeper_steady hsleep hr
      dsimp only at htop hfamily htasks hawaker
      obtain ⟨hex, hcol⟩ := h.maySleep_top (by decide) hsleep ht
      obtain ⟨t', ht', hliving'⟩ := living_of_family hfamily ht (stage_living hex hcol)
      rw [htop] at hawaker
      have hsteady := wake_steady ht' hliving' hawaker
      exact ⟨hsteady.family.trans hfamily, hsteady.still.tasks.trans htasks⟩
    · cases hawaker
      exact ⟨rfl, rfl⟩
  · cases hawaker
    exact ⟨rfl, rfl⟩

theorem awaker_evolves (hawaker : s.awaker c = .ok s') :
    Evolves s s' ∧ (s.gSleepQueue = [] → s'.gSleepQueue = []) := by
  obtain ⟨hfamily, htasks, hsleep⟩ := awaker_family h hawaker
  exact ⟨.same hfamily htasks, hsleep⟩

/-- The collector does as any parent does. -/
theorem collector_rests (htree : Rooted s) (hcollector : s.collector c = .ok s') : Rests s s' := by
  obtain ⟨k, hk, hliving⟩ := h.actor_living
  unfold collector at hcollector
  rw [deref_step hk] at hcollector
  split at hcollector
  · obtain ⟨hevolves, hsleep⟩ := waitYield_evolves hk hliving hcollector
    exact ⟨hevolves, hsleep rfl⟩
  · obtain ⟨t, _, hcollector⟩ := ok_bind hcollector
    exact collect_rests htree hk hliving hcollector

theorem deleter_rests (hdeleter : s.deleter c = .ok s') : Rests s s' := by
  unfold deleter at hdeleter
  split at hdeleter
  · obtain ⟨k, hk, hliving⟩ := h.actor_living
    obtain ⟨hevolves, hsleep⟩ := waitYield_evolves hk hliving hdeleter
    exact ⟨hevolves, hsleep rfl⟩
  next x rest hlist =>
  have hcount : s.collectedCount x ≠ 0 := by
    unfold collectedCount
    rw [hlist, count_cons_self]
    exact Nat.succ_ne_zero _
  obtain ⟨_, t, ht, hcol⟩ := (h.proper x).collected (by decide) hcount
  have hrests := delete_rests (s := { s with gCollectedProcessList := rest }) ht hcol hdeleter
  exact ⟨⟨hrests.grows, hrests.tasks⟩, hrests.sleep⟩

end

/-- The processes are a tree, and the kernel tasks are system processes. -/
structure Sane (s : State) : Prop where
  tree : Rooted s
  tasks : ∀ task p, s.taskOf task = some p → ∃ m, s.family p = some m ∧ m.lasting = true

/-- The family stays a tree. -/
theorem Evolves.sane (h : Evolves s s') (hs : Sane s) : Sane s' := by
  have hcollector : s'.gCollectorTask = s.gCollectorTask := congrFun h.tasks .collector
  constructor
  · show Tree 0 s'.gCollectorTask _ _
    rw [hcollector]
    exact h.grows.tree hs.tree
  intro task p hp
  rw [h.tasks] at hp
  obtain ⟨m, hm, hlast⟩ := hs.tasks task p hp
  exact h.grows.stays hs.tree hm hlast

/-- What a step keeps, and what it does to the family. -/
structure Tends (s : State) (a : Action) (s' : State) : Prop where
  grows : Grows s.gCollectorTask (· < gNumProcesses) s.family s'.family
  sane : Sane s'
  sleepless : Untimed a → s.gSleepQueue = [] → s'.gSleepQueue = []

theorem Evolves.tends (h : Evolves s s') (hs : Sane s)
    (hsleep : Untimed a → s.gSleepQueue = [] → s'.gSleepQueue = []) :
    Tends s a s' :=
  ⟨h.grows, h.sane hs, hsleep⟩

/-- A kernel task is spawned by a system process, which may give it any
priority. -/
theorem kspawn_parts (hk : s.procs c = some k) (h : s.kspawn c task page si = .ok s') :
    ∃ t s₁ si, k.system = true ∧ t.system = true ∧
      Spawned s c page si k t s₁ ∧ s₁.setTask page task = s' := by
  unfold kspawn at h
  rw [deref_step hk] at h
  obtain ⟨hcan, h⟩ := reject_eq_ok.1 h
  rw [not_or, Bool.not_eq_false] at hcan
  obtain ⟨s₁, hspawn, h⟩ := ok_bind h
  injection h with h
  rcases spawn_spawned hk hspawn with ⟨_, hex⟩ | ⟨t, hborn⟩
  · unfold excessive at hex
    rw [hcan.1] at hex
    cases hex
  · exact ⟨t, s₁, _, hcan.1, hborn.system, hborn, h⟩

/-- Boot spawns a kernel task. Its parent is a system process, so the task
is not handed over to itself one day. -/
theorem kspawn_tends (hs : Sane s) (hb : Books s) (hk : s.procs c = some k)
    (hliving : k.stage = .living) (h : s.kspawn c task page si = .ok s') :
    Tends s a s' := by
  obtain ⟨t, s₁, si, hsystem, hsys, hborn, h⟩ := kspawn_parts hk h
  have hevolves := hborn.evolves hb hk hliving
  have hsane := hevolves.sane hs
  have hfamily : s'.family = s₁.family := by
    rw [← h]
    cases task <;> rfl
  have hsleep : s'.gSleepQueue = s₁.gSleepQueue := by
    rw [← h]
    cases task <;> rfl
  have hpc : page ≠ c := (ne_of_entry hk hborn.vacant).symm
  have hpage : s₁.family page = some t.member := by rw [hborn.family, update_of_ne hpc, update_self]
  have hlast : t.member.lasting = true := hsys
  have hparent : s₁.family c = some { k.member with children := k.children ++ [page] } := by
    rw [hborn.family, update_self]
  -- only the parent has the new task in its list
  have hlisted : ∀ x v, s₁.family x = some v → page ∈ v.children → v.lasting = true := by
    intro x v hx hmem
    have hxc : x = c := hsane.tree.unique hparent
      (mem_append_right _ (mem_singleton_self page)) hx hmem
    rw [hxc, hparent] at hx
    cases hx
    exact hsystem
  refine ⟨?_, ⟨?_, ?_⟩, ?_⟩
  · rw [hfamily]
    exact hevolves.grows
  · show Tree 0 s'.gCollectorTask _ _
    rw [hfamily]
    cases task with
    | collector =>
      rw [← h]
      exact hsane.tree.appoint hpage hlast hlisted
    | awaker =>
      rw [← h]
      exact hsane.tree
    | deleter =>
      rw [← h]
      exact hsane.tree
  · intro task' x hx
    rw [hfamily]
    by_cases htask : task' = task
    · have hxp : x = page := by
        rw [← h, htask] at hx
        cases task <;> exact (Option.some.inj hx).symm
      rw [hxp]
      exact ⟨_, hpage, hlast⟩
    · have hold : s₁.taskOf task' = some x := by
        rw [← hx, ← h]
        cases task <;> cases task' <;> first | rfl | exact absurd rfl htask
      exact hsane.tasks task' x hold
  · intro _ hempty
    rw [hsleep, hborn.sleep, hempty]

section

variable (h : Settled .once [] s) (hs : Sane s)
include h hs

/-- The rounds of the kernel tasks. -/
theorem round_evolves (hround : s.round task = .ok s') :
    Evolves s s' ∧ (s.gSleepQueue = [] → s'.gSleepQueue = []) := by
  obtain ⟨self, hself, _, hround⟩ := round_parts hround
  have hrun := Settled.running h hself
  cases task with
  | collector => exact (collector_rests hrun hs.tree hround).sleepless
  | awaker => exact awaker_evolves hrun hround
  | deleter => exact (deleter_rests hrun hround).sleepless

theorem round_tends (hround : s.round task = .ok s') : Tends s (.round task) s' := by
  obtain ⟨hevolves, hsleep⟩ := round_evolves h hs hround
  exact hevolves.tends hs (fun _ => hsleep)

/-- Nobody is given a post once the kernel tasks are there. -/
theorem step_evolves (hne : ∀ task page si, a ≠ .kspawn task page si) (hstep : s.step a = .ok s') :
    Evolves s s' ∧ (Untimed a → s.gSleepQueue = [] → s'.gSleepQueue = []) := by
  have hb := h.books rfl
  have hcaller : ∀ {f : Ptr → Except Panic State}, (s.caller >>= f) = .ok s' →
      ∃ c t, s.procs c = some t ∧ t.stage = .living ∧ f c = .ok s' := by
    intro f hf
    obtain ⟨c, hc, hf⟩ := ok_bind hf
    obtain ⟨t, ht, hliving⟩ := (Settled.running h (caller_current hc)).actor_living
    exact ⟨c, t, ht, hliving, hf⟩
  have hrests : ∀ {a : Action}, Rests s s' → Evolves s s' ∧
      (Untimed a → s.gSleepQueue = [] → s'.gSleepQueue = []) :=
    fun hrests => ⟨hrests.toEvolves, fun _ => hrests.sleep.trans⟩
  have hsteady : ∀ {a : Action}, Steady s s' → Evolves s s' ∧
      (Untimed a → s.gSleepQueue = [] → s'.gSleepQueue = []) :=
    fun hsteady => hrests hsteady.rests
  cases a with
  | kspawn task page si => exact absurd rfl (hne task page si)
  | spawn page si =>
    obtain ⟨c, k, hk, hliving, hstep⟩ := hcaller hstep
    rcases spawn_spawned hk hstep with ⟨heq, _⟩ | ⟨t, hborn⟩
    · rw [heq] at hsteady ⊢
      exact hsteady (.refl s)
    · exact hrests ⟨hborn.evolves hb hk hliving, hborn.sleep⟩
  | waitYield id timeout =>
    obtain ⟨c, k, hk, hliving, hstep⟩ := hcaller hstep
    obtain ⟨hevolves, hsleep⟩ := waitYield_evolves hk hliving hstep
    exact ⟨hevolves, fun huntimed => (hsleep huntimed).trans⟩
  | sleep ms =>
    obtain ⟨c, k, hk, hliving, hstep⟩ := hcaller hstep
    obtain ⟨hfamily, htasks⟩ := sleep_evolves hk hliving hstep
    exact ⟨.same hfamily htasks, fun huntimed => absurd huntimed id⟩
  | yield =>
    obtain ⟨c, _, hstep⟩ := ok_bind hstep
    injection hstep with hstep
    rw [← hstep] at hsteady ⊢
    exact hsteady ⟨rfl, rfl, rfl, rfl⟩
  | collect pid =>
    obtain ⟨c, k, hk, hliving, hstep⟩ := hcaller hstep
    exact hrests (collect_rests hs.tree hk hliving hstep)
  | collectany wait =>
    obtain ⟨c, k, hk, hliving, hstep⟩ := hcaller hstep
    exact hrests (collectany_rests hs.tree hk hliving hstep)
  | exit es closed =>
    obtain ⟨c, k, hk, hliving, hstep⟩ := hcaller hstep
    exact hrests (exit_rests hs.tree hk hliving hstep)
  | wakeone id => exact hsteady (steady_turning.wakeoneLoop hstep)
  | wakeall id => exact hsteady (steady_turning.wakeall hstep)
  | round task =>
    obtain ⟨hevolves, hsleep⟩ := round_evolves h hs hstep
    exact ⟨hevolves, fun _ => hsleep⟩
  | schedule draw =>
    simp only [State.step] at hstep
    obtain ⟨_, hstep⟩ := check_eq_ok.1 hstep
    exact hsteady (steady_turning.schedule hstep)
  | tick ms =>
    injection hstep with hstep
    rw [← hstep] at hsteady ⊢
    exact hsteady ⟨rfl, rfl, rfl, rfl⟩

/-- Every step, with what the sleep queue needs. -/
theorem step_tends (hstep : s.step a = .ok s') : Tends s a s' := by
  have hother : (∀ task page si, a ≠ .kspawn task page si) → Tends s a s' := by
    intro hne
    obtain ⟨hevolves, hsleep⟩ := step_evolves h hs hne hstep
    exact hevolves.tends hs hsleep
  cases a with
  | kspawn task page si =>
    obtain ⟨c, hc, hstep⟩ := ok_bind hstep
    obtain ⟨k, hk, hliving⟩ := (Settled.running h (caller_current hc)).actor_living
    exact kspawn_tends hs (h.books rfl) hk hliving hstep
  | _ => exact hother (fun _ _ _ heq => by cases heq)

end

/-- The family begins with one process. -/
theorem initial_sane : Sane State.initial := by
  have hfamily : ∀ {p : Ptr} {m : Member Ptr},
      State.initial.family p = some m → p = 0 ∧ m = gDummyProcess.member := by
    intro p m hp
    obtain ⟨t, ht, hmember⟩ := family_some hp
    obtain ⟨hzero, hdummy⟩ := initial_procs ht
    exact ⟨hzero, by rw [← hmember, hdummy]⟩
  refine ⟨⟨?_, ?_, ?_, ?_, ?_, ?_, ?_, ?_, ?_, ?_⟩, ?_⟩
  · intro p m hp
    rw [(hfamily hp).2]
    decide
  · intro p q a b ha hb _
    rw [(hfamily ha).1, (hfamily hb).1]
  · intro k u hk p hp
    rw [(hfamily hk).2] at hp
    cases hp
  · intro k u hk
    rw [(hfamily hk).2]
    exact nodup_nil
  · intro p m hp _ hroot
    exact absurd (hfamily hp).1 hroot
  · intro k u hk _
    rw [(hfamily hk).2]
    rfl
  · intro p m hp _
    rw [(hfamily hp).2]
    rfl
  · exact ⟨gDummyProcess.member, rfl, rfl⟩
  · intro k hk
    cases hk
  · intro k hk
    cases hk
  · intro task p hp
    cases task <;> cases hp

-- ==== runs

/-- What is known of the runs in which no process exits with an entry in
the sleep queue. -/
theorem sane_of_reach (h : system.Reach ExitsSleepless s) :
    Settled .once [] s ∧ Ticketed s ∧ Sane s := by
  have hsettled : ∀ {s : State}, system.Reach ExitsSleepless s → Settled .once [] s := by
    intro s h
    have h : system.Reach Level.once.Allows s := h
    exact settled_of_reach h
  refine ⟨hsettled h, ?_⟩
  induction h with
  | boot hb =>
    have hb : _ = State.initial := hb
    rw [hb]
    refine ⟨?_, initial_sane⟩
    intro p t ht hst
    rw [(initial_procs ht).2] at hst
    cases hst
  | step a hr _ hst ih =>
    exact ⟨(step_moves hst).tickets ih.1, (step_tends (hsettled hr) ih.2 hst).sane⟩

/-- Without sleeps there are no entries in the sleep queue. -/
theorem sleepless_of_untimed (h : system.Reach (fun _ a => Untimed a) s) :
    system.Reach ExitsSleepless s ∧ s.gSleepQueue = [] := by
  induction h with
  | boot hb =>
    have hb : _ = State.initial := hb
    rw [hb]
    exact ⟨.boot rfl, rfl⟩
  | @step s s' a _ hok hst ih =>
    obtain ⟨hreach, hempty⟩ := ih
    obtain ⟨hsettled, _, hsane⟩ := sane_of_reach hreach
    refine ⟨.step a hreach ?_ hst, (step_tends hsettled hsane hst).sleepless hok hempty⟩
    unfold ExitsSleepless
    split
    · intro e he
      rw [hempty] at he
      cases he
    · trivial

-- ==== parents

theorem stage_dead_iff : t.stage = .dead ↔ t.state = .exited := by
  unfold stage
  cases t.state <;> simp

theorem stage_settled_iff : t.stage = .settled ↔ t.state = .collected := by
  unfold stage
  cases t.state <;> simp

/-- Every process has a parent that lists it. -/
theorem Sane.noOrphans (h : Sane s) (hb : Books s) : NoOrphans s := by
  intro p t ht hst hzero
  have hstage : t.member.stage ≠ .settled := fun heq => hst (stage_settled_iff.1 heq)
  obtain ⟨k, m, hm, hmem⟩ := h.tree.rooted p _ (family_eq ht) hstage hzero
  obtain ⟨u, hu, hmember⟩ := family_some hm
  obtain ⟨_, m', hm', hppid, _⟩ := h.tree.listed k m hm p hmem
  rw [family_eq ht] at hm'
  injection hm' with hm'
  have hpid : u.pid = t.ppid := by
    have hid : u.pid = m.id := congrArg Member.id hmember
    have hpar : t.ppid = m'.parent := congrArg Member.parent hm'
    rw [hid, hpar, hppid]
  have hliving := h.tree.living_of_mem hm hmem
  have hnodup := h.tree.nodup k m hm
  have hbound : u.pid < gNumProcesses := h.tree.supply k _ (family_eq hu)
  rw [← hmember] at hliving hnodup hmem
  refine ⟨k, u, hu, hliving, hpid, count_eq_one_of_mem hnodup hmem, ?_, ?_⟩
  · intro k' u' hu' hmem'
    exact h.tree.unique (family_eq hu) hmem (family_eq hu') hmem'
  · unfold ProcessTable.get
    rw [← hpid, if_neg (Nat.not_le.2 hbound)]
    exact congrArg Except.ok ((hb.named u.pid k).2 ⟨u, hu, rfl⟩)

/-- The first process does not die. -/
theorem Sane.zero_living (h : Sane s) (ht : s.procs 0 = some t) :
    t.state ≠ .exited ∧ t.state ≠ .collected := by
  obtain ⟨m, hm, hlast⟩ := h.tree.root
  have hliving := h.tree.lasting 0 m hm hlast
  rw [family_eq ht] at hm
  injection hm with hm
  rw [← hm] at hliving
  refine ⟨fun hex => ?_, fun hcol => ?_⟩
  · cases hliving.symm.trans (stage_dead_iff.2 hex)
  · cases hliving.symm.trans (stage_settled_iff.2 hcol)

-- ==== deliveries

theorem deliversOnce_of_reach {w : Tended} {ok : State → Action → Prop}
    (hok : ∀ s, system.Reach ok s → system.Reach ExitsSleepless s)
    (h : tended.Reach (fun w => ok w.state) w) :
    system.Reach ok w.state ∧ DeliversOnce w := by
  induction h with
  | boot hb =>
    have hb : _ = (⟨State.initial, fun _ => []⟩ : Tended) := hb
    rw [hb]
    refine ⟨.boot rfl, ?_⟩
    intro p t ht
    rw [(initial_procs ht).2]
    rfl
  | @step w w' a _ hguard hst ih =>
    obtain ⟨hreach, hdelivers⟩ := ih
    obtain ⟨s', hs', hw'⟩ := ok_bind (show (w.state.step a >>= _) = .ok w' from hst)
    cases hw'
    refine ⟨.step a hreach hguard hs', ?_⟩
    obtain ⟨hsettled, _, hsane⟩ := sane_of_reach (hok _ hreach)
    have hgrows := (step_tends hsettled hsane hs').grows
    intro p t' ht'
    show Tended.deliver (w.delivered p) (w.state.procs p) (s'.procs p) = _
    have ht' : s'.procs p = some t' := ht'
    rw [ht']
    rcases hgrows.back (family_eq ht') with ⟨hnone, hliving⟩ | ⟨m, hm, hage, _⟩
    · have hnone : w.state.procs p = none := Option.map_eq_none_iff.1 hnone
      have hliving : t'.stage = .living := hliving
      rw [hnone]
      simp [← stage_settled_iff, hliving, Tended.deliver]
    obtain ⟨t, ht, hmember⟩ := family_some hm
    have hbefore := hdelivers p t ht
    rw [← hmember] at hage
    rw [ht]
    unfold Tended.deliver
    -- everything depends on the stages only
    simp only [← stage_settled_iff, ← stage_dead_iff] at hbefore ⊢
    rcases hage with ⟨hsame, hleg⟩ | ⟨hliving, hdead⟩ | ⟨hdead, hsettled', hleg⟩
    · have hsame : t'.stage = t.stage := hsame
      have hleg : t.stage ≠ .living → t'.exitstatus = t.exitstatus := hleg
      rw [hsame, hbefore]
      cases hstage : t.stage with
      | settled => simp [hleg (by rw [hstage]; decide)]
      | _ => simp
    · have hliving : t.stage = .living := hliving
      have hdead : t'.stage = .dead := hdead
      simp [hbefore, hliving, hdead]
    · have hdead : t.stage = .dead := hdead
      have hsettled' : t'.stage = .settled := hsettled'
      have hleg : t'.exitstatus = t.exitstatus := hleg
      simp [hbefore, hdead, hsettled', hleg]

-- ==== collecting finds the child

section Errors

variable {E : Panic → Prop}

theorem reschedule_errors (hE : E .fault) : Sat (s.reschedule p) (fun _ => True) E := by
  exact Sat.bind (deref_sat hE) (fun _ _ _ => trivial)

/-- The only thing that can go wrong with a signal is a bad pointer. -/
theorem wakeEntry_errors {e : QEntry} (hE : E .fault) :
    Sat (s.wakeEntry q e) (fun _ => True) E := by
  refine Sat.bind (deref_sat hE) (fun t _ _ => ?_)
  split
  · refine Sat.bind (R := fun _ => True) ?_ (fun _ _ _ => trivial)
    refine Sat.bind (deref_sat hE) (fun _ _ _ => ?_)
    split
    · trivial
    · exact reschedule_errors hE
  · trivial

theorem wakeall_errors (hE : E .fault) : Sat (s.wakeall q) (fun _ => True) E := by
  have hloop : ∀ n (s : State), Sat (wakeallLoop q n s) (fun _ => True) E := by
    intro n
    induction n with
    | zero =>
      intro s
      trivial
    | succ n ih =>
      intro s
      unfold wakeallLoop
      split
      · trivial
      · exact Sat.bind (wakeEntry_errors hE) (fun r _ _ => ih r.2)
  exact hloop _ s

theorem deschedule_errors {newstate : ProcessState}
    {waitable : Option QueueId} (hE : E .fault) (hE' : E .enqueuedTwice) :
    Sat (s.deschedule p newstate waitable) (fun _ => True) E := by
  unfold deschedule
  dsimp only
  split
  · trivial
  refine Sat.bind (deref_sat hE) (fun t _ _ => ?_)
  split
  · exact hE'
  · trivial

theorem firstExited_errors (hE : E .fault) : ∀ {l : List Ptr},
    Sat (s.firstExited l) (fun _ => True) E := by
  intro l
  induction l with
  | nil => trivial
  | cons x rest ih =>
    refine Sat.bind (deref_sat hE) (fun t _ _ => ?_)
    split
    · trivial
    · exact ih

end Errors

/-- A process that has not been collected is in the list of the one who
looks it up. -/
theorem Sane.mem_children (h : Sane s) (hb : Books s) (hk : s.procs c = some k)
    (ht : s.procs p = some t) (hzero : p ≠ 0) (hst : t.state ≠ .collected)
    (hparent : s.gProcessTable.get t.ppid = .ok (some c)) :
    p ∈ k.children := by
  obtain ⟨k', u, hu, _, _, hcount, _, hget⟩ := h.noOrphans hb p t ht hst hzero
  rw [hparent] at hget
  injection hget with hget
  injection hget with hget
  rw [← hget, hk] at hu
  injection hu with hu
  rw [hu]
  exact count_pos_iff.1 (by omega)

/-- Whoever is a child by its parent's pid is in its list. -/
theorem collect_finds (h : Sane s) (hb : Books s) (hk : s.procs c = some k) :
    Sat (s.collect c pid) (fun _ => True) (· ≠ .notAChild) := by
  have hget : ∀ {pid : Pid}, Sat (s.gProcessTable.get pid)
      (fun _ => True) (· ≠ Panic.notAChild) := by
    intro pid
    unfold ProcessTable.get
    split
    · exact nofun
    · trivial
  have hfault : Panic.fault ≠ .notAChild := by decide
  refine Sat.bind hget (fun found _ _ => ?_)
  split
  · exact nofun
  next task _ =>
  refine Sat.bind (deref_sat hfault) (fun t _ ht => ?_)
  refine Sat.bind hget (fun named hnamed _ => ?_)
  split
  · exact nofun
  next hparent =>
  split
  · exact Sat.bind (deschedule_errors hfault (by decide)) (fun _ _ _ => trivial)
  next hdead =>
  rw [not_not] at hparent hdead
  rw [hparent] at hnamed
  have hzero : task ≠ 0 := by
    intro heq
    rw [heq] at ht
    exact (h.zero_living ht).1 hdead
  have hmem := h.mem_children hb hk ht hzero (by rw [hdead]; decide) hnamed
  refine Sat.step (deref_eq hk) ?_
  rw [if_pos hmem]
  refine Sat.bind (deref_sat hfault) (fun u _ _ => ?_)
  refine Sat.bind (deref_sat hfault) (fun v _ _ => ?_)
  split
  · exact nofun
  · exact wakeall_errors hfault

theorem Sane.findsChildren (h : Sane s) (hsettled : Settled .once [] s) : FindsChildren s := by
  have hb := hsettled.books rfl
  have hfault : Panic.fault ≠ .notAChild := by decide
  have hcaller : Sat s.caller (fun c => s.current = some c) (· ≠ Panic.notAChild) := by
    unfold caller
    split
    · exact nofun
    next c hc =>
    split
    · exact nofun
    · exact hc
  have hactor : ∀ {c : Ptr}, s.current = some c → ∃ k, s.procs c = some k := by
    intro c hc
    obtain ⟨k, hk, _⟩ := (Settled.running hsettled hc).actor c rfl
    exact ⟨k, hk⟩
  refine ⟨?_, ?_, ?_⟩
  · intro pid herr
    have hsat : Sat (s.step (.collect pid)) (fun _ => True) (· ≠ Panic.notAChild) := by
      refine Sat.bind hcaller (fun c _ hc => ?_)
      obtain ⟨k, hk⟩ := hactor hc
      exact collect_finds h hb hk
    exact hsat.failure herr rfl
  · intro wait herr
    have hsat : Sat (s.step (.collectany wait)) (fun _ => True) (· ≠ Panic.notAChild) := by
      refine Sat.bind hcaller (fun c _ hc => ?_)
      obtain ⟨k, hk⟩ := hactor hc
      refine Sat.step (deref_eq hk) ?_
      refine Sat.bind (firstExited_errors hfault) (fun found _ _ => ?_)
      split
      · refine Sat.bind (deref_sat hfault) (fun t _ _ => ?_)
        exact collect_finds h hb hk
      split
      · exact Sat.bind (deschedule_errors hfault (by decide)) (fun _ _ _ => trivial)
      · trivial
    exact hsat.failure herr rfl
  intro herr
  have hsat : Sat (s.round .collector) (fun _ => True) (· ≠ Panic.notAChild) := by
    unfold State.round
    split
    · exact nofun
    next self _ =>
    split
    · exact nofun
    next hc =>
    obtain ⟨k, hk⟩ := hactor (not_not.1 hc)
    refine Sat.step (deref_eq hk) ?_
    split
    · refine Sat.bind (R := fun _ => True) ?_ (fun _ _ _ => ?_)
      · refine Sat.step (deref_eq hk) ?_
        exact deschedule_errors hfault (by decide)
      · rw [if_pos rfl]
        trivial
    · refine Sat.bind (deref_sat hfault) (fun t _ _ => ?_)
      exact collect_finds h hb hk
  exact hsat.failure herr rfl

-- ==== exiting

/-- The weakest level asks for nothing that the others do not. -/
theorem Inv.relax (h : Inv lvl ph Q s) : Inv .ready ph [] s := by
  refine ⟨fun p => ?_, h.actor, nofun, nofun, nofun⟩
  have hp := h.proper p
  exact ⟨hp.absent, hp.available, hp.exited, hp.blocked,
    fun hlvl => absurd rfl hlvl, fun hlvl => absurd rfl hlvl, hp.waiting⟩

/-- What a signal needs to get through, and leaves. -/
structure Signable (ph : Phase) (s : State) : Prop where
  inv : Inv .ready ph [] s
  ticketed : Ticketed s

/-- Waking never fails. -/
theorem wakeall_total (h : Signable ph s) (q : QueueId) :
    ∃ s', s.wakeall q = .ok s' ∧ Signable ph s' := by
  obtain ⟨s', hs', _⟩ := h.inv.wakesAll h.ticketed q
  refine ⟨s', hs', ?_, (drains_editing.wakeall hs').tickets h.ticketed⟩
  exact (wakeall_sat h.inv nofun).result hs'

theorem closeAll_total : ∀ {s : State}, Signable ph s → ∃ s', closed.foldlM wakeall s = .ok s' ∧
      Signable ph s' := by
  induction closed with
  | nil =>
    intro s h
    exact ⟨s, rfl, h⟩
  | cons q rest ih =>
    intro s h
    obtain ⟨s₁, hwake, h₁⟩ := wakeall_total h q
    obtain ⟨s', hrest, h'⟩ := ih h₁
    refine ⟨s', ?_, h'⟩
    rw [foldlM_cons, hwake, bind_ok]
    exact hrest

theorem reparent_total {rest : List Ptr}
    (h : Signable (.leaving c (child :: rest)) s) (hne : child ≠ collector)
    (ht : s.procs child = some t) (hk : s.procs collector = some k) :
    ∃ s', reparent collector s child = .ok s' ∧ Signable (.leaving c rest) s' := by
  have hk' : (s.setProc child { t with ppid := k.pid }).procs collector = some k := by
    rw [setProc_procs, update_of_ne hne.symm]
    exact hk
  have hinv := @Inv.adopt _ _ _ _ child _ _ (h.inv.disown ht k.pid) hk' nofun nofun
  have hfirst : Drains s (s.setProc child { t with ppid := k.pid }) := .tweak ht rfl rfl rfl rfl rfl
  have hsecond : Drains (s.setProc child { t with ppid := k.pid })
      ((s.setProc child { t with ppid := k.pid }).setProc collector
        { k with children := k.children ++ [child] }) :=
    .tweak hk' rfl rfl rfl rfl rfl
  obtain ⟨s', hs', h'⟩ := wakeall_total ⟨hinv, (hfirst.trans hsecond).tickets h.ticketed⟩ .collector
  refine ⟨s', ?_, h'⟩
  unfold reparent
  rw [deref_step ht, deref_step hk]
  rw [deref_step hk']
  exact hs'

theorem reparentLoop_total : ∀ {s : State}, Signable (.leaving c C) s → C.Nodup →
      collector ∉ C → (∃ u, s.family collector = some u) →
      (∀ x ∈ C, ∃ m, s.family x = some m) →
      ∃ s', C.foldlM (reparent collector) s = .ok s' ∧ Signable (.leaving c []) s' := by
  induction C with
  | nil =>
    intro s h _ _ _ _
    exact ⟨s, rfl, h⟩
  | cons child rest ih =>
    intro s h hnodup hnot hcollector hall
    rw [nodup_cons] at hnodup
    rw [mem_cons, not_or] at hnot
    obtain ⟨u, hu⟩ := hcollector
    obtain ⟨m, hm⟩ := hall child mem_cons_self
    obtain ⟨t, ht, _⟩ := family_some hm
    obtain ⟨k, hk, _⟩ := family_some hu
    obtain ⟨s₁, hround, h₁⟩ := reparent_total h (Ne.symm hnot.1) ht hk
    obtain ⟨_, _, hfamily, _⟩ := reparent_family (Ne.symm hnot.1) hu hround
    obtain ⟨s', hrest, h'⟩ := ih h₁ hnodup.2 hnot.2 ⟨_, by rw [hfamily, update_self]⟩ (by
        intro x hx
        have hxk : x ≠ collector := fun heq => hnot.2 (heq ▸ hx)
        have hxc : x ≠ child := fun heq => hnodup.1 (heq ▸ hx)
        rw [hfamily, update_of_ne hxk, update_of_ne hxc]
        exact hall x (mem_cons_of_mem child hx))
    refine ⟨s', ?_, h'⟩
    rw [foldlM_cons, hround, bind_ok]
    exact hrest

/-- Nor does the loop that hands the children over. -/
theorem reparentAll_total {k : Ptr} (h : Signable (.running c) s)
    (htree : Rooted s) (ht : s.procs c = some t) (hmortal : t.system = false)
    (hk : s.gCollectorTask = some k) :
    ∃ s', s.reparentAll c = .ok s' ∧ Signable (.running c) s' := by
  obtain ⟨u, hu, hlast⟩ := htree.keeper k hk
  obtain ⟨s₁, hloop, h₁⟩ := reparentLoop_total
    ⟨h.inv.leave ht, h.ticketed⟩ (htree.nodup c _ (family_eq ht))
    (htree.guardian_not_mem hk (family_eq ht) hmortal) ⟨u, hu⟩
    (fun x hx => by
      obtain ⟨_, m, hm, _⟩ := htree.listed c _ (family_eq ht) x hx
      exact ⟨m, hm⟩)
  obtain ⟨t₁, ht₁, _⟩ := h₁.inv.actor c rfl
  refine ⟨s₁.setProc c { t₁ with children := [] }, ?_, h₁.inv.left ht₁, ?_⟩
  · have hloop' : s.reparentLoop t.children = .ok s₁ := by
      unfold reparentLoop
      cases hchildren : t.children with
      | nil =>
        rw [hchildren] at hloop
        exact hloop
      | cons child rest =>
        rw [hk]
        rw [hchildren] at hloop
        exact hloop
    unfold reparentAll
    rw [deref_step ht, hloop', bind_ok, deref_step ht₁]
  · have hset : Drains s₁ (s₁.setProc c { t₁ with children := [] }) :=
      .tweak ht₁ rfl rfl rfl rfl rfl
    exact hset.tickets h₁.ticketed

/-- So an exit comes to its end. -/
theorem exit_total {k : Ptr} (h : Signable (.running c) s) (hs : Sane s)
    (hb : Books s) (ht : s.procs c = some t) (hmortal : t.system = false)
    (hk : s.gCollectorTask = some k) :
    ∃ s', s.exit c es closed = .ok s' := by
  have htree := hs.tree
  obtain ⟨s₁, hchildren, h₁⟩ := reparentAll_total h htree ht hmortal hk
  obtain ⟨K', horphans, hfamily, hstill⟩ := reparentAll_family htree ht hmortal hchildren
  obtain ⟨s₂, hclosed, h₂⟩ := @closeAll_total _ closed _ h₁
  have hclose := steady_turning.closeAll hclosed
  obtain ⟨u, hu, _⟩ := h₂.inv.actor c rfl
  have hmember : some u.member = some { t.member with children := [] } := by
    rw [← family_eq hu, hclose.family, hfamily, update_self]
  have hppid : u.ppid = t.ppid := congrArg Member.parent (Option.some.inj hmember)
  have hdead : Drains s₂ (s₂.setProc c { u with state := .exited, exitstatus := es }) :=
    .awake rfl rfl nofun
  obtain ⟨s₃, htty, h₃⟩ := wakeall_total ⟨h₂.inv.die hu es nofun, hdead.tickets h₂.ticketed⟩ t.tty
  have htty' := steady_turning.wakeall htty
  -- the parent is where it was
  have hava : t.state = .available := by
    obtain ⟨v, hv, hst⟩ := h.inv.actor c rfl
    rw [Option.mem_unique ht hv]
    exact hst
  have hzero : c ≠ 0 := by
    obtain ⟨m, hm, hlast⟩ := htree.root
    exact (mortal_ne ht hmortal hm hlast).symm
  obtain ⟨parent, v, hv, _, _, _, _, hget⟩ := hs.noOrphans hb c t ht (by rw [hava]; decide) hzero
  have hget₃ : s₃.gProcessTable.get u.ppid = .ok (some parent) := by
    rw [htty'.still.table, hppid, ← hget]
    show s₂.gProcessTable.get _ = _
    rw [hclose.still.table, hstill.table]
  obtain ⟨w, hw⟩ : ∃ w, s₃.procs parent = some w := by
    have hex : ∃ m, s₃.family parent = some m := by
      rw [htty'.family, family_setProc, hclose.family, hfamily]
      by_cases hpc : parent = c
      · exact ⟨_, by rw [hpc, update_self]⟩
      · rw [update_of_ne hpc, update_of_ne hpc]
        exact horphans.present (family_eq hv)
    obtain ⟨m, hm⟩ := hex
    obtain ⟨w, hw, _⟩ := family_some hm
    exact ⟨w, hw⟩
  unfold State.exit
  rw [deref_step ht, if_neg (by rw [hmortal]; decide), hchildren,
    bind_ok, hclosed, bind_ok, deref_step hu]
  dsimp only
  rw [htty, bind_ok, hget₃, bind_ok]
  dsimp only
  rw [deref_step hw]
  split
  · rw [reschedule_eq hw, bind_ok]
    exact ⟨_, rfl⟩
  · rw [bind_ok]
    exact ⟨_, rfl⟩

theorem Sane.exitsFreely (h : Sane s) (hsettled : Settled .once [] s)
    (hticketed : Ticketed s) : ExitsFreely s := by
  intro c t hc ht hmortal hcollector es closed
  obtain ⟨k, hk⟩ := Option.ne_none_iff_exists'.1 hcollector
  have hrun := Settled.running hsettled hc
  have hcaller : s.caller = .ok c := by
    unfold caller
    rw [hc]
    dsimp only
    rw [if_neg]
    -- a kernel task is a system process
    have htask : ∀ task, s.taskOf task ≠ some c := by
      intro task htask
      obtain ⟨m, hm, hlast⟩ := h.tasks task c htask
      exact mortal_ne ht hmortal hm hlast rfl
    rintro (hx | hx | hx)
    · exact htask .collector hx
    · exact htask .awaker hx
    · exact htask .deleter hx
  obtain ⟨s', hs'⟩ : ∃ s', s.exit c es (closed.map QueueId.object) = .ok s' :=
    exit_total ⟨hrun.relax, hticketed⟩ h (hrun.books rfl) ht hmortal hk
  refine ⟨s', ?_⟩
  show (s.caller >>= _) = _
  rw [hcaller, bind_ok]
  exact hs'

-- ==== the process tree

/-- Every process has its place in the tree until it is collected, and
then its exit status is delivered, once. Neither exit nor collect fails to
find a relative. -/
theorem process_tree {w : Tended} (h : tended.Reach (fun _ a => Untimed a) w ∨
      tended.Reach (fun w => ExitsSleepless w.state) w) :
    NoOrphans w.state ∧ DeliversOnce w ∧ FindsChildren w.state ∧ ExitsFreely w.state := by
  have hboth : system.Reach ExitsSleepless w.state ∧ DeliversOnce w := by
    rcases h with h | h
    · have hreach := deliversOnce_of_reach (fun s hs => (sleepless_of_untimed hs).1) h
      exact ⟨(sleepless_of_untimed hreach.1).1, hreach.2⟩
    · exact deliversOnce_of_reach (fun _ hs => hs) h
  obtain ⟨hsettled, hticketed, hsane⟩ := sane_of_reach hboth.1
  exact ⟨hsane.noOrphans (hsettled.books rfl), hboth.2,
    hsane.findsChildren hsettled, hsane.exitsFreely hsettled hticketed⟩

/-- A child spawns a child of its own and exits. The grandchild goes to the
collector, and the status of the child to its parent. -/
theorem process_tree_three : ∃ w, tended.Reach (fun _ a => Untimed a) w ∧
    (w.state.procs 6).map ppid = some 1 ∧ w.delivered 5 = [42] ∧
    NoOrphans w.state ∧ DeliversOnce w ∧ FindsChildren w.state ∧
    ExitsFreely w.state := by
  obtain ⟨w, hreach, hppid, hdelivered⟩ := Machine.exists_guarded
    (M := tended) (G := fun _ a => Untimed a) (P := fun w =>
      (w.state.procs 6).map ppid = some 1 ∧ w.delivered 5 = [42]) rfl
    (booted ++ [.spawn 6 (tickets 20), .exit 42 [], .schedule 40, .collect 5])
    (by decide +kernel) (by decide +kernel)
  exact ⟨w, hreach, hppid, hdelivered, process_tree (.inl hreach)⟩

end Puppy.Proc
