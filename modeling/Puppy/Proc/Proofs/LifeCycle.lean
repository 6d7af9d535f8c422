/-
Birth, exit, collection and deletion.

These are the calls that write the tables and the children lists, so here
the books and the family have to be shown, where every other call leaves
them alone. The argument is the same each time: a pointer that is about
to be listed is listed nowhere yet, because every list names living
children of its own process and a pid names one process.
-/
import Puppy.Proc.Proofs.Rules

namespace Puppy.Proc

open Libc Lib State Function List

variable {lvl : Level} {ph : Phase} {Q closed : List QueueId} {s s' : State}
  {p c : Ptr} {q : QueueId} {t t' u u' : Process} {child k x : Ptr} {pid : Pid}
  {rest : List Ptr}

-- ==== what waking leaves alone

/-- The parts of the state that waking up a process does not touch. -/
structure SameRest (s s' : State) : Prop where
  current : s'.current = s.current
  sleep : s'.gSleepQueue = s.gSleepQueue
  collector : s'.gCollectorTask = s.gCollectorTask
  awaker : s'.gAwakerTask = s.gAwakerTask
  deleter : s'.gDeleterTask = s.gDeleterTask

theorem SameRest.refl (s : State) : SameRest s s := ⟨rfl, rfl, rfl, rfl, rfl⟩

theorem SameRest.trans {s₁ s₂ s₃ : State} (h : SameRest s₁ s₂)
    (h' : SameRest s₂ s₃) : SameRest s₁ s₃ :=
  ⟨h'.current.trans h.current, h'.sleep.trans h.sleep,
    h'.collector.trans h.collector, h'.awaker.trans h.awaker,
    h'.deleter.trans h.deleter⟩

theorem SameRest.sleepCount (h : SameRest s s') (p : Ptr) (token : Nat) :
    s'.sleepCount p token = s.sleepCount p token := by
  unfold State.sleepCount
  rw [h.sleep]

theorem reschedule_rest (h : s.reschedule p = .ok s') : SameRest s s' := by
  obtain ⟨t, _, h⟩ := ok_bind h
  exact of_ok h ⟨rfl, rfl, rfl, rfl, rfl⟩

theorem sameRest_waking : Waking SameRest := by
  refine ⟨.refl, .trans, ?_⟩
  intro s q e rest r _ h
  rcases wakeEntry_cases h with heq | ⟨t, _, _, heq⟩
  all_goals
    rw [heq]
    exact ⟨rfl, rfl, rfl, rfl, rfl⟩

/-- Waking up, with what it leaves alone. -/
theorem wakeall_sat_rest (h : Inv lvl ph Q s) (hq : lvl = .fresh → q ∈ Q) :
    Sat (s.wakeall q) (fun s' => Inv lvl ph Q s' ∧ SameRest s s') (Tolerated lvl) :=
  (wakeall_sat h hq).and (fun _ hw => sameRest_waking.wakeall hw)

theorem wakeone_sat_rest (h : Inv lvl ph Q s) (hq : lvl = .fresh → q ∈ Q) :
    Sat (s.wakeone q) (fun s' => Inv lvl ph Q s' ∧ SameRest s s') (Tolerated lvl) :=
  (wakeone_sat h hq).and (fun _ hw => sameRest_waking.wakeoneLoop hw)

-- ==== handing the children over

theorem ne_of_state (hk : s.procs k = some u) (hp : s.procs p = some t)
    (hne : u.state ≠ t.state) : k ≠ p := by
  intro heq
  rw [heq, hp] at hk
  exact hne (by rw [Option.some.inj hk])

/-- Processes with the same pid as the exiting one are that one. -/
theorem Inv.child_unlisted (h : Inv .once ph Q s) (hc : s.procs c = some t)
    (hchild : ChildOf s t.pid child) (hk : s.procs k = some u) (hne : k ≠ c)
    (hph : ∀ rest, ph ≠ .leaving k rest) :
    child ∉ u.children := by
  intro hmem
  obtain ⟨v, hv, hppid, _⟩ := hchild
  obtain ⟨w, hw, hppid', _⟩ := (h.family rfl).listed k u hk hph child hmem
  have hvw : w = v := Option.mem_unique hw hv
  rw [hvw, hppid] at hppid'
  exact hne ((h.books rfl).pid_inj hc hk hppid').symm

theorem childOf_setProc_ne (hx : x ≠ p) : ChildOf (s.setProc p t') pid x ↔ ChildOf s pid x := by
  unfold ChildOf
  rw [setProc_procs, update_of_ne hx]

theorem childOf_setProc (hproc : s.procs p = some t) (hppid : t'.ppid = t.ppid)
    (hst : t'.state = t.state) :
    ChildOf (s.setProc p t') pid x ↔ ChildOf s pid x := by
  by_cases hx : x = p
  · subst hx
    unfold ChildOf
    simp only [setProc_procs, update_self, hproc, Option.some.injEq, exists_eq_left', hppid, hst]
  · exact childOf_setProc_ne hx

/-- A process in the new state has a record in the old one, with the same
pid and, but for the process that changed, the same children. -/
theorem setProc_back (hu' : (s.setProc p t').procs k = some u')
    (hproc : s.procs p = some t) (hpid : t'.pid = t.pid) :
    ∃ u, s.procs k = some u ∧ u'.pid = u.pid ∧
      u'.children = if k = p then t'.children else u.children := by
  rcases update_eq_some hu' with ⟨hk, hu'⟩ | ⟨hk, hu'⟩
  · rw [← Option.some.inj hu']
    exact ⟨t, hk ▸ hproc, hpid, (if_pos hk).symm⟩
  · exact ⟨u', hu', rfl, by rw [if_neg hk]⟩

theorem setProc_same (hu' : (s.setProc p t').procs k = some u')
    (hproc : s.procs p = some t) (hpid : t'.pid = t.pid)
    (hchildren : t'.children = t.children) :
    ∃ u, s.procs k = some u ∧ u'.pid = u.pid ∧ u'.children = u.children := by
  obtain ⟨u, hu, hup, huc⟩ := setProc_back hu' hproc hpid
  refine ⟨u, hu, hup, ?_⟩
  by_cases hk : k = p
  · subst hk
    rw [huc, if_pos rfl, hchildren, Option.mem_unique hu hproc]
  · rw [huc, if_neg hk]

/-- A process that keeps its kin does not change anybody's family. -/
theorem Family.setProc (hf : Family ph s) (hproc : s.procs p = some t)
    (hpid : t'.pid = t.pid) (hppid : t'.ppid = t.ppid)
    (hchildren : t'.children = t.children)
    (hst : t.state ≠ .collected → t'.state ≠ .collected) :
    Family ph (s.setProc p t') := by
  have hchild : ∀ {pid x}, ChildOf s pid x → ChildOf (s.setProc p t') pid x := by
    intro pid x hx
    obtain ⟨u, hu, hup, hust⟩ := hx
    by_cases hxp : x = p
    · subst hxp
      have hut : u = t := Option.mem_unique hu hproc
      rw [hut] at hup hust
      exact ⟨t', update_self .., hppid.trans hup, hst hust⟩
    · exact (childOf_setProc_ne hxp).2 ⟨u, hu, hup, hust⟩
  refine hf.restrict ?_ (fun _ _ _ _ _ _ hx => hchild hx) ?_
  · intro k u' hu' hph
    obtain ⟨u, hu, hup, huc⟩ := setProc_same hu' hproc hpid hchildren
    exact .inr ⟨u, hu, hph, hup, huc ▸ .refl _⟩
  intro k u' rest hph hu'
  obtain ⟨u, hu, hup, _⟩ := setProc_back hu' hproc hpid
  obtain ⟨hnodup, hall⟩ := hf.pending k u rest hph hu
  rw [hup]
  exact ⟨hnodup, fun x hx => hchild (hall x hx)⟩

/-- The exiting process lets go of its next child. -/
theorem Inv.disown (h : Inv lvl (.leaving c (child :: rest)) Q s)
    (hproc : s.procs child = some u) (pid : Pid) :
    Inv lvl (.leaving c rest) Q (s.setProc child { u with ppid := pid }) := by
  refine h.rekin hproc rfl rfl rfl rfl rfl rfl (fun hlvl => ?_)
  subst hlvl
  obtain ⟨tc, htc, _⟩ := h.actor c rfl
  obtain ⟨hnodup, hpending⟩ := (h.family rfl).pending c tc _ rfl htc
  have hchild := hpending child mem_cons_self
  have hnotc : ∀ {k : Ptr}, (∀ r, Phase.leaving c rest ≠ .leaving k r) →
      k ≠ c ∧ ∀ r, Phase.leaving c (child :: rest) ≠ .leaving k r := by
    intro k hph
    have hne : k ≠ c := fun heq => hph rest (by rw [heq])
    refine ⟨hne, fun r heq => ?_⟩
    injection heq with hck _
    exact hne hck.symm
  refine (h.family rfl).restrict ?_ ?_ ?_
  · intro k t' ht' hph
    obtain ⟨w, hw, hpidw, hchw⟩ := setProc_same ht' hproc rfl rfl
    exact .inr ⟨w, hw, (hnotc hph).2, hpidw, hchw ▸ .refl _⟩
  · intro k t' x ht' hph hx
    obtain ⟨hne, hph'⟩ := hnotc hph
    obtain ⟨w, hw, _, hchw⟩ := setProc_same ht' hproc rfl rfl
    rw [hchw] at hx
    have hxc : x ≠ child := fun heq => h.child_unlisted htc hchild hw hne hph' (heq ▸ hx)
    exact (childOf_setProc_ne hxc).2
  intro k t' r hph ht'
  cases hph
  obtain ⟨w, hw, hpidw, _⟩ := setProc_back ht' hproc rfl
  have hwt : w = tc := Option.mem_unique hw htc
  obtain ⟨hnot, hrest⟩ := nodup_cons.1 hnodup
  refine ⟨hrest, fun x hx => ?_⟩
  have hxc : x ≠ child := fun heq => hnot (heq ▸ hx)
  rw [childOf_setProc_ne hxc, hpidw, hwt]
  exact hpending x (mem_cons_of_mem _ hx)

/-- A process gets one more child. -/
theorem Inv.adopt {v : Process} (h : Inv lvl ph Q s)
    (hproc : s.procs k = some v) (hchild : lvl = .once → ChildOf s v.pid child)
    (hnew : lvl = .once → child ∉ v.children) :
    Inv lvl ph Q (s.setProc k { v with children := v.children ++ [child] }) := by
  refine h.rekin hproc rfl rfl rfl rfl rfl rfl (fun hlvl => ?_)
  have hf := h.family hlvl
  refine ⟨?_, ?_, ?_⟩
  · intro k' t' ht' hph x hx
    obtain ⟨w, hw, hpidw, hchw⟩ := setProc_back ht' hproc rfl
    rw [hchw] at hx
    refine Iff.mpr (childOf_setProc hproc rfl rfl) ?_
    rw [hpidw]
    by_cases hk : k' = k
    · subst hk
      have hwv : w = v := Option.mem_unique hw hproc
      rw [if_pos rfl] at hx
      rcases mem_append.1 hx with hx | hx
      · exact hf.listed k' w hw hph x (hwv ▸ hx)
      · rw [mem_singleton.1 hx, hwv]
        exact hchild hlvl
    · rw [if_neg hk] at hx
      exact hf.listed k' w hw hph x hx
  · intro k' t' ht' hph
    obtain ⟨w, hw, _, hchw⟩ := setProc_back ht' hproc rfl
    rw [hchw]
    by_cases hk : k' = k
    · subst hk
      have hwv : w = v := Option.mem_unique hw hproc
      rw [if_pos rfl]
      refine List.Nodup.append (hwv ▸ hf.nodup k' w hw hph) (nodup_singleton child) ?_
      intro x hx hx'
      rw [mem_singleton.1 hx'] at hx
      exact hnew hlvl hx
    · rw [if_neg hk]
      exact hf.nodup k' w hw hph
  · intro k' t' rest hph ht'
    obtain ⟨w, hw, hpidw, _⟩ := setProc_back ht' hproc rfl
    obtain ⟨hnodup, hall⟩ := hf.pending k' w rest hph hw
    refine ⟨hnodup, fun x hx => ?_⟩
    refine Iff.mpr (childOf_setProc hproc rfl rfl) ?_
    rw [hpidw]
    exact hall x hx

theorem reparent_sat {collector : Ptr}
    (h : Inv lvl (.leaving c (child :: rest)) Q s) (hne : collector ≠ c)
    (hQ : lvl = .fresh → .collector ∈ Q) :
    Sat (reparent collector s child) (fun s' => Inv lvl (.leaving c rest) Q s' ∧ SameRest s s')
      (Tolerated lvl) := by
  refine Sat.bind (deref_sat tolerated_fault) (fun u _ hu => ?_)
  refine Sat.bind (deref_sat tolerated_fault) (fun k _ hk => ?_)
  refine Sat.bind (deref_sat tolerated_fault) (fun k' _ hk' => ?_)
  obtain ⟨w, hw, hpid, hchildren⟩ := setProc_back hk' hu rfl
  have hwk : w = k := Option.mem_unique hw hk
  have hpending : lvl = .once → ∃ tc, s.procs c = some tc ∧ ChildOf s tc.pid child := by
    intro hlvl
    obtain ⟨tc, htc, _⟩ := h.actor c rfl
    exact ⟨tc, htc, ((h.family hlvl).pending c tc _ rfl htc).2 child mem_cons_self⟩
  refine (wakeall_sat_rest
    ((h.disown hu k.pid).adopt hk' ?_ ?_) hQ).mono (fun s' hs' => ⟨hs'.1, ?_⟩)
  · intro hlvl
    obtain ⟨tc, htc, v, hv, _, hst⟩ := hpending hlvl
    have hvu : v = u := Option.mem_unique hv hu
    exact ⟨_, update_self .., by rw [hpid, hwk], hvu ▸ hst⟩
  · intro hlvl hmem
    subst hlvl
    obtain ⟨tc, htc, hchild⟩ := hpending rfl
    refine h.child_unlisted htc hchild hw hne (fun r heq => ?_) ?_
    · injection heq with hck _
      exact hne hck.symm
    rw [hchildren] at hmem
    by_cases hcc : collector = child
    · rw [if_pos hcc] at hmem
      have hwu : w = u := Option.mem_unique hw (hcc ▸ hu)
      exact hwu ▸ hmem
    · rw [if_neg hcc] at hmem
      exact hmem
  · exact ⟨hs'.2.current, hs'.2.sleep, hs'.2.collector, hs'.2.awaker, hs'.2.deleter⟩

/-- The exiting process starts to hand its children over. -/
theorem Inv.leave (h : Inv lvl (.running c) Q s) (hproc : s.procs c = some t) :
    Inv lvl (.leaving c t.children) Q s := by
  refine ⟨h.proper, h.actor, h.quiet, h.books, fun hlvl => ?_⟩
  have hf := h.family hlvl
  refine ⟨fun k u hu _ => hf.listed k u hu nofun, fun k u hu _ => hf.nodup k u hu nofun, ?_⟩
  intro k u rest hph hu
  cases hph
  rw [← Option.mem_unique hu hproc]
  exact ⟨hf.nodup c u hu nofun, hf.listed c u hu nofun⟩

/-- It has none left. -/
theorem Inv.left (h : Inv lvl (.leaving c []) Q s) (hproc : s.procs c = some t) :
    Inv lvl (.running c) Q (s.setProc c { t with children := [] }) := by
  refine h.rekin hproc rfl rfl rfl rfl rfl rfl (fun hlvl => ?_)
  have hother : ∀ {k : Ptr}, k ≠ c → ∀ rest, Phase.leaving c [] ≠ .leaving k rest := by
    intro k hk rest heq
    injection heq with hck _
    exact hk hck.symm
  refine (h.family hlvl).restrict ?_
    (fun _ _ _ _ _ _ => Iff.mpr (childOf_setProc hproc rfl rfl)) nofun
  intro k t' ht' _
  obtain ⟨w, hw, hpid, hchildren⟩ := setProc_back ht' hproc rfl
  by_cases hk : k = c
  · rw [if_pos hk] at hchildren
    exact .inl hchildren
  · rw [if_neg hk] at hchildren
    exact .inr ⟨w, hw, hother hk, hpid, hchildren ▸ .refl _⟩

theorem reparentLoop_sat {children : List Ptr}
    (h : Inv lvl (.leaving c children) Q s) (hc : s.gCollectorTask ≠ some c)
    (hQ : lvl = .fresh → .collector ∈ Q) :
    Sat (s.reparentLoop children) (fun s' => Inv lvl (.leaving c []) Q s' ∧ SameRest s s')
      (Tolerated lvl) := by
  unfold reparentLoop
  cases children with
  | nil => exact ⟨h, .refl s⟩
  | cons child rest =>
    cases hcol : s.gCollectorTask with
    | none => exact tolerated_fault
    | some k =>
      have hne : k ≠ c := fun heq => hc (heq ▸ hcol)
      -- each round leaves one child fewer to hand over
      refine @Sat.foldlM Panic Ptr State (Tolerated lvl)
        (fun l s' => Inv lvl (.leaving c l) Q s' ∧ SameRest s s')
        (reparent k) ?_ (child :: rest) s ⟨h, .refl s⟩
      intro b l s₁ hs₁
      refine (reparent_sat hs₁.1 hne hQ).mono (fun s₂ hs₂ => ?_)
      exact ⟨hs₂.1, hs₁.2.trans hs₂.2⟩

theorem reparentAll_sat (h : Inv lvl (.running c) Q s)
    (hc : s.gCollectorTask ≠ some c) (hQ : lvl = .fresh → .collector ∈ Q) :
    Sat (s.reparentAll c) (fun s' => Inv lvl (.running c) Q s' ∧ SameRest s s')
      (Tolerated lvl) := by
  obtain ⟨t, ht, _⟩ := h.actor c rfl
  refine Sat.step (deref_eq ht) ?_
  refine Sat.bind (reparentLoop_sat (h.leave ht) hc hQ) (fun s' _ hs' => ?_)
  refine Sat.bind (deref_sat tolerated_fault) (fun t' _ ht' => ?_)
  exact ⟨hs'.1.left ht', hs'.2.trans ⟨rfl, rfl, rfl, rfl, rfl⟩⟩

-- ==== exit

/-- Closing the file handles of a process wakes queues. -/
theorem closeAll_sat (h : Inv lvl ph Q s) (hQ : lvl = .fresh → ∀ q ∈ closed, q ∈ Q) :
    Sat (closed.foldlM wakeall s) (fun s' => Inv lvl ph Q s' ∧ SameRest s s') (Tolerated lvl) := by
  have hloop := @Sat.foldlM Panic QueueId State (Tolerated lvl)
    (fun l s' => (lvl = .fresh → ∀ q ∈ l, q ∈ Q) ∧ Inv lvl ph Q s' ∧
      SameRest s s') wakeall ?_ closed s ⟨hQ, h, .refl s⟩
  · exact hloop.mono (fun _ hs' => hs'.2)
  intro q l s₁ hs₁
  obtain ⟨hl, hinv, hrest⟩ := hs₁
  refine (wakeall_sat_rest hinv fun hlvl => hl hlvl q mem_cons_self).mono (fun s₂ hs₂ => ?_)
  exact ⟨fun hlvl q' hq' => hl hlvl q' (mem_cons_of_mem q hq'), hs₂.1, hrest.trans hs₂.2⟩

theorem get_sat {t : ProcessTable} :
    Sat (t.get pid) (fun found => t.mTable pid = found) (Tolerated lvl) := by
  exact Sat.reject (fun _ => tolerated_of_ne (by decide)) (fun _ => rfl)

/-- The running process dies. It is still in the ready queue, so the
exited table does not have it yet. -/
theorem Inv.die (h : Inv lvl (.running c) Q s) (hproc : s.procs c = some u)
    (es : Nat) (hsleep : lvl = .once → ∀ token, s.sleepCount c token = 0) :
    Inv lvl .idle Q (s.setProc c { u with state := .exited, exitstatus := es }) := by
  obtain ⟨v, hv, hava⟩ := h.actor c rfl
  have hvu : v = u := Option.mem_unique hv hproc
  rw [hvu] at hava
  have hready := h.readyCount_actor rfl
  refine h.change c (fun x hx => standing_setProc_ne _ hx) ?_ (.inr rfl) (fun k hk => by cases hk)
    (fun _ q _ hw => absurd (h.waitCount_actor rfl q) hw)
    (fun hlvl => ?_) (fun hlvl => ?_)
  · rw [standing_setProc_self]
    refine (Standing.proper_iff rfl).2 ⟨fun _ => hready,
      fun _ => ⟨(h.proper c).ready_le, nofun⟩, fun _ hne => absurd rfl hne,
      ?_, ?_, ?_⟩
    · intro hlvl token hn
      cases lvl with
      | ready => exact absurd rfl hlvl
      | fresh => exact absurd (h.sleepCount_actor rfl token) hn
      | once => exact absurd (hsleep rfl token) hn
    · intro hlvl hcol
      have hst := ((h.agrees hproc).collected hlvl hcol).2
      cases hava.symm.trans hst
    · intro q hq
      exact absurd (h.waitCount_actor rfl q) hq
  · refine (h.books hlvl).update hproc rfl rfl rfl rfl
      (fun _ _ _ => Iff.rfl) (fun _ _ => rfl) ?_ ?_ (fun _ _ => rfl) ?_
    · intro pid hs
      obtain ⟨_, _, _, _, hzero⟩ := (h.books hlvl).slot pid c hs
      omega
    · intro _ hzero
      have hzero : s.readyCount c = 0 := hzero
      omega
    show s.deaths c = deathsOf _ (s.readyCount c)
    rw [(h.books hlvl).counted c u hproc, hready]
    unfold deathsOf
    rw [hava]
    rfl
  · have hrun : Family (.running c) (s.setProc c { u with state := .exited, exitstatus := es }) :=
      (h.family hlvl).setProc hproc rfl rfl rfl (fun _ hcol => by cases hcol)
    exact hrun.rephase nofun nofun

/-- A process that collects waits for nothing else. -/
theorem Inv.wake_collecting (h : Inv lvl ph Q s) (hproc : s.procs p = some t)
    (hst : t.state = .collecting) (hpid : t'.pid = t.pid)
    (hppid : t'.ppid = t.ppid) (hchildren : t'.children = t.children)
    (hst' : t'.state = .available) :
    Inv lvl ph Q (s.awaken p t') := by
  refine h.awaken hproc (by rw [hst]; decide) (by rw [hst]; decide)
    (fun _ => by rw [hst]; decide) hpid hppid hchildren hst' ?_ ?_
  · intro hlvl token
    subst hlvl
    by_contra hn
    obtain ⟨hsleep, _, _⟩ := (h.agrees hproc).asleep (by decide) token hn
    rw [hst] at hsleep
    rcases hsleep with hsleep | hsleep <;> cases hsleep
  · intro q
    by_contra hn
    obtain ⟨_, hw, _⟩ := (h.agrees hproc).waiting q hn
    cases hst.symm.trans hw

/-- `exit` by the running process. -/
theorem exit_sat {es : Nat} (h : Inv lvl (.running c) Q s) (ht : s.procs c = some t)
    (hc : s.gCollectorTask ≠ some c) (hQ : lvl = .fresh →
      .collector ∈ Q ∧ (∀ q ∈ closed, q ∈ Q) ∧ t.tty ∈ Q)
    (hsleep : lvl = .once → ∀ token, s.sleepCount c token = 0) :
    Sat (s.exit c es closed) (Idle lvl Q) (Tolerated lvl) := by
  refine Sat.step (deref_eq ht) ?_
  refine Sat.reject (fun _ => tolerated_of_ne (by decide)) (fun _ => ?_)
  refine Sat.bind (reparentAll_sat h hc fun hlvl => (hQ hlvl).1) (fun s₁ _ hs₁ => ?_)
  refine Sat.bind (closeAll_sat hs₁.1 fun hlvl => (hQ hlvl).2.1) (fun s₂ _ hs₂ => ?_)
  refine Sat.bind (deref_sat tolerated_fault) (fun u _ hu => ?_)
  have hdie := hs₂.1.die hu es (fun hlvl token => by
    rw [(hs₁.2.trans hs₂.2).sleepCount, hsleep hlvl token])
  refine Sat.bind (wakeall_sat hdie fun hlvl => (hQ hlvl).2.2) (fun s₃ _ hs₃ => ?_)
  refine Sat.bind get_sat (fun found _ _ => ?_)
  cases found with
  | none => exact tolerated_fault
  | some parent =>
    refine Sat.bind (deref_sat tolerated_fault) (fun k _ hk => ?_)
    by_cases hcol : k.state = .collecting
    · rw [if_pos hcol]
      refine Sat.step (reschedule_eq hk) ?_
      have hwake : Inv lvl .idle Q (s₃.awaken parent (rescheduled k)) :=
        hs₃.wake_collecting hk hcol rfl rfl rfl rfl
      exact hwake.switch
    · rw [if_neg hcol]
      exact hs₃.switch

-- ==== collection

/-- The invariant between two steps. -/
def Settled (lvl : Level) (Q : List QueueId) (s : State) : Prop :=
  Inv lvl (Phase.ofCurrent s.current) Q s

theorem Idle.settled (h : Idle lvl Q s) : Settled lvl Q s := by
  unfold Settled
  rw [h.1]
  exact h.2

theorem Inv.settled (h : Inv lvl (.running c) Q s) (hc : s.current = some c) : Settled lvl Q s := by
  unfold Settled
  rw [hc]
  exact h

/-- A process drops a child from its list, and then no list has it. -/
theorem Inv.disclaim {k : Process} (h : Inv lvl (.running c) Q s)
    (hproc : s.procs c = some k) (hmem : child ∈ k.children) :
    Inv lvl (.running c) Q (s.setProc c { k with children := k.children.erase child }) ∧
      (lvl = .once → ∀ x u, (s.setProc c
        { k with children := k.children.erase child }).procs x = some u →
          child ∉ u.children) := by
  have hkeep : ∀ {x : Ptr} {w u : Process}, s.procs x = some w →
      u.children = (if x = c then k.children.erase child else w.children) →
      u.children.Sublist w.children := by
    intro x w u hw hu
    rw [hu]
    by_cases hx : x = c
    · subst hx
      rw [if_pos rfl, Option.mem_unique hw hproc]
      exact erase_sublist
    · rw [if_neg hx]
  constructor
  · refine h.rekin hproc rfl rfl rfl rfl rfl rfl (fun hlvl => ?_)
    have hf := h.family hlvl
    refine hf.restrict ?_ (fun _ _ _ _ _ _ => Iff.mpr (childOf_setProc hproc rfl rfl)) nofun
    intro x u hu _
    obtain ⟨w, hw, hpid, hchildren⟩ := setProc_back hu hproc rfl
    exact .inr ⟨w, hw, nofun, hpid, hkeep hw hchildren⟩
  intro hlvl x u hu hchild
  subst hlvl
  have hf := h.family rfl
  obtain ⟨w, hw, _, hchildren⟩ := setProc_back hu hproc rfl
  rw [hchildren] at hchild
  by_cases hx : x = c
  · rw [if_pos hx] at hchild
    exact (hf.nodup c k hproc nofun).not_mem_erase hchild
  · rw [if_neg hx] at hchild
    exact h.child_unlisted hproc (hf.listed c k hproc nofun child hmem) hw hx nofun hchild

/-- What `collect` does to a dead child that no list has any more. -/
def State.bury (s : State) (p : Ptr) (t : Process) : State :=
  { s.setProc p { t with state := .collected } with
    gExitedProcesses := s.gExitedProcesses.free t.pid
    gCollectedProcessList := s.gCollectedProcessList ++ [p] }

theorem standing_bury_self (t : Process) : (s.bury p t).standing p =
    { s.standing p with
      proc := some { t with state := .collected }
      collected := s.collectedCount p + 1 } := by
  have hcol : (s.bury p t).collectedCount p = s.collectedCount p + 1 := by
    show (s.gCollectedProcessList ++ [p]).count p = _
    rw [count_append, count_singleton_self]
    rfl
  have hproc : (s.bury p t).procs p = some { t with state := .collected } := update_self ..
  unfold standing
  rw [hcol, hproc]
  rfl

theorem standing_bury_ne (t : Process) (hx : x ≠ p) : (s.bury p t).standing x = s.standing x := by
  have hcol : (s.bury p t).collectedCount x = s.collectedCount x := by
    show (s.gCollectedProcessList ++ [p]).count x = _
    rw [count_append, count_singleton, if_neg (by simpa using hx.symm)]
    rfl
  have hproc : (s.bury p t).procs x = s.procs x := update_of_ne hx ..
  unfold standing
  rw [hcol, hproc]
  rfl

/-- The slot of the buried process is free again; no other slot changes. -/
theorem Books.bury (hb : Books s) (hproc : s.procs p = some t)
    (hex : t.state = .exited) (hzero : s.readyCount p = 0) :
    Books (s.bury p t) := by
  have hslot := hb.dead p t hproc hex hzero
  refine hb.update hproc rfl rfl rfl rfl ?_ (fun _ _ => rfl) ?_ ?_ (fun _ _ => rfl) ?_
  · intro pid x hx
    show update s.gExitedProcesses.mTable t.pid none pid = some x ↔ _
    by_cases hpid : pid = t.pid
    · rw [hpid, update_self, hslot]
      exact iff_of_false nofun fun hsome => hx (Option.some.inj hsome).symm
    · rw [update_of_ne hpid]
  · intro pid hs
    rcases update_eq_some hs with ⟨_, ⟨⟩⟩ | ⟨hpid, hs⟩
    · obtain ⟨u, hu, hp, _⟩ := hb.slot pid p hs
      rw [Option.mem_unique hu hproc] at hp
      exact absurd hp.symm hpid
  · nofun
  · show s.deaths p = deathsOf _ (s.readyCount p)
    rw [hb.counted p t hproc, hzero]
    unfold deathsOf
    rw [hex]
    rfl

theorem Family.bury (hf : Family (.running c) s) (hproc : s.procs p = some t)
    (hfree : ∀ x u, s.procs x = some u → p ∉ u.children) :
    Family (.running c) (s.bury p t) := by
  have hback : ∀ {x : Ptr} {u : Process}, (s.bury p t).procs x = some u →
      ∃ w, s.procs x = some w ∧ u.pid = w.pid ∧ u.children = w.children := by
    intro x u hu
    have hu : (s.setProc p { t with state := .collected }).procs x = some u := hu
    exact setProc_same hu hproc rfl rfl
  refine hf.restrict ?_ ?_ nofun
  · intro x u hu _
    obtain ⟨w, hw, hpid, hchildren⟩ := hback hu
    exact .inr ⟨w, hw, nofun, hpid, hchildren ▸ .refl _⟩
  intro x u y hu _ hy
  obtain ⟨w, hw, _, hchildren⟩ := hback hu
  rw [hchildren] at hy
  have hyp : y ≠ p := fun heq => hfree x w hw (heq ▸ hy)
  exact (childOf_setProc_ne hyp).2

theorem Inv.bury (h : Inv lvl (.running c) Q s) (hproc : s.procs p = some t)
    (hex : t.state = .exited)
    (hfree : lvl = .once → ∀ x u, s.procs x = some u → p ∉ u.children) :
    Inv lvl (.running c) Q (s.bury p t) := by
  have hp := h.agrees hproc
  have hzero : s.readyCount p = 0 := (hp.exited hex).2 rfl
  have hwait : ∀ q, s.waitCount p q = 0 := by
    intro q
    by_contra hn
    obtain ⟨_, hw, _⟩ := hp.waiting q hn
    cases hex.symm.trans hw
  refine h.change p (fun x hx => standing_bury_ne t hx) ?_ (.inl rfl) ?_
    (fun _ q _ hw => absurd (hwait q) hw)
    (fun hlvl => (h.books hlvl).bury hproc hex hzero)
    (fun hlvl => (h.family hlvl).bury hproc (hfree hlvl))
  · rw [standing_bury_self]
    refine (Standing.proper_iff rfl).2 ⟨nofun, nofun, fun _ _ => hzero, ?_, ?_, ?_⟩
    · intro hlvl token hn
      exact absurd hex ((hp.asleep hlvl token hn).alive hlvl).1
    · intro hlvl _
      have hnone : s.collectedCount p = 0 := by
        by_contra hn
        have hcol := (hp.collected hlvl hn).2
        cases hex.symm.trans hcol
      refine ⟨?_, rfl⟩
      rw [hnone]
    · intro q hq
      exact absurd (hwait q) hq
  · intro k hk
    cases hk
    obtain ⟨u, hu, hav⟩ := h.actor c rfl
    have hne := ne_of_state hu hproc (by rw [hav, hex]; decide)
    exact ⟨u, (update_of_ne hne ..).trans hu, hav⟩

theorem collectDead_sat (h : Inv lvl (.running c) Q s)
    (hproc : s.procs p = some t) (hex : t.state = .exited)
    (hQ : lvl = .fresh → .deleter ∈ Q) :
    Sat (s.collectDead c p) (fun s' => Inv lvl (.running c) Q s' ∧ SameRest s s')
      (Tolerated lvl) := by
  obtain ⟨k, hk, hava⟩ := h.actor c rfl
  have hne := ne_of_state hproc hk (by rw [hava, hex]; decide)
  refine Sat.step (deref_eq hk) ?_
  by_cases hmem : p ∈ k.children
  · rw [if_pos hmem]
    obtain ⟨hinv, hfree⟩ := h.disclaim hk hmem
    have hproc₁ : (s.setProc c { k with children := k.children.erase p }).procs p = some t :=
      (update_of_ne hne ..).trans hproc
    refine Sat.step (deref_eq hproc₁) ?_
    refine Sat.step (deref_eq (update_self ..)) ?_
    rw [if_neg (fun hst => hst rfl)]
    refine (wakeall_sat_rest (hinv.bury hproc₁ hex hfree) hQ).mono (fun s' hs' => ⟨hs'.1, ?_⟩)
    exact ⟨hs'.2.current, hs'.2.sleep, hs'.2.collector, hs'.2.awaker, hs'.2.deleter⟩
  · rw [if_neg hmem]
    exact tolerated_of_ne (by decide)

/-- `collect` by the running process. -/
theorem collect_sat (h : Inv lvl (.running c) Q s) (hc : s.current = some c)
    (hQ : lvl = .fresh → .deleter ∈ Q) :
    Sat (s.collect c pid) (Settled lvl Q) (Tolerated lvl) := by
  refine Sat.bind get_sat (fun found _ _ => ?_)
  cases found with
  | none => exact tolerated_of_ne (by decide)
  | some task =>
    refine Sat.bind (deref_sat tolerated_fault) (fun t _ ht => ?_)
    refine Sat.bind get_sat (fun parent _ _ => ?_)
    refine Sat.reject (fun _ => tolerated_of_ne (by decide)) (fun _ => ?_)
    by_cases hex : t.state ≠ .exited
    · rw [if_pos hex]
      obtain ⟨_, _, hdes, hidle⟩ := h.deschedule (.inr rfl)
      exact Sat.step hdes hidle.switch.settled
    rw [if_neg hex]
    refine (collectDead_sat h ht (not_not.1 hex) hQ).mono (fun s' hs' => ?_)
    exact hs'.1.settled (hs'.2.current.trans hc)

theorem firstExited_sat : ∀ {l : List Ptr},
    Sat (s.firstExited l) (fun found => match found with
      | some p => p ∈ l ∧ ∃ t, s.procs p = some t ∧ t.state = .exited
      | none => ∀ p ∈ l, ∃ t, s.procs p = some t ∧ t.state ≠ .exited)
      (Tolerated lvl) := by
  intro l
  induction l with
  | nil =>
    intro p hp
    cases hp
  | cons p rest ih =>
    refine Sat.bind (deref_sat tolerated_fault) (fun t _ ht => ?_)
    by_cases hex : t.state = .exited
    · rw [if_pos hex]
      exact ⟨mem_cons_self, t, ht, hex⟩
    rw [if_neg hex]
    refine ih.mono (fun found hfound => ?_)
    cases found with
    | some x => exact ⟨mem_cons_of_mem p hfound.1, hfound.2⟩
    | none =>
      intro x hx
      rcases mem_cons.1 hx with heq | hmem
      · rw [heq]
        exact ⟨t, ht, hex⟩
      · exact hfound x hmem

/-- `collectany` by the running process. -/
theorem collectany_sat {wait : Bool} (h : Inv lvl (.running c) Q s)
    (hc : s.current = some c) (hQ : lvl = .fresh → .deleter ∈ Q) :
    Sat (s.collectany c wait) (Settled lvl Q) (Tolerated lvl) := by
  refine Sat.bind (deref_sat tolerated_fault) (fun k _ _ => ?_)
  refine Sat.bind firstExited_sat (fun found _ _ => ?_)
  cases found with
  | some child =>
    refine Sat.bind (deref_sat tolerated_fault) (fun t _ _ => ?_)
    exact collect_sat h hc hQ
  | none =>
    cases wait with
    | false => exact h.settled hc
    | true =>
      obtain ⟨_, _, hdes, hidle⟩ := h.deschedule (.inr rfl)
      exact Sat.step hdes hidle.switch.settled

end Puppy.Proc
