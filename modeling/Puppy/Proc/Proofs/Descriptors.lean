/-
Who owns which pid and which descriptor.

A bitmap hands out only what nobody has, so pids and places are distinct
in every run, however often the bitmaps wrap around (`Owners`). The
descriptors themselves are right as long as every process is deleted in
step with its pid. After a wrap it is not, and the deleter first leaves a
descriptor behind and then, when the pids have wrapped around as well,
clears one that is in use.
-/
import Puppy.Proc.Descriptors
import Puppy.Proc.Proofs.Standing

namespace Puppy.Proc

open Libc Lib State ProcessBitmap Machine Function

variable {s s' : State} {p c : Ptr} {page proc : Ptr} {t k : Process} {si : SpawnInfo}

-- ==== one bitmap

/-- What the processes have of a bitmap is reserved, and each has its
own. -/
structure Owns (key : Process → Nat) (bits : Nat → Bool)
    (procs : Ptr → Option Process) : Prop where
  distinct : ∀ p t p' t', procs p = some t → procs p' = some t' → key t = key t' → p = p'
  reserved : ∀ p t, procs p = some t → bits (key t) = true

section Owns

variable {key : Process → Nat} {bits : Nat → Bool} {procs procs' : Ptr → Option Process}

/-- A newcomer gets what was free. -/
theorem Owns.birth {n : Nat} (h : Owns key bits procs) (hfree : bits n = false)
    (hself : ∀ t', procs' page = some t' → key t' = n)
    (hothers : ∀ p t', p ≠ page → procs' p = some t' → ∃ t, procs p = some t ∧ key t' = key t) :
    Owns key (update bits n true) procs' := by
  have hne : ∀ p t', p ≠ page → procs' p = some t' → key t' ≠ n := by
    intro p t' hp ht' heq
    obtain ⟨t, ht, hkey⟩ := hothers p t' hp ht'
    have hres := h.reserved p t ht
    rw [← hkey, heq, hfree] at hres
    cases hres
  constructor
  · intro p t p' t' ht ht' heq
    by_cases hp : p = page
    · by_cases hp' : p' = page
      · rw [hp, hp']
      · exact absurd (heq.symm.trans (hself t (hp ▸ ht))) (hne p' t' hp' ht')
    by_cases hp' : p' = page
    · exact absurd (heq.trans (hself t' (hp' ▸ ht'))) (hne p t hp ht)
    · obtain ⟨u, hu, hkey⟩ := hothers p t hp ht
      obtain ⟨u', hu', hkey'⟩ := hothers p' t' hp' ht'
      exact h.distinct p u p' u' hu hu' (by rw [← hkey, ← hkey', heq])
  · intro p t ht
    by_cases hp : p = page
    · rw [hself t (hp ▸ ht), update_self]
    rw [update_of_ne (hne p t hp ht)]
    obtain ⟨u, hu, hkey⟩ := hothers p t hp ht
    rw [hkey]
    exact h.reserved p u hu

/-- What the dead had is free again. -/
theorem Owns.death (h : Owns key bits procs) (ht : procs proc = some t) :
    Owns key (update bits (key t) false) (update procs proc none) := by
  have hlive : ∀ p u, update procs proc none p = some u → p ≠ proc ∧ procs p = some u := by
    intro p u hu
    rcases update_eq_some hu with ⟨_, ⟨⟩⟩ | hu
    · exact hu
  constructor
  · intro p u p' u' hu hu' heq
    exact h.distinct p u p' u' (hlive p u hu).2 (hlive p' u' hu').2 heq
  intro p u hu
  obtain ⟨hp, hu⟩ := hlive p u hu
  rw [update_of_ne]
  · exact h.reserved p u hu
  · intro heq
    exact hp (h.distinct p u proc t hu ht heq)

end Owns

-- ==== in every run

namespace Described

variable {sizeofProcess : Nat} {P G : Nat → Bool} {m g a b : Nat}

structure Owners (s : State) : Prop where
  pids : Owns Process.pid s.gPidBitmap.mBitmap s.procs
  gdts : Owns Process.gdtidx s.gGDTBitmap.mBitmap s.procs

theorem Owners.distinct {s : Described} (h : Owners s.sched) : Distinct s :=
  ⟨h.pids.distinct, h.gdts.distinct⟩

theorem initial_owners : Owners State.initial := by
  refine ⟨⟨?_, ?_⟩, ⟨?_, ?_⟩⟩
  · intro p t p' t' ht ht' _
    rw [(initial_procs ht).1, (initial_procs ht').1]
  · intro p t ht
    rw [(initial_procs ht).2]
    rfl
  · intro p t p' t' ht ht' _
    rw [(initial_procs ht).1, (initial_procs ht').1]
  · intro p t ht
    rw [(initial_procs ht).2]
    rfl

theorem Owners.born (h : Owners s) (hk : s.procs c = some k)
    (hb : Spawned s c page si k t s') : Owners s' := by
  obtain ⟨hfree, _, hbits⟩ := next_ok hb.pid
  obtain ⟨hfree', _, hbits'⟩ := next_ok hb.gdt
  have hself : ∀ u, s'.procs page = some u → u = t := fun u hu => Option.mem_unique hu (hb.child hk)
  have hothers : ∀ p u, p ≠ page → s'.procs p = some u →
      ∃ v, s.procs p = some v ∧ u.pid = v.pid ∧ u.gdtidx = v.gdtidx := by
    intro p u hp hu
    rcases hb.back hk hu with ⟨heq, _⟩ | ⟨_, v, hv, heq⟩
    · exact absurd heq hp
    · exact ⟨v, hv, by rw [heq], by rw [heq]⟩
  constructor
  · rw [hbits]
    refine h.pids.birth hfree (fun u hu => by rw [hself u hu]) ?_
    intro p u hp hu
    obtain ⟨v, hv, hids⟩ := hothers p u hp hu
    exact ⟨v, hv, hids.1⟩
  rw [hbits']
  refine h.gdts.birth hfree' (fun u hu => by rw [hself u hu]) ?_
  intro p u hp hu
  obtain ⟨v, hv, hids⟩ := hothers p u hp hu
  exact ⟨v, hv, hids.2⟩

/-- What `spawn` does to the table. -/
theorem spawn_cases {s s' : Described} (h : s.spawn sizeofProcess c page si = .ok s') : s' = s ∨
      ∃ k t, s.sched.procs c = some k ∧ Spawned s.sched c page si k t s'.sched ∧
        s'.dtbl = update s.dtbl t.gdtidx (descriptor sizeofProcess page) := by
  obtain ⟨sched, hspawn, h⟩ := ok_bind h
  obtain ⟨k, hk, _⟩ := deref_bind hspawn
  rcases spawn_spawned hk hspawn with ⟨heq, _⟩ | ⟨t, hb⟩
  · left
    rw [heq] at h
    split at h
    next hnone hsome =>
      cases hnone.symm.trans hsome
    · injection h with h
      exact h.symm
  · right
    rw [hb.vacant, hb.child hk] at h
    cases h
    exact ⟨k, t, hk, hb, rfl⟩

/-- What `delete` does to the table. -/
theorem delete_eq {s s' : Described} (h : s.delete proc = .ok s') :
    ∃ t, s.sched.procs proc = some t ∧ s'.sched.procs = update s.sched.procs proc none ∧
      s'.sched.gPidBitmap = s.sched.gPidBitmap.free t.pid ∧
      s'.sched.gGDTBitmap = s.sched.gGDTBitmap.free t.gdtidx ∧
      s'.sched.gProcessTable = s.sched.gProcessTable.free t.pid ∧
      s'.dtbl = update s.dtbl (t.pid + numsysgdtentries) 0 := by
  obtain ⟨t, ht, h⟩ := deref_bind h
  obtain ⟨sched, hdel, h⟩ := ok_bind h
  obtain ⟨u, hu, hdel⟩ := deref_bind hdel
  rw [ht] at hu
  injection hu with hu
  injection hdel with hdel
  injection h with h
  rw [← h, ← hdel, hu]
  exact ⟨u, hu ▸ ht, rfl, rfl, rfl, rfl, rfl⟩

theorem delete_ok {s : Described} (ht : s.sched.procs proc = some t) :
    ∃ s', s.delete proc = .ok s' := by
  unfold delete State.delete
  rw [deref_eq ht]
  exact ⟨_, rfl⟩

theorem Owners.step {s s' : Described} {a : TableAction} (h : Owners s.sched)
    (hstep : step sizeofProcess a s = .ok s') : Owners s'.sched := by
  cases a with
  | spawn parent page si =>
    rcases spawn_cases hstep with heq | ⟨k, t, hk, hb, _⟩
    · rw [heq]
      exact h
    · exact h.born hk hb
  | delete proc =>
    obtain ⟨t, ht, hprocs, hpids, hgdts, _, _⟩ := delete_eq hstep
    constructor
    · rw [hprocs, hpids]
      exact h.pids.death ht
    · rw [hprocs, hgdts]
      exact h.gdts.death ht

theorem owners_of_reach {s : Described} {ok : Described → TableAction → Prop}
    (h : (descriptorTable sizeofProcess).Reach ok s) : Owners s.sched := by
  refine Reach.invariant (I := fun s => Owners s.sched) ?_ ?_ h
  · rintro s rfl
    exact initial_owners
  · intro s s' a hs _ hstep
    exact hs.step hstep

-- ==== in step

theorem descriptor_ne_zero (process : Ptr) : descriptor sizeofProcess process ≠ 0 := by
  intro h
  have hbit : (descriptor sizeofProcess process).testBit 40 = true := by
    unfold descriptor
    rw [Nat.testBit_or, Nat.testBit_or,
      show (0xE90000000000 : Nat).testBit 40 = true by decide,
      Bool.or_true, Bool.true_or]
  rw [h] at hbit
  cases hbit

theorem initial_intact : Intact sizeofProcess (initial sizeofProcess) := by
  intro p t ht
  rw [(initial_procs ht).1, (initial_procs ht).2]
  rfl

/-- A descriptor is written to a place that was free. -/
theorem Intact.born {s s' : Described} (h : Intact sizeofProcess s)
    (ho : Owners s.sched) (hk : s.sched.procs c = some k)
    (hb : Spawned s.sched c page si k t s'.sched)
    (hdtbl : s'.dtbl = update s.dtbl t.gdtidx
      (descriptor sizeofProcess page)) : Intact sizeofProcess s' := by
  intro p u hu
  rw [hdtbl]
  rcases hb.back hk hu with ⟨hp, heq⟩ | ⟨_, v, hv, heq⟩
  · rw [heq, update_self, hp]
  rw [heq, update_of_ne]
  · exact h p v hv
  intro heq
  have hres := ho.gdts.reserved p v hv
  rw [heq, (next_ok hb.gdt).1] at hres
  cases hres

theorem Intact.step {s s' : Described} {a : TableAction}
    (h : Intact sizeofProcess s) (ho : Owners s.sched) (hok : InStep s a)
    (hstep : step sizeofProcess a s = .ok s') : Intact sizeofProcess s' := by
  cases a with
  | spawn parent page si =>
    rcases spawn_cases hstep with heq | ⟨k, t, hk, hb, hdtbl⟩
    · rw [heq]
      exact h
    · exact h.born ho hk hb hdtbl
  | delete proc =>
    obtain ⟨t, ht, hprocs, _, _, _, hdtbl⟩ := delete_eq hstep
    intro p u hu
    rw [hprocs] at hu
    rcases update_eq_some hu with ⟨_, hu⟩ | ⟨hp, hu⟩
    · cases hu
    rw [hdtbl, ← hok t ht, update_of_ne]
    · exact h p u hu
    · intro heq
      exact hp (ho.gdts.distinct p u proc t hu ht heq)

theorem intact_of_reach {s : Described} (h : (descriptorTable sizeofProcess).Reach InStep s) :
    Intact sizeofProcess s ∧ Owners s.sched := by
  refine Reach.invariant (I := fun s => Intact sizeofProcess s ∧ Owners s.sched) ?_ ?_ h
  · rintro s rfl
    exact ⟨initial_intact, initial_owners⟩
  · intro s s' a hs hok hstep
    exact ⟨hs.1.step hs.2 hok hstep, hs.2.step hstep⟩

/-- The place that `delete` clears is the right one just when it is in
step. -/
theorem clearsExactly_iff {s s' : Described} (h : Intact sizeofProcess s)
    (ht : s.sched.procs proc = some t) (hstep : s.delete proc = .ok s') :
    ClearsExactly s s' t.gdtidx ↔ t.gdtidx = t.pid + numsysgdtentries := by
  obtain ⟨u, hu, _, _, _, _, hdtbl⟩ := delete_eq hstep
  rw [ht] at hu
  injection hu with hu
  rw [← hu] at hdtbl
  unfold ClearsExactly
  rw [hdtbl]
  constructor
  · intro heq
    by_contra hne
    have hat := congrFun heq t.gdtidx
    rw [update_self, update_of_ne hne, h proc t ht] at hat
    exact descriptor_ne_zero proc hat
  · intro heq
    rw [heq]

/-- In every run pids and places are distinct. In those where processes
are deleted in step, every process has its descriptor, and the deletion of
one clears exactly its own. -/
theorem descriptors_owned (sizeofProcess : Nat) (s : Described) :
    ((descriptorTable sizeofProcess).Reach anyStep s → Distinct s) ∧
    ((descriptorTable sizeofProcess).Reach InStep s → Intact sizeofProcess s ∧
      ∀ proc t s', s.sched.procs proc = some t → step sizeofProcess (.delete proc) s = .ok s' →
        (ClearsExactly s s' t.gdtidx ↔ InStep s (.delete proc))) := by
  refine ⟨fun h => (owners_of_reach h).distinct, ?_⟩
  intro h
  have hinv := intact_of_reach h
  refine ⟨hinv.1, ?_⟩
  intro proc t s' ht hstep
  rw [clearsExactly_iff hinv.1 ht hstep]
  constructor
  · intro heq u hu
    cases ht.symm.trans hu
    exact heq
  · intro hok
    exact hok t ht

theorem descriptors_owned_child : ∃ s t s',
    (descriptorTable 0x400).Reach InStep s ∧ s.sched.procs 1 = some t ∧
      step 0x400 (.delete 1) s = .ok s' ∧ Intact 0x400 s ∧
      ClearsExactly s s' t.gdtidx := by
  have htest : (descriptorTable 0x400).endsWith [.spawn 0 1 {}] (initial 0x400)
      (fun s => (s.sched.procs 1).any fun t =>
        decide (t.gdtidx = t.pid + numsysgdtentries)) = true := by
    decide +kernel
  obtain ⟨s, hrun, htest⟩ := endsWith_iff.1 htest
  obtain ⟨t, ht, hplace⟩ := (Option.any_eq_true _ _).1 htest
  have hreach : (descriptorTable 0x400).Reach InStep s := by
    refine Reach.run (.boot rfl) (guarded_of_forall ?_ _) hrun
    intro a ha s
    rw [List.mem_singleton.1 ha]
    trivial
  have howned := (descriptors_owned 0x400 s).2 hreach
  obtain ⟨s', hdel⟩ := delete_ok ht
  refine ⟨s, t, s', hreach, ht, hdel, howned.1, ?_⟩
  refine (howned.2 1 t s' ht hdel).2 ?_
  intro u hu
  cases ht.symm.trans hu
  exact of_decide_eq_true hplace

-- ==== after a wrap

/-- The boot process has no process on page 1, and the bitmaps stand at the
given indices. -/
structure Turned (P G : Nat → Bool) (m g : Nat) (s : Described) : Prop where
  parent : ∃ k, s.sched.procs 0 = some k ∧ k.system = true
  pids : s.sched.gPidBitmap = ⟨P, m⟩
  gdts : s.sched.gGDTBitmap = ⟨G, g⟩
  table : ∀ i, P i = false → s.sched.gProcessTable.mTable i = none

/-- Processes that are not scheduled are enough here. -/
def unscheduled : SpawnInfo := { schedulable := false }

theorem spawn_unscheduled {pids gdts : ProcessBitmap} {table : ProcessTable}
    (hk : s.procs c = some k) (hsys : k.system = true)
    (hpage : s.procs page = none) (ha : s.gPidBitmap.next = .ok (a, pids))
    (hb : s.gGDTBitmap.next = .ok (b, gdts))
    (htable : s.gProcessTable.set a page = .ok table) :
    ∃ t s', s.spawn c page unscheduled = .ok s' ∧ t.pid = a ∧ t.gdtidx = b ∧
      s'.procs = update (update s.procs page (some t)) c
        (some { k with children := k.children ++ [page] }) ∧
      s'.gPidBitmap = pids ∧ s'.gGDTBitmap = gdts ∧
      s'.gProcessTable = table := by
  have hcp : c ≠ page := ne_of_entry hk hpage
  have hex : ¬ excessive k unscheduled = true := by
    unfold excessive
    rw [hsys]
    exact Bool.false_ne_true
  have hsome : ¬ (s.procs page).isSome = true := by
    rw [hpage]
    exact Bool.false_ne_true
  let t : Process :=
    { pid := a, ppid := k.pid, gdtidx := b, tty := k.tty,
      quantum := unscheduled.quantum, scheduling := unscheduled.scheduling,
      system := unscheduled.system }
  let s₁ : State := { s.setProc page t with
    gPidBitmap := pids
    gGDTBitmap := gdts
    gProcessTable := table
    deaths := update s.deaths page 0 }
  have hk₁ : s₁.deref c = .ok k := deref_eq ((update_of_ne hcp ..).trans hk)
  refine ⟨t, s₁.setProc c { k with children := k.children ++ [page] }, ?_, rfl,
    rfl, rfl, rfl, rfl, rfl⟩
  unfold State.spawn
  rw [deref_step hk, if_neg hex, if_neg hsome, ha, bind_ok]
  dsimp only
  rw [hb, bind_ok]
  rw [htable, bind_ok, if_neg (show ¬ unscheduled.schedulable = true from Bool.false_ne_true),
    bind_ok]
  exact bind_eq_ok.2 ⟨k, hk₁, rfl⟩

theorem next_eq (h : nextFrom ⟨P, m⟩ gNumProcesses 0 = .ok a) :
    next ⟨P, m⟩ = .ok (a, ⟨update P a true, a + 1⟩) := by
  unfold next
  rw [h]
  rfl

/-- A process is born on a free page. -/
theorem spawn_turned {s : Described} (h : Turned P G m g s) (hpage : s.sched.procs page = none)
    (ha : nextFrom ⟨P, m⟩ gNumProcesses 0 = .ok a)
    (hb : nextFrom ⟨G, g⟩ gNumProcesses 0 = .ok b) :
    ∃ s' t, step sizeofProcess (.spawn 0 page unscheduled) s = .ok s' ∧
      Turned (update P a true) (update G b true) (a + 1) (b + 1) s' ∧
      s'.sched.procs page = some t ∧ t.pid = a ∧ t.gdtidx = b ∧
      s'.dtbl = update s.dtbl b (descriptor sizeofProcess page) ∧
      ∀ p ≠ 0, p ≠ page → s'.sched.procs p = s.sched.procs p := by
  obtain ⟨k, hk, hsys⟩ := h.parent
  have hfree : P a = false := (nextFrom_free ha).1
  have hpage₀ : page ≠ 0 := (ne_of_entry hk hpage).symm
  have hset : s.sched.gProcessTable.set a page = .ok
      { mTable := update s.sched.gProcessTable.mTable a (some page)
        mSize := add32 s.sched.gProcessTable.mSize 1 } := by
    unfold ProcessTable.set
    rw [h.table a hfree]
  obtain ⟨t, sched, hspawn, hpid, hgdt, hprocs, hpids, hgdts, htable⟩ :=
    spawn_unscheduled hk hsys hpage (by rw [h.pids]; exact next_eq ha)
      (by rw [h.gdts]; exact next_eq hb) hset
  have ht : sched.procs page = some t := by rw [hprocs, update_of_ne hpage₀, update_self]
  refine ⟨⟨sched, fillGDT sizeofProcess s.dtbl page b⟩, t, ?_,
    ⟨⟨{ k with children := k.children ++ [page] }, ?_, hsys⟩, hpids, hgdts,
      ?_⟩, ht, hpid, hgdt, rfl, ?_⟩
  · show s.spawn sizeofProcess 0 page unscheduled = _
    unfold spawn
    rw [hspawn, bind_ok, hpage, ht, ← hgdt]
  · rw [hprocs, update_self]
  · intro i hi
    have hia : i ≠ a := by
      intro heq
      rw [heq, update_self] at hi
      cases hi
    rw [update_of_ne hia] at hi
    rw [htable]
    show update s.sched.gProcessTable.mTable a (some page) i = none
    rw [update_of_ne hia]
    exact h.table i hi
  · intro p hp₀ hp
    rw [hprocs, update_of_ne hp₀, update_of_ne hp]

/-- A process comes and goes on page 1. -/
theorem cycle_turned {s : Described} (h : Turned P G m g s) (hpage : s.sched.procs 1 = none)
    (ha : nextFrom ⟨P, m⟩ gNumProcesses 0 = .ok a)
    (hb : nextFrom ⟨G, g⟩ gNumProcesses 0 = .ok b) :
    ∃ s₁ s', step sizeofProcess (.spawn 0 1 unscheduled) s = .ok s₁ ∧
      step sizeofProcess (.delete 1) s₁ = .ok s' ∧
      Turned P G (a + 1) (b + 1) s' ∧ s'.sched.procs 1 = none ∧
      s₁.dtbl = update s.dtbl b (descriptor sizeofProcess 1) ∧
      s'.dtbl = update s₁.dtbl (a + numsysgdtentries) 0 ∧
      ∀ p ≠ 0, p ≠ 1 → s₁.sched.procs p = s.sched.procs p ∧ s'.sched.procs p = s.sched.procs p := by
  obtain ⟨s₁, t, hspawn, hturned, ht, hpid, hgdt, hdtbl, hothers⟩ :=
    @spawn_turned 1 sizeofProcess P G m g a b s h hpage ha hb
  have hfreeP : P a = false := (nextFrom_free ha).1
  have hfreeG : G b = false := (nextFrom_free hb).1
  obtain ⟨k, hk, hsys⟩ := hturned.parent
  obtain ⟨s', hdelete⟩ := delete_ok ht
  obtain ⟨u, hu, hprocs, hpids, hgdts, htable, hdtbl'⟩ := delete_eq hdelete
  rw [ht] at hu
  injection hu with hu
  rw [← hu] at hpids hgdts htable hdtbl'
  rw [hpid] at hpids htable hdtbl'
  refine ⟨s₁, s', hspawn, hdelete, ⟨⟨k, ?_, hsys⟩, ?_, ?_, ?_⟩, ?_, hdtbl, hdtbl', ?_⟩
  · rw [hprocs, update_of_ne (by decide)]
    exact hk
  · rw [hpids, hturned.pids]
    unfold free
    rw [update_idem, update_eq_self_iff.2 hfreeP.symm]
  · rw [hgdts, hturned.gdts, hgdt]
    unfold free
    rw [update_idem, update_eq_self_iff.2 hfreeG.symm]
  · intro i hi
    rw [htable]
    show update s₁.sched.gProcessTable.mTable a none i = none
    by_cases hia : i = a
    · rw [hia, update_self]
    · rw [update_of_ne hia]
      exact hturned.table i (by rw [update_of_ne hia]; exact hi)
  · rw [hprocs, update_self]
  · intro p hp₀ hp
    refine ⟨hothers p hp₀ hp, ?_⟩
    rw [hprocs, update_of_ne hp]
    exact hothers p hp₀ hp

theorem nextFrom_first (hm : m < gNumProcesses) (hfree : P m = false) :
    nextFrom ⟨P, m⟩ gNumProcesses 0 = .ok m := by
  have hidx : (m + 0) % gNumProcesses = m := by rw [add_zero, Nat.mod_eq_of_lt hm]
  show nextFrom ⟨P, m⟩ (1999 + 1) 0 = _
  unfold nextFrom
  rw [hidx, if_pos hfree]

/-- Processes come and go until the bitmaps stand `n` places further on. -/
theorem cycles_turned {s : Described} (n : Nat) (h : Turned P G m g s)
    (hpage : s.sched.procs 1 = none)
    (hreach : (descriptorTable sizeofProcess).Reach anyStep s)
    (hm : m + n ≤ gNumProcesses) (hg : g + n ≤ gNumProcesses)
    (hP : ∀ j < n, P (m + j) = false)
    (hG : ∀ j < n, G (g + j) = false) :
    ∃ s', (descriptorTable sizeofProcess).Reach anyStep s' ∧
      Turned P G (m + n) (g + n) s' ∧ s'.sched.procs 1 = none ∧
      (∀ i < g, i < m + numsysgdtentries → s'.dtbl i = s.dtbl i) ∧
      ∀ p ≠ 0, p ≠ 1 → s'.sched.procs p = s.sched.procs p := by
  induction n with
  | zero => exact ⟨s, hreach, h, hpage, fun _ _ _ => rfl, fun _ _ _ => rfl⟩
  | succ n ih =>
    obtain ⟨s₁, hreach₁, h₁, hpage₁, hdtbl₁, hothers₁⟩ := ih (by omega)
      (by omega) (fun j hj => hP j (by omega)) (fun j hj => hG j (by omega))
    obtain ⟨s₂, s₃, hspawn, hdelete, h₃, hpage₃, hdtbl₂, hdtbl₃, hothers₃⟩ :=
      @cycle_turned sizeofProcess P G (m + n) (g + n) (m + n) (g + n) s₁ h₁
        hpage₁ (nextFrom_first (by omega) (hP n (by omega)))
        (nextFrom_first (by omega) (hG n (by omega)))
    refine ⟨s₃, .step (.delete 1) (.step (.spawn 0 1 unscheduled) hreach₁
      trivial hspawn) trivial hdelete, h₃, hpage₃, ?_, ?_⟩
    · intro i hig him
      rw [hdtbl₃, update_of_ne (by omega), hdtbl₂, update_of_ne (by omega)]
      exact hdtbl₁ i hig him
    · intro p hp₀ hp
      exact (hothers₃ p hp₀ hp).2.trans (hothers₁ p hp₀ hp)

theorem initial_turned : Turned (fun i => i == 0) (fun i => decide (i ≤ 6)) 1 7
    (initial sizeofProcess) := by
  refine ⟨⟨gDummyProcess, rfl, rfl⟩, rfl, rfl, ?_⟩
  intro i hi
  have hi : i ≠ 0 := by
    intro heq
    rw [heq] at hi
    cases hi
  exact if_neg hi

/-- Process 1994 takes over the first place that is free again. When the
pids start over as well, the deletion of process 1 clears its
descriptor. -/
theorem descriptor_cleared_alive : ∃ s s' t, (descriptorTable 0x400).Reach anyStep s ∧
      step 0x400 (.delete 1) s = .ok s' ∧ s.sched.procs 2 = some t ∧
      s'.sched.procs 2 = some t ∧ s.dtbl t.gdtidx = descriptor 0x400 2 ∧
      s'.dtbl t.gdtidx = 0 := by
  have hpage₀ : (initial 0x400).sched.procs 1 = none := rfl
  obtain ⟨s₁, hreach₁, h₁, hpage₁, _, hothers₁⟩ :=
    @cycles_turned 0x400 _ _ _ _ _ 1993 initial_turned hpage₀ (.boot rfl) (by decide) (by decide)
      (fun j _ => beq_false_of_ne (by omega))
      (fun j _ => decide_eq_false (by omega))
  -- the places have wrapped around, the pids have not
  have hplace : nextFrom ⟨fun i => decide (i ≤ 6), 7 + 1993⟩
      gNumProcesses 0 = .ok 7 := by decide +kernel
  obtain ⟨s₂, t, hspawn, h₂, ht, hpid, hgdt, hdtbl₂, hothers₂⟩ :=
    @spawn_turned 2 0x400 _ _ _ _ _ _ s₁ h₁ ((hothers₁ 2 (by decide) (by decide)).trans rfl)
      (nextFrom_first (by decide) (by decide)) hplace
  obtain ⟨s₃, hreach₃, h₃, hpage₃, hdtbl₃, hothers₃⟩ :=
    @cycles_turned 0x400 _ _ _ _ _ 5 h₂ ((hothers₂ 1 (by decide) (by decide)).trans hpage₁)
      (.step (.spawn 0 2 unscheduled) hreach₁ trivial hspawn)
      (by decide) (by decide)
      (by decide) (by decide)
  -- now the pids have wrapped around as well
  have hfirst : nextFrom ⟨update (fun i => i == 0) (1 + 1993) true, 1 + 1993 + 1 + 5⟩
      gNumProcesses 0 = .ok 1 := by decide +kernel
  obtain ⟨s₄, s₅, hspawn₄, hdelete, _, _, hdtbl₄, hdtbl₅, hothers₅⟩ :=
    @cycle_turned 0x400 _ _ _ _ _ _ s₃ h₃ hpage₃ hfirst (nextFrom_first (by decide) (by decide))
  have ht₃ : s₃.sched.procs 2 = some t := (hothers₃ 2 (by decide) (by decide)).trans ht
  have hself : s₃.dtbl 7 = descriptor 0x400 2 := by
    rw [hdtbl₃ 7 (by decide) (by decide), hdtbl₂, update_self]
  refine ⟨s₄, s₅, t, .step (.spawn 0 1 unscheduled) hreach₃ trivial hspawn₄, hdelete,
    (hothers₅ 2 (by decide) (by decide)).1.trans ht₃,
    (hothers₅ 2 (by decide) (by decide)).2.trans ht₃, ?_, ?_⟩
  · rw [hgdt, hdtbl₄, update_of_ne (by decide)]
    exact hself
  · rw [hgdt, hdtbl₅]
    exact update_self ..

end Described

end Puppy.Proc
