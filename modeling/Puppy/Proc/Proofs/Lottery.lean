/-
The lottery always has a winner, and it is not fair.

# The first loop

One round finds the first EXITED process, if there is one, and moves it
(`purge_round`). What the next round starts from is `Purgeable` again, since
the process is gone from the queue and its slot on the table belongs to
nobody else. So the rounds add up, and the queue keeps the others in order
(`purge_buried`).

# The second loop

Let `w` be the winner and `counted` what has been added up so far. As long
as there is an AVAILABLE process left and `w` is at most `counted` plus the
tickets of those that are left, the loop goes on to one of them
(`pickWinner_picks`): passing one without picking it means that `w` is
still above the sum, so that somebody behind it has tickets.

# Fairness

The first AVAILABLE process wins with every number up to its tickets
(`selects_first`). If these are all numbers there are, nobody else has a
ticket; otherwise it is one too many.
-/
import Puppy.Proc.Lottery
import Puppy.Proc.Proofs.Standing
import Mathlib.Data.List.Count

namespace Puppy.Proc

open Libc Lib Function List

variable {t : Process} {first : Ptr} {rest : List Ptr}

namespace State

variable {s s' : State} {p : Ptr} {l : List Ptr} {state : ProcessState} {table : ProcessTable}

theorem inState_iff : s.inState state p = true ↔ ∃ t, s.procs p = some t ∧ t.state = state := by
  unfold inState
  cases s.procs p with
  | none =>
    constructor
    · nofun
    · rintro ⟨t, ht, _⟩
      cases ht
  | some t =>
    rw [decide_eq_true_eq]
    constructor
    · exact fun h => ⟨t, rfl, h⟩
    · rintro ⟨u, hu, h⟩
      rw [Option.some.inj hu]
      exact h

-- ==== the first loop

theorem firstExited_eq (hlive : ∀ p ∈ l, ∃ t, s.procs p = some t) :
    s.firstExited l = .ok (l.find? (s.inState .exited)) := by
  induction l with
  | nil => rfl
  | cons p rest ih =>
    obtain ⟨t, ht⟩ := hlive p mem_cons_self
    unfold firstExited
    rw [deref_step ht, find?_cons]
    have hstate : s.inState .exited p = decide (t.state = .exited) := by
      unfold inState
      rw [ht]
    rw [hstate]
    by_cases hexited : t.state = .exited
    · rw [if_pos hexited, decide_eq_true hexited]
    · rw [if_neg hexited, decide_eq_false hexited]
      exact ih (fun q hq => hlive q (mem_cons_of_mem p hq))

/-- A process that the filter drops anyway can be erased first. -/
theorem filter_erase_of_neg {f : Ptr → Bool} (hp : f p = false) :
    (l.erase p).filter f = l.filter f := by
  induction l with
  | nil => rfl
  | cons q rest ih =>
    rw [erase_cons]
    split
    next heq => rw [eq_of_beq heq, filter_cons_of_neg (by rw [hp]; decide)]
    · rw [filter_cons, filter_cons, ih]

/-- What a round of the first loop makes of the kernel. -/
def entomb (s : State) (p : Ptr) (table : ProcessTable) : State :=
  { s with
    gReadyQueue := s.gReadyQueue.erase p
    gExitedProcesses := table
    deaths := update s.deaths p (s.deaths p + 1) }

/-- A round that finds a process. -/
theorem purge_round (h : s.Purgeable) (hfind : s.gReadyQueue.find? (s.inState .exited) = some p)
    (ht : s.procs p = some t) (hexited : t.state = .exited) :
    ∃ table, table.mTable = update s.gExitedProcesses.mTable t.pid (some p) ∧
      ∀ n, purge (n + 1) s = purge n (s.entomb p table) := by
  have hmem := mem_of_find?_eq_some hfind
  refine ⟨⟨update s.gExitedProcesses.mTable t.pid (some p),
    add32 s.gExitedProcesses.mSize 1⟩, rfl, fun n => ?_⟩
  rw [purge, firstExited_eq h.live, bind_ok, hfind]
  dsimp only
  unfold enqueueForDeath ProcessTable.set
  rw [deref_step ht, if_neg (not_not.2 hexited), h.unlisted p hmem t ht hexited]
  rfl

/-- It leaves nobody twice, and nobody's slot taken. -/
theorem Purgeable.entomb (h : s.Purgeable) (hmem : p ∈ s.gReadyQueue) (ht : s.procs p = some t)
    (hexited : t.state = .exited) (htable : table.mTable =
      update s.gExitedProcesses.mTable t.pid (some p)) :
    (s.entomb p table).Purgeable ∧ p ∉ s.gReadyQueue.erase p := by
  have hsub : ∀ {q}, q ∈ s.gReadyQueue.erase p → q ∈ s.gReadyQueue :=
    fun hq => mem_of_mem_erase hq
  have honce := h.once p hmem (inState_iff.2 ⟨t, ht, hexited⟩)
  have hgone : p ∉ s.gReadyQueue.erase p := by
    rw [← count_eq_zero, count_erase_self, honce]
  refine ⟨⟨fun q hq => h.live q (hsub hq), ?_, ?_, ?_⟩, hgone⟩
  · intro q hq hstate
    have hne : q ≠ p := fun heq => hgone (heq ▸ hq)
    show (s.gReadyQueue.erase p).count q = 1
    rw [count_erase_of_ne hne]
    exact h.once q (hsub hq) hstate
  · intro q hq u hu hstate
    have hne : u.pid ≠ t.pid := fun heq =>
      hgone (h.pids q (hsub hq) p hmem u t hu ht hstate hexited heq ▸ hq)
    show table.mTable u.pid = none
    rw [htable, update_of_ne hne]
    exact h.unlisted q (hsub hq) u hu hstate
  · exact fun q hq r hr => h.pids q (hsub hq) r (hsub hr)

/-- Nobody is dead. -/
theorem buried_refl (hnone : s.gReadyQueue.find? (s.inState .exited) = none) : s.Buried s := by
  have halive : ∀ p ∈ s.gReadyQueue, ¬ s.inState .exited p = true := find?_eq_none.1 hnone
  refine ⟨?_, ?_, fun _ _ => rfl, ?_, rfl⟩
  · refine (filter_eq_self.2 (fun p hp => ?_)).symm
    rw [Bool.eq_false_iff.2 (halive p hp)]
    rfl
  · exact fun p hp t ht hexited => absurd (inState_iff.2 ⟨t, ht, hexited⟩) (halive p hp)
  · intro p
    rw [if_neg (fun hp => halive p hp.1 hp.2), add_zero]

/-- One is buried, and then the others. -/
theorem Buried.cons (h : s.Purgeable) (hmem : p ∈ s.gReadyQueue) (ht : s.procs p = some t)
    (hexited : t.state = .exited) (htable : table.mTable =
      update s.gExitedProcesses.mTable t.pid (some p))
    (hrest : (s.entomb p table).Buried s') : s.Buried s' := by
  have hstate : s.inState .exited p = true := inState_iff.2 ⟨t, ht, hexited⟩
  obtain ⟨_, hgone⟩ := h.entomb hmem ht hexited htable
  have hstay : ∀ q ∈ s.gReadyQueue, q ≠ p → q ∈ s.gReadyQueue.erase p :=
    fun q hq hne => (mem_erase_of_ne hne).2 hq
  refine ⟨?_, ?_, ?_, ?_, ?_⟩
  · refine hrest.queue.trans ?_
    refine @filter_erase_of_neg p s.gReadyQueue (fun q => !s.inState .exited q) ?_
    rw [hstate]
    rfl
  · intro q hq u hu hdead
    by_cases heq : q = p
    · -- its slot is not touched again
      have hsame : u = t := Option.mem_unique hu (heq ▸ ht)
      rw [heq, hsame, hrest.others t.pid]
      · show table.mTable t.pid = some p
        rw [htable, update_self]
      intro r hr v hv hdead' hpid
      have hrp := h.pids r (mem_of_mem_erase hr) p hmem v t hv ht hdead' hexited hpid
      exact hgone (hrp ▸ hr)
    · exact hrest.listed q (hstay q hq heq) u hu hdead
  · intro pid hpid
    rw [hrest.others pid (fun q hq => hpid q (mem_of_mem_erase hq))]
    show table.mTable pid = s.gExitedProcesses.mTable pid
    rw [htable, update_of_ne (hpid p hmem t ht hexited).symm]
  · intro q
    rw [hrest.deaths q]
    show update s.deaths p (s.deaths p + 1) q +
      (if q ∈ s.gReadyQueue.erase p ∧ s.inState .exited q then 1 else 0) = _
    by_cases heq : q = p
    · rw [heq, update_self, if_neg (fun hq => hgone hq.1), if_pos ⟨hmem, hstate⟩]
    rw [update_of_ne heq]
    congr 1
    refine if_congr ?_ rfl rfl
    rw [mem_erase_of_ne heq]
  · exact hrest.rest

theorem purge_none {n : Nat} (h : s.Purgeable)
    (hnone : s.gReadyQueue.find? (s.inState .exited) = none) :
    purge n s = .ok s := by
  cases n with
  | zero => rfl
  | succ n => rw [purge, firstExited_eq h.live, bind_ok, hnone]

/-- The first loop, with at least as many rounds as there are processes. -/
theorem purge_buried {k : Nat} : ∀ {s : State}, s.Purgeable → s.gReadyQueue.length ≤ k →
    ∃ s', s.Buried s' ∧ ∀ n ≥ k, purge n s = .ok s' := by
  induction k with
  | zero =>
    intro s h hlen
    have hnone : s.gReadyQueue.find? (s.inState .exited) = none := by
      rw [length_eq_zero_iff.1 (Nat.le_zero.1 hlen)]
      rfl
    exact ⟨s, buried_refl hnone, fun n _ => purge_none h hnone⟩
  | succ k ih =>
    intro s h hlen
    cases hfind : s.gReadyQueue.find? (s.inState .exited) with
    | none => exact ⟨s, buried_refl hfind, fun n _ => purge_none h hfind⟩
    | some p =>
      have hmem := mem_of_find?_eq_some hfind
      obtain ⟨t, ht, hexited⟩ := inState_iff.1 (find?_some hfind)
      obtain ⟨table, htable, hround⟩ := purge_round h hfind ht hexited
      have hlen' : (s.entomb p table).gReadyQueue.length ≤ k := by
        show (s.gReadyQueue.erase p).length ≤ k
        rw [length_erase_of_mem hmem]
        omega
      obtain ⟨s', hburied, hpurge⟩ := ih (h.entomb hmem ht hexited htable).1 hlen'
      refine ⟨s', .cons h hmem ht hexited htable hburied, fun n hn => ?_⟩
      obtain ⟨m, hm⟩ : ∃ m, n = m + 1 := ⟨n - 1, by omega⟩
      rw [hm, hround]
      exact hpurge m (by omega)

theorem purgeEnds (h : s.Purgeable) : s.PurgeEnds := by
  obtain ⟨s', _, hpurge⟩ := purge_buried h le_rfl
  exact fun n hn => (hpurge n hn).trans (hpurge _ le_rfl).symm

-- ==== the second loop

theorem allTickets_cons : s.allTickets (p :: l) = s.tickets p + s.allTickets l := by
  unfold allTickets
  rw [map_cons, sum_cons]

theorem tickets_eq (ht : s.procs p = some t) : s.tickets p = t.scheduling.current := by
  unfold tickets
  rw [ht]

theorem inState_eq (ht : s.procs p = some t) : s.inState state p = decide (t.state = state) := by
  unfold inState
  rw [ht]

/-- `totalTickets` is the sum, as a 64-bit word. -/
theorem totalTickets_eq (hlive : ∀ p ∈ l, ∃ t, s.procs p = some t) : s.totalTickets l = .ok
      (s.allTickets (l.filter (s.inState .available)) % 0x10000000000000000) := by
  induction l with
  | nil => rfl
  | cons p rest ih =>
    obtain ⟨t, ht⟩ := hlive p mem_cons_self
    unfold totalTickets
    rw [deref_step ht, ih (fun q hq => hlive q (mem_cons_of_mem p hq)), bind_ok,
      filter_cons, inState_eq ht]
    by_cases havail : t.state = .available
    · rw [if_pos havail, decide_eq_true havail, if_pos rfl, allTickets_cons,
        tickets_eq ht, Nat.add_mod_mod]
    · rw [if_neg havail, decide_eq_false havail, if_neg (by decide)]

/-- Somebody AVAILABLE is picked before the sum of all tickets is passed. -/
theorem pickWinner_picks {winner : Nat} : ∀ {counted : Nat}, (∀ p ∈ l, ∃ t, s.procs p = some t) →
    (∃ p ∈ l, s.inState .available p = true) →
    winner ≤ counted + s.allTickets (l.filter (s.inState .available)) →
    counted + s.allTickets l < 0x10000000000000000 →
    ∃ p ∈ l, s.inState .available p = true ∧ s.pickWinner winner counted l = .ok p := by
  induction l with
  | nil =>
    rintro counted _ ⟨p, hp, _⟩
    cases hp
  | cons p rest ih =>
    intro counted hlive hsome hle hlt
    obtain ⟨t, ht⟩ := hlive p mem_cons_self
    have hlive' : ∀ q ∈ rest, ∃ t, s.procs q = some t :=
      fun q hq => hlive q (mem_cons_of_mem p hq)
    rw [allTickets_cons, tickets_eq ht] at hlt
    have hword : (counted + t.scheduling.current) % 0x10000000000000000 =
        counted + t.scheduling.current := Nat.mod_eq_of_lt (by omega)
    rw [filter_cons, inState_eq ht] at hle
    unfold pickWinner
    rw [deref_step ht]
    rw [hword]
    by_cases hpick : winner ≤ counted + t.scheduling.current ∧ t.state = .available
    · rw [if_pos hpick]
      exact ⟨p, mem_cons_self, inState_iff.2 ⟨t, ht, hpick.2⟩, rfl⟩
    rw [if_neg hpick]
    -- there is somebody left, and the bound still holds
    have hleft : (∃ q ∈ rest, s.inState .available q = true) ∧
        winner ≤ counted + t.scheduling.current +
          s.allTickets (rest.filter (s.inState .available)) := by
      by_cases havail : t.state = .available
      · rw [decide_eq_true havail, if_pos rfl, allTickets_cons, tickets_eq ht] at hle
        have hpassed : counted + t.scheduling.current < winner :=
          not_le.1 fun h => hpick ⟨h, havail⟩
        refine ⟨?_, by omega⟩
        by_contra hnobody
        have hempty : rest.filter (s.inState .available) = [] :=
          filter_eq_nil_iff.2 fun q hq hav => hnobody ⟨q, hq, hav⟩
        rw [hempty] at hle
        unfold allTickets at hle
        rw [map_nil, sum_nil] at hle
        omega
      · rw [decide_eq_false havail, if_neg (by decide)] at hle
        refine ⟨?_, by omega⟩
        obtain ⟨q, hq, hav⟩ := hsome
        rcases mem_cons.1 hq with heq | hq
        · rw [heq, inState_eq ht, decide_eq_true_eq] at hav
          exact absurd hav havail
        · exact ⟨q, hq, hav⟩
    obtain ⟨q, hq, hav, hpicked⟩ := ih hlive' hleft.1 hleft.2 (by omega)
    exact ⟨q, mem_cons_of_mem p hq, hav, hpicked⟩

theorem allTickets_filter_le (f : Ptr → Bool) : s.allTickets (l.filter f) ≤ s.allTickets l := by
  induction l with
  | nil => exact le_rfl
  | cons p rest ih =>
    rw [filter_cons]
    split
    · rw [allTickets_cons, allTickets_cons]
      exact Nat.add_le_add_left ih _
    · rw [allTickets_cons]
      omega

theorem tickets_le_allTickets (hp : p ∈ l) : s.tickets p ≤ s.allTickets l := by
  induction l with
  | nil => cases hp
  | cons q rest ih =>
    rw [allTickets_cons]
    rcases mem_cons.1 hp with heq | hp
    · rw [heq]
      omega
    · have := ih hp
      omega

-- ==== the whole call

namespace Buried

variable (h : s.Buried s')
include h

theorem procs : s'.procs = s.procs := by
  rw [h.rest]

theorem inState (state : ProcessState) (p : Ptr) : s'.inState state p = s.inState state p := by
  unfold State.inState
  rw [h.procs]

theorem tickets (p : Ptr) : s'.tickets p = s.tickets p := by
  unfold State.tickets
  rw [h.procs]

theorem allTickets (l : List Ptr) : s'.allTickets l = s.allTickets l := by
  unfold State.allTickets
  rw [funext h.tickets]

/-- The AVAILABLE processes are still there. -/
theorem contenders : s'.contenders = s.contenders := by
  unfold State.contenders
  rw [h.queue, filter_filter]
  refine filter_congr fun p _ => ?_
  rw [h.inState]
  by_cases havail : s.inState .available p = true
  · obtain ⟨t, ht, hst⟩ := inState_iff.1 havail
    rw [havail, inState_eq ht, hst]
    rfl
  · rw [Bool.eq_false_iff.2 havail, Bool.false_and]

theorem resume (winner : Option Ptr) : s.Buried { s' with current := winner } where
  queue := h.queue
  listed := h.listed
  others := h.others
  deaths := h.deaths
  rest := congrArg (fun x : State => { x with current := winner }) h.rest

end Buried

/-- After the first loop, the second one decides. -/
theorem schedule_eq (h : s.Purgeable) : ∃ s₁, s.Buried s₁ ∧ ∀ draw, s.schedule draw =
      if s.total = 0 then .error .divideError
      else s₁.pickWinner (draw % s.total) 0 s₁.gReadyQueue >>= fun winner =>
        .ok { s₁ with current := some winner } := by
  obtain ⟨s₁, hburied, hpurge⟩ := purge_buried h le_rfl
  refine ⟨s₁, hburied, fun draw => ?_⟩
  have hlive : ∀ p ∈ s₁.gReadyQueue, ∃ t, s₁.procs p = some t := by
    intro p hp
    rw [hburied.queue] at hp
    rw [hburied.procs]
    exact h.live p (mem_filter.1 hp).1
  have htotal : s₁.allTickets (s₁.gReadyQueue.filter (s₁.inState .available)) %
      0x10000000000000000 = s.total := by
    show s₁.allTickets s₁.contenders % _ = _
    rw [hburied.allTickets, hburied.contenders]
    rfl
  unfold schedule
  rw [hpurge _ le_rfl, bind_ok, totalTickets_eq hlive, bind_ok, htotal]

theorem picks_of_purgeable (h : s.Purgeable)
    (hsome : ∃ p ∈ s.gReadyQueue, s.inState .available p = true ∧ 0 < s.tickets p)
    (hsum : s.allTickets (s.gReadyQueue.filter fun p =>
      !s.inState .exited p) < 0x10000000000000000) (draw : Nat) :
    s.Picks draw := by
  obtain ⟨s₁, hburied, hschedule⟩ := schedule_eq h
  obtain ⟨p, hp, havail, hpos⟩ := hsome
  rw [← hburied.queue, ← hburied.allTickets] at hsum
  have hle : s.allTickets s.contenders ≤ s₁.allTickets s₁.gReadyQueue := by
    rw [← hburied.contenders, ← hburied.allTickets]
    exact allTickets_filter_le _
  have hpc : p ∈ s.contenders := mem_filter.2 ⟨hp, havail⟩
  have hmore := tickets_le_allTickets (s := s) hpc
  have htotal : s.total = s.allTickets s.contenders := Nat.mod_eq_of_lt (by omega)
  have hlt : draw % s.total < s.total := Nat.mod_lt _ (by omega)
  have hmem : ∀ q ∈ s₁.gReadyQueue, q ∈ s.gReadyQueue := by
    intro q hq
    rw [hburied.queue] at hq
    exact (mem_filter.1 hq).1
  have hp₁ : p ∈ s₁.gReadyQueue := by
    rw [← hburied.contenders] at hpc
    exact (mem_filter.1 hpc).1
  have hbound : draw % s.total ≤ 0 + s₁.allTickets s₁.contenders := by
    rw [hburied.allTickets, hburied.contenders]
    omega
  obtain ⟨winner, hwinner, hav, hpick⟩ := pickWinner_picks
    (fun q hq => by rw [hburied.procs]; exact h.live q (hmem q hq))
    ⟨p, hp₁, (hburied.inState _ _).trans havail⟩ hbound (by omega)
  refine ⟨winner, { s₁ with current := some winner }, ?_, rfl,
    hmem winner hwinner, (hburied.inState _ _).symm.trans hav,
    hburied.resume _⟩
  rw [hschedule draw, if_neg (by omega), hpick]
  rfl

/-- The lottery comes to an end, and with any draw it has a winner. -/
theorem lottery_picks (h : s.Purgeable)
    (hsome : ∃ p ∈ s.gReadyQueue, s.inState .available p = true ∧ 0 < s.tickets p)
    (hsum : s.allTickets (s.gReadyQueue.filter fun p =>
      !s.inState .exited p) < 0x10000000000000000) :
    s.PurgeEnds ∧ ∀ draw, s.Picks draw :=
  ⟨purgeEnds h, picks_of_purgeable h hsome hsum⟩

/-- A process that has exited, and two that have not. -/
def trio : State where
  procs := fun p =>
    match p with
    | 1 => some { pid := 1, state := .available, scheduling := ⟨20, 20⟩ }
    | 2 => some { pid := 2, state := .exited, scheduling := ⟨20, 20⟩ }
    | 3 => some { pid := 3, state := .available, scheduling := ⟨20, 5⟩ }
    | _ => none
  current := none
  gReadyQueue := [2, 1, 3]

theorem trio_exited (hp : p ∈ trio.gReadyQueue) (ht : trio.procs p = some t)
    (hexited : t.state = .exited) : p = 2 := by
  fin_cases hp <;> injection ht with ht <;> subst ht <;> first | rfl | cases hexited

theorem trio_purgeable : trio.Purgeable where
  live := by
    intro p hp
    fin_cases hp <;> exact ⟨_, rfl⟩
  once := by
    intro p hp _
    fin_cases hp <;> rfl
  unlisted := fun _ _ _ _ _ => rfl
  pids := fun _ hp _ hq _ _ ht hu hexited hexited' _ =>
    (trio_exited hp ht hexited).trans (trio_exited hq hu hexited').symm

/-- With the draw 21, the last one of them wins. -/
theorem lottery_picks_trio : trio.PurgeEnds ∧ (∀ draw, trio.Picks draw) ∧
    trio.selects 3 21 = true := by
  obtain ⟨hends, hpicks⟩ := lottery_picks trio_purgeable
    ⟨1, by decide, by decide, by decide⟩ (by decide)
  exact ⟨hends, hpicks, by decide⟩

-- ==== fairness

section Fairness

variable (h : s.Purgeable) (hstates : ∀ p ∈ s.gReadyQueue, s.inState .available p = true ∨
    s.inState .exited p = true)
  (hwords : ∀ p ∈ s.gReadyQueue, s.tickets p < 0x10000000000000000)
include h hstates hwords

/-- The first process wins with every number up to its tickets. -/
theorem selects_first {winner : Nat} (hqueue : s.contenders = first :: rest)
    (hlt : winner < s.total) (hle : winner ≤ s.tickets first) (p : Ptr) :
    s.selects p winner = (some first == some p) := by
  obtain ⟨s₁, hburied, hschedule⟩ := schedule_eq h
  have hfirst : first ∈ s.contenders := hqueue ▸ mem_cons_self
  obtain ⟨hmem, havail⟩ := mem_filter.1 hfirst
  obtain ⟨t, ht, hstate⟩ := inState_iff.1 havail
  -- nobody else is left in the queue
  have hleft : s₁.gReadyQueue = first :: rest := by
    rw [hburied.queue, ← hqueue]
    refine filter_congr fun q hq => ?_
    rcases hstates q hq with hav | hex
    · obtain ⟨u, hu, hst⟩ := inState_iff.1 hav
      rw [hav, inState_eq hu, hst]
      rfl
    · obtain ⟨u, hu, hst⟩ := inState_iff.1 hex
      rw [hex, inState_eq hu, hst]
      rfl
  have hword := hwords first hmem
  rw [tickets_eq ht] at hword hle
  unfold selects
  rw [hschedule, if_neg (by omega), Nat.mod_eq_of_lt hlt, hleft, pickWinner,
    deref_step ((congrFun hburied.procs first).trans ht)]
  rw [zero_add, Nat.mod_eq_of_lt hword, if_pos ⟨hle, hstate⟩, bind_ok]

/-- If it has fewer tickets than there are numbers, that is one number too
many. -/
theorem wins_first (hqueue : s.contenders = first :: rest)
    (hlt : s.tickets first < s.total) : s.tickets first < s.wins first := by
  have hall : ∀ w ∈ range (s.tickets first + 1), s.selects first w = true := by
    intro w hw
    have hle := Nat.lt_succ_iff.1 (mem_range.1 hw)
    rw [selects_first h hstates hwords hqueue (by omega) hle]
    exact beq_self_eq_true _
  have hsub : (range (s.tickets first + 1)).Sublist (range s.total) := range_sublist.2 hlt
  have hcount : (range (s.tickets first + 1)).countP (s.selects first) ≤
      s.wins first := hsub.countP_le
  rw [countP_eq_length.2 hall, length_range] at hcount
  exact hcount

/-- If it has at least as many, it wins with all of them. -/
theorem wins_all (hqueue : s.contenders = first :: rest)
    (hle : s.total ≤ s.tickets first) (p : Ptr) :
    s.wins p = if p = first then s.total else 0 := by
  have hsame : ∀ w ∈ range s.total, s.selects p w = (some first == some p) := fun w hw =>
    have hlt := mem_range.1 hw
    selects_first h hstates hwords hqueue hlt (le_trans hlt.le hle) p
  unfold wins
  split
  next heq =>
    have hall : ∀ w ∈ range s.total, s.selects p w = true := by
      intro w hw
      rw [hsame w hw, heq]
      exact beq_self_eq_true _
    rw [countP_eq_length.2 hall, length_range]
  next hne =>
  refine countP_eq_zero.2 fun w hw => ?_
  rw [hsame w hw]
  exact fun heq => hne (Option.some.inj (eq_of_beq heq)).symm

theorem fair_of_soleHolder (hsole : s.SoleHolder) : s.Fair := by
  intro p hp
  unfold SoleHolder at hsole
  split at hsole
  next hnone =>
    rw [hnone] at hp
    cases hp
  next first rest hqueue =>
  obtain ⟨htotal, hothers⟩ := hsole
  rw [wins_all h hstates hwords hqueue htotal.le p]
  split
  next heq => rw [heq, htotal]
  next hne =>
  rw [hqueue] at hp
  exact (hothers p ((mem_cons.1 hp).resolve_left hne) hne).symm

theorem soleHolder_of_fair (hfair : s.Fair) : s.SoleHolder := by
  unfold SoleHolder
  split
  · trivial
  next first rest hqueue =>
  have hfirst : first ∈ s.contenders := hqueue ▸ mem_cons_self
  have hle : s.total ≤ s.tickets first := by
    by_contra hlt
    have hmore := wins_first h hstates hwords hqueue (not_le.1 hlt)
    rw [hfair first hfirst] at hmore
    exact lt_irrefl _ hmore
  refine ⟨?_, fun p hp hne => ?_⟩
  · rw [← hfair first hfirst, wins_all h hstates hwords hqueue hle, if_pos rfl]
  · rw [← hfair p (hqueue ▸ mem_cons_of_mem first hp),
      wins_all h hstates hwords hqueue hle, if_neg hne]

/-- The lottery is fair only if there is nothing to draw: the first
AVAILABLE process has all the tickets. -/
theorem fair_iff_soleHolder : s.Fair ↔ s.SoleHolder :=
  ⟨soleHolder_of_fair h hstates hwords, fair_of_soleHolder h hstates hwords⟩

end Fairness

/-- Two processes of which only the first has tickets. -/
def solo : State where
  procs := fun p =>
    match p with
    | 1 => some { pid := 1, state := .available, scheduling := ⟨20, 20⟩ }
    | 3 => some { pid := 3, state := .available, scheduling := ⟨20, 0⟩ }
    | _ => none
  current := none
  gReadyQueue := [1, 3]

theorem solo_available : ∀ p ∈ solo.gReadyQueue, solo.inState .available p = true := by
  decide

theorem solo_purgeable : solo.Purgeable := by
  have halive : ∀ p ∈ solo.gReadyQueue, ∀ t, solo.procs p = some t → t.state ≠ .exited := by
    intro p hp t ht hexited
    have havail := solo_available p hp
    rw [inState_eq ht, hexited] at havail
    cases havail
  refine ⟨fun p hp => ?_, fun p hp hexited => ?_, ?_, ?_⟩
  · obtain ⟨t, ht, _⟩ := inState_iff.1 (solo_available p hp)
    exact ⟨t, ht⟩
  · obtain ⟨t, ht, hst⟩ := inState_iff.1 hexited
    exact absurd hst (halive p hp t ht)
  · exact fun p hp t ht hst => absurd hst (halive p hp t ht)
  · exact fun p hp _ _ t _ ht _ hst => absurd hst (halive p hp t ht)

theorem fair_iff_soleHolder_solo : solo.Fair :=
  (fair_iff_soleHolder solo_purgeable (fun p hp => .inl (solo_available p hp)) (by decide)).2
    (show solo.total = 20 ∧ ∀ p ∈ [3], p ≠ 1 → solo.tickets p = 0 by decide)

/-- With 20 tickets and 5, the first process wins 21 times and the other
four times. -/
theorem trio_not_fair : trio.total = 25 ∧ trio.wins 1 = 21 ∧ trio.wins 3 = 4 ∧ ¬ trio.Fair := by
  have hwins : trio.wins 1 = 21 := by decide +kernel
  refine ⟨by decide, hwins, by decide +kernel, fun hfair => ?_⟩
  have hone := hfair 1 (by decide)
  cases hwins.symm.trans hone

end State

end Puppy.Proc
