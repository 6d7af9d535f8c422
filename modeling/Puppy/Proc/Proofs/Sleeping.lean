/-
The order of the sleep queue.

Almost nothing a step does is about the sleep queue: it stays as it is, and
so does the time at which each process is to be woken up (`Calm`). What is
left are the steps that put a process to sleep, the awaker, and the deleter.

Putting a process to sleep overwrites its time. If the process has an entry
in the queue from before, that entry now has another deadline where it
stands, and the queue is no heap any more: nothing moves the entry. Such
entries are left behind by a timed wait that was signalled. As long as
nobody goes to sleep who has left one, every insertion is into a heap.
-/
import Puppy.Libc.Proofs.PQueue
import Puppy.Proc.Proofs.Calm

namespace Puppy.Proc

open Libc Lib State Function

variable {s s' s'' : State} {p c : Ptr} {q : QueueId} {C D : Ptr → Prop}

-- ==== deadlines

/-- Every entry has a process, and the queue is a heap. -/
structure Heaped (s : State) : Prop where
  present : ∀ e ∈ s.gSleepQueue, ∃ t, s.procs e.process = some t
  heap : Heap.IsHeap s.deadline s.gSleepQueue

theorem deadline_eq {e : QEntry} {t : Process}
    (ht : s.procs e.process = some t) : s.deadline e = t.sleeptill := by
  unfold deadline
  rw [ht]
  rfl

/-- What follows from the order of the heap. -/
theorem Heaped.sleepOrder (h : Heaped s) : SleepOrder s := by
  have hfirst : ∀ top rest, s.gSleepQueue = top :: rest →
      ∀ e ∈ s.gSleepQueue, s.deadline top ≤ s.deadline e := by
    intro top rest hqueue e he
    obtain ⟨i, hi⟩ := List.mem_iff_getElem?.1 he
    refine h.heap.first i top e ?_ hi
    rw [hqueue]
    rfl
  exact ⟨h.present, h.heap, hfirst,
    fun top rest hqueue e he hdue => (hfirst top rest hqueue e he).trans hdue⟩

theorem sleepCompare_orders (s : State) : PQueue.Orders s.sleepCompare s.deadline := by
  intro a b order h
  obtain ⟨t₁, ht₁, h⟩ := deref_bind h
  obtain ⟨t₂, ht₂, h⟩ := deref_bind h
  injection h with h
  rw [deadline_eq ht₁, deadline_eq ht₂, ← h]
  by_cases hle : t₂.sleeptill ≤ t₁.sleeptill
  · simp [hle]
  · simp [hle, Nat.lt_of_not_le hle]

/-- Deadlines of entries that the queue has are looked at only. -/
theorem Heaped.congr (h : Heaped s) (hsleep : s'.gSleepQueue = s.gSleepQueue)
    (hkept : ∀ e ∈ s.gSleepQueue, ∀ t, s.procs e.process = some t →
      ∃ t', s'.procs e.process = some t' ∧ t'.sleeptill = t.sleeptill) :
    Heaped s' := by
  constructor
  · intro e he
    rw [hsleep] at he
    obtain ⟨t, ht⟩ := h.present e he
    obtain ⟨t', ht', _⟩ := hkept e he t ht
    exact ⟨t', ht'⟩
  rw [hsleep]
  refine h.heap.congr ?_
  intro e he
  obtain ⟨t, ht⟩ := h.present e he
  obtain ⟨t', ht', heq⟩ := hkept e he t ht
  rw [deadline_eq ht, deadline_eq ht', heq]

theorem Calm.heaped (h : Calm C D s s') (hs : Heaped s) : Heaped s' :=
  hs.congr h.sleep (fun e _ t ht => h.kept e.process t ht)

-- ==== the steps that are about the queue

section

variable (hs : Heaped s)
include hs

/-- A process without an entry in the queue goes to sleep. -/
theorem sleep_heaped {ms : Nat} (honce : ∀ e ∈ s.gSleepQueue, e.process ≠ p)
    (h : s.sleep p ms = .ok s') : Heaped s' := by
  obtain ⟨t, ht, h⟩ := ok_bind h
  obtain ⟨s₁, hdesch, h⟩ := ok_bind h
  obtain ⟨u, hu, h⟩ := deref_bind h
  obtain ⟨queue, hinsert, h⟩ := ok_bind h
  obtain ⟨s₂, hwake, h⟩ := ok_bind h
  refine of_ok h ?_
  -- the new deadline is that of no entry
  have hset : Heaped (s.setProc p { t with sleeptill := s.millisUptime + ms }) := by
    refine hs.congr rfl ?_
    intro e he v hv
    exact ⟨v, by rw [setProc_procs, update_of_ne (honce e he), hv],
      rfl⟩
  have hcalm : Calm (fun _ => False) (fun _ => True) _ s₁ :=
    deschedule_calm (fun hst => by cases hst) (by decide) (by decide) hdesch
  have hs₁ : Heaped s₁ := hcalm.heaped hset
  have hqueue : Heaped { s₁ with gSleepQueue := queue } := by
    refine ⟨?_, PQueue.insert_heap (sleepCompare_orders s₁) hs₁.heap hinsert⟩
    intro e he
    have hperm := (PQueue.insert_sat (E := fun _ => True)
      (fun _ _ _ _ => trivial) _ _).result hinsert
    rcases List.mem_cons.1 (hperm.mem_iff.1 he) with heq | hmem
    · rw [heq]
      exact ⟨u, hu⟩
    · exact hs₁.present e hmem
  have hcalm' : Calm (fun _ => False) (fun _ => True) _ s₂ := calm_editing.wakeall hwake
  exact (hcalm'.trans calm_editing.switch).heaped hqueue

theorem waitYield_heaped {timeout : Nat} (honce : timeout ≠ 0 → ∀ e ∈ s.gSleepQueue, e.process ≠ p)
    (h : s.waitYield q p timeout = .ok s') : Heaped s' := by
  obtain ⟨s₁, hwait, h⟩ := ok_bind h
  have hcalm : Calm (fun _ => False) (fun _ => True) s s₁ := wait_calm hwait
  split at h
  · exact of_ok h ((hcalm.trans calm_editing.switch).heaped hs)
  next hzero =>
  refine sleep_heaped (hcalm.heaped hs) ?_ h
  rw [hcalm.sleep]
  exact honce hzero

theorem popSleeper_heaped {r : QEntry × State} (h : s.popSleeper = .ok r) : Heaped r.2 := by
  unfold popSleeper at h
  split at h
  · cases h
  next top rest hqueue =>
  obtain ⟨queue, hpop, h⟩ := ok_bind h
  cases h
  have hheap := hs.heap
  rw [hqueue] at hheap
  refine ⟨?_, PQueue.pop_heap (sleepCompare_orders s) hheap hpop⟩
  intro e he
  have hperm := (PQueue.pop_sat (E := fun _ => True) (fun _ _ _ _ => trivial) _).result hpop
  refine hs.present e ?_
  rw [hqueue]
  exact List.mem_cons_of_mem top (hperm.mem_iff.1 he)

theorem awaker_heaped (h : s.awaker c = .ok s') : Heaped s' := by
  unfold awaker at h
  split at h
  · exact waitYield_heaped hs (fun hne => absurd rfl hne) h
  next top rest _ =>
  obtain ⟨t, _, h⟩ := ok_bind h
  split at h
  · obtain ⟨r, hpop, h⟩ := ok_bind h
    have hcalm : Calm (fun _ => False) (fun _ => True) r.2 s' := calm_editing.enqueueForDeath h
    exact hcalm.heaped (popSleeper_heaped hs hpop)
  split at h
  · split at h
    · obtain ⟨r, hpop, h⟩ := ok_bind h
      have hcalm : Calm (fun _ => False) (fun _ => True) r.2 s' := wake_calm h
      exact hcalm.heaped (popSleeper_heaped hs hpop)
    · exact of_ok h hs
  · exact of_ok h ⟨hs.present, hs.heap⟩

theorem deleter_heaped (honce : ∀ x ∈ s.gCollectedProcessList.head?, ∀ e ∈ s.gSleepQueue,
      e.process ≠ x) (h : s.deleter c = .ok s') : Heaped s' := by
  unfold deleter at h
  split at h
  · exact waitYield_heaped hs (fun hne => absurd rfl hne) h
  next x rest hlist =>
  obtain ⟨t, _, h⟩ := ok_bind h
  refine of_ok h ?_
  have hx : x ∈ s.gCollectedProcessList.head? := by
    rw [hlist]
    rfl
  refine hs.congr rfl ?_
  intro e he v hv
  refine ⟨v, ?_, rfl⟩
  show update s.procs x none e.process = some v
  rw [update_of_ne (honce x hx e he), hv]

-- ==== runs

theorem round_heaped {task : KernelTask} (honce : SleepsOnce s (.round task))
    (h : s.round task = .ok s') : Heaped s' := by
  obtain ⟨self, _, _, h⟩ := round_parts h
  cases task with
  | collector =>
    obtain ⟨k, _, h⟩ := ok_bind h
    split at h
    · exact waitYield_heaped hs (fun hne => absurd rfl hne) h
    · obtain ⟨t, _, h⟩ := ok_bind h
      exact (collect_calm (C := fun _ => True) (D := fun _ => True) trivial h).heaped hs
  | awaker => exact awaker_heaped hs h
  | deleter => exact deleter_heaped hs honce h

theorem step_heaped {a : Action} (honce : SleepsOnce s a) (h : s.step a = .ok s') : Heaped s' := by
  have hup : Calm (fun _ => True) (fun _ => True) s s' → Heaped s' := fun hcalm => hcalm.heaped hs
  refine calm_editing.step hup (fun _ _ t _ => ⟨rfl, .inr, .inr⟩)
    (fun _ _ _ t => ⟨rfl, fun _ => .inl trivial, fun _ => .inr rfl⟩) ?_ h
  cases a with
  | waitYield id timeout =>
    intro c hc h
    refine waitYield_heaped hs (fun hne => honce c ?_) h
    show (if timeout = 0 then none else s.current) = some c
    rw [if_neg hne]
    exact caller_current hc
  | sleep ms => exact fun c hc h => sleep_heaped hs (honce c (caller_current hc)) h
  | exit es closed => exact fun c _ h => hup (exit_calm trivial h)
  | round task => exact round_heaped hs honce
  | _ => trivial

end

/-- **The sleep queue is in order** in every run in which nobody goes to
sleep, or is deleted, with an entry left in the queue. -/
theorem sleepOrder_of_sleepsOnce {s : State} (h : system.Reach SleepsOnce s) : SleepOrder s := by
  have hheaped : Heaped s := by
    refine Machine.Reach.invariant ?_ ?_ h
    · rintro s rfl
      refine ⟨?_, .nil⟩
      intro e he
      cases he
    · intro s s' a hs honce hstep
      exact step_heaped hs honce hstep
  exact hheaped.sleepOrder

/-- Two processes go to sleep, the second one for a shorter time. -/
theorem sleepOrder_of_sleepsOnce_two : ∃ s, system.Reach SleepsOnce s ∧
    s.gSleepQueue = [⟨1, 4⟩, ⟨1, 5⟩] ∧ s.deadline ⟨1, 4⟩ = 10 ∧
    s.deadline ⟨1, 5⟩ = 20 ∧ SleepOrder s := by
  obtain ⟨s, hreach, hqueue, hfirst, hsecond⟩ := Machine.exists_guarded
    (M := system) (G := SleepsOnce)
    (P := fun s => s.gSleepQueue = [⟨1, 4⟩, ⟨1, 5⟩] ∧
      s.deadline ⟨1, 4⟩ = 10 ∧ s.deadline ⟨1, 5⟩ = 20) rfl
    (booted ++ [.sleep 20, .schedule 45, .sleep 10]) (by decide +kernel)
    (by decide +kernel)
  exact ⟨s, hreach, hqueue, hfirst, hsecond, sleepOrder_of_sleepsOnce hreach⟩

/-- The process at 5 waits for 10 ms at most and is signalled, after which
the one at 4 goes to sleep for 20 ms. Then the first one sleeps for 100 ms,
and its old entry stays at the top. When 50 ms have passed, the process at 4
is still asleep behind it. -/
theorem overslept : ∃ s, system.Reach Machine.anyStep s ∧
    s.gSleepQueue = [⟨2, 5⟩, ⟨1, 4⟩, ⟨1, 5⟩] ∧ s.millisUptime = 50 ∧
    s.deadline ⟨2, 5⟩ = 100 ∧ s.deadline ⟨1, 4⟩ = 20 ∧
    (s.procs 4).map Process.state = some .sleeping ∧ ¬ SleepOrder s := by
  obtain ⟨s, hreach, hqueue, hnow, htop, hnext, hasleep⟩ :=
    Machine.exists_reach (M := system) (P := fun s =>
      s.gSleepQueue = [⟨2, 5⟩, ⟨1, 4⟩, ⟨1, 5⟩] ∧ s.millisUptime = 50 ∧
      s.deadline ⟨2, 5⟩ = 100 ∧ s.deadline ⟨1, 4⟩ = 20 ∧
      (s.procs 4).map Process.state = some .sleeping) rfl
      (booted ++ [.waitYield 1 10, .schedule 45, .wakeall 1, .sleep 20,
        .schedule 45, .sleep 100, .tick 50]) (by decide +kernel)
  refine ⟨s, hreach, hqueue, hnow, htop, hnext, hasleep, ?_⟩
  intro horder
  have hle := horder.earliest _ _ hqueue ⟨1, 4⟩ (by rw [hqueue]; decide)
  rw [htop, hnext] at hle
  exact absurd hle (by decide)

end Puppy.Proc
