/-
Who has the mutex.

A successful round of the loop takes a mutex that is free, so nobody else
has been told that it is theirs. `unlock` wakes everybody who waits, and
the first to run takes the mutex. The next one finds it taken and does not
wait again; `wait1` says so, and `IOCTL_MUTEX_LOCK` does not.
-/
import Puppy.Synch.Mutex

namespace Puppy.Synch

open Lib Function

namespace Locking

variable {s s' : Locking} {p : Nat} {call : MutexCall}

/-- Nobody holds a mutex that is free. -/
theorem Owned.free (h : Owned s) (hfree : s.mutex.mLocked = false) (q : Nat) :
    s.holds q = false := by
  rw [← Bool.not_eq_true]
  intro hq
  rw [(h q hq).1] at hfree
  cases hfree

/-- A free mutex is taken. -/
theorem Owned.dolock (h : Owned s) (hfree : s.mutex.mLocked = false) :
    Owned (answer { s with mutex := s.mutex.dolock p } p true) := by
  intro q hq
  have hq : update s.holds p true q = true := hq
  by_cases hqp : q = p
  · rw [hqp]
    exact ⟨rfl, rfl⟩
  · rw [update_of_ne hqp, h.free hfree q] at hq
    cases hq

/-- A round of the loop, which does not answer 1 for a mutex that is
taken. -/
theorem Owned.waitRound {wait : Bool} (h : Owned s)
    (hok : wait = false → call = .lock → s.mutex.mLocked = false) :
    Owned (s.waitRound p call wait) := by
  unfold Locking.waitRound Mutex.waitRound
  by_cases hlocked : s.mutex.mLocked = true
  · rw [if_pos hlocked]
    cases wait with
    | true => exact h
    | false =>
      cases call with
      | lock =>
        rw [hok rfl rfl] at hlocked
        cases hlocked
      | wait1 timeout => exact h
  · rw [if_neg hlocked]
    have htake := h.dolock (p := p) (Bool.not_eq_true _ ▸ hlocked)
    cases call with
    | lock => exact htake
    | wait1 timeout => exact htake

theorem Owned.unlock (h : Owned s) : Owned (s.unlock p) := by
  intro q hq
  have hq : update s.holds p false q = true := hq
  have hqp : q ≠ p := by
    intro heq
    rw [heq, update_self] at hq
    cases hq
  rw [update_of_ne hqp] at hq
  obtain ⟨hlocked, hpid⟩ := h q hq
  -- the mutex is somebody else's, so nothing happens to it
  have hkeep : s.mutex.unlock p = (false, s.mutex) := by
    unfold Mutex.unlock
    rw [if_neg]
    rw [hlocked, hpid, Bool.true_and, beq_iff_eq]
    exact hqp
  unfold Locking.unlock
  rw [hkeep]
  exact ⟨hlocked, hpid⟩

-- ==== steps and runs

structure Fair (s : Locking) : Prop where
  owned : Owned s
  timely : s.places.Timely MutexCall.timed

theorem waitRound_timely {wait : Bool} (h : s.places.Timely MutexCall.timed) :
    (s.waitRound p call wait).places.Timely MutexCall.timed := by
  unfold Locking.waitRound
  split
  · exact h.put (fun c hc => by cases hc)
  · exact h.put (fun c hc => by cases hc)

theorem Fair.step {a : MutexAction} (h : Fair s) (hok : Prompt s a)
    (hstep : step a s = .ok s') : Fair s' := by
  cases a with
  | call p call =>
    simp only [Locking.step] at hstep
    split at hstep
    · cases hstep
      exact ⟨h.owned.waitRound (fun hw => Bool.noConfusion hw), waitRound_timely h.timely⟩
    · cases hstep
  | trylock p =>
    simp only [Locking.step, Mutex.trylock] at hstep
    split at hstep
    · cases hstep
      refine ⟨?_, h.timely.put (fun c hc => by cases hc)⟩
      by_cases hlocked : s.mutex.mLocked = true
      · rw [if_pos hlocked]
        exact h.owned
      · rw [if_neg hlocked]
        exact h.owned.dolock (Bool.not_eq_true _ ▸ hlocked)
    · cases hstep
  | unlock p =>
    simp only [Locking.step] at hstep
    split at hstep
    · cases hstep
      refine ⟨h.owned.unlock, ?_⟩
      unfold Locking.unlock
      dsimp only
      split
      · exact h.timely.wakeall
      · exact h.timely
    · cases hstep
  | resume p =>
    simp only [Locking.step] at hstep
    split at hstep
    next call timeout hp =>
      cases hstep
      cases timeout with
      | false =>
        refine ⟨h.owned.waitRound ?_, waitRound_timely h.timely⟩
        intro _ heq
        exact hok false (heq ▸ hp)
      | true =>
        refine ⟨?_, h.timely.put (fun c hc => by cases hc)⟩
        cases call with
        | lock => exact absurd (h.timely p .lock hp) (by decide)
        | wait1 t => exact h.owned
    · cases hstep
  | expire p =>
    simp only [Locking.step] at hstep
    split at hstep
    next places hexpire =>
      cases hstep
      exact ⟨h.owned, h.timely.expire hexpire⟩
    · cases hstep

theorem fair_of_reach (h : locking.Reach Prompt s) : Fair s := by
  refine Machine.Reach.invariant ?_ ?_ h
  · rintro s rfl
    exact ⟨fun p hp => Bool.noConfusion hp, fun p c hc => by cases hc⟩
  · intro s s' a hs hok hstep
    exact hs.step hok hstep

/-- Whoever has been told that it has the mutex is its owner, so there is
at most one. -/
theorem mutualExclusion {s : Locking} (h : locking.Reach Prompt s) :
    Owned s ∧ ∀ p q, s.holds p = true → s.holds q = true → p = q := by
  have howned := (fair_of_reach h).owned
  refine ⟨howned, ?_⟩
  intro p q hp hq
  exact (howned p hp).2.symm.trans (howned q hq).2

/-- One process has waited for the mutex and got it, another gives up. -/
theorem mutualExclusion_two : ∃ s, locking.Reach Prompt s ∧ s.holds 2 = true ∧ (Owned s ∧
      ∀ p q, s.holds p = true → s.holds q = true → p = q) := by
  obtain ⟨s, hreach, hholds⟩ := Machine.exists_guarded (M := locking)
    (G := Prompt) (P := fun s => s.holds 2 = true) rfl
    [.trylock 1, .call 2 .lock, .call 3 (.wait1 50), .unlock 1, .resume 2,
      .resume 3, .expire 3, .resume 3] (by decide) (by decide)
  exact ⟨s, hreach, hholds, mutualExclusion hreach⟩

/-- Both processes that have waited are told that they have the mutex. -/
theorem lock_answers_twice : ∃ s, locking.Reach Machine.anyStep s ∧
    s.holds 2 = true ∧ s.holds 3 = true ∧ s.mutex.mPid = 2 :=
  Machine.exists_reach rfl [.trylock 1, .call 2 .lock, .call 3 .lock, .unlock 1, .resume 2,
      .resume 3] (by decide)

end Locking

end Puppy.Synch
