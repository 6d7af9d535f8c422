/-
What is taken has been given.

A wait that succeeds takes one from the value, and a signal adds at most
one to it. So the value and the successes together never exceed what was
there and what was signalled, as long as no process is told of a success
it has not had (`Covered`).

A new maximum is stored whatever the value is, and nothing brings the value
down to it but the next signal. With the maximum kept above, the value stays
inside (`Within`).
-/
import Puppy.Lib.Except
import Puppy.Synch.Semaphore

namespace Puppy.Synch

open Lib Libc Machine

namespace Signalling

variable {s s' : Signalling} {p initial max : Nat} {call : SemaphoreCall}
  {sem : Semaphore} {a : SemaphoreAction}

structure Covered (initial : Nat) (s : Signalling) : Prop where
  sum : s.acquired + s.semaphore.mValue ≤ initial + s.signals
  timely : s.places.Timely SemaphoreCall.timed

theorem signal_le (sem : Semaphore) : sem.signal.mValue ≤ sem.mValue + 1 := by
  have hle : add32 sem.mValue 1 ≤ sem.mValue + 1 := Nat.mod_le _ _
  unfold Semaphore.signal
  dsimp only
  split
  next hmax =>
    dsimp only
    omega
  · exact hle

theorem take_some {sem' : Semaphore} (h : sem.take = some sem') : sem'.mValue + 1 = sem.mValue := by
  obtain ⟨hpos, ⟨⟩⟩ := Option.ite_none_right_eq_some.1 h
  dsimp only
  omega

theorem take_none (h : sem.take = none) : sem.mValue = 0 := by
  unfold Semaphore.take at h
  split at h
  · cases h
  next hpos => omega

section

variable (h : Covered initial s)
include h

/-- A success that takes one. -/
theorem Covered.take {semaphore : Semaphore}
    (htake : s.semaphore.take = some semaphore) (ok : Bool) :
    Covered initial (answer { s with semaphore := semaphore } p ok) := by
  refine ⟨?_, h.timely.put (fun c hc => by cases hc)⟩
  have hsum := h.sum
  have hvalue := take_some htake
  show (if ok then s.acquired + 1 else s.acquired) + semaphore.mValue ≤ initial + s.signals
  split <;> omega

/-- A failure that is reported as such. -/
theorem Covered.fail : Covered initial (s.answer p false) :=
  ⟨h.sum, h.timely.put (fun c hc => by cases hc)⟩

theorem Covered.block : Covered initial (s.block p call) :=
  ⟨h.sum, h.timely.put (fun c hc => by cases hc)⟩

theorem Covered.wait : Covered initial (s.wait p call) := by
  unfold Signalling.wait
  split
  next htake => exact h.take htake _
  · exact h.block

theorem Covered.resume {timeout : Bool} (hp : s.places p = .woken call timeout)
    (hok : call = .wait → 0 < s.semaphore.mValue) :
    Covered initial (s.resume p call timeout) := by
  unfold Signalling.resume
  cases timeout with
  | true =>
    cases call with
    | wait => exact absurd (h.timely p .wait hp) (by decide)
    | wait1 t => exact h.fail
  | false =>
    rw [if_neg Bool.false_ne_true]
    split
    next htake => exact h.take htake _
    next htake =>
    have hzero := take_none htake
    cases call with
    | wait =>
      have := hok rfl
      omega
    | wait1 t =>
      split
      · exact h.block
      · exact h.fail

theorem Covered.signal : Covered initial s.signal := by
  refine ⟨?_, h.timely.wakeall⟩
  have hsum := h.sum
  have hle := signal_le s.semaphore
  show s.acquired + s.semaphore.signal.mValue ≤ initial + (s.signals + 1)
  omega

theorem Covered.step (hok : Prompt s a) (hstep : step a s = .ok s') : Covered initial s' := by
  cases a with
  | call p call =>
    obtain ⟨_, ⟨⟩⟩ := check_eq_ok.1 hstep
    exact h.wait
  | signal p =>
    obtain ⟨_, ⟨⟩⟩ := check_eq_ok.1 hstep
    exact h.signal
  | resume p =>
    simp only [Signalling.step] at hstep
    split at hstep
    next call timeout hp =>
      exact of_ok hstep (h.resume hp (fun heq => hok timeout (heq ▸ hp)))
    · cases hstep
  | expire p =>
    simp only [Signalling.step] at hstep
    split at hstep
    next places hexpire =>
      exact of_ok hstep ⟨h.sum, h.timely.expire hexpire⟩
    · cases hstep

end

theorem covered_of_reach (h : (signalling initial max).Reach Prompt s) : Covered initial s := by
  refine Machine.Reach.invariant ?_ ?_ h
  · rintro s rfl
    exact ⟨by simp, fun p c hc => by cases hc⟩
  · intro s s' a hs hok hstep
    exact hs.step hok hstep

/-- The waits that succeed are covered by the initial value and the
signals. -/
theorem conservation {initial max : Nat} {s : Signalling}
    (h : (signalling initial max).Reach Prompt s) :
    s.acquired ≤ initial + s.signals := by
  have := (covered_of_reach h).sum
  omega

/-- A signal lets a process through that has waited, while another one
gives up. -/
theorem conservation_two : ∃ s, (signalling 0 1).Reach Prompt s ∧
    s.acquired = 1 ∧ s.signals = 1 ∧ s.acquired ≤ 0 + s.signals := by
  obtain ⟨s, hreach, hacquired, hsignals⟩ := exists_guarded
    (M := signalling 0 1) (G := Prompt) (P := fun s => s.acquired = 1 ∧ s.signals = 1) rfl
    [.call 1 .wait, .call 2 (.wait1 50), .signal 3, .resume 1, .resume 2,
      .expire 2, .resume 2] (by decide) (by decide)
  exact ⟨s, hreach, hacquired, hsignals, conservation hreach⟩

/-- One signal, and two processes that are told that they got through. -/
theorem wait_answers_twice : ∃ s, (signalling 0 1).Reach anyStep s ∧
    s.signals = 1 ∧ s.acquired = 2 :=
  exists_reach rfl [.call 1 .wait, .call 2 .wait, .signal 3, .resume 1, .resume 2] (by decide)

-- ==== limits

structure Within (sem : Semaphore) : Prop where
  le : sem.mValue ≤ sem.mMaxValue
  word : sem.mMaxValue < 2 ^ 32

theorem signal_eq (h : Within sem) (hroom : sem.mValue ≠ 0xFFFFFFFF) :
    sem.signal = ⟨min (sem.mValue + 1) sem.mMaxValue, sem.mMaxValue⟩ := by
  have hle := h.le
  have hword := h.word
  have hadd : add32 sem.mValue 1 = sem.mValue + 1 := Nat.mod_eq_of_lt (by omega)
  unfold Semaphore.signal
  rw [hadd]
  dsimp only
  split
  next hmax => rw [min_eq_right hmax.le]
  next hmax => rw [min_eq_left (Nat.not_lt.1 hmax)]

/-- A step signals, takes one or leaves the semaphore alone. -/
theorem step_semaphore (hstep : step a s = .ok s') :
    (∃ p, a = .signal p ∧ s'.semaphore = s.semaphore.signal) ∨
      s.semaphore.take = some s'.semaphore ∨ s'.semaphore = s.semaphore := by
  cases a with
  | call p call =>
    obtain ⟨_, ⟨⟩⟩ := check_eq_ok.1 hstep
    unfold Signalling.wait
    split
    next htake => exact Or.inr (Or.inl htake)
    · exact Or.inr (Or.inr rfl)
  | signal p =>
    obtain ⟨_, ⟨⟩⟩ := check_eq_ok.1 hstep
    exact Or.inl ⟨p, rfl, rfl⟩
  | resume p =>
    simp only [Signalling.step] at hstep
    split at hstep
    · cases hstep
      unfold Signalling.resume
      split
      · exact Or.inr (Or.inr rfl)
      split
      next htake => exact Or.inr (Or.inl htake)
      · split <;> exact Or.inr (Or.inr rfl)
    · cases hstep
  | expire p =>
    simp only [Signalling.step] at hstep
    split at hstep
    · cases hstep
      exact Or.inr (Or.inr rfl)
    · cases hstep

theorem Within.step {a : LimitAction} (h : Within s.semaphore)
    (hok : Roomy s a) (hstep : stepMax a s = .ok s') :
    Within s'.semaphore := by
  cases a with
  | plain a =>
    rcases step_semaphore hstep with ⟨p, rfl, heq⟩ | htake | heq
    · rw [heq, signal_eq h hok]
      exact ⟨min_le_right _ _, h.word⟩
    · obtain ⟨_, htake⟩ := Option.ite_none_right_eq_some.1 htake
      rw [← Option.some.inj htake]
      exact ⟨(Nat.sub_le _ _).trans h.le, h.word⟩
    · rw [heq]
      exact h
  | setMax p max =>
    obtain ⟨hmax, ⟨⟩⟩ := check_eq_ok.1 hstep
    exact ⟨hok, hmax.2⟩

/-- The value stays below the maximum, a signal never lowers it, and raises
it by one below the maximum. -/
theorem value_within {initial max : Nat} {s : Signalling}
    (hle : initial ≤ max) (hmax : max < 2 ^ 32)
    (h : (limited initial max).Reach Roomy s) :
    s.semaphore.mValue ≤ s.semaphore.mMaxValue ∧ ∀ p s', Roomy s (.plain (.signal p)) →
        stepMax (.plain (.signal p)) s = .ok s' →
        s.semaphore.mValue ≤ s'.semaphore.mValue ∧ (s.semaphore.mValue < s.semaphore.mMaxValue →
            s'.semaphore.mValue = s.semaphore.mValue + 1) := by
  have hwithin : Within s.semaphore := by
    refine Machine.Reach.invariant (I := fun s => Within s.semaphore) ?_
      (fun _ _ _ => Within.step) h
    rintro s rfl
    exact ⟨hle, hmax⟩
  refine ⟨hwithin.le, fun p s' hok hstep => ?_⟩
  obtain ⟨_, ⟨⟩⟩ := check_eq_ok.1 hstep
  show s.semaphore.mValue ≤ s.semaphore.signal.mValue ∧ (_ → s.semaphore.signal.mValue = _)
  rw [signal_eq hwithin hok]
  have hvalue := hwithin.le
  dsimp only
  omega

/-- A maximum of two, and two signals. -/
theorem value_within_two : ∃ s, (limited 0 1).Reach Roomy s ∧
    s.semaphore = ⟨2, 2⟩ ∧ s.semaphore.mValue ≤ s.semaphore.mMaxValue := by
  obtain ⟨s, hreach, hsem⟩ := exists_guarded
    (M := limited 0 1) (G := Roomy) (P := fun s => s.semaphore = ⟨2, 2⟩) rfl
    [.setMax 1 2, .plain (.signal 1), .plain (.signal 2)]
    (by decide) (by decide)
  exact ⟨s, hreach, hsem, (value_within (by decide) (by decide) hreach).1⟩

/-- A maximum that is set below the value; the signal after it lowers the
value. And one signal too many for 32 bits. -/
theorem setMax_below : (∃ s, (limited 0 1).Reach anyStep s ∧
      s.semaphore = ⟨2, 0⟩ ∧ s.semaphore.signal.mValue = 0) ∧
    Semaphore.signal ⟨0xFFFFFFFF, 0xFFFFFFFF⟩ = ⟨0, 0xFFFFFFFF⟩ := by
  refine ⟨exists_reach rfl [.setMax 1 2, .plain (.signal 1),
    .plain (.signal 1), .setMax 1 0] (by decide), by decide⟩

end Signalling

end Puppy.Synch
