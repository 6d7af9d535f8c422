/-
Processes that block in calls.

A call that has to wait gives up the processor in the middle, and goes on
when somebody has woken its process up. Between two such points nothing
else happens, so where a process is can be told by the call it is in and
by whether it still waits. `Places` says it for all processes.

# Waking up

A signal reaches all processes that wait for one thing (`wakeall`), a
timeout a single one (`expire`). What a process finds when it goes on is
what the call it is in was waiting for, and which of the two it was.
-/
import Mathlib.Tactic

namespace Puppy.Lib

open Function

/-- Where a process is in a call, if it is in one. -/
inductive Place (κ : Type) where
  | outside
  /-- It waits. -/
  | blocked (call : κ)
  /-- It may go on, after a signal or a timeout. -/
  | woken (call : κ) (timeout : Bool)
  deriving DecidableEq, Repr

/-- The call that a process is in. -/
def Place.call {κ : Type} : Place κ → Option κ
  | outside => none
  | blocked call => some call
  | woken call _ => some call

/-- Where all the processes are. -/
abbrev Places (κ : Type) := Nat → Place κ

namespace Places

variable {κ : Type} {places : Places κ} {p q : Nat} {call : κ} {place : Place κ} {waits : κ → Bool}

/-- Put a process somewhere. -/
def put (places : Places κ) (p : Nat) (place : Place κ) : Places κ :=
  update places p place

/-- A signal, to the calls that wait for it. -/
def wakeall (places : Places κ) (waits : κ → Bool) : Places κ := fun p =>
  match places p with
  | .blocked call => if waits call then .woken call false else .blocked call
  | place => place

/-- A timeout, if the process waits with one. -/
def expire (places : Places κ) (timed : κ → Bool) (p : Nat) : Option (Places κ) :=
  match places p with
  | .blocked call => if timed call then some (places.put p (.woken call true)) else none
  | _ => none

@[simp]
theorem put_self : places.put p place p = place :=
  update_self ..

theorem put_of_ne (h : q ≠ p) : places.put p place q = places q :=
  update_of_ne h ..

/-- After a signal nobody waits for it. -/
theorem wakeall_eq_blocked : places.wakeall waits p = .blocked call ↔
      places p = .blocked call ∧ waits call = false := by
  unfold wakeall
  cases hp : places p with
  | outside => simp
  | woken c t => simp
  | blocked c =>
    dsimp only
    by_cases hw : waits c = true
    · rw [if_pos hw]
      constructor
      · intro h
        cases h
      rintro ⟨h, hfalse⟩
      injection h with h
      rw [← h, hw] at hfalse
      cases hfalse
    rw [if_neg hw]
    constructor
    · intro h
      refine ⟨h, ?_⟩
      cases h
      exact Bool.not_eq_true _ ▸ hw
    · intro h
      exact h.1

/-- A signal takes nobody out of its call. -/
@[simp]
theorem call_wakeall : (places.wakeall waits p).call = (places p).call := by
  unfold wakeall
  cases places p with
  | outside => rfl
  | woken c t => rfl
  | blocked c =>
    dsimp only
    split <;> rfl

theorem put_cases {P : Place κ → Prop} (h : P (places.put p place q)) :
    (q = p ∧ P place) ∨ (q ≠ p ∧ P (places q)) := by
  by_cases hq : q = p
  · rw [hq, put_self] at h
    exact .inl ⟨hq, h⟩
  · rw [put_of_ne hq] at h
    exact .inr ⟨hq, h⟩

theorem call_put (h : (places.put p place q).call = some call) :
    (q = p ∧ place.call = some call) ∨ (q ≠ p ∧ (places q).call = some call) :=
  put_cases (P := fun x => x.call = some call) h

/-- A process that is put somewhere does not wait, unless it is told to. -/
theorem put_eq_blocked (h : places.put p place q = .blocked call) :
    (q = p ∧ place = .blocked call) ∨ (q ≠ p ∧ places q = .blocked call) :=
  put_cases (P := (· = .blocked call)) h

/-- A process that leaves its call does not wait. -/
theorem put_outside_eq_blocked (h : places.put p .outside q = .blocked call) :
    places q = .blocked call := by
  rcases put_eq_blocked h with ⟨_, ⟨⟩⟩ | ⟨_, h⟩
  · exact h

section Signal

variable {c : Prop} [Decidable c] {waits : κ → Bool}

/-- A signal that is sent under a condition. -/
theorem signal_eq_blocked (h : (if c then places.wakeall waits else places) p = .blocked call) :
    places p = .blocked call ∧ (c → waits call = false) := by
  split at h
  · obtain ⟨hp, hw⟩ := wakeall_eq_blocked.1 h
    exact ⟨hp, fun _ => hw⟩
  next hc => exact ⟨h, fun hc' => absurd hc' hc⟩

@[simp]
theorem call_signal : ((if c then places.wakeall waits else places) p).call = (places p).call := by
  split
  · exact call_wakeall
  · rfl

end Signal

theorem expire_eq_some {timed : κ → Bool} {places' : Places κ}
    (h : places.expire timed p = some places') :
    ∃ call, places p = .blocked call ∧ timed call = true ∧
      places' = places.put p (.woken call true) := by
  unfold expire at h
  split at h
  next call hp =>
    obtain ⟨ht, h⟩ := Option.ite_none_right_eq_some.1 h
    injection h with h
    exact ⟨call, hp, ht, h.symm⟩
  · cases h

-- ==== timeouts

/-- Only a process that waits with a timeout is woken up by one. -/
def Timely (places : Places κ) (timed : κ → Bool) : Prop :=
  ∀ p call, places p = .woken call true → timed call = true

section Timely

variable {timed : κ → Bool}

theorem Timely.put (h : Timely places timed)
    (hplace : ∀ call, place = .woken call true → timed call = true) :
    Timely (places.put p place) timed := by
  intro q call hq
  by_cases hqp : q = p
  · rw [hqp, put_self] at hq
    exact hplace call hq
  · rw [put_of_ne hqp] at hq
    exact h q call hq

theorem Timely.wakeall (h : Timely places timed) : Timely (places.wakeall waits) timed := by
  intro p call hp
  unfold Places.wakeall at hp
  cases hplace : places p with
  | outside =>
    rw [hplace] at hp
    cases hp
  | woken c t =>
    rw [hplace] at hp
    exact h p call (hplace.trans hp)
  | blocked c =>
    rw [hplace] at hp
    dsimp only at hp
    split at hp <;> cases hp

theorem Timely.expire {places' : Places κ} (h : Timely places timed)
    (hexpire : places.expire timed p = some places') :
    Timely places' timed := by
  obtain ⟨call, _, ht, rfl⟩ := expire_eq_some hexpire
  refine h.put ?_
  intro c hc
  cases hc
  exact ht

end Timely

end Places

end Puppy.Lib
