/-
Machines whose steps can stop for good: a type of states, a type of
actions, and a step function that either yields the next state or gives
the reason why there is none. A kernel is such a machine. Its panics are
the reasons, and a property of "every state the system can be in" is a
property of every state some run reaches.

# Guards

Reachability is relative to a guard on steps. With the guard that allows
everything it is plain reachability; with a guard that rules a defect
out, it is the part of the state space the defect does not poison. One
induction rule (`Reach.invariant`) serves both, so an invariant that
needs the guard and one that does not are proven the same way.

# The executable half

`run` folds the step function over a list of actions. A concrete run
found by evaluation is a reachability proof (`exists_reach`), which is how
counterexamples and witnesses enter.
-/
import Mathlib.Tactic

namespace Puppy.Lib

/-- A labelled machine: where it may start, and what one action does. A
step that answers `.error` has no next state. -/
structure Machine (σ α ε : Type) where
  boot : σ → Prop
  step : α → σ → Except ε σ

namespace Machine

variable {σ α ε : Type} {M : Machine σ α ε} {ok : σ → α → Prop} {s : σ} {acts : List α}

/-- The guard that rules nothing out. -/
def anyStep (_ : σ) (_ : α) : Prop := True

/-- The states reached by runs whose every step passes the guard. -/
inductive Reach (M : Machine σ α ε) (ok : σ → α → Prop) : σ → Prop
  | boot {s : σ} : M.boot s → Reach M ok s
  | step {s s' : σ} (a : α) : Reach M ok s → ok s a → M.step a s = .ok s' → Reach M ok s'

/-- The invariant rule: what holds at boot and survives every guarded
step holds in every state reached. -/
theorem Reach.invariant {I : σ → Prop} (hboot : ∀ s, M.boot s → I s)
    (hstep : ∀ s s' a, I s → ok s a → M.step a s = .ok s' → I s')
    (h : M.Reach ok s) : I s := by
  induction h with
  | boot hb => exact hboot _ hb
  | step a _ hok hst ih => exact hstep _ _ a ih hok hst

/-- A weaker guard reaches at least as much. -/
theorem Reach.mono {ok' : σ → α → Prop} (himp : ∀ s a, ok s a → ok' s a) (h : M.Reach ok s) :
    M.Reach ok' s := by
  induction h with
  | boot hb => exact .boot hb
  | step a _ hok hst ih => exact .step a ih (himp _ _ hok) hst

-- ==== executable runs

/-- Perform the actions in order, stopping at the first that has no next
state. -/
def run (M : Machine σ α ε) : List α → σ → Except ε σ
  | [], s => .ok s
  | a :: rest, s =>
    match M.step a s with
    | .ok s' => run M rest s'
    | .error e => .error e

/-- Every step of the run passes the guard. -/
def Guarded (M : Machine σ α ε) (ok : σ → α → Prop) : List α → σ → Prop
  | [], _ => True
  | a :: rest, s =>
    ok s a ∧ match M.step a s with
      | .ok s' => Guarded M ok rest s'
      | .error _ => True

instance decidableGuarded (M : Machine σ α ε) (ok : σ → α → Prop) [∀ s a, Decidable (ok s a)] :
    ∀ acts s, Decidable (M.Guarded ok acts s)
  | [], _ => .isTrue trivial
  | a :: rest, s =>
    match h : M.step a s with
    | .ok s' =>
      have := decidableGuarded M ok rest s'
      decidable_of_iff (ok s a ∧ M.Guarded ok rest s') (by rw [Guarded, h])
    | .error _ => decidable_of_iff (ok s a) (by rw [Guarded, h, and_true])

/-- The run goes through, and its last state passes the test. -/
def endsWith (M : Machine σ α ε) (acts : List α) (s : σ) (test : σ → Bool) : Bool :=
  match M.run acts s with
  | .ok s' => test s'
  | .error _ => false

theorem endsWith_iff {test : σ → Bool} : M.endsWith acts s test = true ↔
      ∃ s', M.run acts s = .ok s' ∧ test s' = true := by
  unfold endsWith
  cases hrun : M.run acts s with
  | error e =>
    constructor
    · nofun
    · intro h
      obtain ⟨s', hs', _⟩ := h
      cases hs'
  | ok s' =>
    constructor
    · intro h
      exact ⟨s', rfl, h⟩
    intro h
    obtain ⟨s₁, hs₁, htest⟩ := h
    injection hs₁ with hs₁
    rw [hs₁]
    exact htest

/-- The first step of a run. -/
theorem endsWith_cons (a : α) (rest : List α) (s : σ) (test : σ → Bool) :
    M.endsWith (a :: rest) s test = match M.step a s with
      | .ok s' => M.endsWith rest s' test
      | .error _ => false := by
  unfold endsWith
  rw [run]
  cases M.step a s <;> rfl

/-- A guarded run from a reachable state ends in a reachable state. -/
theorem Reach.run : ∀ {acts : List α} {s s' : σ}, M.Reach ok s → M.Guarded ok acts s →
      M.run acts s = .ok s' → M.Reach ok s' := by
  intro acts
  induction acts with
  | nil =>
    intro s s' hr _ hrun
    simp only [Machine.run, Except.ok.injEq] at hrun
    exact hrun ▸ hr
  | cons a rest ih =>
    intro s s' hr hg hrun
    unfold Machine.run at hrun
    unfold Guarded at hg
    cases hst : M.step a s with
    | error e => simp [hst] at hrun
    | ok s₁ =>
      rw [hst] at hrun hg
      exact ih (.step a hr hg.1 hst) hg.2 hrun

/-- A run is guarded when its actions pass the guard in every state. -/
theorem guarded_of_forall : ∀ {acts : List α},
    (∀ a ∈ acts, ∀ s, ok s a) → ∀ s, M.Guarded ok acts s := by
  intro acts
  induction acts with
  | nil => intro _ s; trivial
  | cons a rest ih =>
    intro hall s
    refine ⟨hall a List.mem_cons_self s, ?_⟩
    cases M.step a s with
    | error e => trivial
    | ok s₁ => exact ih (fun b hb => hall b (List.mem_cons_of_mem a hb)) s₁

/-- A run from a boot state ends in a reachable state. -/
theorem reach_run {s' : σ} (hb : M.boot s) (hrun : M.run acts s = .ok s') : M.Reach anyStep s' :=
  (Reach.boot hb).run (guarded_of_forall (fun _ _ _ => trivial) s) hrun

section Found

variable {s : σ} {P : σ → Prop} [DecidablePred P]

/-- A run found by evaluation, with what holds of its last state. -/
theorem exists_run (acts : List α) (s : σ)
    (h : M.endsWith acts s (fun s' => decide (P s')) = true) :
    ∃ s', M.run acts s = .ok s' ∧ P s' := by
  obtain ⟨s', hrun, htest⟩ := endsWith_iff.1 h
  exact ⟨s', hrun, of_decide_eq_true htest⟩

theorem exists_guarded {G : σ → α → Prop} (hb : M.boot s) (acts : List α) (hg : M.Guarded G acts s)
    (h : M.endsWith acts s (fun s' => decide (P s')) = true) :
    ∃ s', M.Reach G s' ∧ P s' := by
  obtain ⟨s', hrun, hs'⟩ := exists_run acts s h
  exact ⟨s', (Reach.boot hb).run hg hrun, hs'⟩

theorem exists_reach (hb : M.boot s) (acts : List α)
    (h : M.endsWith acts s (fun s' => decide (P s')) = true) :
    ∃ s', M.Reach anyStep s' ∧ P s' :=
  exists_guarded hb acts (guarded_of_forall (fun _ _ _ => trivial) s) h

end Found

end Machine

end Puppy.Lib
