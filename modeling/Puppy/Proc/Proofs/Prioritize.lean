/-
When `prioritize` does all of what it is asked for or nothing.

Both kinds of request set one priority in the same way, up to which of its
values they are about (`setter_none`, `setter_some`): 0 leaves it, a value above the
ceiling is refused, and anything else is set. So the four cases of a request
with two values are the same for both kinds (`setBoth_cases`), and the only
one in which an error leaves a trace is a quantum that is set before the
other value is refused.
-/
import Puppy.Proc.Prioritize
import Puppy.Proc.Proofs.Priority

namespace Puppy.Proc

open Lib Priority Function

-- ==== one priority

/-- The setter that a kind of request uses. -/
def PrioritizeTarget.setter : PrioritizeTarget → Priority → Nat → Option Priority
  | .current => setCurrent
  | .maximum => setMax

/-- The value that it reports. -/
def PrioritizeTarget.getter : PrioritizeTarget → Priority → Nat
  | .current => Priority.current
  | .maximum => max

namespace Priority

variable {p q : Priority} {value : Nat} {target : PrioritizeTarget}

theorem setter_none : target.setter p value = none ↔ p.Refuses value := by
  unfold PrioritizeTarget.setter Refuses
  cases target with
  | current =>
    dsimp only
    unfold setCurrent
    split
    next hne =>
      split
      next hlt => exact ⟨fun _ => ⟨hne, hlt⟩, fun _ => rfl⟩
      next hle => exact ⟨nofun, fun h => absurd h.2 hle⟩
    next hzero => exact ⟨nofun, fun h => absurd h.1 hzero⟩
  | maximum =>
    dsimp only
    unfold setMax
    split
    next hne =>
      split
      next hle => exact ⟨nofun, fun h => absurd hle (by omega)⟩
      next hlt => exact ⟨fun _ => ⟨hne, by omega⟩, fun _ => rfl⟩
    next hzero => exact ⟨nofun, fun h => absurd h.1 hzero⟩

theorem setter_some (h : target.setter p value = some q) : SetTo target value p q := by
  unfold SetTo
  unfold PrioritizeTarget.setter at h
  cases target with
  | current =>
    dsimp only at h
    unfold setCurrent at h
    split at h
    next hne =>
      obtain ⟨_, h⟩ := Option.ite_none_left_eq_some.1 h
      injection h with h
      rw [if_neg hne]
      exact h.symm
    next hzero =>
    injection h with h
    rw [if_pos (not_not.1 hzero)]
    exact h.symm
  | maximum =>
    dsimp only at h
    unfold setMax at h
    split at h
    next hne =>
      obtain ⟨_, h⟩ := Option.ite_none_right_eq_some.1 h
      injection h with h
      rw [if_neg hne, ← h]
      congr 1
      split <;> omega
    next hzero =>
    injection h with h
    rw [if_pos (not_not.1 hzero)]
    exact h.symm

/-- A request that is granted makes a difference if it moves something. -/
theorem setter_moves (h : target.setter p value = some q) : q ≠ p ↔ Moves target p value := by
  have hset := setter_some h
  have hgranted : ¬ p.Refuses value := fun hno => by
    rw [setter_none.2 hno] at h
    cases h
  unfold SetTo at hset
  cases p with
  | mk max current =>
    split at hset
    next hzero =>
      rw [hset]
      exact ⟨fun hne => absurd rfl hne, fun hmoves => absurd hzero hmoves.1.1⟩
    next hne =>
    have hle : value ≤ max := by
      by_contra hgt
      exact hgranted ⟨hne, not_le.1 hgt⟩
    cases target with
    | current =>
      rw [hset]
      constructor
      · intro hdiff
        refine ⟨⟨hne, hle⟩, fun heq => hdiff ?_⟩
        rw [heq]
      · rintro ⟨_, hdiff⟩ heq
        injection heq with _ heq
        exact hdiff heq
    | maximum =>
      rw [hset]
      constructor
      · intro hdiff
        refine ⟨⟨hne, hle⟩, ?_⟩
        by_contra hnone
        rw [not_or, not_not, not_lt] at hnone
        refine hdiff ?_
        rw [hnone.1, min_eq_left (hnone.1 ▸ hnone.2)]
      rintro ⟨_, hdiff⟩ heq
      injection heq with hmax hcur
      rcases hdiff with hdiff | hdiff
      · exact hdiff hmax
      · rw [min_eq_right hdiff.le] at hcur
        exact hdiff.ne hcur

end Priority

-- ==== both

/-- Both values together: an error leaves the process alone, or with a new
quantum. -/
theorem setBoth_cases (target : PrioritizeTarget) (t : Process) (prio_in : Option ExecPriority) :
    (∃ out, (setBoth target.setter target.getter t prio_in).1 = .ok out ∧
      t.Prioritized target prio_in (setBoth target.setter target.getter t prio_in).2) ∨
    (setBoth target.setter target.getter t prio_in).1 = .notAllowed ∧
      ((setBoth target.setter target.getter t prio_in).2 = t ∨ ∃ prio q, prio_in = some prio ∧
          target.setter t.quantum prio.quantum = some q ∧
          t.scheduling.Refuses prio.scheduling ∧
          (setBoth target.setter target.getter t prio_in).2 = { t with quantum := q }) := by
  unfold setBoth
  split
  · exact .inl ⟨_, rfl, rfl, rfl⟩
  next prio =>
  split
  · exact .inr ⟨rfl, .inl rfl⟩
  next q hq =>
  split
  next hno => exact .inr ⟨rfl, .inr ⟨prio, q, rfl, hq, setter_none.1 hno, rfl⟩⟩
  next sched hsched => exact .inl ⟨_, rfl, rfl, setter_some hq, setter_some hsched⟩

namespace State

variable {s s' : State} {self p : Ptr} {pid : Pid}
  {prio_in : Option ExecPriority} {target : PrioritizeTarget} {t : Process}
  {answer : Option PrioritizeResponse} {setmax : Option PrioritizeTarget}

/-- A request is refused before anything is looked at, or sets both. -/
theorem prioritize_parts {response : PrioritizeResponse}
    (h : s.prioritize self pid target prio_in = .ok (response, s')) :
    (s' = s ∧ ∀ out, response ≠ .ok out) ∨ ∃ p t, s.Addresses self pid prio_in p t ∧
        response = (setBoth target.setter target.getter t prio_in).1 ∧
        s' = s.setProc p (setBoth target.setter target.getter t prio_in).2 := by
  obtain ⟨k, hk, h⟩ := deref_bind h
  obtain ⟨found, hfound, h⟩ := ok_bind h
  cases found with
  | none =>
    obtain ⟨hresponse, h⟩ := ok_pair h
    exact .inl ⟨h.symm, fun out heq => by rw [← hresponse] at heq; cases heq⟩
  | some p =>
    obtain ⟨t, ht, h⟩ := deref_bind h
    split at h
    · obtain ⟨hresponse, h⟩ := ok_pair h
      exact .inl ⟨h.symm, fun out heq => by
        rw [← hresponse] at heq
        cases heq⟩
    next hallowed =>
    refine .inr ⟨p, t, ⟨hfound, ht, k, hk, Bool.eq_false_iff.2 hallowed⟩, ?_⟩
    cases target with
    | current =>
      obtain ⟨hresponse, h⟩ := ok_pair h
      exact ⟨hresponse.symm, h.symm⟩
    | maximum =>
      obtain ⟨hresponse, h⟩ := ok_pair h
      exact ⟨hresponse.symm, h.symm⟩

theorem prioritize_addressed (h : s.Addresses self pid prio_in p t) :
    s.prioritize self pid target prio_in =
      .ok ((setBoth target.setter target.getter t prio_in).1, s.setProc p
        (setBoth target.setter target.getter t prio_in).2) := by
  obtain ⟨hget, ht, k, hk, hallowed⟩ := h
  unfold prioritize deref
  rw [hk, bind_ok, hget, bind_ok]
  dsimp only
  rw [ht, bind_ok, if_neg (by rw [hallowed]; decide)]
  cases target with
  | current => rfl
  | maximum => rfl

/-- A kind of request that there is not is answered with an error. -/
theorem prioritizeSyscall_none (h : s.prioritizeSyscall self pid none prio_in = .ok (answer, s')) :
    s' = s ∧ ∀ out, answer ≠ some (.ok out) := by
  obtain ⟨k, hk, h⟩ := ok_bind h
  obtain ⟨found, hfound, h⟩ := ok_bind h
  cases found with
  | none =>
    obtain ⟨hanswer, h⟩ := ok_pair h
    exact ⟨h.symm, fun out heq => by rw [← hanswer] at heq; cases heq⟩
  | some p =>
    obtain ⟨t, ht, h⟩ := ok_bind h
    split at h
    · obtain ⟨hanswer, h⟩ := ok_pair h
      exact ⟨h.symm, fun out heq => by rw [← hanswer] at heq; cases heq⟩
    · obtain ⟨hanswer, h⟩ := ok_pair h
      exact ⟨h.symm, fun out heq => by rw [← hanswer] at heq; cases heq⟩

theorem setProc_same (ht : s.procs p = some t) : (s.setProc p t).procs = s.procs := by
  rw [setProc_procs, ← ht, update_eq_self]

/-- An error that leaves no trace. -/
theorem answered_of_error (hsame : s'.procs = s.procs) (herror : ∀ out, answer ≠ some (.ok out)) :
    s.Answered self pid setmax prio_in s' answer := by
  cases answer with
  | none => exact hsame
  | some response =>
    cases response with
    | ok out => exact absurd rfl (herror out)
    | notAllowed => exact hsame
    | noSuchProcess => exact hsame

theorem whole_of_not_halfRefused (h : ¬ s.HalfRefused self pid setmax prio_in) :
    s.PrioritizesWhole self pid setmax prio_in := by
  intro answer s' hcall
  cases setmax with
  | none =>
    obtain ⟨hs, herror⟩ := prioritizeSyscall_none hcall
    exact answered_of_error (congrArg procs hs) herror
  | some target =>
    obtain ⟨⟨response, s₁⟩, hcall, heq⟩ := ok_bind hcall
    obtain ⟨hanswer, hs⟩ := ok_pair heq
    rw [← hanswer]
    rw [hs] at hcall
    rcases prioritize_parts hcall with ⟨hsame, herror⟩ | ⟨p, t, haddr, hresponse, hset⟩
    · exact answered_of_error (congrArg procs hsame)
        (fun out heq => herror out (Option.some.inj heq))
    rcases setBoth_cases target t prio_in with ⟨out, hok, hdone⟩ |
      ⟨hno, hsame | ⟨prio, q, hprio, hq, hrefuses, hhalf⟩⟩
    · rw [hresponse, hok]
      refine ⟨target, p, t, _, rfl, haddr, ?_, hdone, fun q hq => ?_⟩
      · rw [hset, setProc_procs, update_self]
      · rw [hset, setProc_procs, update_of_ne hq]
    · rw [hresponse, hno, hset, hsame]
      exact setProc_same haddr.2.1
    -- the quantum has been set, to what it was
    have hsame : q = t.quantum := by
      by_contra hdiff
      exact h ⟨target, prio, p, t, rfl, hprio, haddr, (setter_moves hq).1 hdiff, hrefuses⟩
    rw [hresponse, hno, hset, hhalf, hsame]
    exact setProc_same haddr.2.1

theorem not_halfRefused_of_whole (hwhole : s.PrioritizesWhole self pid setmax prio_in) :
    ¬ s.HalfRefused self pid setmax prio_in := by
  rintro ⟨target, prio, p, t, hsetmax, hprio, haddr, hmoves, hrefuses⟩
  obtain ⟨q, hq⟩ : ∃ q, target.setter t.quantum prio.quantum = some q := by
    cases hset : target.setter t.quantum prio.quantum with
    | none =>
      have hno := (setter_none.1 hset).2
      exact absurd hmoves.1.2 (not_le.2 hno)
    | some q => exact ⟨q, rfl⟩
  have hboth : setBoth target.setter target.getter t prio_in =
      (.notAllowed, { t with quantum := q }) := by
    rw [hprio]
    unfold setBoth
    dsimp only
    rw [hq, setter_none.2 hrefuses]
  have hcall : s.prioritizeSyscall self pid setmax prio_in =
      .ok (some .notAllowed, s.setProc p { t with quantum := q }) := by
    rw [hsetmax]
    unfold prioritizeSyscall
    dsimp only
    rw [prioritize_addressed haddr, hboth]
    rfl
  have hsame := congrFun (hwhole _ _ hcall) p
  rw [setProc_procs, update_self, haddr.2.1] at hsame
  injection hsame with hsame
  exact (setter_moves hq).2 hmoves (congrArg Process.quantum hsame)

/-- `prioritize` does all or nothing, unless it sets the quantum and then
refuses the other value. -/
theorem prioritizesWhole_iff {setmax : Option PrioritizeTarget} :
    s.PrioritizesWhole self pid setmax prio_in ↔ ¬ s.HalfRefused self pid setmax prio_in :=
  ⟨not_halfRefused_of_whole, whole_of_not_halfRefused⟩

/-- `init` asks for both of its own ceilings to be lowered. -/
theorem prioritizesWhole_iff_init : ((booted.prioritizeSyscall 6 6 (some .maximum)
      (some ⟨5, 7⟩)).toOption.map fun r =>
        (r.1, (r.2.procs 6).map fun t => (t.quantum, t.scheduling))) =
      some (some (.ok ⟨5, 7⟩), some (⟨5, 5⟩, ⟨7, 7⟩)) ∧
    booted.PrioritizesWhole 6 6 (some .maximum) (some ⟨5, 7⟩) := by
  refine ⟨by decide +kernel, prioritizesWhole_iff.2 ?_⟩
  rintro ⟨target, prio, p, t, _, hprio, ⟨hget, ht, _⟩, _, hrefuses⟩
  have hmax : (booted.gProcessTable.get 6).toOption.bind (fun o => o.bind fun p =>
      (booted.procs p).map fun t => t.scheduling.max) = some 128 := by
    decide +kernel
  rw [hget, Except.toOption, Option.bind_some, Option.bind_some, ht] at hmax
  have hceiling : t.scheduling.max = 128 := Option.some.inj hmax
  have hlt := hrefuses.2
  rw [hceiling, ← Option.some.inj hprio] at hlt
  exact absurd hlt (by decide)

/-- It asks for a quantum of 5 and more tickets than it may have: it gets
an error and the quantum. -/
theorem init_half_refused : ((booted.prioritizeSyscall 6 6 (some .current)
      (some ⟨5, 1000⟩)).toOption.map fun r =>
        (r.1, (r.2.procs 6).map Process.quantum)) =
      some (some .notAllowed, some ⟨128, 5⟩) ∧
    ¬ booted.PrioritizesWhole 6 6 (some .current) (some ⟨5, 1000⟩) := by
  have hrun : ((booted.prioritizeSyscall 6 6 (some .current) (some ⟨5, 1000⟩)).toOption.map fun r =>
        (r.1, (r.2.procs 6).map Process.quantum)) =
      some (some .notAllowed, some ⟨128, 5⟩) := by
    decide +kernel
  have hbefore : (booted.procs 6).map Process.quantum = some ⟨128, 10⟩ := by decide +kernel
  refine ⟨hrun, fun hwhole => ?_⟩
  cases hcall : booted.prioritizeSyscall 6 6 (some .current) (some ⟨5, 1000⟩) with
  | error e =>
    rw [hcall] at hrun
    cases hrun
  | ok result =>
    obtain ⟨answer, s'⟩ := result
    rw [hcall] at hrun
    injection hrun with hrun
    injection hrun with hanswer hquantum
    have hsame := hwhole answer s' hcall
    dsimp only at hanswer hquantum
    rw [hanswer] at hsame
    rw [show s'.procs = booted.procs from hsame, hbefore] at hquantum
    exact absurd hquantum (by decide)

end State

end Puppy.Proc
