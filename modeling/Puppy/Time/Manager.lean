/-
Tick handlers (time/manager.cpp).

The timer calls `tick`, which goes through a table of handlers. Each has a
countdown. A tick that finds it at zero runs the handler and sets it back to
`every_N`, and any other tick takes one off. The tick that runs the handler
takes nothing off, so the period is one tick longer than `every_N`.
-/
import Mathlib.Tactic

namespace Puppy.Time

open List

variable {γ : Type}

/-- An entry of `mTickHandlers`. -/
structure TickFunc (γ : Type) where
  callback : Option γ
  every_N : Nat
  every_countdown : Nat

/-- What a tick does with one entry, and whether it runs the handler. -/
def TickFunc.tick (ti : TickFunc γ) : Bool × TickFunc γ :=
  if ti.callback.isNone then (false, ti)
  else if ti.every_countdown = 0 then (true, { ti with every_countdown := ti.every_N })
  else (false, { ti with every_countdown := ti.every_countdown - 1 })

inductive Action (γ : Type) where
  | registerTickHandler (f : γ) (every_N : Nat)
  | unregisterTickHandler (i : Nat)
  | tick

/-- The first entry that is free. -/
def freeEntry (funcs : List (TickFunc γ)) : Option Nat :=
  funcs.findIdx? fun th => th.callback.isNone

def step (funcs : List (TickFunc γ)) : Action γ → List (TickFunc γ)
  | .registerTickHandler f every_N =>
    match freeEntry funcs with
    | some i => funcs.set i ⟨some f, every_N, every_N⟩
    | none => funcs
  | .unregisterTickHandler i => funcs.modify i ({ · with callback := none })
  | .tick => funcs.map fun ti => ti.tick.2

/-- At which ticks the handler of an entry is run. -/
def fires (i : Nat) : List (Action γ) → List (TickFunc γ) → List Bool
  | [], _ => []
  | .tick :: rest, funcs => (funcs[i]?.any fun ti => ti.tick.1) :: fires i rest (step funcs .tick)
  | a :: rest, funcs => fires i rest (step funcs a)

/-- How many of the actions are ticks. -/
def ticks : List (Action γ) → Nat
  | [] => 0
  | .tick :: rest => ticks rest + 1
  | _ :: rest => ticks rest

/-- One of every `n` ticks, the `n`-th first. -/
def oneIn (n count : Nat) : List Bool := (range count).map fun t => (t + 1) % n == 0

-- ==== the period

theorem succ_mod (t n : Nat) :
    (t + 1) % (n + 1) = if t % (n + 1) = n then 0 else t % (n + 1) + 1 := by
  have hlt : t % (n + 1) < n + 1 := Nat.mod_lt t (Nat.succ_pos n)
  rw [← Nat.mod_add_mod]
  split_ifs with h
  · rw [h, Nat.mod_self]
  · exact Nat.mod_eq_of_lt (by omega)

/-- The handler of an entry that stays is run whenever its countdown is
over. -/
theorem fires_eq {i : Nat} {f : γ} {n : Nat} : ∀ {acts : List (Action γ)} {c : Nat}
    {funcs : List (TickFunc γ)}, funcs[i]? = some ⟨some f, n, c⟩ → c ≤ n →
    .unregisterTickHandler i ∉ acts →
    fires i acts funcs = (range (ticks acts)).map fun t => t % (n + 1) == c := by
  intro acts
  induction acts with
  | nil => simp [fires, ticks]
  | cons a rest ih =>
    intro c funcs hi hc hstay
    rw [mem_cons, not_or] at hstay
    cases a with
    | registerTickHandler g m =>
      refine ih ?_ hc hstay.2
      cases hj : freeEntry funcs with
      | none => simpa [step, hj] using hi
      | some j =>
        obtain ⟨_, hfree, _⟩ := findIdx?_eq_some_iff_getElem.1 hj
        have hne : j ≠ i := by
          rintro rfl
          simp_all
        simpa [step, hj, getElem?_set_ne hne] using hi
    | unregisterTickHandler j =>
      refine ih ?_ hc hstay.2
      have hne : j ≠ i := fun h => hstay.1 (by rw [h])
      simp [step, hne, hi]
    | tick =>
      rw [fires, ticks, range_succ_eq_map, map_cons, map_map]
      by_cases hzero : c = 0
      · rw [ih (c := n) (by simp [step, hi, TickFunc.tick, hzero]) le_rfl hstay.2]
        simp [hi, TickFunc.tick, hzero, succ_mod]
      rw [ih (c := c - 1) (by simp [step, hi, TickFunc.tick, hzero]) (by omega) hstay.2]
      have hnext : ∀ t, (t % (n + 1) == c - 1) = ((t + 1) % (n + 1) == c) := by
        intro t
        rw [succ_mod, Bool.eq_iff_iff, beq_iff_eq, beq_iff_eq]
        split_ifs <;> omega
      simp [hi, TickFunc.tick, hzero, hnext, Ne.symm hzero]

/-- A handler is run once in `n` ticks, whatever else is registered and
unregistered meanwhile, exactly as long as there have been fewer than `n`
ticks. -/
theorem oneIn_iff_brief {funcs : List (TickFunc γ)} {i : Nat} (hi : freeEntry funcs = some i)
    (f : γ) {n : Nat} (hn : 1 ≤ n) {acts : List (Action γ)}
    (hstay : .unregisterTickHandler i ∉ acts) :
    fires i acts (step funcs (.registerTickHandler f n)) = oneIn n (ticks acts) ↔
      ticks acts < n := by
  obtain ⟨hlt, _⟩ := findIdx?_eq_some_iff_getElem.1 hi
  rw [fires_eq (f := f) (n := n) (c := n) (by simp [step, hi, hlt]) le_rfl hstay, oneIn,
    map_inj_left]
  constructor
  · intro heq
    by_contra hmany
    -- the `n`-th tick should run it
    have hlast := heq (n - 1) (mem_range.2 (by omega))
    simp [Nat.sub_add_cancel hn, Nat.mod_eq_of_lt (show n - 1 < n + 1 by omega)] at hlast
    omega
  · intro hfew t ht
    rw [mem_range] at ht
    rw [Nat.mod_eq_of_lt (by omega), Nat.mod_eq_of_lt (by omega), Bool.eq_iff_iff,
      beq_iff_eq, beq_iff_eq]
    omega

/-- Another handler comes and goes. After two ticks all is well with one for
every third tick, and after three it is not. -/
theorem oneIn_iff_brief_two :
    fires 0 [.tick, .registerTickHandler () 1, .tick, .unregisterTickHandler 1]
      (step [⟨none, 0, 0⟩, ⟨none, 0, 0⟩] (.registerTickHandler () 3)) = oneIn 3 2 ∧
    fires 0 [.tick, .registerTickHandler () 1, .tick, .tick]
      (step [⟨none, 0, 0⟩, ⟨none, 0, 0⟩] (.registerTickHandler () 3)) ≠ oneIn 3 3 :=
  ⟨(oneIn_iff_brief (by decide) () (by decide) (by simp)).2 (by decide),
    mt (oneIn_iff_brief (by decide) () (by decide) (by simp)).1 (by decide)⟩

/-- A handler for every tick is run at every other one. -/
theorem fires_every_other : fires 0 [.tick, .tick, .tick, .tick]
      (step [⟨none, 0, 0⟩] (.registerTickHandler () 1)) = [false, true, false, true] ∧
    [false, true, false, true] ≠ oneIn 1 4 := by
  decide

end Puppy.Time
