/-
Reasoning about code that may fail.

A model of fallible code is a chain of binds in `Except`. Two ways to
follow such a chain without unfolding the monad stand here.

# Backwards

When the whole chain ended in `.ok`, every link did. `bind_eq_ok` peels
the chain one link at a time, `check_eq_ok` and `reject_eq_ok` the tests
that end it in an error.

# Forwards

`Sat x Q E` says how `x` may end: in a result that satisfies `Q`, or in an
error that satisfies `E`. Its rules carry a precondition through the
chain, with the errors along the way accounted for once.
-/
import Mathlib.Tactic

namespace Puppy.Lib

open Function

variable {ε α β σ ι : Type} {x : Except ε α} {a : α} {f : α → Except ε β} {c : Prop} {e : ε}

/-- An entry of a table that has been written to is the one written, or was
there before. -/
theorem update_eq_some [DecidableEq ι] {f : ι → Option α} {i j : ι}
    {v : Option α} (h : update f i v j = some a) :
    (j = i ∧ v = some a) ∨ (j ≠ i ∧ f j = some a) := by
  by_cases hji : j = i
  · rw [hji, update_self] at h
    exact .inl ⟨hji, h⟩
  · rw [update_of_ne hji] at h
    exact .inr ⟨hji, h⟩

theorem bind_eq_ok {b : β} : (x >>= f) = .ok b ↔ ∃ a, x = .ok a ∧ f a = .ok b := by
  cases x with
  | error e =>
    constructor
    · nofun
    · intro h
      obtain ⟨a, hx, _⟩ := h
      cases hx
  | ok a =>
    constructor
    · intro h
      exact ⟨a, rfl, h⟩
    intro h
    obtain ⟨a', hx, hf⟩ := h
    injection hx with hx
    rw [hx]
    exact hf

theorem ok_bind {b : β} (h : (x >>= f) = .ok b) : ∃ a, x = .ok a ∧ f a = .ok b :=
  bind_eq_ok.1 h

theorem ok_pair {a' : α} {b b' : β} (h : (.ok (a, b) : Except ε (α × β)) = .ok (a', b')) :
    a = a' ∧ b = b' := by
  injection h with h
  injection h with ha hb
  exact ⟨ha, hb⟩

theorem ok_triple {a' : α} {b b' : β} {s s' : σ}
    (h : (.ok (a, b, s) : Except ε (α × β × σ)) = .ok (a', b', s')) :
    a = a' ∧ b = b' ∧ s = s' := by
  obtain ⟨ha, hrest⟩ := ok_pair h
  injection hrest with hb hs
  exact ⟨ha, hb, hs⟩

/-- What holds of the result of a chain holds of what it ended in. -/
theorem of_ok {P : α → Prop} {b : α} (h : (.ok a : Except ε α) = .ok b) (ha : P a) : P b := by
  cases h
  exact ha

/-- An index with an entry is none of those without. -/
theorem ne_of_entry {f : ι → Option α} {i j : ι} (hi : f i = some a) (hj : f j = none) : i ≠ j := by
  intro heq
  rw [heq, hj] at hi
  cases hi

theorem bind_ok (a : α) (f : α → Except ε β) : (Except.ok a >>= f) = f a := rfl

/-- A check was passed. -/
theorem check_eq_ok [Decidable c] : (if c then x else .error e) = .ok a ↔ c ∧ x = .ok a := by
  split <;> simp_all

/-- A check that refuses was passed. -/
theorem reject_eq_ok [Decidable c] : (if c then .error e else x) = .ok a ↔ ¬c ∧ x = .ok a := by
  split <;> simp_all

-- ==== pre- and postconditions

/-- `x` ends in a result that satisfies `Q` or an error that satisfies
`E`. -/
def Sat (x : Except ε α) (Q : α → Prop) (E : ε → Prop) : Prop :=
  match x with
  | .ok a => Q a
  | .error e => E e

namespace Sat

variable {Q R : α → Prop} {E : ε → Prop} {e : ε} {P : β → Prop}

theorem ok (h : Q a) : Sat (.ok a) Q E := h

theorem error (h : E e) : Sat (.error e) Q E := h

/-- Nothing is said of errors. -/
theorem of_result (h : ∀ a, x = .ok a → Q a) : Sat x Q fun _ => True := by
  cases x with
  | error e => trivial
  | ok a => exact h a rfl

theorem bind (hx : Sat x R E) (hf : ∀ a, x = .ok a → R a → Sat (f a) P E) : Sat (x >>= f) P E := by
  cases x with
  | error e => exact hx
  | ok a => exact hf a rfl hx

/-- A link of the chain whose result is known. -/
theorem step (hx : x = .ok a) (hf : Sat (f a) P E) : Sat (x >>= f) P E := by
  rw [hx]
  exact hf

theorem mono (hx : Sat x R E) (himp : ∀ a, R a → Q a) : Sat x Q E := by
  cases x with
  | error e => exact hx
  | ok a => exact himp a hx

/-- A check that ends the chain in an error. -/
theorem reject {c : Prop} [Decidable c] (he : c → E e) (hx : ¬c → Sat x Q E) :
    Sat (if c then .error e else x) Q E := by
  split
  next hc => exact he hc
  next hc => exact hx hc

/-- What is known of the result by other means. -/
theorem and (hx : Sat x Q E) (hR : ∀ a, x = .ok a → R a) : Sat x (fun a => Q a ∧ R a) E := by
  cases x with
  | error e => exact hx
  | ok a => exact ⟨hx, hR a rfl⟩

theorem result (hx : Sat x Q E) (h : x = .ok a) : Q a := by
  rw [h] at hx
  exact hx

theorem failure (hx : Sat x Q E) (h : x = .error e) : E e := by
  rw [h] at hx
  exact hx

/-- The loop rule: each round keeps the invariant, which may speak of the
rounds still to come. -/
theorem foldlM {I : List β → σ → Prop} {f : σ → β → Except ε σ}
    (hround : ∀ b rest s, I (b :: rest) s → Sat (f s b) (I rest) E) :
    ∀ {l : List β} {s : σ}, I l s → Sat (l.foldlM f s) (I []) E := by
  intro l
  induction l with
  | nil =>
    intro s hs
    exact hs
  | cons b rest ih =>
    intro s hs
    rw [List.foldlM_cons]
    exact bind (hround b rest s hs) (fun s' _ hs' => ih hs')

/-- The loop rule for an invariant that is about the state alone. -/
theorem foldlM_mem {I : σ → Prop} {f : σ → β → Except ε σ} {l : List β}
    {s : σ} (hs : I s) (hround : ∀ b ∈ l, ∀ s, I s → Sat (f s b) I E) :
    Sat (l.foldlM f s) I E := by
  have hloop : Sat (l.foldlM f s) (fun s => (∀ b ∈ ([] : List β), b ∈ l) ∧ I s) E := by
    refine foldlM (I := fun rest s => (∀ b ∈ rest, b ∈ l) ∧ I s) ?_ ⟨fun b hb => hb, hs⟩
    intro b rest s hinv
    refine (hround b (hinv.1 b List.mem_cons_self) s hinv.2).mono ?_
    intro s' hs'
    exact ⟨fun b' hb' => hinv.1 b' (List.mem_cons_of_mem b hb'), hs'⟩
  exact hloop.mono (fun s h => h.2)

/-- Errors that were accounted for one way may be accounted for another. -/
theorem weaken {E' : ε → Prop} (hx : Sat x Q E) (himp : ∀ e, E e → E' e) : Sat x Q E' := by
  cases x with
  | error e => exact himp e hx
  | ok a => exact hx

end Sat

end Puppy.Lib
