/-
Counting over a table that is updated one entry at a time.

A ledger is a function from keys to entries, and what is counted is a sum
over a finite set of keys of some weight of the entry: how many entries
satisfy a test, how many of them name a given object. One update changes
one summand, so the new sum and the old one differ by the weights of the
two entries. The equations are written without subtraction.

A reference count is right when it equals the tally of its object, so the
rules for tallies are what the proof of a reference-counted store is made
of.
-/
import Mathlib.Tactic
import Mathlib.Algebra.BigOperators.Group.Finset.Basic

namespace Puppy.Lib

open Finset Function


variable {ι β : Type} [DecidableEq ι]

/-- Replacing one entry replaces its weight in the sum. -/
theorem sum_update_add (S : Finset ι) (p : ι → β) (g : β → Nat) {i : ι} (hi : i ∈ S) (e : β) :
    (∑ j ∈ S, g (update p i e j)) + g (p i) = (∑ j ∈ S, g (p j)) + g e := by
  rw [← add_sum_erase S _ hi, ← add_sum_erase S (fun j => g (p j)) hi]
  have hrest : ∑ j ∈ S.erase i, g (update p i e j) = ∑ j ∈ S.erase i, g (p j) := by
    apply sum_congr rfl
    intro j hj
    rw [update_of_ne (ne_of_mem_erase hj)]
  rw [hrest, update_self]
  omega

/-- The same for the number of entries that pass a test. -/
theorem card_filter_update_add (S : Finset ι) (p : ι → β) (q : β → Bool)
    {i : ι} (hi : i ∈ S) (e : β) :
    (S.filter fun j => q (update p i e j) = true).card + (q (p i)).toNat
      = (S.filter fun j => q (p j) = true).card + (q e).toNat := by
  have hsum : ∀ f : ι → β, (S.filter fun j => q (f j) = true).card = ∑ j ∈ S, (q (f j)).toNat := by
    intro f
    rw [card_filter]
    apply sum_congr rfl
    intro j _
    cases q (f j) <;> rfl
  rw [hsum, hsum]
  exact sum_update_add S p (fun b => (q b).toNat) hi e

-- ==== how often an object is named

variable {κ : Type} [DecidableEq κ]

/-- One for the object that is named, nothing for the others. -/
def named (o : Option κ) (k : κ) : Nat := (decide (o = some k)).toNat

@[simp]
theorem named_none (k : κ) : named none k = 0 := by
  simp [named]

@[simp]
theorem named_self (k : κ) : named (some k) k = 1 := by
  simp [named]

theorem named_of_ne {k k' : κ} (h : k ≠ k') : named (some k) k' = 0 := by
  simp [named, h]

theorem named_le_one (o : Option κ) (k : κ) : named o k ≤ 1 := by
  unfold named
  cases decide (o = some k) <;> decide

/-- How many entries of a table name an object, when an entry names at
most one. Irreducible, so that no comparison of two tallies enumerates the
keys. -/
@[irreducible]
def tally (S : Finset ι) (name : β → Option κ) (p : ι → β) (k : κ) : Nat :=
  (S.filter fun i => name (p i) = some k).card

section Tally

variable {S : Finset ι} {name : β → Option κ} {p p' : ι → β} {k : κ} {i j : ι}

/-- One entry changes: the old name goes, the new one comes. -/
theorem tally_update_add (hi : i ∈ S) (e : β) : tally S name (update p i e) k + named (name (p i)) k
      = tally S name p k + named (name e) k := by
  have h := card_filter_update_add S p (fun b => decide (name b = some k)) hi e
  simp only [decide_eq_true_eq] at h
  unfold tally named
  exact h

omit [DecidableEq ι] in
theorem tally_congr (h : ∀ i ∈ S, name (p i) = name (p' i)) :
    tally S name p k = tally S name p' k := by
  unfold tally
  congr 1
  apply filter_congr
  intro i hi
  rw [h i hi]

theorem tally_update_of_not_mem (hi : i ∉ S) (e : β) :
    tally S name (update p i e) k = tally S name p k := by
  apply tally_congr
  intro j hj
  have hne : j ≠ i := by
    intro hji
    exact hi (hji ▸ hj)
  rw [update_of_ne hne]

omit [DecidableEq ι] in
theorem tally_pos_iff : 0 < tally S name p k ↔ ∃ i ∈ S, name (p i) = some k := by
  unfold tally
  rw [card_pos]
  constructor
  · rintro ⟨i, hi⟩
    exact ⟨i, mem_filter.1 hi⟩
  · rintro ⟨i, hi⟩
    exact ⟨i, mem_filter.2 hi⟩

omit [DecidableEq ι] in
theorem tally_eq_zero (h : ∀ i ∈ S, name (p i) = none) : tally S name p k = 0 := by
  by_contra hne
  obtain ⟨i, hi, hname⟩ := tally_pos_iff.1 (Nat.pos_of_ne_zero hne)
  rw [h i hi] at hname
  cases hname

omit [DecidableEq ι] in
/-- What is named once is named by one key. -/
theorem eq_of_tally_le_one (h : tally S name p k ≤ 1) (hi : i ∈ S)
    (hni : name (p i) = some k) (hj : j ∈ S) (hnj : name (p j) = some k) :
    i = j := by
  unfold tally at h
  exact card_le_one.1 h i (mem_filter.2 ⟨hi, hni⟩) j (mem_filter.2 ⟨hj, hnj⟩)

theorem tally_union {T : Finset ι} (hd : Disjoint S T) :
    tally (S ∪ T) name p k = tally S name p k + tally T name p k := by
  unfold tally
  rw [filter_union, card_union_of_disjoint]
  exact disjoint_filter_filter hd

end Tally

section Ranges

variable (name : β → Option κ) (p : ℕ → β) (k : κ)

theorem tally_Ico_self (a : ℕ) : tally (Ico a a) name p k = 0 := by
  apply tally_eq_zero
  intro i hi
  rw [Ico_self] at hi
  exact absurd hi (notMem_empty i)

/-- The entries of two ranges in a row. -/
theorem tally_Ico_add {a b c : ℕ} (hab : a ≤ b) (hbc : b ≤ c) : tally (Ico a c) name p k
      = tally (Ico a b) name p k + tally (Ico b c) name p k := by
  rw [← tally_union (Ico_disjoint_Ico_consecutive a b c), Ico_union_Ico_eq_Ico hab hbc]

theorem tally_Ico_succ {a b : ℕ} (hab : a ≤ b) : tally (Ico a (b + 1)) name p k
      = tally (Ico a b) name p k + named (name (p b)) k := by
  rw [tally_Ico_add name p k hab (Nat.le_succ b)]
  congr 1
  unfold tally named
  rw [Nat.Ico_succ_singleton, filter_singleton]
  by_cases h : name (p b) = some k
  · rw [if_pos h]
    simp [h]
  · rw [if_neg h]
    simp [h]

/-- Collecting what a run of entries names, and counting one object in
it. -/
theorem count_filterMap_range (b n : ℕ) :
    ((List.range n).filterMap fun j => name (p (b + j))).count k
      = tally (Ico b (b + n)) name p k := by
  induction n with
  | zero =>
    rw [add_zero, tally_Ico_self]
    rfl
  | succ n ih =>
    rw [List.range_succ, List.filterMap_append, List.count_append, ih,
      ← add_assoc, tally_Ico_succ name p k (Nat.le_add_right b n)]
    congr 1
    unfold named
    cases hname : name (p (b + n)) with
    | none => simp [hname]
    | some k' => simp [hname, List.count_singleton, Bool.toNat, Bool.cond_eq_ite]

end Ranges

end Puppy.Lib
