/-
The interval list on its nodes (include/libc/intervals.h).

`IntervalList` says what `add`, `contains` and `del` do to a list of
intervals. Here they work on the `slist` that the source has, through its
iterators, and do the same to the intervals it holds.
-/
import Puppy.Libc.Proofs.Interval
import Puppy.Libc.Slist

namespace Puppy.Libc.IntervalList.Nodes

open Lib List

variable {α : Type} [IsInterval α]

def add (i : α) (mIntervals : Slist α) : Except Panic (Slist α) :=
  if mIntervals.size = 0 then mIntervals.add i
  else if mIntervals.size = 1 then do
    let other ← mIntervals.top
    if (ival other).thisBefore (ival i) then mIntervals.add i else .ok (mIntervals.add_head i)
  else do
    let e ← mIntervals.end
    let b ← mIntervals.find fun other => !(ival other).thisBefore (ival i)
    if b = e then mIntervals.add i else mIntervals.insert b i

/-- `contains`. The loop returns at an interval that holds the address, and
at one that starts beyond it. -/
def contains (addr : Nat) (mIntervals : Slist α) : Except Panic (Option α) := do
  let found ← mIntervals.findItem fun i =>
    decide (addr < (ival i).frm) || (ival i).contains addr
  .ok (found.filter fun i => !decide (addr < (ival i).frm))

def del (i : α) (mIntervals : Slist α) : Except Panic (Bool × Slist α) :=
  mIntervals.removeItem fun j => ival j == ival i

-- ==== the intervals that a list holds

variable {l l' : Slist α} {items : List α} {i : α} {addr : Nat} {present : α → Prop}

/-- The walk, where it comes to an end. -/
theorem insertWalk_append {as bs : List α} (has : ∀ j ∈ as, (ival j).thisBefore (ival i) = true) :
    insertWalk i (as ++ bs) = as ++ insertWalk i bs := by
  induction as with
  | nil => rfl
  | cons j as ih =>
    rw [cons_append, insertWalk, if_pos (has j mem_cons_self),
      ih fun j hj => has j (mem_cons_of_mem _ hj)]
    rfl

theorem add_is (h : l.Is items) (i : α) :
    ∃ l', add i l = .ok l' ∧ l'.Is (IntervalList.add i items) := by
  have hsize := h.size_eq
  rw [add_eq_insertWalk]
  unfold add
  match items with
  | [] =>
    rw [length_nil] at hsize
    rw [if_pos hsize]
    exact h.add i
  | [other] =>
    rw [length_singleton] at hsize
    rw [if_neg (by omega), if_pos hsize, h.top, bind_ok, insertWalk]
    split
    · exact h.add i
    · exact ⟨_, rfl, h.add_head i⟩
  | other :: other' :: rest =>
    obtain ⟨_, hholds, _⟩ := id h
    obtain ⟨b, l', hfind, hinsert, hl'⟩ := h.insertItem
      (f := fun other => !(ival other).thisBefore (ival i)) i
    rw [length_cons, length_cons] at hsize
    rw [if_neg (by omega), if_neg (by omega), Slist.end_eq hholds, bind_ok, hfind, bind_ok]
    refine ⟨l', hinsert, ?_⟩
    rcases hl' with ⟨hall, hl'⟩ | ⟨as, y, bs, heq, hy, has, hl'⟩
    · rw [← append_nil (other :: other' :: rest),
        insertWalk_append fun j hj => by simpa using hall j hj]
      exact hl'
    · rw [heq, insertWalk_append fun j hj => by simpa using has j hj, insertWalk,
        if_neg (by rw [Bool.not_eq_true'] at hy; rw [hy]; decide)]
      exact hl'

theorem contains_is (h : l.Is items) (addr : Nat) :
    contains addr l = .ok (IntervalList.contains addr items) := by
  unfold contains
  rw [h.findItem, bind_ok]
  congr 1
  clear h
  induction items with
  | nil => rfl
  | cons i items ih =>
    rw [find?_cons]
    unfold IntervalList.contains
    by_cases hlt : addr < (ival i).frm
    · simp [hlt]
    · cases hin : (ival i).contains addr with
      | true => simp [hlt]
      | false => simpa [hlt] using ih

theorem del_is (h : l.Is items) (i : α) : ∃ done l', del i l = .ok (done, l') ∧
    l'.Is ((IntervalList.del i items).getD items) := by
  obtain ⟨l', hremove, hl'⟩ := h.removeItem (f := fun j => ival j == ival i)
  refine ⟨_, l', hremove, ?_⟩
  unfold IntervalList.del
  split
  · exact hl'
  next hnone =>
  rw [eraseP_of_forall_not (by simpa using hnone)] at hl'
  exact hl'

-- ==== calls in any order

/-- The lists that calls of `add`, each with an interval of its own, and of
`del` make, and what has been added and not deleted since. -/
inductive Run : Slist α → (α → Prop) → Prop
  | nil : Run {} fun _ => False
  | added {l l' : Slist α} {present : α → Prop} (i : α) : Run l present →
      (ival i).frm ≤ (ival i).upto → (∀ j, present j → (ival i).Disjoint (ival j)) →
      add i l = .ok l' → Run l' fun j => j = i ∨ present j
  | deleted {l l' : Slist α} {present : α → Prop} {done : Bool} (i : α) : Run l present →
      del i l = .ok (done, l') → Run l' fun j => present j ∧ ival j ≠ ival i

/-- A run on nodes is a run on intervals. -/
theorem Run.is (h : Run l present) : ∃ items, l.Is items ∧ IntervalList.Run items present := by
  induction h with
  | nil => exact ⟨[], ⟨[], Slist.holds_nil, rfl⟩, .nil⟩
  | added i _ hord hfree hadd ih =>
    obtain ⟨items, hl, hrun⟩ := ih
    obtain ⟨l', hadd', hl'⟩ := add_is hl i
    rw [hadd] at hadd'
    obtain rfl := Except.ok.inj hadd'
    exact ⟨_, hl', hrun.added i hord hfree⟩
  | deleted i _ hdel ih =>
    obtain ⟨items, hl, hrun⟩ := ih
    obtain ⟨done, l', hdel', hl'⟩ := del_is hl i
    rw [hdel] at hdel'
    obtain ⟨-, rfl⟩ := Prod.mk.inj (Except.ok.inj hdel')
    exact ⟨_, hl', hrun.deleted i⟩

/-- After any calls the list is strictly sorted and disjoint, it is what has
been added and not deleted, a lookup finds what holds the address, and the
next call returns as well. -/
theorem run_holds (h : Run l present) : (∃ items, l.Is items ∧
      items.Pairwise (fun i j => (ival i).frm < (ival j).frm) ∧ IntervalList.Disjoint items ∧
      ∀ j, j ∈ items ↔ present j) ∧
    (∀ addr, ∃ found, contains addr l = .ok found ∧
      (∀ i, found = some i ↔ present i ∧ (ival i).contains addr = true) ∧
      (found = none ↔ ∀ i, present i → ¬ (ival i).contains addr = true)) ∧
    ∀ i, (∃ l', add i l = .ok l') ∧ ∃ r, del i l = .ok r := by
  obtain ⟨items, hl, hrun⟩ := h.is
  obtain ⟨hsorted, hdisjoint, hmem, hfound⟩ := hrun.holds
  refine ⟨⟨items, hl, hsorted, hdisjoint, hmem⟩, fun addr => ⟨_, contains_is hl addr, hfound addr⟩,
    fun i => ?_⟩
  obtain ⟨l₁, hadd, _⟩ := add_is hl i
  obtain ⟨done, l₂, hdel, _⟩ := del_is hl i
  exact ⟨⟨l₁, hadd⟩, _, hdel⟩

/-- Four intervals, of which the third goes to the front and the fourth
between two others, and the first of which is deleted. -/
theorem run_holds_four : ∃ (l : Slist Interval) (present : Interval → Prop), Run l present ∧
    contains 22 l = .ok (some ⟨20, 25⟩) ∧ contains 12 l = .ok none := by
  have hdisjoint : ∀ {i j : Interval}, i.upto < j.frm ∨ j.upto < i.frm → i.Disjoint j := by
    intro i j h addr
    simp only [Interval.contains_iff]
    omega
  have hadd : ∀ {l : Slist Interval} {present} (i : Interval), Run l present → i.frm ≤ i.upto →
      (∀ j, present j → i.upto < j.frm ∨ j.upto < i.frm) →
      ∃ l', Run l' fun j => j = i ∨ present j := by
    intro l present i h hord hfree
    obtain ⟨l', hl'⟩ := ((run_holds h).2.2 i).1
    exact ⟨l', h.added i hord (fun j hj => hdisjoint (hfree j hj)) hl'⟩
  obtain ⟨l₁, h₁⟩ := hadd ⟨10, 19⟩ .nil (by decide) (by simp)
  obtain ⟨l₂, h₂⟩ := hadd ⟨30, 39⟩ h₁ (by decide) (by simp)
  obtain ⟨l₃, h₃⟩ := hadd ⟨0, 5⟩ h₂ (by decide) (by simp)
  obtain ⟨l₄, h₄⟩ := hadd ⟨20, 25⟩ h₃ (by decide) (by simp)
  obtain ⟨⟨done, l₅⟩, hdel⟩ := ((run_holds h₄).2.2 ⟨10, 19⟩).2
  have h₅ := h₄.deleted _ hdel
  obtain ⟨found, heq, hsome, _⟩ := (run_holds h₅).2.1 22
  obtain ⟨found', heq', _, hnone⟩ := (run_holds h₅).2.1 12
  refine ⟨l₅, _, h₅, ?_, ?_⟩
  · rw [heq, (hsome ⟨20, 25⟩).2 ⟨⟨by simp, by decide⟩, by decide⟩]
  · rw [heq', hnone.2 (by simp [ival])]

end Puppy.Libc.IntervalList.Nodes
