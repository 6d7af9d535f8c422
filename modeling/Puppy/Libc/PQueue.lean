/-
The kernel's priority queue (include/libc/pqueue.h): a binary heap in a
vector.

The comparator is the caller's, and may fail: the sleep queue compares
its entries by a field of the processes they point at. It is also not a
constant, since that field changes while an entry is queued, so the heap
order is not something the queue can promise. What it does promise is
that nothing is lost or invented.

`up` and `down` recurse on indices. A move up ends at index zero, a move
down at the end of the vector, so the rounds given by `insert` and `pop`
always suffice.
-/
import Puppy.Lib.Except

namespace Puppy.Libc.PQueue

open Lib

variable {ε α : Type}

def parentIdx (idx : Nat) : Nat := (idx - 1) / 2

def leftIdx (idx : Nat) : Nat := 2 * idx + 1

def rightIdx (idx : Nat) : Nat := 2 * idx + 2

/-- Compare the elements at two indices, `i` before `j`. Indices past the
end compare as equal. -/
def compareAt (compare : α → α → Except ε Int) (data : List α) (i j : Nat) : Except ε Int :=
  match data[i]?, data[j]? with
  | some a, some b => compare a b
  | _, _ => .ok 0

/-- `pqueue::up`. -/
def up (compare : α → α → Except ε Int) : Nat → Nat → List α → Except ε (List α)
  | 0, _, data => .ok data
  | rounds + 1, idx, data =>
    if idx = 0 then .ok data
    else
      match compareAt compare data (parentIdx idx) idx with
      | .error e => .error e
      | .ok order =>
        if order < 0 then
          up compare rounds (parentIdx idx) (data.swap idx (parentIdx idx))
        else .ok data

/-- The larger of `idx` and `child`, if there is such a child. -/
def larger (compare : α → α → Except ε Int) (data : List α) (idx child : Nat) : Except ε Nat :=
  if child < data.length then
    match compareAt compare data child idx with
    | .error e => .error e
    | .ok order => .ok (if 0 < order then child else idx)
  else .ok idx

/-- `pqueue::down`. -/
def down (compare : α → α → Except ε Int) : Nat → Nat → List α → Except ε (List α)
  | 0, _, data => .ok data
  | rounds + 1, idx, data =>
    match larger compare data idx (leftIdx idx) with
    | .error e => .error e
    | .ok largest =>
      match larger compare data largest (rightIdx idx) with
      | .error e => .error e
      | .ok largest =>
        if largest = idx then .ok data
        else down compare rounds largest (data.swap idx largest)

/-- `pqueue::insert`. -/
def insert (compare : α → α → Except ε Int) (a : α) (data : List α) : Except ε (List α) :=
  up compare data.length data.length (data ++ [a])

/-- `pqueue::pop`, on a queue of a top element and `rest`: what is left
once the last element has been moved to the front and down. -/
def pop (compare : α → α → Except ε Int) (rest : List α) : Except ε (List α) :=
  let data := match rest.getLast? with
    | none => []
    | some back => back :: rest.dropLast
  down compare data.length 0 data

-- ==== nothing is lost

section

variable {compare : α → α → Except ε Int} {E : ε → Prop}
  (hE : ∀ a b e, compare a b = .error e → E e)

include hE

/-- The only errors are those of the comparator. -/
theorem compareAt_sat (data : List α) (i j : Nat) :
    Sat (compareAt compare data i j) (fun _ => True) E := by
  unfold compareAt
  split
  next a b _ _ =>
    cases h : compare a b with
    | error e => exact hE a b e h
    | ok order => exact trivial
  · exact trivial

theorem up_sat (rounds : Nat) : ∀ (idx : Nat) (data : List α),
    Sat (up compare rounds idx data) (fun data' => data'.Perm data) E := by
  induction rounds with
  | zero =>
    intro idx data
    exact List.Perm.refl data
  | succ rounds ih =>
    intro idx data
    unfold up
    by_cases hidx : idx = 0
    · rw [if_pos hidx]
      exact List.Perm.refl data
    rw [if_neg hidx]
    have hcmp := compareAt_sat hE data (parentIdx idx) idx
    cases h : compareAt compare data (parentIdx idx) idx with
    | error e => exact hcmp.failure h
    | ok order =>
      by_cases hswap : order < 0
      · simp only [hswap, if_true]
        refine (ih _ _).mono (fun data' hperm => ?_)
        exact hperm.trans (List.swap_perm _ _ _)
      · simp only [hswap, if_false]
        exact List.Perm.refl data

theorem larger_sat (data : List α) (idx child : Nat) :
    Sat (larger compare data idx child) (fun _ => True) E := by
  unfold larger
  by_cases hchild : child < data.length
  · rw [if_pos hchild]
    have hcmp := compareAt_sat hE data child idx
    cases h : compareAt compare data child idx with
    | error e => exact hcmp.failure h
    | ok order => exact trivial
  · rw [if_neg hchild]
    exact trivial

theorem down_sat (rounds : Nat) : ∀ (idx : Nat) (data : List α),
    Sat (down compare rounds idx data) (fun data' => data'.Perm data) E := by
  induction rounds with
  | zero =>
    intro idx data
    exact List.Perm.refl data
  | succ rounds ih =>
    intro idx data
    unfold down
    have hleft := larger_sat hE data idx (leftIdx idx)
    cases h : larger compare data idx (leftIdx idx) with
    | error e => exact hleft.failure h
    | ok largest =>
      have hright := larger_sat hE data largest (rightIdx idx)
      cases h' : larger compare data largest (rightIdx idx) with
      | error e =>
        simp only [h']
        exact hright.failure h'
      | ok largest' =>
        simp only [h']
        by_cases hstay : largest' = idx
        · rw [if_pos hstay]
          exact List.Perm.refl data
        · rw [if_neg hstay]
          refine (ih _ _).mono (fun data' hperm => ?_)
          exact hperm.trans (List.swap_perm _ _ _)

theorem insert_sat (a : α) (data : List α) :
    Sat (insert compare a data) (fun data' => data'.Perm (a :: data)) E :=
  (up_sat hE _ _ _).mono (fun _ hperm => hperm.trans (List.perm_append_singleton a data))

theorem pop_sat (rest : List α) : Sat (pop compare rest) (fun data => data.Perm rest) E := by
  refine (down_sat hE _ _ _).mono (fun data hperm => hperm.trans ?_)
  cases hlast : rest.getLast? with
  | none =>
    rw [List.getLast?_eq_none_iff] at hlast
    rw [hlast]
  | some back =>
    have hsplit := List.dropLast_append_getLast? back hlast
    conv_rhs => rw [← hsplit]
    exact (List.perm_append_singleton back rest.dropLast).symm

end

end Puppy.Libc.PQueue
