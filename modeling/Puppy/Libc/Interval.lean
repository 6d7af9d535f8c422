/-
Closed address intervals and the list the kernel keeps them in
(include/libc/interval.h, include/libc/intervals.h).

# Words

Every bound is a `uint32_t`. Bounds are natural numbers here, and a plain
`+` or `-` stands only where the source's own guard keeps the result in
range. The distinction matters: `findFree` adds the requested size to the
end of an interval before it compares, and nothing in front of that
addition keeps it from wrapping.

# One list, several element types

`IntervalList` is a template over an interval type: plain intervals for
the kernel's own regions, `region_t` (an interval with permissions) for
those of a process. The template only ever reads the bounds, so the
functions below are generic over a type whose values have bounds.
-/
import Puppy.Libc.Word

namespace Puppy.Libc

/-- `interval_t`: the addresses from `frm` to `upto`, both included
(the fields `from` and `to` of the source, which are reserved words). -/
structure Interval where
  frm : Nat
  upto : Nat
  deriving DecidableEq, Repr

namespace Interval

/-- `interval_t::size`. -/
def size (i : Interval) : Nat := add32 (sub32 i.upto i.frm) 1

/-- `interval_t::thisBefore`. -/
def thisBefore (i other : Interval) : Bool := decide (i.upto ≤ other.frm)

/-- `interval_t::contains`, for one address. -/
def contains (i : Interval) (num : Nat) : Bool :=
  decide (i.frm ≤ num) && decide (num ≤ i.upto)

@[simp]
theorem contains_iff {i : Interval} {num : Nat} :
    i.contains num = true ↔ i.frm ≤ num ∧ num ≤ i.upto := by
  simp [contains]

@[simp]
theorem thisBefore_iff {i other : Interval} : i.thisBefore other = true ↔ i.upto ≤ other.frm := by
  simp [thisBefore]

/-- No address lies in both intervals. -/
def Disjoint (i j : Interval) : Prop :=
  ∀ addr, ¬ (i.contains addr = true ∧ j.contains addr = true)

end Interval

/-- What the template asks of its element type: bounds. -/
class IsInterval (α : Type) where
  ival : α → Interval

export IsInterval (ival)

instance : IsInterval Interval := ⟨id⟩

namespace IntervalList

variable {α : Type} [IsInterval α]

/-- The insertion loop of `IntervalList::add`: step over every interval
that ends no later than the new one starts. -/
def insertWalk (i : α) : List α → List α
  | [] => [i]
  | other :: rest =>
    if (ival other).thisBefore (ival i) then other :: insertWalk i rest
    else i :: other :: rest

def add (i : α) : List α → List α
  | [] => [i]
  | [other] => if (ival other).thisBefore (ival i) then [other, i] else [i, other]
  | other :: other' :: rest => insertWalk i (other :: other' :: rest)

/-- `IntervalList::contains`: the first interval that holds the address,
giving up at the first one that starts beyond it. -/
def contains (addr : Nat) : List α → Option α
  | [] => none
  | i :: rest =>
    if addr < (ival i).frm then none
    else if (ival i).contains addr then some i
    else contains addr rest

/-- The loop of `IntervalList::findFree` over adjacent intervals. The
sum in its test is the machine's. -/
def findGap (size : Nat) : List α → Option Interval
  | i0 :: i1 :: rest =>
    if add32 size (ival i0).upto < (ival i1).frm then
      some ⟨add32 (ival i0).upto 1, add32 size (ival i0).upto⟩
    else findGap size (i1 :: rest)
  | _ => none

/-- The range after an interval, when the space up to `max` allows. -/
def findAfter (max size : Nat) (i : Interval) : Option Interval :=
  if size ≤ sub32 max i.upto then some ⟨add32 i.upto 1, add32 size i.upto⟩
  else none

def findFree (max size : Nat) (l : List α) : Option Interval :=
  if size = 0 then none
  else
    match l with
    | [] => some ⟨0, size - 1⟩
    | [i] =>
      if size ≤ (ival i).frm then some ⟨0, size - 1⟩
      else findAfter max size (ival i)
    | i0 :: i1 :: rest =>
      match findGap size (i0 :: i1 :: rest) with
      | some range => some range
      | none => findAfter max size (ival ((i1 :: rest).getLast (by simp)))

/-- `IntervalList::del`: drop the first interval with these bounds, if
there is one. -/
def del (i : α) (l : List α) : Option (List α) :=
  if l.any fun j => ival j == ival i then
    some (l.eraseP fun j => ival j == ival i)
  else none

-- ==== the lists the kernel means to keep

/-- The intervals stand in the order of their addresses. -/
def Sorted (l : List α) : Prop :=
  l.Pairwise fun i j => (ival i).frm ≤ (ival j).frm

/-- No address lies in two intervals of the list. -/
def Disjoint (l : List α) : Prop :=
  l.Pairwise fun i j => (ival i).Disjoint (ival j)

/-- A well-formed list inside `[0, max]`: no interval is turned around,
none ends beyond `max`, and the list is sorted and disjoint. -/
structure Layout (max : Nat) (l : List α) : Prop where
  ordered : ∀ i ∈ l, (ival i).frm ≤ (ival i).upto
  bounded : ∀ i ∈ l, (ival i).upto ≤ max
  sorted : Sorted l
  disjoint : Disjoint l

/-- What a search for `size` free addresses is meant to hand out. -/
structure FreeRange (max size : Nat) (l : List α) (range : Interval) :
    Prop where
  ordered : range.frm ≤ range.upto
  exact : range.upto + 1 = range.frm + size
  bounded : range.upto ≤ max
  disjoint : ∀ i ∈ l, range.Disjoint (ival i)

/-- There is room for `size` addresses between two neighbours. -/
def HasGap (size : Nat) (l : List α) : Prop :=
  ∃ i0 i1, [i0, i1] <:+: l ∧ (ival i0).upto + size < (ival i1).frm

/-- The gap test never leaves 32 bits: only the last interval of the list
may lie so high that adding the size to its end would wrap. -/
def NoWrap (size : Nat) (l : List α) : Prop :=
  ∀ i ∈ l.dropLast, (ival i).upto + size < 0x100000000

/-- The requests that `findFree` answers soundly. -/
def SafeRequest (max size : Nat) : List α → Prop
  | [] => size ≤ max + 1
  | [_] => True
  | i0 :: i1 :: rest => HasGap size (i0 :: i1 :: rest) ∨ NoWrap size (i0 :: i1 :: rest)

/-- The requests that `findFree` does not turn down in vain. With several
intervals in the list it does not look before the first, so what fits
there and nowhere else is not found; a gap test that wraps hands out
something in any case. -/
def LooksEverywhere (max size : Nat) : List α → Prop
  | i0 :: i1 :: rest =>
    (ival i0).frm < size ∨ HasGap size (i0 :: i1 :: rest) ∨ ¬ NoWrap size (i0 :: i1 :: rest) ∨
      size + (ival ((i1 :: rest).getLast (by simp))).upto ≤ max
  | _ => True

end IntervalList

end Puppy.Libc
