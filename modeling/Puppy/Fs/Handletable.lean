/-
Tables of handles (include/fs/handletable.h).

A table has `N` places for values, and eight of them share a byte of
`mValid` that says which are in use. What is in a place that is not in use
is left there. `slots` is the table as its users see it, and `set` and
`clear` change it in one place.

No function checks the index it is given. The model stops at one that is
past the end; the source goes on with the byte that it finds there.
-/
import Puppy.Lib.Except
import Puppy.Lib.Packed
import Puppy.Panic

namespace Puppy.Fs

open Lib Function

structure Handletable (T : Type) (N : Nat) where
  mValid : Nat → BitVec 8
  mData : Nat → T

namespace Handletable

variable {T : Type} {N : Nat}

/-- The mask of an index in its byte. -/
def bit (i : Nat) : BitVec 8 := BitVec.twoPow 8 (i % 8)

/-- The constructor. The values are not initialized. -/
def empty [Inhabited T] : Handletable T N :=
  ⟨fun _ => 0, fun _ => default⟩

/-- The place is in use: `is`, without a value to fetch. -/
def valid (h : Handletable T N) (idx : Nat) : Bool :=
  !(0 == (h.mValid (idx / 8) &&& bit idx))

/-- What is in a place. -/
def slots (h : Handletable T N) (idx : Nat) : Option T :=
  if h.valid idx then some (h.mData idx) else none

def is (h : Handletable T N) (idx : Nat) : Except Panic (Option T) :=
  if idx < N then .ok (h.slots idx) else .error .outOfBounds

/-- The place that `set` takes: the first free one from `idx0` on. -/
def freeSlot (h : Handletable T N) (idx0 : Nat) : Option Nat :=
  ((List.range N).map fun i => (i + idx0) % N).find? fun i => !h.valid i

/-- What `set` writes. -/
def put (h : Handletable T N) (i : Nat) (value : T) : Handletable T N where
  mValid := update h.mValid (i / 8) (h.mValid (i / 8) ||| bit i)
  mData := update h.mData i value

/-- `set`: the table with the value in it, if there is a free place. -/
def set (h : Handletable T N) (value : T) (idx0 : Nat) : Option (Handletable T N) :=
  (h.freeSlot idx0).map fun i => h.put i value

/-- What `clear` writes. -/
def drop (h : Handletable T N) (idx : Nat) : Handletable T N :=
  { h with mValid := update h.mValid (idx / 8) (h.mValid (idx / 8) &&& ~~~bit idx) }

def clear (h : Handletable T N) (idx : Nat) : Except Panic (Handletable T N) :=
  if idx < N then .ok (h.drop idx) else .error .outOfBounds

-- ==== the table that the bytes and values stand for

variable {h : Handletable T N} {i idx0 : Nat} {value : T}

theorem valid_eq : h.valid i = Packed.bits h.mValid i := by
  rw [valid, bit, Packed.and_eq_zero, Bool.not_not]

theorem slots_isNone : (h.slots i).isNone = !h.valid i := by
  unfold slots
  cases h.valid i <;> rfl

/-- Eight places share a byte, but only one is taken. -/
theorem slots_put : (h.put i value).slots = update h.slots i (some value) := by
  have hvalid : (h.put i value).valid = update h.valid i true := by
    funext x
    rw [valid_eq, show h.valid = Packed.bits h.mValid from funext fun _ => valid_eq]
    exact congrFun (Packed.bits_or h.mValid i) x
  funext x
  unfold slots
  rw [hvalid]
  by_cases hx : x = i
  · simp [hx, put]
  · simp [hx, put]

theorem freeSlot_some (hN : 0 < N) (hfound : h.freeSlot idx0 = some i) :
    i < N ∧ h.slots i = none := by
  have hfree := List.find?_some hfound
  obtain ⟨j, _, hij⟩ := List.mem_map.1 (List.mem_of_find?_eq_some hfound)
  refine ⟨?_, Option.isNone_iff_eq_none.1 (slots_isNone.trans hfree)⟩
  rw [← hij]
  exact Nat.mod_lt _ hN

/-- Up to the end of the table, the search goes up. -/
theorem freeSlot_le {k : Nat} (hfound : h.freeSlot idx0 = some i)
    (hle : idx0 ≤ k) (hk : k < N) (hfree : h.slots k = none) :
    idx0 ≤ i ∧ i ≤ k := by
  obtain ⟨_, j, _, hi, hbefore⟩ := List.find?_eq_some_iff_getElem.1 hfound
  rw [List.getElem_map, List.getElem_range] at hi
  -- it would have come by `k` on its way further
  have hj : j ≤ k - idx0 := by
    by_contra hlt
    have htaken := hbefore (k - idx0) (by omega)
    rw [List.getElem_map, List.getElem_range, Nat.sub_add_cancel hle,
      Nat.mod_eq_of_lt hk, ← slots_isNone, hfree] at htaken
    cases htaken
  rw [Nat.mod_eq_of_lt (by omega)] at hi
  omega

/-- When there is no slot, every one is in use. -/
theorem freeSlot_none (hfull : h.freeSlot idx0 = none) : ∀ i < N, (h.slots i).isNone = false := by
  intro i hi
  have hnone := List.find?_eq_none.1 hfull
  -- the search comes by every slot, wherever it begins
  have hmem : i ∈ (List.range N).map fun j => (j + idx0) % N := by
    refine List.mem_map.2 ⟨(i + N - idx0 % N) % N, List.mem_range.2 (Nat.mod_lt _ (by omega)), ?_⟩
    have hstart := Nat.mod_lt idx0 (show 0 < N by omega)
    rw [Nat.mod_add_mod, ← Nat.add_mod_mod, Nat.sub_add_cancel (by omega),
      Nat.add_mod_right, Nat.mod_eq_of_lt hi]
  rw [slots_isNone]
  exact Bool.eq_false_iff.2 (hnone i hmem)

end Handletable

end Puppy.Fs
