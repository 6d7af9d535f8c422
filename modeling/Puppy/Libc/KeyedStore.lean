/-
Stores of named objects (include/libc/keyedstore.h).

A store has at most one object for each key, and counts how often it was
asked for it. Whoever asked gives the object back by its key; the last one
to do so has it deleted.

The store's pairs of an object and its count are on the heap, and so are
the objects. Each pair goes with its object, so one number stands for the
addresses of both. A number is not used again, and an access to a pair that
has been deleted is a `fault`.
-/
import Puppy.Libc.Hash
import Puppy.Libc.Word
import Puppy.Panic

namespace Puppy.Libc

open Function

/-- `helper::index`. A `char` has a sign. -/
def keyIndex (st : CString) : Nat :=
  st.foldl (fun i s => add32 (31 * i) (s.toNat + if 128 ≤ s.toNat then 0xFFFFFF00 else 0)) 0

structure KeyedStore (T : Type) where
  mHash : Hash CString Nat keyIndex 1024 := .empty
  /-- The pairs that exist, each with its object and its count. -/
  pointers : Nat → Option (T × Nat) := fun _ => none
  /-- How many there have been. -/
  made : Nat := 0

namespace KeyedStore

variable {T : Type}

def makeOrNull (s : KeyedStore T) (key : CString) (object : T) : Option (Nat × KeyedStore T) :=
  match s.mHash.find key with
  | some _ => none
  | none =>
    some (s.made,
      { mHash := s.mHash.insert key s.made
        pointers := update s.pointers s.made (some (object, 1))
        made := s.made + 1 })

def getOrNull (s : KeyedStore T) (key : CString) : Except Panic (Option (Nat × KeyedStore T)) :=
  match s.mHash.find key with
  | none => .ok none
  | some pointer =>
    match s.pointers pointer with
    | none => .error .fault
    | some (object, count) =>
      .ok (some (pointer,
        { s with
          pointers := update s.pointers pointer (some (object, add32 count 1)) }))

/-- `release`. The answer is whether the object was deleted. -/
def release (s : KeyedStore T) (key : CString) : Except Panic (Bool × KeyedStore T) :=
  match s.mHash.find key with
  | none => .ok (false, s)
  | some pointer =>
    match s.pointers pointer with
    | none => .error .fault
    | some (object, count) =>
      if sub32 count 1 = 0 then
        .ok (true,
          { s with
            mHash := s.mHash.erase key
            pointers := update s.pointers pointer none })
      else
        .ok (false,
          { s with
            pointers := update s.pointers pointer (some (object, sub32 count 1)) })

/-- What the owner of a reference does to the object. -/
def modify (s : KeyedStore T) (pointer : Nat) (f : T → T) : KeyedStore T :=
  { s with
    pointers := update s.pointers pointer
      ((s.pointers pointer).map fun (object, count) => (f object, count)) }

/-- The count that the store keeps for a key. -/
def count (s : KeyedStore T) (key : CString) : Nat :=
  match (s.mHash.find key).bind s.pointers with
  | some (_, count) => count
  | none => 0

end KeyedStore

end Puppy.Libc
