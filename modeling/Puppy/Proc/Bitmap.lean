/-
The bitmap of identifiers as it lies in memory (include/process/bitmap.h).

`ProcessBitmap` is a set of indices. Here they are packed, eight to a byte,
and read and written through a table of masks. `view` is the set that the
bytes stand for, and every operation commutes with it, so what is known of
the set is known of the bytes.

# Runs

A call for an index outside of the array has no next state. `Ids` keeps,
next to the bitmap, what the calls so far amount to: the indices in use,
the one that `next` gave last, and those that it has given and that have
not been freed since.
-/
import Puppy.Proc.Process
import Puppy.Lib.Except
import Puppy.Lib.Packed

namespace Puppy.Proc

open Lib Function

structure PackedBitmap where
  mBitmap : Nat → BitVec 8 := fun _ => 0
  mFirstIndexToTry : Nat := 0

namespace PackedBitmap

def gBitmasks (b : Nat) : BitVec 8 := BitVec.twoPow 8 b

def isFree (m : PackedBitmap) (p : Nat) : Bool :=
  0 == (m.mBitmap (p / 8) &&& gBitmasks (p % 8))

def reserve (m : PackedBitmap) (p : Nat) : PackedBitmap :=
  { m with mBitmap := update m.mBitmap (p / 8) (m.mBitmap (p / 8) ||| gBitmasks (p % 8)) }

def free (m : PackedBitmap) (p : Nat) : PackedBitmap :=
  { m with mBitmap := update m.mBitmap (p / 8) (m.mBitmap (p / 8) &&& ~~~gBitmasks (p % 8)) }

/-- The loop of `next`, with `left` indices to try from the `i`-th on. -/
def nextFrom (m : PackedBitmap) : Nat → Nat → Except Panic Nat
  | 0, _ => .error .outOfEntries
  | left + 1, i =>
    let idx := (m.mFirstIndexToTry + i) % gNumProcesses
    if m.isFree idx then .ok idx else nextFrom m left (i + 1)

def next (m : PackedBitmap) : Except Panic (Nat × PackedBitmap) :=
  match m.nextFrom gNumProcesses 0 with
  | .error e => .error e
  | .ok idx => .ok (idx, { m.reserve idx with mFirstIndexToTry := idx + 1 })

-- ==== the set that the bytes stand for

def view (m : PackedBitmap) : ProcessBitmap where
  mBitmap := Packed.bits m.mBitmap
  mFirstIndexToTry := m.mFirstIndexToTry

variable (m : PackedBitmap) (p : Nat)

theorem isFree_view : m.isFree p = !m.view.mBitmap p := Packed.and_eq_zero m.mBitmap p

theorem reserve_view : (m.reserve p).view = m.view.reserve p :=
  congrArg (ProcessBitmap.mk · _) (Packed.bits_or m.mBitmap p)

theorem free_view : (m.free p).view = m.view.free p :=
  congrArg (ProcessBitmap.mk · _) (Packed.bits_and_not m.mBitmap p)

theorem nextFrom_view (left : Nat) : ∀ i, m.nextFrom left i = m.view.nextFrom left i := by
  induction left with
  | zero => intro i; rfl
  | succ left ih =>
    intro i
    unfold nextFrom ProcessBitmap.nextFrom
    simp [isFree_view, ih, show m.view.mFirstIndexToTry = m.mFirstIndexToTry from rfl]

end PackedBitmap

theorem ProcessBitmap.nextFrom_eq (b : ProcessBitmap) (left : Nat) : ∀ i, b.nextFrom left i =
    match (List.range' i left).find? fun j =>
      !b.mBitmap ((b.mFirstIndexToTry + j) % gNumProcesses) with
    | none => .error .outOfEntries
    | some j => .ok ((b.mFirstIndexToTry + j) % gNumProcesses) := by
  induction left with
  | zero => intro i; rfl
  | succ left ih =>
    intro i
    rw [nextFrom, List.range'_succ, List.find?_cons, ih]
    cases h : b.mBitmap ((b.mFirstIndexToTry + i) % gNumProcesses) <;> simp

-- ==== runs

inductive BitmapCall where
  | reserve (p : Nat)
  | free (p : Nat)
  | next
  deriving DecidableEq, Repr

structure Ids where
  bitmap : PackedBitmap := {}
  used : Nat → Bool := fun _ => false
  last : Option Nat := none
  out : List Nat := []

namespace Ids

def step (s : Ids) : BitmapCall → Except Panic Ids
  | .reserve p =>
    if gNumProcesses ≤ p then .error .outOfBounds
    else .ok { s with bitmap := s.bitmap.reserve p, used := update s.used p true }
  | .free p =>
    if gNumProcesses ≤ p then .error .outOfBounds
    else .ok { s with
      bitmap := s.bitmap.free p
      used := update s.used p false
      out := s.out.filter (· != p) }
  | .next => do
    let (idx, bitmap) ← s.bitmap.next
    .ok { bitmap := bitmap
          used := update s.used idx true
          last := some idx
          out := idx :: s.out }

/-- Where the next search begins: after the last result. -/
def start (s : Ids) : Nat := s.last.elim 0 (· + 1)

/-- The bitmap holds what the calls amount to, and what was given is given
once. -/
structure Inv (s : Ids) : Prop where
  bits : s.bitmap.view = ⟨s.used, s.start⟩
  out : ∀ p ∈ s.out, s.used p = true
  nodup : s.out.Nodup

/-- What the next call of `next` does. -/
def Serves (s : Ids) : Prop :=
  Sat s.bitmap.next
    (fun r => r.2.view = ⟨update s.used r.1 true, r.1 + 1⟩ ∧ r.1 < gNumProcesses ∧
      s.used r.1 = false ∧ ∃ j, r.1 = (s.start + j) % gNumProcesses ∧
        ∀ k < j, s.used ((s.start + k) % gNumProcesses) = true)
    (fun e => e = .outOfEntries ∧ ∀ p < gNumProcesses, s.used p = true)

variable {s s' : Ids}

/-- What `next` does to the bytes is what it does to the set. -/
theorem Inv.serves (h : s.Inv) : s.Serves := by
  unfold Serves PackedBitmap.next
  rw [PackedBitmap.nextFrom_view, ProcessBitmap.nextFrom_eq, h.bits, ← List.range_eq_range']
  cases hfind : (List.range gNumProcesses).find? _ with
  | none =>
    refine ⟨rfl, fun p hp => ?_⟩
    -- every index is tried: this one at its distance from the start
    have htried := List.find?_range_eq_none.1 hfind
      ((p + (gNumProcesses - s.start % gNumProcesses)) % gNumProcesses) (Nat.mod_lt _ (by decide))
    rw [show (s.start + (p + (gNumProcesses - s.start % gNumProcesses)) % gNumProcesses)
      % gNumProcesses = p by unfold gNumProcesses at hp ⊢; omega] at htried
    simpa using htried
  | some j =>
    obtain ⟨hfree, _, hbefore⟩ := List.find?_range_eq_some.1 hfind
    refine ⟨?_, Nat.mod_lt _ (by decide), by simpa using hfree, j, rfl, by simpa using hbefore⟩
    have hview := s.bitmap.reserve_view ((s.start + j) % gNumProcesses)
    rw [h.bits] at hview
    exact congrArg (fun b => ProcessBitmap.mk b.mBitmap _) hview

theorem Inv.step (h : s.Inv) (c : BitmapCall) : Sat (s.step c) Inv (fun _ => True) := by
  cases c with
  | reserve p =>
    refine .reject (fun _ => trivial) fun _ => ⟨?_, ?_, h.nodup⟩
    · exact (s.bitmap.reserve_view p).trans (by rw [h.bits]; rfl)
    · intro x hx
      by_cases hxp : x = p <;> simp [hxp, h.out x hx]
  | free p =>
    refine .reject (fun _ => trivial) fun _ => ⟨?_, ?_, h.nodup.filter _⟩
    · exact (s.bitmap.free_view p).trans (by rw [h.bits]; rfl)
    · intro x hx
      obtain ⟨hx, hxp⟩ := List.mem_filter.1 hx
      simp [h.out x hx, bne_iff_ne.1 hxp]
  | next =>
    refine .bind (h.serves.weaken fun _ _ => trivial) ?_
    rintro ⟨idx, bitmap⟩ _ ⟨hview, _, hfree, _⟩
    refine ⟨hview, ?_, List.nodup_cons.2 ⟨?_, h.nodup⟩⟩
    · intro x hx
      by_cases hxi : x = idx
      · simp [hxi]
      · simp [hxi, h.out x (List.mem_of_ne_of_mem hxi hx)]
    · intro hmem
      exact Bool.false_ne_true (hfree ▸ h.out idx hmem)

end Ids

/-- Whatever is called, the bytes are as they should be, the next search
serves, and no index is given twice unless it has been freed. -/
theorem ids_distinct (calls : List BitmapCall) :
    Sat (calls.foldlM Ids.step {}) (fun s => s.Inv ∧ s.Serves) (fun _ => True) := by
  have hrun : Sat (calls.foldlM Ids.step {}) Ids.Inv (fun _ => True) := by
    refine Sat.foldlM_mem ⟨?_, by simp, .nil⟩ fun c _ s hs => hs.step c
    simp [PackedBitmap.view, Ids.start]
  exact hrun.mono fun s hs => ⟨hs, hs.serves⟩

end Puppy.Proc
