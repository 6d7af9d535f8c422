/-
The ring of the kernel log (include/libc/ringbuffer.h).

A write goes to the next cell, and from the first time that it starts over
each one moves the first index on. What the ring holds is the end of what
has been written.

A ring is made larger by reading the old one and writing what was there to
a new one. But a write of length zero means a string, so that a copy of an
empty ring writes what it finds in a block of memory of no size, up to the
first zero.
-/
import Mathlib.Tactic

namespace Puppy.Libc

open Function List

/-- `RingBuffer`. -/
structure LogRing (α : Type) where
  mBuffer : Nat → α
  mSize : Nat
  mPosition : Nat := 0
  mCurrentSize : Nat := 0
  mFirstIndex : Nat := 0
  mWrapped : Bool := false

namespace LogRing

variable {α : Type}

def putchar (r : LogRing α) (c : α) : LogRing α :=
  let atEnd := decide (r.mPosition = r.mSize)
  let position := if atEnd then 0 else r.mPosition
  let wrapped := r.mWrapped || atEnd
  { r with
    mBuffer := update r.mBuffer position c
    mPosition := position + 1
    mCurrentSize := if r.mCurrentSize < r.mSize then r.mCurrentSize + 1 else r.mCurrentSize
    mFirstIndex := if wrapped then (r.mFirstIndex + 1) % r.mSize else r.mFirstIndex
    mWrapped := wrapped }

/-- What `write` writes, of what is in memory at `s`. -/
def text [DecidableEq α] [Zero α] (s : List α) (n : Nat) : List α :=
  if n = 0 then s.takeWhile (· ≠ 0) else s.take n

def write [DecidableEq α] [Zero α] (r : LogRing α) (s : List α) (n : Nat) : LogRing α :=
  (text s n).foldl putchar r

/-- `read`, with `getchar`. -/
def read (r : LogRing α) (n : Nat) : List α :=
  (range (min n r.mCurrentSize)).map fun idx => r.mBuffer ((idx + r.mFirstIndex) % r.mSize)

def size (r : LogRing α) : Nat := r.mCurrentSize

/-- The constructor from another ring, with what comes after the block that
it reads to. -/
def copy [DecidableEq α] [Zero α] (buf : Nat → α) (sz : Nat) (src : LogRing α) (heap : List α) :
    LogRing α :=
  write { mBuffer := buf, mSize := sz } (src.read src.size ++ heap) src.size

/-- The ring has had so many items written to it, `q` times around. -/
structure Holds (r : LogRing α) (sz : Nat) (written : List α) : Prop where
  size : r.mSize = sz
  count : r.mCurrentSize = min written.length sz
  place : ∃ q, written.length = sz * q + r.mPosition ∧ r.mPosition ≤ sz ∧
    (r.mPosition = 0 → q = 0) ∧ (r.mWrapped = true ↔ q ≠ 0) ∧
    r.mFirstIndex = if q = 0 then 0 else r.mPosition % sz
  cells : ∀ i (h : i < written.length), written.length ≤ i + sz → r.mBuffer (i % sz) = written[i]

variable {r : LogRing α} {sz : Nat} {written : List α}

theorem Holds.putchar (hr : r.Holds sz written) (hsz : 0 < sz) (c : α) :
    (r.putchar c).Holds sz (written ++ [c]) := by
  obtain ⟨rfl, hcount, ⟨q, hlen, hle, hzero, hwrapped, hfirst⟩, hcells⟩ := hr
  have hstore : (if r.mPosition = r.mSize then 0 else r.mPosition) = written.length % r.mSize := by
    rw [hlen, Nat.mul_add_mod]
    split
    next h => rw [h, Nat.mod_self]
    next h => rw [Nat.mod_eq_of_lt (by omega)]
  refine ⟨rfl, ?_, ?_, ?_⟩
  · simp only [LogRing.putchar, hcount, length_append, length_singleton]
    split <;> omega
  · by_cases hend : r.mPosition = r.mSize
    · refine ⟨q + 1, ?_⟩
      have hnext : r.mFirstIndex = 0 := by
        rw [hfirst, hend, Nat.mod_self, ite_self]
      simp only [LogRing.putchar, hend, hnext, decide_true, Bool.or_true, if_true, mul_add]
      simp [hlen, hend]
      omega
    · refine ⟨q, ?_⟩
      simp only [LogRing.putchar, hend, decide_false, Bool.or_false, hwrapped, hfirst]
      simp [hlen, add_assoc]
      refine ⟨by omega, ?_⟩
      split_ifs <;> simp
  · intro i h hi
    simp only [LogRing.putchar, decide_eq_true_eq, hstore]
    rw [length_append, length_singleton] at h hi
    rcases Nat.lt_succ_iff_lt_or_eq.1 h with hlt | rfl
    · have hne : i % r.mSize ≠ written.length % r.mSize := by
        intro heq
        have hmod := Nat.sub_mod_eq_zero_of_mod_eq heq.symm
        rw [Nat.mod_eq_of_lt (by omega)] at hmod
        omega
      rw [update_of_ne hne, hcells i hlt (by omega), getElem_append_left]
    · simp

/-- What the ring holds is the end of what has been written. -/
theorem Holds.read_eq (hr : r.Holds sz written) {n : Nat} (hn : r.size ≤ n) :
    r.read n = written.drop (written.length - sz) := by
  obtain ⟨rfl, hcount, ⟨q, hlen, hle, hzero, -, hfirst⟩, hcells⟩ := hr
  have hmin : min n r.mCurrentSize = min written.length r.mSize := by
    rw [← hcount]
    exact min_eq_right hn
  refine ext_getElem ?_ ?_
  · simp only [read, hmin, length_map, length_range, length_drop]
    omega
  intro i h h'
  simp only [read, hmin, length_map, length_range] at h
  have hplace : (i + r.mFirstIndex) % r.mSize = (written.length - r.mSize + i) % r.mSize := by
    rw [hfirst]
    cases q with
    | zero => simp [show written.length - r.mSize = 0 by omega]
    | succ q =>
      have hback : written.length - r.mSize = r.mSize * q + r.mPosition := by
        rw [hlen, mul_add_one]
        omega
      rw [hback, if_neg (by omega), Nat.add_mod_mod, add_assoc, Nat.mul_add_mod, add_comm]
  simp only [read, getElem_map, getElem_range, getElem_drop, hplace]
  exact hcells _ (by omega) (by omega)

theorem Holds.foldl (hr : r.Holds sz written) (hsz : 0 < sz) (data : List α) :
    (data.foldl LogRing.putchar r).Holds sz (written ++ data) := by
  induction data generalizing r written with
  | nil => simpa using hr
  | cons c data ih => simpa using ih (hr.putchar hsz c)

theorem holds_new (hsz : 0 < sz) (buf : Nat → α) (data : List α) :
    Holds (data.foldl LogRing.putchar { mBuffer := buf, mSize := sz }) sz data := by
  have h : Holds { mBuffer := buf, mSize := sz } sz [] := ⟨rfl, by simp, ⟨0, by simp⟩, by simp⟩
  exact h.foldl hsz data

variable [DecidableEq α] [Zero α]

/-- Whatever is written, the ring has the end of it. A copy, to any size,
has the end of that exactly when there was something, or there is no string
in the memory after the block of no size. -/
theorem keepsLast_iff (hsz : 0 < sz) (buf : Nat → α) (calls : List (List α × Nat)) :
    let r : LogRing α := calls.foldl (fun r c => r.write c.1 c.2) { mBuffer := buf, mSize := sz }
    let written := calls.flatMap fun c => text c.1 c.2
    (∀ n, r.size ≤ n → r.read n = written.drop (written.length - sz)) ∧ ∀ buf' sz' heap, 0 < sz' →
        ((copy buf' sz' r heap).read (copy buf' sz' r heap).size
            = (r.read r.size).drop (r.size - sz') ↔
          r.size ≠ 0 ∨ heap.takeWhile (· ≠ 0) = []) := by
  intro r written
  have hr : r.Holds sz written := by
    have h := holds_new hsz buf written
    rwa [foldl_flatMap] at h
  refine ⟨fun n hn => hr.read_eq hn, ?_⟩
  intro buf' sz' heap hsz'
  have hlen : (r.read r.size).length = r.size := by simp [read, size]
  rw [copy, write, (holds_new hsz' buf' _).read_eq le_rfl]
  by_cases hempty : r.size = 0
  · rw [length_eq_zero_iff.1 (hlen.trans hempty), text, if_pos hempty, nil_append,
      drop_nil, drop_eq_nil_iff]
    simp only [hempty, ne_eq, not_true, false_or, ← length_eq_zero_iff]
    omega
  · rw [text, if_neg hempty, take_left' hlen, hlen]
    exact iff_of_true rfl (.inl hempty)

/-- Two cells, and three items in two calls. The last two are there, and a
copy to one cell has the last. -/
theorem keepsLast_iff_three :
    let r : LogRing Nat := (write { mBuffer := fun _ => 0, mSize := 2 } [7, 8] 2).write [9] 1
    r.read 2 = [8, 9] ∧ (copy (fun _ => 0) 1 r [5]).read 1 = [9] := by
  obtain ⟨hread, hcopy⟩ := keepsLast_iff Nat.two_pos (fun _ => 0) [([7, 8], 2), ([9], 1)]
  exact ⟨hread 2 (by decide), (hcopy (fun _ => 0) 1 [5] Nat.one_pos).2 (.inl (by decide))⟩

/-- A copy of an empty ring has what was found in the memory, and not what
the ring has. -/
theorem copy_of_empty :
    let r : LogRing Nat := { mBuffer := fun _ => 0, mSize := 1 }
    let r' := copy (fun _ => 0) 2 r [7, 0]
    r'.read r'.size = [7] ∧ r'.read r'.size ≠ (r.read r.size).drop (r.size - 2) := by
  decide

end LogRing

end Puppy.Libc
