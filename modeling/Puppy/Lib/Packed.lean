/-
Sets of indices, packed eight to a byte.

`bits` is the set that an array of bytes stands for. Writing a byte with one
more bit, or one less, changes the set at that index and nowhere else, which
is all that the owners of such arrays have to know about their bytes.
-/
import Mathlib.Logic.Function.Basic
import Mathlib.Tactic

namespace Puppy.Lib.Packed

open Function

/-- The index is in the set. -/
def bits (bytes : Nat → BitVec 8) (i : Nat) : Bool :=
  (bytes (i / 8)).getLsbD (i % 8)

@[simp]
theorem bits_zero : bits (fun _ => 0#8) = fun _ => false := by
  funext i
  exact BitVec.getLsbD_zero

variable (bytes : Nat → BitVec 8) (i : Nat)

/-- The test that is made on the byte of an index. -/
theorem and_eq_zero : (0 == (bytes (i / 8) &&& BitVec.twoPow 8 (i % 8))) = !bits bytes i := by
  have hbit : i % 8 < 8 := Nat.mod_lt i (by decide)
  have hmask : 0#8 ≠ BitVec.twoPow 8 (i % 8) := by
    intro h
    simpa [hbit] using congrArg (·.getLsbD (i % 8)) h
  unfold bits
  cases h : (bytes (i / 8)).getLsbD (i % 8) <;> simp [BitVec.and_twoPow, h, hmask]

/-- A byte is written so that one of its bits becomes `v`. -/
theorem bits_update {byte : BitVec 8} {v : Bool}
    (hbyte : ∀ b < 8, byte.getLsbD b = if i % 8 = b then v else (bytes (i / 8)).getLsbD b) :
    bits (update bytes (i / 8) byte) = update (bits bytes) i v := by
  funext x
  unfold bits
  by_cases hx : x / 8 = i / 8
  · rw [hx, update_self, hbyte _ (Nat.mod_lt x (by decide))]
    by_cases hb : i % 8 = x % 8
    · rw [if_pos hb, show x = i by omega, update_self]
    · rw [if_neg hb, update_of_ne (fun h => hb (by rw [h])), hx]
  · rw [update_of_ne hx, update_of_ne (fun h => hx (by rw [h]))]

theorem bits_or : bits (update bytes (i / 8) (bytes (i / 8) ||| BitVec.twoPow 8 (i % 8))) =
    update (bits bytes) i true := by
  apply bits_update
  intro b hb
  simp only [BitVec.getLsbD_or, BitVec.getLsbD_twoPow]
  by_cases h : i % 8 = b <;> simp [h, hb]

theorem bits_and_not : bits (update bytes (i / 8) (bytes (i / 8) &&& ~~~BitVec.twoPow 8 (i % 8))) =
    update (bits bytes) i false := by
  apply bits_update
  intro b hb
  simp only [BitVec.getLsbD_and, BitVec.getLsbD_not, BitVec.getLsbD_twoPow]
  by_cases h : i % 8 = b <;> simp [h, hb]

end Puppy.Lib.Packed
