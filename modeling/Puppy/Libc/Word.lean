/-
Arithmetic on 32-bit words, and strings.

Counters and addresses are natural numbers in the model, and the places
where the machine's arithmetic can leave the 32-bit range say so by using
`add32` and `sub32`.
-/
import Mathlib.Tactic

namespace Puppy.Libc

/-- A string: the bytes in front of the zero. -/
abbrev CString := List UInt8

/-- `if (path[0] == '/') ++path`. -/
def stripSlash : CString → CString
  | [] => []
  | c :: rest => if c = 47 then rest else c :: rest

/-- 32-bit addition. -/
def add32 (a b : Nat) : Nat := (a + b) % 0x100000000

/-- 32-bit subtraction. -/
def sub32 (a b : Nat) : Nat := (a + 0x100000000 - b % 0x100000000) % 0x100000000

@[simp]
theorem add32_of_lt {a b : Nat} (h : a + b < 0x100000000) : add32 a b = a + b := Nat.mod_eq_of_lt h

theorem add32_of_ge {a b : Nat} (ha : a < 0x100000000) (hb : b < 0x100000000)
    (h : 0x100000000 ≤ a + b) : add32 a b = a + b - 0x100000000 := by
  unfold add32
  omega

theorem sub32_of_le {a b : Nat} (ha : a < 0x100000000) (h : b ≤ a) : sub32 a b = a - b := by
  unfold sub32
  omega

end Puppy.Libc
