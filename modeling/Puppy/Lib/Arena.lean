/-
Blocks of memory that lie side by side.

A block is known by the address it starts at, and how long it is stands in
a function of the address, counted in units of so many bytes. The blocks
that exist are a finite set of addresses. An allocator does three things to
them: it cuts one in two, it joins two that touch, and it adds one above
all others. None of them makes two blocks overlap, and the first two do not
change how much there is altogether.
-/
import Mathlib.Algebra.BigOperators.Group.Finset.Basic
import Mathlib.Tactic

namespace Puppy.Lib

open Finset Function

variable {unit : ℕ} {len len' : ℕ → ℕ} {T : Finset ℕ} {a b n : ℕ}

/-- No block is empty, and each ends before the next begins. -/
structure Tiled (unit : ℕ) (len : ℕ → ℕ) (T : Finset ℕ) : Prop where
  pos : ∀ a ∈ T, 0 < len a
  apart : ∀ a ∈ T, ∀ b ∈ T, a < b → a + unit * len a ≤ b

namespace Tiled

theorem empty : Tiled unit len ∅ :=
  ⟨fun _ ha => absurd ha (notMem_empty _), fun _ ha => absurd ha (notMem_empty _)⟩

section

variable (h : Tiled unit len T) (ha : a ∈ T) (hunit : 0 < unit) (hpos : 0 < n) (hlt : n < len a)
include h ha hunit hpos hlt

/-- Where a block is cut, no block begins. -/
theorem cut_notMem : a + unit * (len a - n) ∉ T := by
  intro hmem
  have hup : 0 < unit * (len a - n) := Nat.mul_pos hunit (by omega)
  have hle := h.apart a ha _ hmem (by omega)
  have hless : unit * (len a - n) < unit * len a := Nat.mul_lt_mul_of_pos_left (by omega) hunit
  omega

/-- The last `n` units of a block become a block. -/
theorem cut : Tiled unit (update (update len a (len a - n)) (a + unit * (len a - n)) n)
      (insert (a + unit * (len a - n)) T) := by
  have hnew := h.cut_notMem ha hunit hpos hlt
  have hwhole : unit * (len a - n) + unit * n = unit * len a := by
    rw [← mul_add, Nat.sub_add_cancel hlt.le]
  have hold : ∀ x ∈ T, update (update len a (len a - n))
      (a + unit * (len a - n)) n x = if x = a then len a - n else len x := by
    intro x hx
    rw [update_of_ne (ne_of_mem_of_not_mem hx hnew), update_apply]
  have hcut : ∀ x ∈ T, x < a + unit * (len a - n) → x ≠ a → x < a := by
    intro x hx hxlt hne
    by_contra hle
    have hend := h.apart a ha x hx (by omega)
    omega
  refine ⟨fun x hx => ?_, fun x hx y hy hxy => ?_⟩
  · rcases mem_insert.1 hx with hx | hx
    · rw [hx, update_self]
      exact hpos
    rw [hold x hx]
    split
    · omega
    · exact h.pos x hx
  rcases mem_insert.1 hx with hx | hx
  · rcases mem_insert.1 hy with hy | hy
    · omega
    rw [hx] at hxy ⊢
    rw [update_self]
    have hend := h.apart a ha y hy (by omega)
    omega
  rw [hold x hx]
  rcases mem_insert.1 hy with hy | hy
  · rw [hy] at hxy ⊢
    split
    next heq => rw [heq]
    next hne =>
    have hend := h.apart x hx a ha (hcut x hx hxy hne)
    omega
  split
  next heq =>
    rw [heq] at hxy ⊢
    have hend := h.apart a ha y hy hxy
    omega
  · exact h.apart x hx y hy hxy

theorem sum_cut : ∑ x ∈ insert (a + unit * (len a - n)) T, update (update len a (len a - n))
          (a + unit * (len a - n)) n x = ∑ x ∈ T, len x := by
  have hnew := h.cut_notMem ha hunit hpos hlt
  rw [sum_insert hnew, update_self, sum_update_of_notMem hnew,
    sum_update_of_mem ha, ← add_sum_erase T len ha, sdiff_singleton_eq_erase]
  omega

end

/-- A block takes in the one that begins where it ends. -/
theorem join (h : Tiled unit len T) (ha : a ∈ T) (hb : b ∈ T)
    (htouch : a + unit * len a = b) :
    Tiled unit (update len a (len a + len b)) (T.erase b) := by
  refine ⟨fun x hx => ?_, fun x hx y hy hxy => ?_⟩
  · rw [update_apply]
    split
    · have := h.pos a ha
      omega
    · exact h.pos x (mem_of_mem_erase hx)
  rw [mem_erase] at hx hy
  rw [update_apply]
  split
  next heq =>
    rw [heq] at hxy ⊢
    have hmid := h.apart a ha y hy.2 hxy
    have hend := h.apart b hb y hy.2 (by omega)
    rw [mul_add]
    omega
  · exact h.apart x hx.2 y hy.2 hxy

theorem sum_join (ha : a ∈ T) (hb : b ∈ T) (hne : a ≠ b) :
    ∑ x ∈ T.erase b, update len a (len a + len b) x = ∑ x ∈ T, len x := by
  have ha' : a ∈ T.erase b := mem_erase.2 ⟨hne, ha⟩
  rw [sum_update_of_mem ha', ← add_sum_erase T len hb,
    ← add_sum_erase (T.erase b) len ha', sdiff_singleton_eq_erase]
  omega

/-- A block above all others. -/
theorem extend (h : Tiled unit len T) (hpos : 0 < n)
    (habove : ∀ a ∈ T, a + unit * len a ≤ b) (hb : b ∉ T) :
    Tiled unit (update len b n) (insert b T) := by
  have hold : ∀ x ∈ T, update len b n x = len x := fun x hx =>
    update_of_ne (ne_of_mem_of_not_mem hx hb) n len
  refine ⟨fun x hx => ?_, fun x hx y hy hxy => ?_⟩
  · rcases mem_insert.1 hx with hx | hx
    · rw [hx, update_self]
      exact hpos
    · rw [hold x hx]
      exact h.pos x hx
  rcases mem_insert.1 hx with hx | hx
  · rcases mem_insert.1 hy with hy | hy
    · omega
    · have := habove y hy
      omega
  rw [hold x hx]
  rcases mem_insert.1 hy with hy | hy
  · rw [hy]
    exact habove x hx
  · exact h.apart x hx y hy hxy

end Tiled

end Puppy.Lib
