/-
Nodes that are linked by pointers.

A node has an item and the pointer to the next node, and a memory says which
nodes there are. A segment is what one meets on the way from one pointer to
another: the nodes with their items, in order. Segments are put together and
taken apart like the lists of their nodes, and a store to a node that is not
in a segment leaves it alone. A list that ends with the null pointer is a
segment, and so is each part of it.
-/
import Mathlib.Tactic

namespace Puppy.Lib

open Function

variable {T : Type}

/-- A node. The null pointer is `none`. -/
structure Node (T : Type) where
  item : T
  next : Option Nat

/-- The nodes from one pointer to another. -/
inductive Seg (nodes : Nat → Option (Node T)) : Option Nat → List (Nat × T) → Option Nat → Prop
  | nil (a : Option Nat) : Seg nodes a [] a
  | cons {p : Nat} {item : T} {next b : Option Nat} {ps : List (Nat × T)} :
      nodes p = some ⟨item, next⟩ → Seg nodes next ps b → Seg nodes (some p) ((p, item) :: ps) b

namespace Seg

variable {nodes : Nat → Option (Node T)} {a b c next : Option Nat} {ps qs : List (Nat × T)}
  {p : Nat} {item : T}

theorem eq_of_nil (h : Seg nodes a [] b) : a = b := by
  cases h
  rfl

/-- A segment begins with its first node, if it has one. -/
theorem mem_of_ne_nil (h : Seg nodes (some p) ps b) (hps : ps ≠ []) : p ∈ ps.map Prod.fst := by
  cases h with
  | nil => exact absurd rfl hps
  | cons _ _ => exact List.mem_cons_self

theorem append (h : Seg nodes a ps b) (h' : Seg nodes b qs c) : Seg nodes a (ps ++ qs) c := by
  induction h with
  | nil => exact h'
  | cons hp _ ih => exact .cons hp (ih h')

/-- A node that two segments meet in. -/
theorem append_cons (h : Seg nodes a ps (some p)) (hp : nodes p = some ⟨item, next⟩)
    (h' : Seg nodes next qs c) : Seg nodes a (ps ++ (p, item) :: qs) c :=
  h.append (.cons hp h')

theorem split (h : Seg nodes a (ps ++ qs) c) : ∃ b, Seg nodes a ps b ∧ Seg nodes b qs c := by
  induction ps generalizing a with
  | nil => exact ⟨a, .nil a, h⟩
  | cons q ps ih =>
    cases h with
    | cons hq h =>
      obtain ⟨b, hps, hqs⟩ := ih h
      exact ⟨b, .cons hq hps, hqs⟩

/-- A segment at one of its nodes. -/
theorem split_cons (h : Seg nodes a (ps ++ (p, item) :: qs) c) : ∃ next,
    Seg nodes a ps (some p) ∧ nodes p = some ⟨item, next⟩ ∧ Seg nodes next qs c := by
  obtain ⟨b, hps, hqs⟩ := h.split
  cases hqs with
  | cons hp hqs => exact ⟨_, hps, hp, hqs⟩

/-- A store to another node. -/
theorem update (h : Seg nodes a ps b) (hp : p ∉ ps.map Prod.fst) (n : Option (Node T)) :
    Seg (Function.update nodes p n) a ps b := by
  induction h with
  | nil => exact .nil _
  | cons hq _ ih =>
    rw [List.map_cons, List.mem_cons, not_or] at hp
    exact .cons ((update_of_ne (Ne.symm hp.1) _ _).trans hq) (ih hp.2)

end Seg

end Puppy.Lib
