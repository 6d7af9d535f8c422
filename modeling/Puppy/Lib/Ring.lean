/-
Ring buffers.

A fixed number of cells, a position to read from, one to write to, and the
number of cells that are free. Positions move by one and start over at the
end. What the buffer holds is what a walk from the read position meets
(`contents`), and the two operations are those of a queue on it: one more
at the end (`tryPut_some`), one less at the front (`tryGet_some`).
-/
import Mathlib.Tactic

namespace Puppy.Lib

open Function List

structure RingBuffer (α : Type) where
  cells : Nat → α
  readPointer : Nat := 0
  writePointer : Nat := 0
  total : Nat
  free : Nat

namespace RingBuffer

variable {α : Type} {r r' : RingBuffer α} {a : α}

/-- A buffer with nothing in it. -/
def empty (total : Nat) (cells : Nat → α) : RingBuffer α :=
  { cells := cells, total := total, free := total }

/-- One position further on. -/
def advance (r : RingBuffer α) (i : Nat) : Nat := if i + 1 = r.total then 0 else i + 1

/-- Put something at the end, if there is room. -/
def tryPut (r : RingBuffer α) (a : α) : Option (RingBuffer α) :=
  if r.free = 0 then none
  else some { r with
    cells := update r.cells r.writePointer a
    writePointer := r.advance r.writePointer
    free := r.free - 1 }

/-- Take what is at the front, if there is something. -/
def tryGet (r : RingBuffer α) : Option (α × RingBuffer α) :=
  if r.free = r.total then none
  else some (r.cells r.readPointer, { r with
    readPointer := r.advance r.readPointer
    free := r.free + 1 })

/-- The cell that is `k` places behind the front. -/
def place (r : RingBuffer α) (k : Nat) : Nat := (r.readPointer + k) % r.total

/-- What the buffer holds, from the front to the end. -/
def contents (r : RingBuffer α) : List α :=
  (range (r.total - r.free)).map fun k => r.cells (r.place k)

/-- The positions agree with the number of free cells. -/
structure Sound (r : RingBuffer α) : Prop where
  free_le : r.free ≤ r.total
  read_lt : r.readPointer < r.total
  write_eq : r.writePointer = r.place (r.total - r.free)

theorem sound_empty {total : Nat} {cells : Nat → α} (h : 0 < total) :
    Sound (empty total cells) := by
  refine ⟨le_rfl, h, ?_⟩
  show 0 = (0 + (total - total)) % total
  rw [Nat.sub_self, add_zero, Nat.zero_mod]

@[simp]
theorem contents_length (r : RingBuffer α) : r.contents.length = r.total - r.free := by
  unfold contents
  rw [length_map, length_range]

theorem contents_eq_nil (h : r.free = r.total) : r.contents = [] := by
  rw [← length_eq_zero_iff, contents_length, h, Nat.sub_self]

/-- A step forward is a step forward on the circle. -/
theorem advance_eq {i : Nat} (hi : i < r.total) : r.advance i = (i + 1) % r.total := by
  unfold advance
  split
  next h => rw [h, Nat.mod_self]
  next h => rw [Nat.mod_eq_of_lt (by omega)]

theorem place_lt (hs : Sound r) (k : Nat) : r.place k < r.total :=
  Nat.mod_lt _ (lt_of_le_of_lt zero_le hs.read_lt)

theorem advance_place (hs : Sound r) (k : Nat) : r.advance (r.place k) = r.place (k + 1) := by
  rw [advance_eq (place_lt hs k)]
  unfold place
  rw [Nat.mod_add_mod, add_assoc]

/-- Two places of one walk round the circle are different. -/
theorem place_ne {j k : Nat} (hjk : j < k) (hk : k < r.total) : r.place j ≠ r.place k := by
  intro h
  have hturn := Nat.sub_mod_eq_zero_of_mod_eq h.symm
  rw [Nat.add_sub_add_left, Nat.mod_eq_of_lt (by omega)] at hturn
  omega

/-- The queue gets one longer. -/
theorem tryPut_some (hs : Sound r) (h : r.tryPut a = some r') :
    Sound r' ∧ r'.contents = r.contents ++ [a] ∧ r'.total = r.total ∧ r'.free + 1 = r.free := by
  obtain ⟨hfree, h⟩ := Option.ite_none_left_eq_some.1 h
  injection h with h
  have hle := hs.free_le
  have hread := hs.read_lt
  have hcount : r.total - (r.free - 1) = r.total - r.free + 1 := by omega
  rw [← h]
  refine ⟨⟨?_, hread, ?_⟩, ?_, rfl, ?_⟩
  · show r.free - 1 ≤ r.total
    omega
  · show r.advance r.writePointer = r.place (r.total - (r.free - 1))
    rw [hcount, ← advance_place hs, hs.write_eq]
  · show (range (r.total - (r.free - 1))).map (fun k =>
      update r.cells r.writePointer a (r.place k)) = _
    rw [hcount, range_succ, map_append, map_singleton, hs.write_eq, update_self]
    congr 1
    apply map_congr_left
    intro k hk
    rw [mem_range] at hk
    rw [update_of_ne (place_ne hk (by omega))]
  · show r.free - 1 + 1 = r.free
    omega

/-- The queue gets one shorter. -/
theorem tryGet_some (hs : Sound r) (h : r.tryGet = some (a, r')) :
    Sound r' ∧ r.contents = a :: r'.contents ∧ r'.total = r.total ∧ r'.free = r.free + 1 := by
  obtain ⟨hfree, h⟩ := Option.ite_none_left_eq_some.1 h
  injection h with h
  injection h with ha hr
  have hle := hs.free_le
  have hread := hs.read_lt
  have hcount : r.total - r.free = r.total - (r.free + 1) + 1 := by omega
  have hnext : r.advance r.readPointer = (r.readPointer + 1) % r.total := advance_eq hread
  have hplace : ∀ k, (r.advance r.readPointer + k) % r.total = r.place (k + 1) := by
    intro k
    rw [hnext, Nat.mod_add_mod, add_assoc, add_comm 1 k]
    rfl
  rw [← hr, ← ha]
  refine ⟨⟨?_, ?_, ?_⟩, ?_, rfl, rfl⟩
  · show r.free + 1 ≤ r.total
    omega
  · rw [hnext]
    exact Nat.mod_lt _ (by omega)
  · show r.writePointer = (r.advance r.readPointer + (r.total - (r.free + 1))) % r.total
    rw [hplace, hs.write_eq, hcount]
  unfold contents
  show _ = r.cells r.readPointer :: (range (r.total - (r.free + 1))).map (fun k =>
      r.cells ((r.advance r.readPointer + k) % r.total))
  rw [hcount, range_succ_eq_map, map_cons, map_map]
  congr 1
  · unfold place
    rw [add_zero, Nat.mod_eq_of_lt hread]
  apply map_congr_left
  intro k _
  rw [hplace]
  rfl

end RingBuffer

end Puppy.Lib
