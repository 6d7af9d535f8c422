/-
Circular lists in ascending order.

A list that lives in memory is a function from each cell to the next one.
It is in ascending order if every cell leads to the next higher one, and
circular if the highest leads back to the lowest. Which cells belong to the
list is a finite set, and the links are determined by it; so a list is
described here by its set of cells, and what is said about its order is
said about the order of the cells.

# Going round

Whoever follows the links from one cell comes to every other one
(`Circle.reaches`). A loop that walks along the list until it finds what it
looks for therefore ends if there is something to be found.
-/
import Mathlib.Data.Finset.Max
import Mathlib.Tactic

namespace Puppy.Lib

open Finset Function


variable {α : Type} [LinearOrder α] {next : α → α} {S : Finset α} {a b x : α}

/-- After `a` comes `b`: the next higher cell, or the lowest one if there is
none. -/
def Follows (S : Finset α) (a b : α) : Prop :=
  b ∈ S ∧ ((a < b ∧ ∀ x ∈ S, a < x → b ≤ x) ∨ (b ≤ a ∧ ∀ x ∈ S, b ≤ x ∧ x ≤ a))

/-- The links of a circular list in ascending order. -/
def Circle (next : α → α) (S : Finset α) : Prop :=
  ∀ a ∈ S, Follows S a (next a)

/-- The place of `b` is after `a`. -/
def Between (next : α → α) (a b : α) : Prop :=
  (a < b ∧ b < next a) ∨ (next a ≤ a ∧ (a < b ∨ b < next a))

instance : Decidable (Between next a b) := by
  unfold Between
  infer_instance

namespace Circle

theorem next_mem (h : Circle next S) (ha : a ∈ S) : next a ∈ S := (h a ha).1

theorem singleton (h : next a = a) : Circle next {a} := by
  intro x hx
  rw [mem_singleton] at hx
  rw [hx, h]
  refine ⟨mem_singleton_self a, .inr ⟨le_refl a, ?_⟩⟩
  intro y hy
  rw [mem_singleton] at hy
  rw [hy]
  exact ⟨le_refl a, le_refl a⟩

section

variable (h : Circle next S)
include h

/-- A link that does not lead upwards leads from the highest cell to the
lowest. -/
theorem wraps (ha : a ∈ S) (hle : next a ≤ a) : ∀ x ∈ S, next a ≤ x ∧ x ≤ a := by
  rcases (h a ha).2 with ⟨hlt, _⟩ | ⟨_, hall⟩
  · exact absurd hlt (not_lt.2 hle)
  · exact hall

/-- A link that leads upwards leaves nothing out. -/
theorem climbs (ha : a ∈ S) (hlt : a < next a) : ∀ x ∈ S, a < x → next a ≤ x := by
  rcases (h a ha).2 with ⟨_, hall⟩ | ⟨hle, _⟩
  · exact hall
  · exact absurd hlt (not_lt.2 hle)

-- ==== going round

/-- From a cell to any higher one. -/
theorem up (hb : b ∈ S) : ∀ (n : Nat) {a : α}, a ∈ S → a ≤ b → (S.filter (a < ·)).card ≤ n →
      ∃ k, next^[k] a = b := by
  intro n
  induction n with
  | zero =>
    intro a _ hab hcard
    rcases hab.lt_or_eq with hlt | heq
    · have hmem : b ∈ S.filter (a < ·) := mem_filter.2 ⟨hb, hlt⟩
      rw [card_eq_zero.1 (Nat.le_zero.1 hcard)] at hmem
      exact absurd hmem (notMem_empty b)
    · exact ⟨0, heq⟩
  | succ n ih =>
    intro a ha hab hcard
    rcases hab.lt_or_eq with hlt | heq
    · have hup : a < next a := by
        by_contra hle
        exact absurd (h.wraps ha (not_lt.1 hle) b hb).2 (not_le.2 hlt)
      -- the cells above the next one are fewer
      have hfewer : S.filter (next a < ·) ⊂ S.filter (a < ·) := by
        refine ssubset_iff_of_subset (fun x hx => ?_) |>.2
          ⟨next a, mem_filter.2 ⟨h.next_mem ha, hup⟩, fun hx => ?_⟩
        · rw [mem_filter] at hx ⊢
          exact ⟨hx.1, hup.trans hx.2⟩
        · exact lt_irrefl _ (mem_filter.1 hx).2
      have hcard' := card_lt_card hfewer
      obtain ⟨k, hk⟩ := ih (h.next_mem ha) (h.climbs ha hup b hb hlt) (by omega)
      exact ⟨k + 1, hk⟩
    · exact ⟨0, heq⟩

/-- From a cell to any other one. -/
theorem reaches (ha : a ∈ S) (hb : b ∈ S) : ∃ k, next^[k] a = b := by
  -- up to the highest cell, from there to the lowest, and up again
  have hne : S.Nonempty := ⟨a, ha⟩
  have htop := S.max'_mem hne
  obtain ⟨i, hi⟩ := h.up htop _ ha (S.le_max' a ha) le_rfl
  have hwrap : next (S.max' hne) ≤ S.max' hne := S.le_max' _ (h.next_mem htop)
  obtain ⟨j, hj⟩ := h.up hb _ (h.next_mem htop) (h.wraps htop hwrap b hb).1 le_rfl
  refine ⟨j + (1 + i), ?_⟩
  rw [iterate_add_apply, iterate_add_apply, hi]
  exact hj

/-- Everything has a place. -/
theorem between_of_notMem (ha : a ∈ S) (hb : b ∉ S) : ∃ c ∈ S, Between next c b := by
  have hne : S.Nonempty := ⟨a, ha⟩
  have hother : ∀ c ∈ S, c ≠ b := fun c hc heq => hb (heq ▸ hc)
  by_cases hlow : (S.filter (· < b)).Nonempty
  · -- the highest of the lower cells
    have htop := mem_filter.1 ((S.filter (· < b)).max'_mem hlow)
    refine ⟨_, htop.1, ?_⟩
    rcases lt_or_ge ((S.filter (· < b)).max' hlow)
        (next ((S.filter (· < b)).max' hlow)) with hup | hwrap
    · refine .inl ⟨htop.2, ?_⟩
      rcases lt_or_ge b (next ((S.filter (· < b)).max' hlow)) with hlt | hle
      · exact hlt
      have hbelow := lt_of_le_of_ne hle (hother _ (h.next_mem htop.1))
      have hmax := (S.filter (· < b)).le_max' _ (mem_filter.2 ⟨h.next_mem htop.1, hbelow⟩)
      exact absurd hup (not_lt.2 hmax)
    · exact .inr ⟨hwrap, .inl htop.2⟩
  · -- nothing is lower
    have htop := S.max'_mem hne
    have hwrap : next (S.max' hne) ≤ S.max' hne := S.le_max' _ (h.next_mem htop)
    refine ⟨_, htop, .inr ⟨hwrap, .inr ?_⟩⟩
    by_contra hle
    have hlt := lt_of_le_of_ne (not_lt.1 hle) (hother _ (h.next_mem htop))
    exact hlow ⟨_, mem_filter.2 ⟨h.next_mem htop, hlt⟩⟩

-- ==== cells that come and go

/-- A new cell takes its place. -/
theorem insert (ha : a ∈ S) (hplace : Between next a b) :
    Circle (update (update next b (next a)) a b) (insert b S) := by
  have hnext := h.next_mem ha
  intro x hx
  rw [mem_insert] at hx
  by_cases hxa : x = a
  · rw [hxa, update_self]
    refine ⟨mem_insert_self b S, ?_⟩
    rcases hplace with ⟨hlt, hlt'⟩ | ⟨hwrap, hlt | hlt⟩
    · refine .inl ⟨hlt, fun y hy hay => ?_⟩
      rcases mem_insert.1 hy with hy | hy
      · exact hy.ge
      · exact hlt'.le.trans (h.climbs ha (hlt.trans hlt') y hy hay)
    · refine .inl ⟨hlt, fun y hy hay => ?_⟩
      rcases mem_insert.1 hy with hy | hy
      · exact hy.ge
      · exact absurd (h.wraps ha hwrap y hy).2 (not_le.2 hay)
    refine .inr ⟨(hlt.trans_le hwrap).le, fun y hy => ?_⟩
    rcases mem_insert.1 hy with hy | hy
    · rw [hy]
      exact ⟨le_refl b, (hlt.trans_le hwrap).le⟩
    · exact ⟨hlt.le.trans (h.wraps ha hwrap y hy).1, (h.wraps ha hwrap y hy).2⟩
  rw [update_of_ne hxa]
  by_cases hxb : x = b
  · rw [hxb, update_self]
    refine ⟨mem_insert_of_mem hnext, ?_⟩
    rcases hplace with ⟨hlt, hlt'⟩ | ⟨hwrap, hlt | hlt⟩
    · refine .inl ⟨hlt', fun y hy hby => ?_⟩
      rcases mem_insert.1 hy with hy | hy
      · exact absurd hby (not_lt.2 hy.le)
      · exact h.climbs ha (hlt.trans hlt') y hy (hlt.trans hby)
    · refine .inr ⟨(hwrap.trans_lt hlt).le, fun y hy => ?_⟩
      rcases mem_insert.1 hy with hy | hy
      · rw [hy]
        exact ⟨(hwrap.trans_lt hlt).le, le_refl b⟩
      · exact ⟨(h.wraps ha hwrap y hy).1, (h.wraps ha hwrap y hy).2.trans hlt.le⟩
    · refine .inl ⟨hlt, fun y hy hby => ?_⟩
      rcases mem_insert.1 hy with hy | hy
      · exact absurd hby (not_lt.2 hy.le)
      · exact (h.wraps ha hwrap y hy).1
  rw [update_of_ne hxb]
  have hxS : x ∈ S := hx.resolve_left hxb
  refine ⟨mem_insert_of_mem (h.next_mem hxS), ?_⟩
  -- nothing but the link of `a` passes over `b`
  rcases (h x hxS).2 with ⟨hup, hall⟩ | ⟨hwrap', hall⟩
  · refine .inl ⟨hup, fun y hy hxy => ?_⟩
    rcases mem_insert.1 hy with hy | hy
    · rw [hy] at hxy ⊢
      by_contra hlt
      rw [not_le] at hlt
      rcases lt_or_gt_of_ne hxa with hxa' | hxa'
      · have hle := hall a ha hxa'
        rcases hplace with ⟨hab', _⟩ | ⟨hwrap, hab' | hba⟩
        · exact absurd (hle.trans_lt hab') (not_lt.2 hlt.le)
        · exact absurd (hle.trans_lt hab') (not_lt.2 hlt.le)
        · exact absurd (h.wraps ha hwrap x hxS).1 (not_le.2 (hxy.trans hba))
      · rcases hplace with ⟨hab', hba⟩ | ⟨hwrap, _⟩
        · exact absurd (h.climbs ha (hab'.trans hba) x hxS hxa') (not_le.2 (hxy.trans hba))
        · exact absurd (h.wraps ha hwrap x hxS).2 (not_le.2 hxa')
    · exact hall y hy hxy
  · refine .inr ⟨hwrap', fun y hy => ?_⟩
    rcases mem_insert.1 hy with hy | hy
    · rw [hy]
      rcases hplace with ⟨hab', hba⟩ | ⟨hwrap, _⟩
      · exact ⟨(hall a ha).1.trans hab'.le, hba.le.trans (hall _ hnext).2⟩
      · exact absurd (le_antisymm (h.wraps ha hwrap x hxS).2 (hall a ha).2) hxa
    · exact hall y hy

theorem not_lt_of_next_eq (ha : a ∈ S) (hb : b ∈ S) (heq : next a = next b) : ¬ a < b := by
  intro hlt
  rcases lt_or_ge a (next a) with hup | hwrap
  · have hle : next b ≤ b := heq ▸ h.climbs ha hup b hb hlt
    have hlow := (h.wraps hb hle a ha).1
    rw [← heq] at hlow
    exact absurd hup (not_lt.2 hlow)
  · exact absurd (h.wraps ha hwrap b hb).2 (not_le.2 hlt)

/-- No two links lead to the same cell. -/
theorem inj (ha : a ∈ S) (hb : b ∈ S) (heq : next a = next b) : a = b :=
  le_antisymm (not_lt.1 (h.not_lt_of_next_eq hb ha heq.symm))
    (not_lt.1 (h.not_lt_of_next_eq ha hb heq))

/-- A cell that leads to itself is the only one. -/
theorem eq_of_next_self (ha : a ∈ S) (hself : next a = a) (hb : b ∈ S) : b = a := by
  have hall := h.wraps ha hself.le b hb
  rw [hself] at hall
  exact le_antisymm hall.2 hall.1

/-- The cell after `a` is passed over. -/
theorem erase (ha : a ∈ S) (hne : next a ≠ a) :
    Circle (update next a (next (next a))) (S.erase (next a)) := by
  have hn := h.next_mem ha
  intro x hx
  rw [mem_erase] at hx
  by_cases hxa : x = a
  · rw [hxa, update_self]
    have hself : next (next a) ≠ next a := fun heq => hne (h.eq_of_next_self hn heq ha).symm
    refine ⟨mem_erase.2 ⟨hself, h.next_mem hn⟩, ?_⟩
    rcases lt_or_ge a (next a) with hup | hwrap
    · rcases lt_or_ge (next a) (next (next a)) with hup' | hwrap'
      · refine .inl ⟨hup.trans hup', fun y hy hay => ?_⟩
        rw [mem_erase] at hy
        exact h.climbs hn hup' y hy.2 (lt_of_le_of_ne (h.climbs ha hup y hy.2 hay) (Ne.symm hy.1))
      -- the highest cell goes, and `a` takes its place
      refine .inr ⟨(h.wraps hn hwrap' a ha).1, fun y hy => ?_⟩
      rw [mem_erase] at hy
      refine ⟨(h.wraps hn hwrap' y hy.2).1, ?_⟩
      by_contra hlt
      exact hy.1 (le_antisymm (h.wraps hn hwrap' y hy.2).2 (h.climbs ha hup y hy.2 (not_le.1 hlt)))
    · -- the lowest cell goes
      have hlt : next a < a := lt_of_le_of_ne hwrap hne
      have hup : next a < next (next a) := by
        by_contra hle
        exact absurd (h.wraps hn (not_lt.1 hle) a ha).2 (not_le.2 hlt)
      refine .inr ⟨h.climbs hn hup a ha hlt, fun y hy => ?_⟩
      rw [mem_erase] at hy
      refine ⟨h.climbs hn hup y hy.2 ?_, (h.wraps ha hwrap y hy.2).2⟩
      exact lt_of_le_of_ne (h.wraps ha hwrap y hy.2).1 (Ne.symm hy.1)
  · rw [update_of_ne hxa]
    have hother : next x ≠ next a := fun heq => hxa (h.inj hx.2 ha heq)
    refine ⟨mem_erase.2 ⟨hother, h.next_mem hx.2⟩, ?_⟩
    rcases (h x hx.2).2 with ⟨hup, hall⟩ | ⟨hwrap, hall⟩
    · exact .inl ⟨hup, fun y hy => hall y (mem_of_mem_erase hy)⟩
    · exact .inr ⟨hwrap, fun y hy => hall y (mem_of_mem_erase hy)⟩

end

end Circle

end Puppy.Lib
