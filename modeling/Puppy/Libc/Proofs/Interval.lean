/-
The interval list keeps its layout, and which of its searches can be
trusted.

# Separation

A sorted, disjoint list of intervals that are not turned around is the
same thing as a list in which each interval ends before every later one
starts. `Separated` is that second form: it is what the list walks need,
and `layout_iff_separated` trades one for the other.

# The gap test

`findGap` compares the 32-bit sum of the size and an interval's end with
the start of the next interval. If the sum does not wrap the test is
right. If it wraps, the sum is below the interval's own end, so the test
always succeeds and the range handed out is turned around
(`findGap_wraps`). The two facts together decide exactly which requests
are answered soundly (`findFree_sound_iff_safeRequest`).
-/
import Puppy.Libc.Interval

namespace Puppy.Libc

open Puppy.Libc.Interval List

/-- Two intervals that are not turned around are disjoint when one ends
before the other starts, and only then. -/
theorem Interval.disjoint_iff {i j : Interval} (hi : i.frm ≤ i.upto) (hj : j.frm ≤ j.upto) :
    i.Disjoint j ↔ i.upto < j.frm ∨ j.upto < i.frm := by
  constructor
  · intro h
    by_contra hmeet
    apply h (max i.frm j.frm)
    simp only [contains_iff]
    omega
  · intro h addr
    simp only [contains_iff]
    omega

theorem Interval.Disjoint.symm {i j : Interval} (h : i.Disjoint j) : j.Disjoint i :=
  fun addr hboth => h addr ⟨hboth.2, hboth.1⟩

namespace IntervalList

variable {α : Type} [IsInterval α] {l l' rest : List α} {max size addr : Nat}
  {i i0 i1 j r : α} {range : Interval}

-- ==== separation

/-- Every interval ends before each later one starts. -/
def Separated (l : List α) : Prop :=
  l.Pairwise fun i j => (ival i).upto < (ival j).frm

theorem separated_of_sorted_disjoint (hord : ∀ i ∈ l, (ival i).frm ≤ (ival i).upto) (hs : Sorted l)
    (hd : Disjoint l) : Separated l := by
  refine List.Pairwise.imp_of_mem ?_ (hs.and hd)
  rintro i j hi hj ⟨hle, hdis⟩
  have hi := hord i hi
  have hj := hord j hj
  rcases (disjoint_iff hi hj).1 hdis with h | h <;> omega

theorem Separated.sorted (hord : ∀ i ∈ l, (ival i).frm ≤ (ival i).upto) (h : Separated l) :
    Sorted l := by
  refine List.Pairwise.imp_of_mem ?_ h
  intro i j hi _ hlt
  have := hord i hi
  omega

theorem Separated.disjoint (h : Separated l) : Disjoint l := by
  refine List.Pairwise.imp ?_ h
  intro i j hlt addr
  simp only [contains_iff]
  omega

/-- Two intervals of a disjoint list do not meet. -/
theorem Disjoint.of_mem (h : Disjoint l) (hi : i ∈ l) (hj : j ∈ l)
    (hne : i ≠ j) : (ival i).Disjoint (ival j) :=
  haveI : Std.Symm fun i j : α => (ival i).Disjoint (ival j) := ⟨fun _ _ h => h.symm⟩
  List.Pairwise.forall h hi hj hne

theorem layout_iff_separated : Layout max l ↔
      (∀ i ∈ l, (ival i).frm ≤ (ival i).upto ∧ (ival i).upto ≤ max) ∧ Separated l := by
  constructor
  · intro h
    exact ⟨fun i hi => ⟨h.ordered i hi, h.bounded i hi⟩,
      separated_of_sorted_disjoint h.ordered h.sorted h.disjoint⟩
  · rintro ⟨hb, hs⟩
    have hord : ∀ i ∈ l, (ival i).frm ≤ (ival i).upto := fun i hi => (hb i hi).1
    exact ⟨hord, fun i hi => (hb i hi).2, hs.sorted hord, hs.disjoint⟩

-- ==== lookup

/-- A successful lookup names an interval of the list that holds the
address, whatever the shape of the list. -/
theorem contains_some (h : contains addr l = some i) : i ∈ l ∧ (ival i).contains addr = true := by
  induction l with
  | nil => simp [contains] at h
  | cons j rest ih =>
    unfold contains at h
    split_ifs at h with _ hj
    · obtain rfl := Option.some.inj h
      exact ⟨mem_cons_self, hj⟩
    · obtain ⟨hmem, hc⟩ := ih h
      exact ⟨mem_cons_of_mem _ hmem, hc⟩

/-- In a sorted list the early exit skips nothing. -/
theorem contains_none_iff (hs : Sorted l) :
    contains addr l = none ↔ ∀ i ∈ l, ¬ (ival i).contains addr = true := by
  induction l with
  | nil => simp [contains]
  | cons j rest ih =>
    obtain ⟨hj, hrest⟩ := pairwise_cons.1 hs
    unfold contains
    split_ifs with hlt hc
    · simp only [mem_cons, forall_eq_or_imp, contains_iff, true_iff]
      refine ⟨by omega, fun i hi => ?_⟩
      have := hj i hi
      omega
    · simp only [false_iff]
      exact fun h => h j mem_cons_self hc
    · rw [ih hrest, forall_mem_cons]
      exact (and_iff_right hc).symm

/-- In a sorted list, lookup succeeds exactly on the covered addresses. -/
theorem contains_isSome_iff (hs : Sorted l) : (contains addr l).isSome = true ↔
      ∃ i ∈ l, (ival i).contains addr = true := by
  rw [← Option.ne_none_iff_isSome, Ne, contains_none_iff hs]
  push Not
  rfl

-- ==== insertion and removal

theorem insertWalk_perm (i : α) (l : List α) : (insertWalk i l).Perm (i :: l) := by
  induction l with
  | nil => rfl
  | cons j rest ih =>
    unfold insertWalk
    split
    · exact (ih.cons j).trans (List.Perm.swap i j rest)
    · rfl

/-- For one interval or none the special cases of `add` do what its loop
would do. -/
theorem add_eq_insertWalk (i : α) (l : List α) : add i l = insertWalk i l := by
  match l with
  | [] => rfl
  | [other] => rfl
  | j :: j' :: rest => rfl

/-- `add` keeps what was there and adds the new interval, in some order. -/
theorem add_perm (i : α) (l : List α) : (add i l).Perm (i :: l) := by
  rw [add_eq_insertWalk]
  exact insertWalk_perm i l

@[simp]
theorem mem_add : j ∈ add i l ↔ j = i ∨ j ∈ l := by
  rw [(add_perm i l).mem_iff, mem_cons]

/-- Adding an interval that meets none of the list keeps it separated. -/
theorem Separated.add (h : Separated l) (hi : (ival i).frm ≤ (ival i).upto)
    (hord : ∀ j ∈ l, (ival j).frm ≤ (ival j).upto)
    (hfree : ∀ j ∈ l, (ival i).Disjoint (ival j)) :
    Separated (IntervalList.add i l) := by
  rw [add_eq_insertWalk]
  induction l with
  | nil => exact pairwise_singleton _ _
  | cons j rest ih =>
    obtain ⟨hj, hrest⟩ := pairwise_cons.1 h
    have hjo := hord j mem_cons_self
    have hdis := (disjoint_iff hi hjo).1 (hfree j mem_cons_self)
    unfold insertWalk
    split
    next hb =>
      rw [thisBefore_iff] at hb
      refine pairwise_cons.2 ⟨fun k hk => ?_, ih hrest ?_ ?_⟩
      · rcases mem_cons.1 ((insertWalk_perm i rest).mem_iff.1 hk) with rfl | hk
        · omega
        · exact hj k hk
      · exact fun k hk => hord k (mem_cons_of_mem _ hk)
      · exact fun k hk => hfree k (mem_cons_of_mem _ hk)
    next hb =>
    rw [thisBefore_iff] at hb
    refine pairwise_cons.2 ⟨fun k hk => ?_, h⟩
    -- the walk stopped here, so the new interval ends before `j` starts
    have hlt : (ival i).upto < (ival j).frm := by omega
    rcases mem_cons.1 hk with rfl | hk
    · exact hlt
    · have := hj k hk
      omega

/-- A successful `del` takes one interval with the given bounds out. -/
theorem del_some (h : del i l = some l') :
    ∃ j, ival j = ival i ∧ ∃ l₁ l₂, l = l₁ ++ j :: l₂ ∧ l' = l₁ ++ l₂ ∧
      ∀ k ∈ l₁, ival k ≠ ival i := by
  unfold del at h
  split_ifs at h with hany
  obtain rfl := Option.some.inj h
  obtain ⟨k, hk, hki⟩ := any_eq_true.1 hany
  obtain ⟨j, l₁, l₂, hpre, hj, hl, herase⟩ :=
    exists_of_eraseP (p := fun j => ival j == ival i) hk hki
  refine ⟨j, by simpa using hj, l₁, l₂, hl, herase, fun k hk => ?_⟩
  simpa using hpre k hk

theorem del_sublist (h : del i l = some l') : l'.Sublist l := by
  obtain ⟨j, _, l₁, l₂, rfl, rfl, _⟩ := del_some h
  exact (sublist_cons_self j l₂).append_left l₁

-- ==== runs

/-- The lists that calls of `add`, each with an interval of its own, and of
`del` make, and what has been added and not deleted since. -/
inductive Run : List α → (α → Prop) → Prop
  | nil : Run [] fun _ => False
  | added {l : List α} {present : α → Prop} (i : α) : Run l present →
      (ival i).frm ≤ (ival i).upto → (∀ j, present j → (ival i).Disjoint (ival j)) →
      Run (add i l) fun j => j = i ∨ present j
  | deleted {l : List α} {present : α → Prop} (i : α) : Run l present →
      Run ((del i l).getD l) fun j => present j ∧ ival j ≠ ival i

/-- No other interval of the list has the bounds of the one deleted. -/
theorem mem_del (h : Separated l) (hord : ∀ j ∈ l, (ival j).frm ≤ (ival j).upto) :
    j ∈ (del i l).getD l ↔ j ∈ l ∧ ival j ≠ ival i := by
  cases hdel : del i l with
  | none =>
    simp only [del, ite_eq_right_iff, reduceCtorEq, imp_false, any_eq_true, beq_iff_eq] at hdel
    push Not at hdel
    exact ⟨fun hj => ⟨hj, hdel j hj⟩, And.left⟩
  | some l' =>
    obtain ⟨k, hk, l₁, l₂, rfl, rfl, hbefore⟩ := del_some hdel
    have hafter : ∀ x ∈ l₂, ival x ≠ ival i := by
      intro x hx heq
      have hlt := (pairwise_cons.1 (pairwise_append.1 h).2.1).1 x hx
      have hle := hord k (by simp)
      rw [hk] at hlt hle
      rw [heq] at hlt
      omega
    simp only [Option.getD_some, mem_append, mem_cons]
    constructor
    · rintro (hj | hj)
      · exact ⟨.inl hj, hbefore j hj⟩
      · exact ⟨.inr (.inr hj), hafter j hj⟩
    rintro ⟨hj | rfl | hj, hne⟩
    · exact .inl hj
    · exact absurd hk hne
    · exact .inr hj

variable {present : α → Prop}

theorem Run.separated (h : Run l present) : Separated l ∧
    ∀ j, (j ∈ l ↔ present j) ∧ (present j → (ival j).frm ≤ (ival j).upto) := by
  induction h with
  | nil => exact ⟨.nil, by simp⟩
  | added i _ hi hfree ih =>
    obtain ⟨hsep, hmem⟩ := ih
    constructor
    · exact hsep.add hi (fun j hj => (hmem j).2 ((hmem j).1.1 hj))
        fun j hj => hfree j ((hmem j).1.1 hj)
    · intro j
      rw [mem_add, (hmem j).1]
      exact ⟨Iff.rfl, fun hj => hj.elim (fun h => h ▸ hi) (hmem j).2⟩
  | @deleted l _ i _ ih =>
    obtain ⟨hsep, hmem⟩ := ih
    constructor
    · cases hdel : del i l with
      | none => exact hsep
      | some l' => exact List.Pairwise.sublist (del_sublist hdel) hsep
    · intro j
      rw [mem_del hsep fun j hj => (hmem j).2 ((hmem j).1.1 hj), (hmem j).1]
      exact ⟨Iff.rfl, fun hj => (hmem j).2 hj.1⟩

/-- After any calls the list is strictly sorted and disjoint, it is what has
been added and not deleted, and a lookup finds what holds the address. -/
theorem Run.holds (h : Run l present) : l.Pairwise (fun i j => (ival i).frm < (ival j).frm) ∧
    Disjoint l ∧ (∀ j, j ∈ l ↔ present j) ∧ ∀ addr,
      (∀ i, contains addr l = some i ↔ present i ∧ (ival i).contains addr = true) ∧
      (contains addr l = none ↔ ∀ i, present i → ¬ (ival i).contains addr = true) := by
  obtain ⟨hsep, hmem⟩ := h.separated
  have hord : ∀ j ∈ l, (ival j).frm ≤ (ival j).upto := fun j hj => (hmem j).2 ((hmem j).1.1 hj)
  have hnone : ∀ {addr}, contains addr l = none ↔
      ∀ i, present i → ¬ (ival i).contains addr = true := by
    simp only [contains_none_iff (hsep.sorted hord), (hmem _).1, implies_true]
  refine ⟨?_, hsep.disjoint, fun j => (hmem j).1, fun addr => ⟨fun i => ⟨?_, ?_⟩, hnone⟩⟩
  · exact List.Pairwise.imp_of_mem (fun hi _ hlt => (hord _ hi).trans_lt hlt) hsep
  · intro hfound
    exact ⟨(hmem i).1.1 (contains_some hfound).1, (contains_some hfound).2⟩
  rintro ⟨hi, hin⟩
  cases hfound : contains addr l with
  | none => exact absurd hin (hnone.1 hfound i hi)
  | some k =>
    have hk := contains_some hfound
    by_contra hne
    exact hsep.disjoint.of_mem hk.1 ((hmem i).1.2 hi) (fun h => hne (h ▸ rfl)) addr ⟨hk.2, hin⟩

-- ==== free ranges

theorem hasGap_cons_cons : HasGap size (i0 :: i1 :: rest) ↔
      (ival i0).upto + size < (ival i1).frm ∨ HasGap size (i1 :: rest) := by
  constructor
  · rintro ⟨a, b, hin, hlt⟩
    rcases infix_cons_iff.1 hin with hpre | htail
    · rw [cons_prefix_cons, cons_prefix_cons] at hpre
      obtain ⟨rfl, rfl, _⟩ := hpre
      exact .inl hlt
    · exact .inr ⟨a, b, htail, hlt⟩
  · rintro (hlt | ⟨a, b, hin, hlt⟩)
    · exact ⟨i0, i1, ⟨[], rest, rfl⟩, hlt⟩
    · exact ⟨a, b, infix_cons hin, hlt⟩

theorem not_hasGap_singleton : ¬ HasGap size [i] := by
  rintro ⟨a, b, hin, _⟩
  have := hin.length_le
  simp at this

theorem noWrap_cons_cons : NoWrap size (i0 :: i1 :: rest) ↔
      (ival i0).upto + size < 0x100000000 ∧ NoWrap size (i1 :: rest) := by
  unfold NoWrap
  rw [dropLast_cons_cons, forall_mem_cons]

/-- A gap that really has room lies below the top of the address space,
so no interval in front of it makes the test wrap. -/
theorem HasGap.head_lt (hmax : max < 0x100000000) (hl : Layout max (i :: l))
    (hgap : HasGap size (i :: l)) : (ival i).upto + size < 0x100000000 := by
  obtain ⟨a, b, hin, hlt⟩ := hgap
  have ha : a ∈ i :: l := hin.subset (by simp)
  have hb : b ∈ i :: l := hin.subset (by simp)
  have hbord := hl.ordered b hb
  have hbmax := hl.bounded b hb
  rcases mem_cons.1 ha with rfl | ha'
  · omega
  have hsep := (layout_iff_separated.1 hl).2
  have hia := (pairwise_cons.1 hsep).1 a ha'
  have haord := hl.ordered a ha
  omega

theorem Layout.sublist (h : Layout max l) (hsub : l'.Sublist l) : Layout max l' :=
  ⟨fun i hi => h.ordered i (hsub.subset hi),
    fun i hi => h.bounded i (hsub.subset hi),
    List.Pairwise.sublist hsub h.sorted, List.Pairwise.sublist hsub h.disjoint⟩

theorem Layout.tail (h : Layout max (i :: l)) : Layout max l :=
  h.sublist (sublist_cons_self i l)

theorem findGap_upto (h : findGap size l = some range) :
    ∃ i ∈ l, range.upto = add32 size (ival i).upto := by
  induction l with
  | nil => simp [findGap] at h
  | cons i0 l ih =>
    match l, ih, h with
    | [], _, h => simp [findGap] at h
    | i1 :: rest, ih, h =>
      unfold findGap at h
      split_ifs at h with hgap
      · obtain rfl := Option.some.inj h
        exact ⟨i0, mem_cons_self, rfl⟩
      · obtain ⟨i, hi, hupto⟩ := ih h
        exact ⟨i, mem_cons_of_mem i0 hi, hupto⟩

theorem findAfter_upto {i : Interval} (h : findAfter max size i = some range) :
    range.upto = add32 size i.upto := by
  unfold findAfter at h
  split_ifs at h
  obtain rfl := Option.some.inj h
  rfl

/-- What a search hands out ends one size after some interval of the list,
or after the start of the address space. -/
theorem findFree_upto (h : findFree max size l = some range) :
    range.upto + 1 = size ∨ ∃ i ∈ l, range.upto = add32 size (ival i).upto := by
  unfold findFree at h
  split_ifs at h with hzero
  have hfirst : size - 1 + 1 = size := Nat.sub_add_cancel (Nat.pos_of_ne_zero hzero)
  match l, h with
  | [], h =>
    obtain rfl := Option.some.inj h
    exact .inl hfirst
  | [i], h =>
    dsimp only at h
    split_ifs at h with hroom
    · obtain rfl := Option.some.inj h
      exact .inl hfirst
    · exact .inr ⟨i, mem_cons_self, findAfter_upto h⟩
  | i0 :: i1 :: rest, h =>
    dsimp only at h
    split at h
    next found hgap =>
      obtain rfl := Option.some.inj h
      exact .inr (findGap_upto hgap)
    · exact .inr ⟨_, mem_cons_of_mem i0 (getLast_mem _), findAfter_upto h⟩

/-- Where the test cannot wrap before it succeeds, what it hands out is
the start of a gap with room. -/
theorem findGap_some (hmax : max < 0x100000000) (hl : Layout max l)
    (hsafe : HasGap size l ∨ NoWrap size l) (h : findGap size l = some range) :
    ∃ i0 i1, [i0, i1] <:+: l ∧ (ival i0).upto + size < (ival i1).frm ∧
      range = ⟨(ival i0).upto + 1, size + (ival i0).upto⟩ := by
  induction l with
  | nil => simp [findGap] at h
  | cons i0 l ih =>
    match l with
    | [] => simp [findGap] at h
    | i1 :: rest =>
      have hfit : (ival i0).upto + size < 0x100000000 := by
        rcases hsafe with hgap | hno
        · exact hgap.head_lt hmax hl
        · exact (noWrap_cons_cons.1 hno).1
      unfold findGap at h
      rw [add32_of_lt (by omega)] at h
      split_ifs at h with hlt
      · have hi1 := hl.ordered i1 (by simp)
        have hi1max := hl.bounded i1 (by simp)
        rw [add32_of_lt (by omega)] at h
        refine ⟨i0, i1, ⟨[], rest, rfl⟩, by omega, ?_⟩
        exact (Option.some.inj h).symm
      have hsafe' : HasGap size (i1 :: rest) ∨ NoWrap size (i1 :: rest) := by
        rcases hsafe with hgap | hno
        · rcases hasGap_cons_cons.1 hgap with hroom | hgap'
          · omega
          · exact .inl hgap'
        · exact .inr (noWrap_cons_cons.1 hno).2
      obtain ⟨a, b, hin, hroom, hr⟩ := ih hl.tail hsafe' h
      exact ⟨a, b, infix_cons hin, hroom, hr⟩

/-- Without a gap with room, the first interval at which the sum wraps
passes the test, and the range handed out ends before it starts. -/
theorem findGap_wraps (hmax : max < 0x100000000) (hsize : size < 0x100000000)
    (hl : Layout max l) (hgap : ¬ HasGap size l) (hwrap : ¬ NoWrap size l) :
    ∃ range, findGap size l = some range ∧ range.upto < range.frm := by
  induction l with
  | nil => exact absurd (fun i hi => by simp at hi) hwrap
  | cons i0 l ih =>
    match l with
    | [] => exact absurd (fun i hi => by simp at hi) hwrap
    | i1 :: rest =>
      rw [hasGap_cons_cons, not_or] at hgap
      have hsep := (layout_iff_separated.1 hl).2
      have hlt : (ival i0).upto < (ival i1).frm := (pairwise_cons.1 hsep).1 i1 (by simp)
      have hi1 := hl.ordered i1 (by simp)
      have hi1max := hl.bounded i1 (by simp)
      unfold findGap
      by_cases hfit : (ival i0).upto + size < 0x100000000
      · rw [add32_of_lt (by omega), if_neg (by omega)]
        refine ih hl.tail hgap.2 ?_
        intro hno
        exact hwrap (noWrap_cons_cons.2 ⟨hfit, hno⟩)
      · rw [add32_of_ge hsize (by omega) (by omega), if_pos (by omega), add32_of_lt (by omega)]
        exact ⟨_, rfl, by simp only; omega⟩

theorem findAfter_some {i : Interval} (hmax : max < 0x100000000)
    (hsize : 0 < size) (hi : i.upto ≤ max)
    (h : findAfter max size i = some range) :
    size + i.upto ≤ max ∧ range = ⟨i.upto + 1, size + i.upto⟩ := by
  unfold findAfter at h
  rw [sub32_of_le hmax hi] at h
  split_ifs at h with hroom
  rw [add32_of_lt (by omega), add32_of_lt (by omega)] at h
  exact ⟨by omega, (Option.some.inj h).symm⟩

/-- The range after the last interval of a list is free. -/
theorem freeRange_after {last : α} (hl : Layout max l) (hsize : 0 < size)
    (hlast : ∀ i ∈ l, (ival i).upto ≤ (ival last).upto)
    (hroom : size + (ival last).upto ≤ max) :
    FreeRange max size l ⟨(ival last).upto + 1, size + (ival last).upto⟩ := by
  refine ⟨by simp only; omega, by simp only; omega, hroom, ?_⟩
  intro i hi
  refine (disjoint_iff ?_ (hl.ordered i hi)).2 (.inr ?_)
  · simp only
    omega
  · have := hlast i hi
    simp only
    omega

/-- In a layout no interval ends after the last one. -/
theorem Layout.upto_le_getLast (hl : Layout max l) (hne : l ≠ []) :
    ∀ i ∈ l, (ival i).upto ≤ (ival (l.getLast hne)).upto := by
  intro i hi
  rw [← dropLast_append_getLast hne] at hi
  rcases mem_append.1 hi with hi | hi
  · have hsep := (layout_iff_separated.1 hl).2
    unfold Separated at hsep
    rw [← dropLast_append_getLast hne, pairwise_append] at hsep
    have hlt := hsep.2.2 i hi _ (mem_singleton.2 rfl)
    have hord := hl.ordered _ (getLast_mem hne)
    omega
  · rw [mem_singleton.1 hi]

/-- The start of a gap with room is free: what comes before ends by the
gap's start, what comes after starts at its end or later. -/
theorem freeRange_gap (hl : Layout max l) (hsize : 0 < size)
    (hin : [i0, i1] <:+: l) (hroom : (ival i0).upto + size < (ival i1).frm) :
    FreeRange max size l ⟨(ival i0).upto + 1, size + (ival i0).upto⟩ := by
  have hi1 : i1 ∈ l := hin.subset (by simp)
  have hord1 := hl.ordered i1 hi1
  have hmax1 := hl.bounded i1 hi1
  refine ⟨by simp only; omega, by simp only; omega, by simp only; omega, ?_⟩
  intro i hi
  refine (disjoint_iff ?_ (hl.ordered i hi)).2 ?_
  · simp only
    omega
  obtain ⟨pre, post, rfl⟩ := hin
  have hsep := (layout_iff_separated.1 hl).2
  unfold Separated at hsep
  simp only [append_assoc, cons_append, nil_append, pairwise_append, pairwise_cons] at hsep
  obtain ⟨_, ⟨_, hpost, _⟩, hpre⟩ := hsep
  have hord0 := hl.ordered i0 (by simp)
  simp only [mem_append, mem_cons, not_mem_nil, or_false] at hi
  rcases hi with (hi | rfl | rfl) | hi
  · have := hpre i hi i0 (by simp)
    simp only
    omega
  · simp only
    omega
  · simp only
    omega
  · have := hpost i hi
    simp only
    omega

section

variable (hmax : max < 0x100000000)
include hmax

/-- A safe request gets a free range, if it gets one. -/
theorem findFree_freeRange (hl : Layout max l) (hsafe : SafeRequest max size l)
    (h : findFree max size l = some range) : FreeRange max size l range := by
  unfold findFree at h
  split_ifs at h with hzero
  have hsize : 0 < size := Nat.pos_of_ne_zero hzero
  match l with
  | [] =>
    obtain rfl := Option.some.inj h
    have hfits : size ≤ max + 1 := hsafe
    refine ⟨by simp, by simp only; omega, by simp only; omega, ?_⟩
    intro i hi
    simp at hi
  | [i] =>
    have hi := hl.ordered i (by simp)
    have himax := hl.bounded i (by simp)
    simp only at h
    split_ifs at h with hbefore
    · obtain rfl := Option.some.inj h
      refine ⟨by simp, by simp only; omega, by simp only; omega, ?_⟩
      intro j hj
      obtain rfl := mem_singleton.1 hj
      refine (disjoint_iff (by simp) hi).2 (.inl ?_)
      simp only
      omega
    · obtain ⟨hroom, rfl⟩ := findAfter_some hmax hsize himax h
      exact freeRange_after hl hsize (by simp) hroom
  | i0 :: i1 :: rest =>
    simp only at h
    split at h
    next found hfound =>
      obtain rfl := Option.some.inj h
      obtain ⟨a, b, hin, hroom, rfl⟩ := findGap_some hmax hl hsafe hfound
      exact freeRange_gap hl hsize hin hroom
    next hnone =>
    have hmem : (i1 :: rest).getLast (by simp) ∈ i0 :: i1 :: rest :=
      mem_cons_of_mem _ (getLast_mem _)
    obtain ⟨hroom, rfl⟩ := findAfter_some hmax hsize (hl.bounded _ hmem) h
    refine freeRange_after hl hsize ?_ hroom
    have hlast := hl.upto_le_getLast (by simp)
    rwa [getLast_cons (by simp)] at hlast

/-- A request that is not safe is answered, and never by a free range. -/
theorem findFree_unsafe (hsize : size < 0x100000000) (hl : Layout max l)
    (hexcess : ¬ SafeRequest max size l) :
    ∃ range, findFree max size l = some range ∧ ¬ FreeRange max size l range := by
  match l with
  | [] =>
    have hbig : ¬ size ≤ max + 1 := hexcess
    refine ⟨⟨0, size - 1⟩, ?_, fun hfree => ?_⟩
    · unfold findFree
      rw [if_neg (by omega)]
    · have := hfree.bounded
      simp only at this
      omega
  | [_] => exact absurd trivial hexcess
  | i0 :: i1 :: rest =>
    obtain ⟨hgap, hwrap⟩ := not_or.1 hexcess
    obtain ⟨range, hfound, hturned⟩ := findGap_wraps hmax hsize hl hgap hwrap
    refine ⟨range, ?_, fun hfree => ?_⟩
    · unfold findFree
      split_ifs with hzero
      · -- a request for nothing cannot wrap
        refine absurd (fun i hi => ?_) hwrap
        have := hl.bounded i (dropLast_subset _ hi)
        omega
      · simp only [hfound]
    · have := hfree.ordered
      omega

/-- The search is sound exactly on the safe requests. -/
theorem findFree_sound_iff_safeRequest (hsize : size < 0x100000000)
    (hl : Layout max l) : (∀ range, findFree max size l = some range →
      FreeRange max size l range) ↔ SafeRequest max size l := by
  constructor
  · intro hsound
    by_contra hexcess
    obtain ⟨range, hfound, hbad⟩ := findFree_unsafe hmax hsize hl hexcess
    exact hbad (hsound range hfound)
  · intro hsafe range hfound
    exact findFree_freeRange hmax hl hsafe hfound

-- ==== nothing is turned down in vain

/-- A gap with room is found, or one before it. -/
theorem findGap_of_hasGap (hl : Layout max l) (hgap : HasGap size l) :
    ∃ range, findGap size l = some range := by
  induction l with
  | nil =>
    obtain ⟨a, b, hin, _⟩ := hgap
    have := hin.length_le
    simp at this
  | cons i0 l ih =>
    match l with
    | [] => exact absurd hgap not_hasGap_singleton
    | i1 :: rest =>
      have hfit := hgap.head_lt hmax hl
      unfold findGap
      rw [add32_of_lt (by omega)]
      by_cases hlt : size + (ival i0).upto < (ival i1).frm
      · rw [if_pos hlt]
        exact ⟨_, rfl⟩
      · rw [if_neg hlt]
        refine ih hl.tail ((hasGap_cons_cons.1 hgap).resolve_left ?_)
        omega

theorem findAfter_of_room {i : Interval} (hi : i.upto ≤ max) (hroom : size + i.upto ≤ max) :
    ∃ range, findAfter max size i = some range := by
  unfold findAfter
  rw [sub32_of_le hmax hi, if_pos (by omega)]
  exact ⟨_, rfl⟩

end

/-- A free range behind the first interval is in a gap, or behind the
last. -/
theorem FreeRange.behind (h : FreeRange max size (i :: l) range)
    (hl : Layout max (i :: l)) (hbehind : (ival i).upto < range.frm) :
    HasGap size (i :: l) ∨ size + (ival ((i :: l).getLast (by simp))).upto ≤ max := by
  have hexact := h.exact
  have hbounded := h.bounded
  induction l generalizing i with
  | nil =>
    right
    rw [getLast_singleton]
    omega
  | cons i1 rest ih =>
    have hnext := (disjoint_iff h.ordered (hl.ordered i1 (by simp))).1 (h.disjoint i1 (by simp))
    rcases hnext with hbefore | hafter
    · left
      exact hasGap_cons_cons.2 (.inl (by omega))
    have htail : FreeRange max size (i1 :: rest) range :=
      ⟨h.ordered, h.exact, h.bounded, fun j hj => h.disjoint j (mem_cons_of_mem i hj)⟩
    rw [getLast_cons (by simp)]
    exact (ih htail hl.tail hafter).imp (fun hgap => hasGap_cons_cons.2 (.inr hgap)) id

/-- The room before the first interval is free. -/
theorem freeRange_front (hl : Layout max (i :: l)) (hsize : 0 < size)
    (hroom : size ≤ (ival i).frm) :
    FreeRange max size (i :: l) ⟨0, size - 1⟩ := by
  have hord := hl.ordered i mem_cons_self
  have hmax := hl.bounded i mem_cons_self
  refine ⟨zero_le, by simp only; omega, by simp only; omega, ?_⟩
  intro j hj
  refine (disjoint_iff zero_le (hl.ordered j hj)).2 (.inl ?_)
  have hle : (ival i).frm ≤ (ival j).frm := by
    rcases mem_cons.1 hj with rfl | hj
    · exact le_rfl
    · exact (pairwise_cons.1 hl.sorted).1 j hj
  simp only
  omega

/-- What there is room for is found, if one looks everywhere. -/
theorem findFree_of_freeRange (hmax : max < 0x100000000) (hsize : 0 < size)
    (hword : size < 0x100000000) (hl : Layout max l)
    (hlooks : LooksEverywhere max size l) (h : FreeRange max size l range) :
    (findFree max size l).isSome = true := by
  have hexact := h.exact
  have hbounded := h.bounded
  unfold findFree
  rw [if_neg (by omega)]
  match l with
  | [] => rfl
  | [i] =>
    have hi := hl.bounded i (by simp)
    dsimp only
    by_cases hfront : size ≤ (ival i).frm
    · rw [if_pos hfront]
      rfl
    rw [if_neg hfront]
    have hside := (disjoint_iff h.ordered (hl.ordered i (by simp))).1 (h.disjoint i (by simp))
    obtain ⟨_, hafter⟩ := findAfter_of_room hmax hi (show size + (ival i).upto ≤ max by omega)
    rw [hafter]
    rfl
  | i0 :: i1 :: rest =>
    have hlast := hl.bounded _ (mem_cons_of_mem i0 (getLast_mem (l := i1 :: rest) (by simp)))
    dsimp only
    by_cases hgap : ∃ found, findGap size (i0 :: i1 :: rest) = some found
    · obtain ⟨found, hfound⟩ := hgap
      rw [hfound]
      rfl
    have hroom : size + (ival ((i1 :: rest).getLast (by simp))).upto ≤ max := by
      rcases hlooks with hfront | hhas | hwrap | hroom
      · have hside := (disjoint_iff h.ordered (hl.ordered i0 (by simp))).1 (h.disjoint i0 (by simp))
        rcases h.behind hl (by omega) with hhas | hroom
        · exact absurd (findGap_of_hasGap hmax hl hhas) hgap
        · rwa [getLast_cons (by simp)] at hroom
      · exact absurd (findGap_of_hasGap hmax hl hhas) hgap
      · by_cases hhas : HasGap size (i0 :: i1 :: rest)
        · exact absurd (findGap_of_hasGap hmax hl hhas) hgap
        · obtain ⟨found, hfound, _⟩ := findGap_wraps hmax hword hl hhas hwrap
          exact absurd ⟨found, hfound⟩ hgap
      · exact hroom
    obtain ⟨_, hafter⟩ := findAfter_of_room hmax hlast hroom
    rw [Option.eq_none_iff_forall_ne_some.2 (fun found hfound => hgap ⟨found, hfound⟩)]
    rw [hafter]
    rfl

/-- What there is room for only before the first of several intervals is
not. -/
theorem findFree_misses (hmax : max < 0x100000000) (hsize : 0 < size)
    (hl : Layout max l) (hblind : ¬ LooksEverywhere max size l) :
    (∃ range, FreeRange max size l range) ∧ findFree max size l = none := by
  match l with
  | [] => exact absurd trivial hblind
  | [_] => exact absurd trivial hblind
  | i0 :: i1 :: rest =>
    have hlast := hl.bounded _ (mem_cons_of_mem i0 (getLast_mem (l := i1 :: rest) (by simp)))
    unfold LooksEverywhere at hblind
    push Not at hblind
    obtain ⟨hfront, hgap, hwrap, hroom⟩ := hblind
    refine ⟨⟨_, freeRange_front hl hsize hfront⟩, ?_⟩
    rw [Option.eq_none_iff_forall_ne_some]
    intro range hfound
    unfold findFree at hfound
    rw [if_neg (by omega)] at hfound
    dsimp only at hfound
    split at hfound
    next found hgap' =>
      obtain ⟨a, b, hin, hlt, _⟩ := findGap_some hmax hl (.inr hwrap) hgap'
      exact hgap ⟨a, b, hin, hlt⟩
    · obtain ⟨hle, _⟩ := findAfter_some hmax hsize hlast hfound
      omega

/-- The search is complete exactly where it looks everywhere. -/
theorem findFree_complete_iff_looksEverywhere {max size : Nat} {l : List α}
    (hmax : max < 0x100000000) (hsize : 0 < size)
    (hword : size < 0x100000000) (hl : Layout max l) :
    ((∃ range, FreeRange max size l range) →
      (findFree max size l).isSome = true) ↔ LooksEverywhere max size l := by
  constructor
  · intro hcomplete
    by_contra hblind
    obtain ⟨hfree, hnone⟩ := findFree_misses hmax hsize hl hblind
    have hsome := hcomplete hfree
    rw [hnone] at hsome
    cases hsome
  · rintro hlooks ⟨range, hfree⟩
    exact findFree_of_freeRange hmax hsize hword hl hlooks hfree

/-- Room between two intervals is found. -/
theorem findFree_complete_gap : let l : List Interval := [⟨0, 0xFFF⟩, ⟨0xC0000000, 0xFFFFFFFF⟩]
    Layout 0xFFFFFFFF l ∧ LooksEverywhere 0xFFFFFFFF 0x1000 l ∧
      ((∃ range, FreeRange 0xFFFFFFFF 0x1000 l range) →
        (findFree 0xFFFFFFFF 0x1000 l).isSome = true) := by
  intro l
  have hl : Layout 0xFFFFFFFF l := by
    rw [layout_iff_separated]
    refine ⟨by decide, ?_⟩
    unfold Separated
    decide
  have hlooks : LooksEverywhere 0xFFFFFFFF 0x1000 l := .inl (show 0 < 0x1000 by decide)
  exact ⟨hl, hlooks, (findFree_complete_iff_looksEverywhere (by decide)
    (by decide) (by decide) hl).2 hlooks⟩

/-- Five addresses before the first of two intervals are not. -/
theorem findFree_misses_front : let l : List Interval := [⟨5, 5⟩, ⟨7, 0xFFFFFFFF⟩]
    Layout 0xFFFFFFFF l ∧ FreeRange 0xFFFFFFFF 5 l ⟨0, 4⟩ ∧ findFree 0xFFFFFFFF 5 l = none := by
  intro l
  have hl : Layout 0xFFFFFFFF l := by
    rw [layout_iff_separated]
    refine ⟨by decide, ?_⟩
    unfold Separated
    decide
  exact ⟨hl, freeRange_front hl (by decide) (by decide), by decide⟩

end IntervalList

end Puppy.Libc
