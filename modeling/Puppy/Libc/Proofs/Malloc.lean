/-
The kernel heap stays intact, and its loops end.

# Two kinds of facts

The free list is a circle of addresses (`Lib.Circle`), and the free blocks
together with those in use lie side by side in memory (`Lib.Arena`). A
`Layout` says both. What `free` does to it can be taken apart: the block is
linked in where it belongs, and then it may be joined with the one after
it, and the one before it with the result (`merge_eq`). Each part is one
lemma about the circle and one about the blocks.

That no two free blocks touch is said of neighbours in the list only, which
is all that `free` looks at. As the list is in order, it is the same
(`Layout.next_of_touch`).

# Loops

`free` walks along the circle to the place of its block. `malloc` walks
until a block is long enough or it is back at the start. In that case it
requests memory, and after that there is a block that is long enough; so it
does not come back to the start again.
-/
import Puppy.Lib.Arena
import Puppy.Lib.Except
import Puppy.Libc.Malloc

namespace Puppy.Libc

open Lib Finset Headers Function

variable {ptr f amount size : Nat}

-- ==== the kernel heap

namespace Heap

theorem sbrkLoop_eq : ∀ {n : Nat} {h h' : Heap}, sbrkLoop n h = some h' →
    h'.mCurrent = h.mCurrent + n * blocksize := by
  intro n
  induction n with
  | zero =>
    intro h h' heq
    cases heq
    rw [zero_mul, add_zero]
  | succ n ih =>
    intro h h' heq
    obtain ⟨_, heq⟩ := Option.ite_none_left_eq_some.1 heq
    rw [ih heq]
    dsimp only
    rw [Nat.succ_mul]
    omega

/-- The memory begins where the last one ended. There is enough of it,
unless the amount is too large to be rounded. -/
theorem sbrk_spec {h h' : Heap} (heq : h.sbrk amount = some (ptr, h')) :
    ptr = h.mCurrent ∧ h.mCurrent ≤ h'.mCurrent ∧
      (amount ≤ 0xFFFFF000 → h.mCurrent + amount ≤ h'.mCurrent) := by
  unfold sbrk at heq
  split at heq
  next hzero =>
    cases heq
    rw [hzero]
    exact ⟨rfl, le_rfl, fun _ => le_rfl⟩
  obtain ⟨h₁, hloop, heq⟩ := Option.map_eq_some_iff.1 heq
  cases heq
  rw [sbrkLoop_eq hloop]
  refine ⟨rfl, Nat.le_add_right _ _, fun hle => ?_⟩
  unfold roundUp add32 blocksize
  split <;> omega

end Heap

-- ==== headers

namespace Headers

variable {m : Headers} {a b x iter block t : Nat}

/-- The links. -/
def nextOf (m : Headers) (a : Nat) : Nat := (m a).next

/-- The lengths. -/
def lenOf (m : Headers) (a : Nat) : Nat := (m a).len

@[simp]
theorem nextOf_setNext (n : Nat) : (m.setNext a n).nextOf = update m.nextOf a n :=
  comp_update Header.next ..

@[simp]
theorem lenOf_setNext (n : Nat) : (m.setNext a n).lenOf = m.lenOf :=
  (comp_update Header.len ..).trans (update_eq_self ..)

@[simp]
theorem lenOf_setLen (n : Nat) : (m.setLen a n).lenOf = update m.lenOf a n :=
  comp_update Header.len ..

@[simp]
theorem nextOf_setLen (n : Nat) : (m.setLen a n).nextOf = m.nextOf :=
  (comp_update Header.next ..).trans (update_eq_self ..)

theorem endOf_eq : m.endOf a = a + Header.size * m.lenOf a := rfl

theorem ext {m' : Headers} (hnext : m.nextOf = m'.nextOf) (hlen : m.lenOf = m'.lenOf) : m = m' := by
  funext x
  show Header.mk (m.nextOf x) (m.lenOf x) = ⟨m'.nextOf x, m'.lenOf x⟩
  rw [hnext, hlen]

-- ==== the parts of merging

/-- A block is linked in after `iter`. -/
def link (m : Headers) (iter block : Nat) : Headers :=
  (m.setNext block (m.nextOf iter)).setNext iter block

/-- A block takes in the next one. -/
def absorb (m : Headers) (a : Nat) : Headers :=
  (m.setLen a (m.lenOf a + m.lenOf (m.nextOf a))).setNext a (m.nextOf (m.nextOf a))

/-- A block takes in the next one if they touch. -/
def settle (m : Headers) (a : Nat) : Headers :=
  if m.endOf a = m.nextOf a then m.absorb a else m

theorem nextOf_link : (m.link iter block).nextOf = update (update m.nextOf block (m.nextOf iter))
      iter block := by
  unfold link
  rw [nextOf_setNext, nextOf_setNext]

theorem nextOf_link_block (hne : iter ≠ block) :
    (m.link iter block).nextOf block = m.nextOf iter := by
  rw [nextOf_link, update_of_ne hne.symm, update_self]

theorem lenOf_link : (m.link iter block).lenOf = m.lenOf := by
  unfold link
  rw [lenOf_setNext, lenOf_setNext]

theorem endOf_link : (m.link iter block).endOf a = m.endOf a := by
  rw [endOf_eq, lenOf_link, endOf_eq]

theorem nextOf_absorb : (m.absorb a).nextOf = update m.nextOf a (m.nextOf (m.nextOf a)) := by
  unfold absorb
  rw [nextOf_setNext, nextOf_setLen]

theorem lenOf_absorb : (m.absorb a).lenOf =
    update m.lenOf a (m.lenOf a + m.lenOf (m.nextOf a)) := by
  unfold absorb
  rw [lenOf_setNext, lenOf_setLen]

theorem mergeNext_of_touch (htouch : m.endOf block = m.nextOf iter) : m.mergeNext iter block =
      (m.setLen block (m.lenOf block + m.lenOf (m.nextOf iter))).setNext block
        (m.nextOf (m.nextOf iter)) := by
  refine (if_pos htouch).trans ?_
  show (m.setLen block _).setNext block
    ((m.setLen block _).nextOf ((m.setLen block _).nextOf iter)) = _
  rw [nextOf_setLen]
  rfl

theorem mergeNext_of_apart (hapart : m.endOf block ≠ m.nextOf iter) :
    m.mergeNext iter block = m.setNext block (m.nextOf iter) :=
  if_neg hapart

/-- Merging forwards is linking the block and then settling it. -/
theorem mergeNext_eq (hne : iter ≠ block) (hnext : m.nextOf iter ≠ block)
    (hother : m.endOf block = m.nextOf iter → m.nextOf iter ≠ iter) :
    (m.mergeNext iter block).setNext iter block = (m.link iter block).settle block := by
  have hlink := m.nextOf_link_block hne
  unfold settle
  rw [hlink, endOf_link]
  by_cases htouch : m.endOf block = m.nextOf iter
  · have hfar : (m.link iter block).nextOf (m.nextOf iter) = m.nextOf (m.nextOf iter) := by
      rw [nextOf_link, update_of_ne (hother htouch), update_of_ne hnext]
    rw [mergeNext_of_touch htouch, if_pos htouch]
    refine ext ?_ ?_
    · rw [nextOf_absorb, hlink, hfar, nextOf_setNext, nextOf_setNext,
        nextOf_setLen, nextOf_link, update_comm hne,
        update_idem]
    · rw [lenOf_absorb, hlink, lenOf_link, lenOf_setNext, lenOf_setNext, lenOf_setLen]
  · rw [mergeNext_of_apart htouch, if_neg htouch]
    rfl

theorem mergePrev_eq (hne : iter ≠ block) :
    m.mergePrev iter block = (m.setNext iter block).settle iter := by
  have hnext : (m.setNext iter block).nextOf iter = block := by rw [nextOf_setNext, update_self]
  have hend : (m.setNext iter block).endOf iter = m.endOf iter := by
    rw [endOf_eq, lenOf_setNext, endOf_eq]
  unfold settle
  rw [hnext, hend]
  by_cases htouch : m.endOf iter = block
  · rw [if_pos htouch]
    refine (if_pos htouch).trans (ext ?_ ?_)
    · rw [nextOf_absorb, hnext, nextOf_setNext, nextOf_setNext,
        nextOf_setLen, update_of_ne hne.symm, update_idem]
      show update m.nextOf iter ((m.setLen iter _).nextOf block) = _
      rw [nextOf_setLen]
    · rw [lenOf_absorb, hnext, lenOf_setNext, lenOf_setNext, lenOf_setLen]
      rfl
  · rw [if_neg htouch]
    exact if_neg htouch

/-- What `free` does, part by part. -/
theorem merge_eq (hne : iter ≠ block) (hnext : m.nextOf iter ≠ block)
    (hother : m.endOf block = m.nextOf iter → m.nextOf iter ≠ iter) :
    (m.mergeNext iter block).mergePrev iter block =
      ((m.link iter block).settle block).settle iter := by
  rw [mergePrev_eq hne, mergeNext_eq hne hnext hother]

-- ==== the place of a block

/-- The test of the loop says where the block belongs. -/
theorem place_succ (block n iter : Nat) : m.place block (n + 1) iter =
    if Between m.nextOf iter block then some iter
    else m.place block n (m.nextOf iter) := by
  show (if block ≤ iter ∨ m.nextOf iter ≤ block then
      if (iter < block ∨ block < m.nextOf iter) ∧ m.nextOf iter ≤ iter then
        some iter
      else m.place block n (m.nextOf iter)
    else some iter) = _
  by_cases hplace : Between m.nextOf iter block
  · rw [if_pos hplace]
    unfold Between at hplace
    split
    · rw [if_pos (by omega)]
    · rfl
  · rw [if_neg hplace]
    unfold Between at hplace
    rw [if_pos (by omega), if_neg (by omega)]

variable {S : Finset Nat}

/-- The search ends where the block belongs. -/
theorem place_spec (hcircle : Circle m.nextOf S) :
    ∀ {n iter : Nat}, iter ∈ S → m.place block n iter = some t →
      t ∈ S ∧ Between m.nextOf t block := by
  intro n
  induction n with
  | zero =>
    intro iter _ h
    cases h
  | succ n ih =>
    intro iter hiter h
    rw [place_succ] at h
    split at h
    next hplace =>
      cases h
      exact ⟨hiter, hplace⟩
    · exact ih (hcircle.next_mem hiter) h

/-- More rounds do not change the place. -/
theorem place_mono : ∀ {n n' iter : Nat}, n ≤ n' →
    m.place block n iter = some t → m.place block n' iter = some t := by
  intro n
  induction n with
  | zero =>
    intro n' iter _ h
    cases h
  | succ n ih =>
    intro n' iter hle h
    obtain ⟨k, rfl⟩ : ∃ k, n' = k + 1 := ⟨n' - 1, by omega⟩
    rw [place_succ] at h ⊢
    split
    next hplace =>
      rw [if_pos hplace] at h
      exact h
    next hplace =>
    rw [if_neg hplace] at h
    exact ih (by omega) h

/-- And it ends. -/
theorem place_ends : ∀ {k iter : Nat}, Between m.nextOf (m.nextOf^[k] iter) block →
      ∃ t, m.place block (k + 1) iter = some t := by
  intro k
  induction k with
  | zero =>
    intro iter h
    exact ⟨iter, (place_succ block 0 iter).trans (if_pos h)⟩
  | succ k ih =>
    intro iter h
    rw [place_succ]
    split
    · exact ⟨iter, rfl⟩
    · exact ih h

/-- The walk along the circle ends. -/
theorem place_exists (hcircle : Circle m.nextOf S) (hiter : iter ∈ S) (hblock : block ∉ S) :
    ∃ n t, ∀ rounds ≥ n, m.place block rounds iter = some t := by
  obtain ⟨c, hc, hplace⟩ := hcircle.between_of_notMem hiter hblock
  obtain ⟨k, hk⟩ := hcircle.reaches hiter hc
  obtain ⟨t, ht⟩ := place_ends (k := k) (hk ▸ hplace)
  exact ⟨k + 1, t, fun rounds hle => place_mono hle ht⟩

end Headers

-- ==== the layout of the heap

/-- The free list, without the header `list`, and the blocks in use. All of
them lie between `low` and `top`, above `list`, and together have `total`
headers. -/
structure Layout (list low top total : Nat) (m : Headers)
    (free live : Finset Nat) : Prop where
  circle : Circle m.nextOf (insert list free)
  nil : m.lenOf list = 0
  under : list < low
  above : ∀ a ∈ free ∪ live, low ≤ a
  below : ∀ a ∈ free ∪ live, m.endOf a ≤ top
  disjoint : Disjoint free live
  tiled : Tiled Header.size m.lenOf (free ∪ live)
  sum : ∑ a ∈ free ∪ live, m.lenOf a = total

theorem Header.size_pos : 0 < Header.size := by decide

namespace Layout

variable {list low top total : Nat} {m : Headers} {free live : Finset Nat} {a b iter block : Nat}

section

variable (h : Layout list low top total m free live)
include h

theorem lowest : ∀ a ∈ free ∪ live, list < a := fun a ha =>
  lt_of_lt_of_le h.under (h.above a ha)

theorem lt_endOf (ha : a ∈ free ∪ live) : a < m.endOf a := by
  have hpos := Nat.mul_pos Header.size_pos (h.tiled.pos a ha)
  rw [endOf_eq]
  omega

/-- Free blocks that touch are neighbours in the list. -/
theorem next_of_touch (ha : a ∈ free) (hb : b ∈ free)
    (htouch : m.endOf a = b) : m.nextOf a = b := by
  have ha' : a ∈ free ∪ live := mem_union_left live ha
  have hab : a < b := htouch ▸ h.lt_endOf ha'
  have haS : a ∈ insert list free := mem_insert_of_mem ha
  have hbS : b ∈ insert list free := mem_insert_of_mem hb
  have hup : a < m.nextOf a := by
    by_contra hle
    exact absurd (h.circle.wraps haS (not_lt.1 hle) b hbS).2 (not_le.2 hab)
  refine le_antisymm (h.circle.climbs haS hup b hbS hab) ?_
  have hnext : m.nextOf a ∈ free := by
    rcases mem_insert.1 (h.circle.next_mem haS) with heq | hmem
    · have hlow := h.lowest a ha'
      omega
    · exact hmem
  rw [← htouch]
  exact h.tiled.apart a ha' _ (mem_union_left live hnext) hup

end

/-- A block in use is not in the list. -/
theorem notMem_list (h : Layout list low top total m free (insert block live)) :
    block ∉ insert list free := by
  rw [mem_insert, not_or]
  refine ⟨?_, fun hmem => disjoint_left.1 h.disjoint hmem (mem_insert_self block live)⟩
  exact (h.lowest block (mem_union_right free (mem_insert_self block live))).ne'

/-- The list changes, and with it which blocks are in use. -/
theorem relink {m' : Headers} {free' live' : Finset Nat}
    (h : Layout list low top total m free live) (hunion : free' ∪ live' = free ∪ live)
    (hlen : m'.lenOf = m.lenOf) (hcircle : Circle m'.nextOf (insert list free'))
    (hdisjoint : Disjoint free' live') : Layout list low top total m' free' live' := by
  have hbelow := h.below
  have htiled := h.tiled
  have hsum := h.sum
  simp only [endOf_eq] at hbelow
  rw [← hunion, ← hlen] at hbelow htiled hsum
  exact ⟨hcircle, hlen ▸ h.nil, h.under, hunion ▸ h.above, hbelow, hdisjoint, htiled, hsum⟩

/-- A block in use becomes a free one. -/
theorem link (h : Layout list low top total m free (insert block live))
    (hlive : block ∉ live) (hiter : iter ∈ insert list free)
    (hplace : Between m.nextOf iter block) :
    Layout list low top total (m.link iter block) (insert block free) live := by
  refine h.relink ?_ lenOf_link ?_ ?_
  · rw [insert_union, union_insert]
  · rw [nextOf_link, insert_comm]
    exact h.circle.insert hiter hplace
  · rw [disjoint_insert_left]
    exact ⟨hlive, h.disjoint.mono_right (subset_insert block live)⟩

section

variable (h : Layout list low top total m free live)
include h

/-- A free block is joined with the next one. -/
theorem absorb (ha : a ∈ free) (htouch : m.endOf a = m.nextOf a) : m.nextOf a ∈ free ∧
      Layout list low top total (m.absorb a) (free.erase (m.nextOf a)) live := by
  have ha' : a ∈ free ∪ live := mem_union_left live ha
  have haS : a ∈ insert list free := mem_insert_of_mem ha
  have hlow := h.lowest a ha'
  have hup : a < m.nextOf a := htouch ▸ h.lt_endOf ha'
  have hnext : m.nextOf a ∈ free := by
    rcases mem_insert.1 (h.circle.next_mem haS) with heq | hmem
    · omega
    · exact hmem
  have hnext' : m.nextOf a ∈ free ∪ live := mem_union_left live hnext
  have hgone : m.nextOf a ∉ live := disjoint_left.1 h.disjoint hnext
  have hunion : free.erase (m.nextOf a) ∪ live = (free ∪ live).erase (m.nextOf a) := by
    rw [erase_union_distrib, erase_eq_of_notMem hgone]
  have hlist : list ≠ m.nextOf a := by omega
  refine ⟨hnext, ?_, ?_, h.under, ?_, ?_, ?_, ?_, ?_⟩
  · rw [nextOf_absorb, ← erase_insert_of_ne hlist]
    exact h.circle.erase haS hup.ne'
  · rw [lenOf_absorb, update_of_ne hlow.ne]
    exact h.nil
  · rw [hunion]
    exact fun x hx => h.above x (mem_of_mem_erase hx)
  · rw [hunion]
    intro x hx
    rw [endOf_eq, lenOf_absorb, update_apply]
    split
    next heq =>
      have hend := h.below _ hnext'
      rw [endOf_eq] at hend htouch
      rw [heq, mul_add]
      omega
    · exact h.below x (mem_of_mem_erase hx)
  · exact h.disjoint.mono_left (erase_subset _ free)
  · rw [hunion, lenOf_absorb]
    exact h.tiled.join ha' hnext' htouch
  · rw [hunion, lenOf_absorb, Tiled.sum_join ha' hnext' hup.ne]
    exact h.sum

/-- The end of a free block is used. -/
theorem cut {n : Nat} (ha : a ∈ free) (hpos : 0 < n) (hlt : n < m.lenOf a) :
    a + Header.size * (m.lenOf a - n) ∉ free ∪ live ∧ Layout list low top total
        ((m.setLen a (m.lenOf a - n)).setLen (a + Header.size * (m.lenOf a - n)) n)
        free (insert (a + Header.size * (m.lenOf a - n)) live) := by
  have ha' : a ∈ free ∪ live := mem_union_left live ha
  have hnew := h.tiled.cut_notMem ha' Header.size_pos hpos hlt
  have hlow := h.lowest a ha'
  have hfloor := h.above a ha'
  have htop := h.below a ha'
  have hwhole : Header.size * (m.lenOf a - n) + Header.size * n = Header.size * m.lenOf a := by
    rw [← mul_add, Nat.sub_add_cancel hlt.le]
  have htiled := h.tiled.cut ha' Header.size_pos hpos hlt
  have hsum := h.tiled.sum_cut ha' Header.size_pos hpos hlt
  refine ⟨hnew, ?_, ?_, h.under, ?_, ?_, ?_, ?_, ?_⟩
  · rw [nextOf_setLen, nextOf_setLen]
    exact h.circle
  · rw [lenOf_setLen, lenOf_setLen, update_of_ne (by omega), update_of_ne hlow.ne]
    exact h.nil
  · rw [union_insert]
    intro x hx
    rcases mem_insert.1 hx with hx | hx
    · omega
    · exact h.above x hx
  · rw [union_insert]
    intro x hx
    rw [endOf_eq] at htop
    rw [endOf_eq, lenOf_setLen, lenOf_setLen]
    rcases mem_insert.1 hx with hx | hx
    · rw [hx, update_self]
      omega
    rw [update_of_ne (ne_of_mem_of_not_mem hx hnew), update_apply]
    split
    next heq =>
      rw [heq]
      omega
    · exact h.below x hx
  · rw [disjoint_insert_right]
    exact ⟨fun hmem => hnew (mem_union_left live hmem), h.disjoint⟩
  · rw [union_insert, lenOf_setLen, lenOf_setLen]
    exact htiled
  · rw [union_insert, lenOf_setLen, lenOf_setLen, hsum]
    exact h.sum

/-- A free block is used as a whole. -/
theorem unlink (hiter : iter ∈ insert list free) (hnext : m.nextOf iter ∈ free) :
    Layout list low top total (m.setNext iter (m.nextOf (m.nextOf iter)))
      (free.erase (m.nextOf iter)) (insert (m.nextOf iter) live) := by
  have hlist : list ≠ m.nextOf iter := (h.lowest _ (mem_union_left live hnext)).ne
  have hne : m.nextOf iter ≠ iter := by
    intro heq
    exact hlist ((h.circle.eq_of_next_self hiter heq (mem_insert_self list free)).trans heq.symm)
  refine h.relink ?_ (lenOf_setNext _) ?_ ?_
  · rw [union_insert, ← insert_union, insert_erase hnext]
  · rw [nextOf_setNext, ← erase_insert_of_ne hlist]
    exact h.circle.erase hiter hne
  · rw [disjoint_insert_right]
    exact ⟨notMem_erase _ free, h.disjoint.mono_left (erase_subset _ free)⟩

/-- A block in use above all others. -/
theorem extend {n top' : Nat} (hpos : 0 < n) (hlist : low ≤ top)
    (htop : top + Header.size * n ≤ top') : top ∉ free ∪ live ∧
      Layout list low top' (total + n) (m.setLen top n) free (insert top live) := by
  have hnew : top ∉ free ∪ live := by
    intro hmem
    exact absurd (h.below top hmem) (not_le.2 (h.lt_endOf hmem))
  have hold : ∀ x ∈ free ∪ live, update m.lenOf top n x = m.lenOf x := fun x hx =>
    update_of_ne (ne_of_mem_of_not_mem hx hnew) n m.lenOf
  refine ⟨hnew, ?_, ?_, h.under, ?_, ?_, ?_, ?_, ?_⟩
  · rw [nextOf_setLen]
    exact h.circle
  · rw [lenOf_setLen, update_of_ne (lt_of_lt_of_le h.under hlist).ne]
    exact h.nil
  · rw [union_insert]
    intro x hx
    rcases mem_insert.1 hx with hx | hx
    · rw [hx]
      exact hlist
    · exact h.above x hx
  · rw [union_insert]
    intro x hx
    rw [endOf_eq, lenOf_setLen]
    rcases mem_insert.1 hx with hx | hx
    · rw [hx, update_self]
      exact htop
    have hend := h.below x hx
    rw [hold x hx]
    rw [endOf_eq] at hend
    omega
  · rw [disjoint_insert_right]
    exact ⟨fun hmem => hnew (mem_union_left live hmem), h.disjoint⟩
  · rw [union_insert, lenOf_setLen]
    exact h.tiled.extend hpos h.below hnew
  · rw [union_insert, lenOf_setLen, sum_insert hnew, update_self, sum_congr rfl hold, h.sum]
    omega

end

end Layout

-- ==== neighbours

/-- No free block touches the next one, apart from those excepted. -/
def Settled (m : Headers) (free : Finset Nat) (except : Nat → Prop) : Prop :=
  ∀ a ∈ free, ¬ except a → m.endOf a ≠ m.nextOf a

/-- The free blocks when `a` has taken in the next one if they touch. -/
def Headers.rest (m : Headers) (a : Nat) (free : Finset Nat) : Finset Nat :=
  if m.endOf a = m.nextOf a then free.erase (m.nextOf a) else free

namespace Layout

variable {list low top total x : Nat} {m : Headers} {free live : Finset Nat} {a iter block : Nat}

theorem nextOf_settle (hne : x ≠ a) : (m.settle a).nextOf x = m.nextOf x := by
  unfold Headers.settle
  split
  · rw [nextOf_absorb, update_of_ne hne]
  · rfl

theorem mem_rest (hx : x ∈ insert list free) (hne : m.endOf a = m.nextOf a → x ≠ m.nextOf a) :
    x ∈ insert list (m.rest a free) := by
  unfold Headers.rest
  split
  next htouch =>
    rcases mem_insert.1 hx with hx | hx
    · exact hx ▸ mem_insert_self x _
    · exact mem_insert_of_mem (mem_erase.2 ⟨hne htouch, hx⟩)
  · exact hx

/-- A block that has been joined with the next one if need be is no
exception any more. -/
theorem settle {except : Nat → Prop} (h : Layout list low top total m free live)
    (hsettled : Settled m free (fun x => except x ∨ x = a))
    (ha : m.endOf a = m.nextOf a → a ∈ free)
    (hexcept : m.endOf a = m.nextOf a → ¬ except (m.nextOf a)) :
    Layout list low top total (m.settle a) (m.rest a free) live ∧
      Settled (m.settle a) (m.rest a free) except := by
  unfold Headers.settle Headers.rest
  by_cases htouch : m.endOf a = m.nextOf a
  · rw [if_pos htouch, if_pos htouch]
    obtain ⟨hnext, hlayout⟩ := h.absorb (ha htouch) htouch
    refine ⟨hlayout, fun x hx hout => ?_⟩
    have hne : m.nextOf a ≠ a := by
      have hup := h.lt_endOf (mem_union_left live (ha htouch))
      omega
    by_cases hxa : x = a
    · -- it ends where the block that is gone ended
      have hgone := hsettled _ hnext (by
        rw [not_or]
        exact ⟨hexcept htouch, hne⟩)
      rw [endOf_eq] at htouch hgone
      rw [hxa, endOf_eq, lenOf_absorb, nextOf_absorb, update_self, update_self, mul_add]
      omega
    · rw [endOf_eq, lenOf_absorb, nextOf_absorb, update_of_ne hxa, update_of_ne hxa]
      exact hsettled x (mem_of_mem_erase hx) (fun hor => hor.elim hout hxa)
  · rw [if_neg htouch, if_neg htouch]
    refine ⟨h, fun x hx hout => ?_⟩
    by_cases hxa : x = a
    · rw [hxa]
      exact htouch
    · exact hsettled x hx (fun hor => hor.elim hout hxa)

/-- No free block gets lost: there is one that is at least as long. -/
theorem settle_keeps (h : Layout list low top total m free live)
    (ha : m.endOf a = m.nextOf a → a ∈ free) (hx : x ∈ free) :
    ∃ y ∈ m.rest a free, m.lenOf x ≤ (m.settle a).lenOf y := by
  unfold Headers.settle Headers.rest
  by_cases htouch : m.endOf a = m.nextOf a
  · rw [if_pos htouch, if_pos htouch, lenOf_absorb]
    have hup := h.lt_endOf (mem_union_left live (ha htouch))
    have hmem : a ∈ free.erase (m.nextOf a) := mem_erase.2 ⟨by omega, ha htouch⟩
    by_cases hgone : x = m.nextOf a
    · refine ⟨a, hmem, ?_⟩
      rw [hgone, update_self]
      exact Nat.le_add_left _ _
    refine ⟨x, mem_erase.2 ⟨hgone, hx⟩, ?_⟩
    rw [update_apply]
    split
    next heq =>
      rw [heq]
      exact Nat.le_add_right _ _
    · exact le_rfl
  · rw [if_neg htouch, if_neg htouch]
    exact ⟨x, hx, le_rfl⟩

/-- Linking a block in makes exceptions of the two that have new links. -/
theorem link_settled (hsettled : Settled m free (fun _ => False)) :
    Settled (m.link iter block) (insert block free) (fun x => x = iter ∨ x = block) := by
  intro x hx hout
  rw [not_or] at hout
  rw [endOf_eq, lenOf_link, nextOf_link, update_of_ne hout.1, update_of_ne hout.2]
  exact hsettled x ((mem_insert.1 hx).resolve_left hout.2) id

/-- Free blocks still do not touch when one between them is gone. -/
theorem unlink_settled (h : Layout list low top total m free live)
    (hsettled : Settled m free (fun _ => False))
    (hnext : m.nextOf iter ∈ free) :
    Settled (m.setNext iter (m.nextOf (m.nextOf iter)))
      (free.erase (m.nextOf iter)) (fun _ => False) := by
  have hlist : list ∈ insert list free := mem_insert_self list free
  intro x hx hout
  rw [endOf_eq, lenOf_setNext, nextOf_setNext, update_apply]
  split
  next heq =>
    intro htouch
    have hxfree := mem_of_mem_erase hx
    have hup := h.lt_endOf (mem_union_left live hxfree)
    have hlow := h.lowest x (mem_union_left live hxfree)
    rw [← endOf_eq] at htouch
    have hfar : m.nextOf (m.nextOf iter) ∈ free := by
      refine (mem_insert.1 (h.circle.next_mem
        (mem_insert_of_mem hnext))).resolve_left (fun heq' => ?_)
      omega
    -- then the one between them would lead to itself
    have hself := h.next_of_touch hxfree hfar htouch
    rw [heq] at hself
    have hone := h.circle.eq_of_next_self (mem_insert_of_mem hnext) hself.symm hlist
    exact absurd (h.lowest _ (mem_union_left live hnext)) (by omega)
  · exact hsettled x (mem_of_mem_erase hx) hout

/-- A part of a free block is taken from its end. -/
theorem cut_settled {n : Nat} (h : Layout list low top total m free live)
    (hsettled : Settled m free (fun _ => False)) (ha : a ∈ free)
    (hpos : 0 < n) (hlt : n < m.lenOf a) :
    Settled ((m.setLen a (m.lenOf a - n)).setLen
      (a + Header.size * (m.lenOf a - n)) n) free (fun _ => False) := by
  have ha' := mem_union_left live ha
  have hnew := h.tiled.cut_notMem ha' Header.size_pos hpos hlt
  have hlow := h.lowest a ha'
  intro x hx hout
  rw [endOf_eq, lenOf_setLen, lenOf_setLen, nextOf_setLen, nextOf_setLen, update_of_ne
      (ne_of_mem_of_not_mem (mem_union_left live hx) hnew),
    update_apply]
  split
  next heq =>
    rw [heq]
    rcases mem_insert.1 (h.circle.next_mem (mem_insert_of_mem ha)) with
      hnext | hnext
    · omega
    · exact (ne_of_mem_of_not_mem (mem_union_left live hnext) hnew).symm
  · exact hsettled x hx hout

/-- The whole of `free`, once the place of the block is known. -/
theorem merge (h : Layout list low top total m free (insert block live))
    (hsettled : Settled m free (fun _ => False)) (hlive : block ∉ live)
    (hiter : iter ∈ insert list free) (hplace : Between m.nextOf iter block) :
    ∃ free', Layout list low top total ((m.mergeNext iter block).mergePrev iter block) free' live ∧
      Settled ((m.mergeNext iter block).mergePrev iter block) free' (fun _ => False) ∧
      iter ∈ insert list free' ∧
      ∃ y ∈ free', m.lenOf block ≤ ((m.mergeNext iter block).mergePrev iter block).lenOf y := by
  have hblock : block ∈ free ∪ insert block live :=
    mem_union_right free (mem_insert_self block live)
  have hlow := h.lowest block hblock
  have hup := h.lt_endOf hblock
  have hnew := h.notMem_list
  have hne : iter ≠ block := ne_of_mem_of_not_mem hiter hnew
  have hnext : m.nextOf iter ≠ block := ne_of_mem_of_not_mem (h.circle.next_mem hiter) hnew
  -- a block that touches the next one does not touch `list`
  have hother : m.endOf block = m.nextOf iter → m.nextOf iter ≠ iter := by
    intro htouch heq
    have hlist := h.circle.eq_of_next_self hiter heq (mem_insert_self list free)
    omega
  rw [merge_eq hne hnext hother]
  have h₁ := h.link hlive hiter hplace
  have hin : block ∈ insert block free := mem_insert_self block free
  have htouch₁ : (m.link iter block).endOf block = (m.link iter block).nextOf block →
        (m.link iter block).nextOf block ≠ iter := by
    rw [endOf_link, nextOf_link_block hne]
    exact hother
  have hsettled₁ : Settled (m.link iter block) (insert block free)
      (fun x => x = iter ∨ x = block) := link_settled hsettled
  obtain ⟨h₂, hsettled₂⟩ := h₁.settle hsettled₁ (fun _ => hin) htouch₁
  obtain ⟨y, hy, hlen⟩ := h₁.settle_keeps (fun _ => hin) hin
  have hiter₂ : iter ∈ insert list ((m.link iter block).rest block (insert block free)) := by
    refine mem_rest ?_ (fun htouch => (htouch₁ htouch).symm)
    rw [insert_comm]
    exact mem_insert_of_mem hiter
  have hnext₂ : ((m.link iter block).settle block).nextOf iter = block := by
    rw [nextOf_settle hne, nextOf_link, update_self]
  have hlast : ((m.link iter block).settle block).endOf iter =
      ((m.link iter block).settle block).nextOf iter →
        iter ∈ (m.link iter block).rest block (insert block free) := by
    intro htouch
    refine (mem_insert.1 hiter₂).resolve_left (fun heq => ?_)
    have hnil := h₂.nil
    rw [← heq] at hnil
    rw [hnext₂, endOf_eq, hnil, mul_zero, add_zero] at htouch
    exact hne htouch
  have hsettled₂' : Settled ((m.link iter block).settle block)
      ((m.link iter block).rest block (insert block free))
      (fun x => False ∨ x = iter) :=
    fun x hx hout => hsettled₂ x hx (fun heq => hout (.inr heq))
  obtain ⟨h₃, hsettled₃⟩ := h₂.settle hsettled₂' hlast (fun _ => id)
  obtain ⟨z, hz, hlen'⟩ := h₂.settle_keeps hlast hy
  refine ⟨_, h₃, hsettled₃, ?_, z, hz, ?_⟩
  · exact mem_rest hiter₂ (fun _ heq => hne (heq.trans hnext₂))
  · rw [lenOf_link] at hlen
    exact hlen.trans hlen'

end Layout

-- ==== malloc and free

/-- The heap after its first use. The blocks in use are a parameter, as one
of them may just be about to become free. -/
structure Malloc.Sound (s : Malloc) (low : Nat) (free live : Finset Nat) :
    Prop where
  layout : Layout s.list low s.heap.mCurrent s.requested s.headers free live
  settled : Settled s.headers free (fun _ => False)
  first : ∃ f ∈ insert s.list free, s.first = some f
  above : low ≤ s.heap.mCurrent

namespace Malloc

variable {s s' : Malloc} {low block true_size prev b : Nat}
  {free live : Finset Nat} {rounds : Nat} {a : Action}

/-- `free` puts the block into the list, where there is now one that is at
least as long. -/
theorem free_spec (h : s.Sound low free (insert block live)) (hlive : block ∉ live)
    (hfree : s.free (block + Header.size) rounds = .ok s') :
    ∃ free', s'.Sound low free' live ∧ s'.list = s.list ∧ s'.live = s.live ∧
      ∃ y ∈ free', (s.headers block).len ≤ (s'.headers y).len := by
  obtain ⟨f, hf, hfirst⟩ := h.first
  unfold Malloc.free at hfree
  rw [if_neg (by unfold Header.size; omega), hfirst] at hfree
  dsimp only at hfree
  rw [Nat.add_sub_cancel] at hfree
  split at hfree
  · cases hfree
  next iter hplace =>
  injection hfree with hs'
  obtain ⟨hiter, hbetween⟩ := place_spec h.layout.circle hf hplace
  obtain ⟨free', hlayout, hsettled, hiter', y, hy, hlen⟩ :=
    h.layout.merge h.settled hlive hiter hbetween
  rw [← hs']
  exact ⟨free', ⟨hlayout, hsettled, ⟨iter, hiter', rfl⟩, h.above⟩, rfl, rfl, y, hy, hlen⟩

/-- `free` returns, and enough is enough. -/
theorem free_ends (h : s.Sound low free (insert block live)) : ∃ n s', ∀ rounds ≥ n,
      s.free (block + Header.size) rounds = .ok s' := by
  obtain ⟨f, hf, hfirst⟩ := h.first
  obtain ⟨n, iter, hplace⟩ := place_exists h.layout.circle hf h.layout.notMem_list
  refine ⟨n, { s with
    headers := (s.headers.mergeNext iter block).mergePrev iter block
    first := some iter }, fun rounds hle => ?_⟩
  unfold Malloc.free
  rw [if_neg (by unfold Header.size; omega), hfirst]
  dsimp only
  rw [Nat.add_sub_cancel, hplace rounds hle]

-- ==== a block that is long enough

theorem take_of_longer {p : Nat} (hne : s.headers.lenOf p ≠ true_size) : s.take true_size prev p =
      (p + Header.size * (s.headers.lenOf p - true_size),
        { s with
          headers := (s.headers.setLen p (s.headers.lenOf p - true_size)).setLen
              (p + Header.size * (s.headers.lenOf p - true_size)) true_size
          first := some prev }) := by
  have hend : (s.headers.setLen p (s.headers.lenOf p - true_size)).endOf p =
      p + Header.size * (s.headers.lenOf p - true_size) := by
    rw [endOf_eq, lenOf_setLen, update_self]
  rw [← hend]
  exact if_neg hne

/-- The block is taken off the list, or its end is cut off. -/
theorem take_spec (h : s.Sound low free live)
    (hprev : prev ∈ insert s.list free) (hpos : 0 < true_size)
    (hlen : true_size ≤ s.headers.lenOf (s.headers.nextOf prev)) :
    ∃ free' block s', s.take true_size prev (s.headers.nextOf prev) = (block, s') ∧
      s'.Sound low free' (insert block live) ∧ block ∉ live ∧
      s'.headers.lenOf block = true_size ∧
      s'.list = s.list ∧ s'.live = s.live := by
  have hnext : s.headers.nextOf prev ∈ free := by
    refine (mem_insert.1 (h.layout.circle.next_mem hprev)).resolve_left ?_
    intro heq
    rw [heq, h.layout.nil] at hlen
    omega
  by_cases hexact : s.headers.lenOf (s.headers.nextOf prev) = true_size
  · refine ⟨_, _, _, if_pos hexact, ⟨h.layout.unlink hprev hnext,
      h.layout.unlink_settled h.settled hnext, ⟨prev, ?_, rfl⟩,
      h.above⟩, disjoint_left.1 h.layout.disjoint hnext, ?_, rfl, rfl⟩
    swap
    · rw [lenOf_setNext]
      exact hexact
    refine (mem_insert.1 hprev).elim (fun heq => heq ▸ mem_insert_self _ _)
      (fun hmem => mem_insert_of_mem (mem_erase.2 ⟨fun heq => ?_, hmem⟩))
    have hone := h.layout.circle.eq_of_next_self hprev heq.symm (mem_insert_self s.list free)
    exact absurd (h.layout.lowest prev (mem_union_left live hmem)) (by omega)
  · have hlt : true_size < s.headers.lenOf (s.headers.nextOf prev) := by omega
    obtain ⟨hnew, hlayout⟩ := h.layout.cut hnext hpos hlt
    exact ⟨free, _, _, take_of_longer hexact, ⟨hlayout,
      h.layout.cut_settled h.settled hnext hpos hlt, ⟨prev, hprev, rfl⟩,
      h.above⟩, fun hmem => hnew (mem_union_right free hmem), by
        rw [lenOf_setLen, update_self], rfl, rfl⟩

-- ==== more memory

/-- What is asked of the kernel is enough. -/
theorem sbrkSize_ge (true_size : Nat) : true_size ≤ sbrkSize true_size := by
  unfold sbrkSize NALLOC
  split <;> omega

theorem kernelAskSize_eq (hsmall : true_size ≤ 0x1FFFFE00) :
    kernelAskSize true_size = Header.size * sbrkSize true_size := by
  unfold kernelAskSize sbrkSize NALLOC Header.size
  split <;> omega

theorem kernelAskSize_le (hsmall : true_size ≤ 0x1FFFFE00) :
    kernelAskSize true_size ≤ 0xFFFFF000 := by
  rw [kernelAskSize_eq hsmall]
  unfold sbrkSize NALLOC Header.size
  split <;> omega

theorem trueSize_pos (size : Nat) : 0 < trueSize size := Nat.succ_pos _

theorem trueSize_le (hsmall : size ≤ 0xFFFFEFF8) : trueSize size ≤ 0x1FFFFE00 := by
  unfold trueSize Header.size
  rw [add32_of_lt (by omega)]
  omega

theorem ksbrk_spec (h : s.ksbrk amount = .ok (ptr, s')) :
    ∃ heap, s' = { s with heap := heap } ∧ ptr = s.heap.mCurrent ∧ s.heap.mCurrent ≤ heap.mCurrent ∧
      (amount ≤ 0xFFFFF000 → s.heap.mCurrent + amount ≤ heap.mCurrent) := by
  unfold ksbrk at h
  split at h
  · cases h
  next heap hsbrk =>
  obtain ⟨hptr, hs'⟩ := ok_pair h
  obtain ⟨hbase, htop⟩ := Heap.sbrk_spec hsbrk
  exact ⟨heap, hs'.symm, hptr ▸ hbase, htop⟩

/-- New memory is a block in use, until it is given back. -/
theorem Sound.grow {n : Nat} {heap : Heap} (h : s.Sound low free live) (hpos : 0 < n)
    (htop : s.heap.mCurrent + Header.size * n ≤ heap.mCurrent) :
    s.heap.mCurrent ∉ live ∧
      Sound { s with
        heap := heap
        headers := s.headers.setLen s.heap.mCurrent n
        requested := s.requested + n } low free (insert s.heap.mCurrent live) := by
  obtain ⟨hnew, hlayout⟩ := h.layout.extend hpos h.above htop
  have habove : low ≤ heap.mCurrent := le_trans h.above ((Nat.le_add_right _ _).trans htop)
  refine ⟨fun hmem => hnew (mem_union_right free hmem), hlayout, ?_, h.first, habove⟩
  intro x hx hout
  rw [endOf_eq, lenOf_setLen, nextOf_setLen, update_of_ne
      (ne_of_mem_of_not_mem (mem_union_left live hx) hnew)]
  exact h.settled x hx hout

/-- After a request there is a block that is long enough. -/
theorem request_spec (h : s.Sound low free live) (hpos : 0 < true_size)
    (hsmall : true_size ≤ 0x1FFFFE00)
    (hrequest : s.request true_size rounds = .ok s') :
    ∃ free', s'.Sound low free' live ∧ s'.list = s.list ∧ s'.live = s.live ∧
      ∃ y ∈ free', true_size ≤ s'.headers.lenOf y := by
  unfold request at hrequest
  split at hrequest
  · cases hrequest
  next page s₁ hksbrk =>
  obtain ⟨heap, hs₁, hpage, _, htop⟩ := ksbrk_spec hksbrk
  have htop := htop (kernelAskSize_le hsmall)
  rw [kernelAskSize_eq hsmall] at htop
  have hge := sbrkSize_ge true_size
  obtain ⟨hnew, hgrown⟩ := h.grow (lt_of_lt_of_le hpos hge) htop
  rw [hs₁, hpage] at hrequest
  obtain ⟨free', hsound, hlist, hlive, y, hy, hlen⟩ := free_spec hgrown hnew hrequest
  refine ⟨free', hsound, hlist, hlive, y, hy, hge.trans ?_⟩
  have hfull : ((s.headers.setLen s.heap.mCurrent
      (sbrkSize true_size)) s.heap.mCurrent).len = sbrkSize true_size := by
    show (s.headers.setLen _ _).lenOf _ = _
    rw [lenOf_setLen, update_self]
  exact hfull ▸ hlen

/-- A request goes through if `ksbrk` does. -/
theorem request_ends (h : s.Sound low free live) (hpos : 0 < true_size)
    (hsmall : true_size ≤ 0x1FFFFE00)
    (hsbrk : s.heap.sbrk (kernelAskSize true_size) ≠ none) :
    ∃ n s', ∀ rounds ≥ n, s.request true_size rounds = .ok s' := by
  obtain ⟨⟨page, heap⟩, hgiven⟩ := Option.ne_none_iff_exists'.1 hsbrk
  have hksbrk : s.ksbrk (kernelAskSize true_size) = .ok (page, { s with heap := heap }) := by
    unfold ksbrk
    rw [hgiven]
  obtain ⟨hpage, _, htop⟩ := Heap.sbrk_spec hgiven
  have htop := htop (kernelAskSize_le hsmall)
  rw [kernelAskSize_eq hsmall] at htop
  obtain ⟨_, hgrown⟩ := h.grow (lt_of_lt_of_le hpos (sbrkSize_ge true_size)) htop
  obtain ⟨n, s', hfree⟩ := free_ends hgrown
  refine ⟨n, s', fun rounds hle => ?_⟩
  unfold request
  rw [hksbrk]
  rw [hpage]
  exact hfree rounds hle

-- ==== the search

/-- Whatever the search returns is a block of that length that has left the
list. -/
theorem search_spec (hpos : 0 < true_size) (hsmall : true_size ≤ 0x1FFFFE00) :
    ∀ {rounds : Nat} {s s' : Malloc} {free : Finset Nat} {prev block : Nat},
      s.Sound low free live → prev ∈ insert s.list free →
      search true_size rounds s prev (s.headers.nextOf prev) = .ok (block, s') →
      ∃ free', s'.Sound low free' (insert block live) ∧ block ∉ live ∧
        s'.headers.lenOf block = true_size ∧
        s'.list = s.list ∧ s'.live = s.live := by
  intro rounds
  induction rounds with
  | zero =>
    intro s s' free prev block _ _ hsearch
    cases hsearch
  | succ n ih =>
    intro s s' free prev block h hprev hsearch
    unfold search at hsearch
    split at hsearch
    next hlen =>
      injection hsearch with htake
      obtain ⟨free', block', s₁, htake', hsound, hrest⟩ := take_spec h hprev hpos hlen
      cases htake'.symm.trans htake
      exact ⟨free', hsound, hrest⟩
    split at hsearch
    · split at hsearch
      · cases hsearch
      next s₁ hrequest =>
      obtain ⟨free₁, h₁, hlist, hlive, _⟩ := request_spec h hpos hsmall hrequest
      obtain ⟨f, hf, hfirst⟩ := h₁.first
      rw [hfirst] at hsearch
      obtain ⟨free', hsound, hnew, hlen, hlist', hlive'⟩ := ih h₁ hf hsearch
      exact ⟨free', hsound, hnew, hlen, hlist'.trans hlist, hlive'.trans hlive⟩
    · exact ih h (h.layout.circle.next_mem hprev) hsearch

section Rounds

variable {true_size prev p n : Nat}

theorem search_fits (hlen : true_size ≤ s.headers.lenOf p) :
    search true_size (n + 1) s prev p = .ok (s.take true_size prev p) :=
  if_pos hlen

theorem search_on (hlen : ¬ true_size ≤ s.headers.lenOf p)
    (hfirst : s.first ≠ some p) : search true_size (n + 1) s prev p =
      search true_size n s p (s.headers.nextOf p) :=
  (if_neg hlen).trans (if_neg hfirst)

theorem search_start {f₁ : Nat} {s₁ : Malloc}
    (hlen : ¬ true_size ≤ s.headers.lenOf p) (hfirst : s.first = some p)
    (hrequest : s.request true_size n = .ok s₁)
    (hfirst₁ : s₁.first = some f₁) :
    search true_size (n + 1) s prev p = search true_size n s₁ f₁ (s₁.headers.nextOf f₁) := by
  refine ((if_neg hlen).trans (if_pos hfirst)).trans ?_
  rw [hrequest]
  dsimp only
  rw [hfirst₁]
  rfl

end Rounds

/-- The walk from `p` back to the start: it ends before that, or with a
request. -/
theorem search_walk {n₁ f₁ : Nat} {s₁ : Malloc} (hfirst : s.first = some f)
    (hrequest : ∀ n ≥ n₁, s.request true_size n = .ok s₁)
    (hfirst₁ : s₁.first = some f₁) :
    ∀ {k rounds prev p : Nat}, s.headers.nextOf^[k] p = f → k + n₁ < rounds →
      (∃ r, search true_size rounds s prev p = .ok r) ∨
      ∃ n, rounds ≤ n + k + 1 ∧ search true_size rounds s prev p =
        search true_size n s₁ f₁ (s₁.headers.nextOf f₁) := by
  intro k rounds
  induction rounds generalizing k with
  | zero => omega
  | succ n ih =>
    intro prev p hp hlt
    by_cases hlen : true_size ≤ s.headers.lenOf p
    · exact .inl ⟨_, search_fits hlen⟩
    by_cases hp' : s.first = some p
    · exact .inr ⟨n, by omega, search_start hlen hp' (hrequest n (by omega)) hfirst₁⟩
    rw [search_on hlen hp']
    cases k with
    | zero => exact absurd (hfirst.trans (congrArg some hp.symm)) hp'
    | succ k =>
      rcases ih (k := k) hp (by omega) with hok | ⟨n', hle, heq⟩
      · exact .inl hok
      · exact .inr ⟨n', by omega, heq⟩

/-- The walk to a block that is long enough, if the start is not on the
way. -/
theorem search_finds (hfirst : s.first = some f) (hlen : true_size ≤ s.headers.lenOf b) :
    ∀ {k rounds prev p : Nat}, s.headers.nextOf^[k] p = b →
      (∀ j < k, s.headers.nextOf^[j] p ≠ f) → k < rounds →
      ∃ r, search true_size rounds s prev p = .ok r := by
  intro k rounds
  induction rounds generalizing k with
  | zero => omega
  | succ n ih =>
    intro prev p hp hway hlt
    by_cases hfits : true_size ≤ s.headers.lenOf p
    · exact ⟨_, search_fits hfits⟩
    cases k with
    | zero =>
      rw [← hp] at hlen
      exact absurd hlen hfits
    | succ k =>
      have hother : s.first ≠ some p := by
        rw [hfirst]
        intro heq
        injection heq with heq
        exact hway 0 (by omega) heq.symm
      rw [search_on hfits hother]
      exact ih (k := k) hp (fun j hj => hway (j + 1) (by omega)) (by omega)

/-- A cell that is reached from the start is reached before the start is
reached again. -/
theorem reached_first {next : Nat → Nat} (h : ∃ k, next^[k] (next f) = b) :
    ∃ k, next^[k] (next f) = b ∧ ∀ j < k, next^[j] (next f) ≠ f := by
  classical
  refine ⟨Nat.find h, Nat.find_spec h, fun j hj heq => ?_⟩
  -- otherwise the rest of the way is shorter
  have hspec := Nat.find_spec h
  have hsplit : Nat.find h = (Nat.find h - (j + 1)) + (j + 1) := by omega
  rw [hsplit, iterate_add_apply, iterate_succ_apply', heq] at hspec
  exact Nat.find_min h (by omega) hspec

/-- The search returns. -/
theorem search_ends (h : s.Sound low free live) (hpos : 0 < true_size)
    (hsmall : true_size ≤ 0x1FFFFE00)
    (hfirst : s.first = some f) (hf : f ∈ insert s.list free)
    (hsbrk : s.heap.sbrk (kernelAskSize true_size) ≠ none) :
    ∃ n, ∀ rounds ≥ n, ∃ r, search true_size rounds s f (s.headers.nextOf f) = .ok r := by
  obtain ⟨k, hk⟩ := h.layout.circle.reaches (h.layout.circle.next_mem hf) hf
  obtain ⟨n₁, s₁, hrequest⟩ := request_ends h hpos hsmall hsbrk
  obtain ⟨free₁, h₁, _, _, y, hy, hlen⟩ := request_spec h hpos hsmall (hrequest n₁ (le_refl n₁))
  obtain ⟨f₁, hf₁, hfirst₁⟩ := h₁.first
  obtain ⟨k₁, hk₁, hway⟩ := reached_first (h₁.layout.circle.reaches
    (h₁.layout.circle.next_mem hf₁) (mem_insert_of_mem hy))
  refine ⟨k + 1 + n₁ + k₁ + 1, fun rounds hle => ?_⟩
  have hlt : k + n₁ < rounds := by omega
  rcases search_walk hfirst hrequest hfirst₁ hk hlt with hok | ⟨n, hn, heq⟩
  · exact hok
  · rw [heq]
    exact search_finds hfirst₁ hlen hk₁ hway (by omega)

-- ==== runs

/-- The heap before or after its first use. Its memory begins at `low`. -/
def Inv (low : Nat) (s : Malloc) : Prop :=
  s.Fresh ∧ s.list + Header.size ≤ low ∧ low ≤ s.heap.mCurrent ∨ ∃ free, s.Sound low free s.live

theorem Inv.firstCall (h : s.Inv low) : ∃ free, s.firstCall.Sound low free s.live ∧
    s.firstCall.list = s.list ∧ s.firstCall.live = s.live ∧
    s.firstCall.heap = s.heap := by
  rcases h with ⟨⟨hfirst, hlive, hrequested, _⟩, hunder, habove⟩ | ⟨free, h⟩
  · have hcall : s.firstCall =
        { s with
          headers := update s.headers s.list { next := s.list, len := 0 }
          first := some s.list } := by
      unfold Malloc.firstCall
      rw [hfirst]
    rw [hcall]
    have hlist : s.list < low := lt_of_lt_of_le (Nat.lt_add_of_pos_right Header.size_pos) hunder
    refine ⟨∅, ⟨⟨?_, ?_, hlist, ?_, ?_, ?_, ?_, ?_⟩, ?_, ⟨s.list, ?_, rfl⟩, habove⟩, rfl, rfl, rfl⟩
    · refine Circle.singleton ?_
      show (update s.headers s.list _ s.list).next = s.list
      rw [update_self]
    · show (update s.headers s.list _ s.list).len = 0
      rw [update_self]
    · rw [hlive]
      exact fun a ha => absurd ha (notMem_empty a)
    · rw [hlive]
      exact fun a ha => absurd ha (notMem_empty a)
    · exact disjoint_empty_left _
    · rw [hlive]
      exact Tiled.empty
    · rw [hlive]
      exact hrequested.symm
    · exact fun a ha => absurd ha (notMem_empty a)
    · exact mem_insert_self s.list ∅
  · obtain ⟨f, _, hfirst⟩ := h.first
    have hcall : s.firstCall = s := by
      unfold Malloc.firstCall
      rw [hfirst]
    rw [hcall]
    exact ⟨free, h, rfl, rfl, rfl⟩

theorem Inv.ksbrk (h : s.Inv low) (hksbrk : s.ksbrk amount = .ok (ptr, s')) : s'.Inv low := by
  obtain ⟨heap, rfl, _, hle, _⟩ := ksbrk_spec hksbrk
  rcases h with ⟨⟨hfirst, hlive, hrequested, hown⟩, hunder, habove⟩ | ⟨free, h⟩
  · exact .inl ⟨⟨hfirst, hlive, hrequested, hown.trans hle⟩, hunder, habove.trans hle⟩
  · refine .inr ⟨free, ⟨?_, h.settled, h.first, h.above.trans hle⟩⟩
    exact { h.layout with
      below := fun a ha => (h.layout.below a ha).trans hle }

/-- Which blocks are in use is not written down anywhere. -/
theorem Sound.relabel (h : s.Sound low free live) (blocks : Finset Nat) :
    Sound { s with live := blocks } low free live :=
  ⟨h.layout, h.settled, h.first, h.above⟩

/-- What `malloc` returns is a block of the right length. -/
theorem malloc_spec (h : s.Inv low) (hmodest : size ≤ 0xFFFFEFF8)
    (hmalloc : s.malloc size rounds = .ok (ptr, s')) :
    ∃ free block, ptr = block + Header.size ∧ s'.Sound low free (insert block s.live) ∧
      s'.headers.lenOf block = trueSize size ∧ s'.live = s.live := by
  obtain ⟨free, hsound, _, hlive, _⟩ := h.firstCall
  obtain ⟨f, hf, hfirst⟩ := hsound.first
  unfold Malloc.malloc at hmalloc
  dsimp only at hmalloc
  rw [hfirst] at hmalloc
  dsimp only at hmalloc
  split at hmalloc
  · cases hmalloc
  next block s₂ hsearch =>
  obtain ⟨hptr, hs'⟩ := ok_pair hmalloc
  obtain ⟨free', hsound', _, hlen, _, hlive'⟩ := search_spec
    (trueSize_pos size) (trueSize_le hmodest) hsound hf hsearch
  rw [← hs']
  exact ⟨free', block, hptr.symm, hsound', hlen, hlive'.trans hlive⟩

/-- What a call leaves. -/
theorem step_inv (h : s.Inv low) (hsmall : s.Modest a)
    (hstep : step a s = .ok s') : s'.Inv low := by
  unfold step at hstep
  split at hstep
  next size rounds =>
    split at hstep
    · cases hstep
    next ptr s₁ hmalloc =>
    injection hstep with hs'
    obtain ⟨free', block, hptr, hsound, _, hlive⟩ := malloc_spec h hsmall hmalloc
    rw [← hs', hptr, Nat.add_sub_cancel, hlive]
    exact .inr ⟨free', hsound.relabel _⟩
  next block rounds =>
    obtain ⟨hmem, hstep⟩ := check_eq_ok.1 hstep
    split at hstep
    · cases hstep
    next s₁ hfree =>
    injection hstep with hs'
    rcases h with ⟨⟨_, hlive, _⟩, _⟩ | ⟨free, h⟩
    · rw [hlive] at hmem
      exact absurd hmem (notMem_empty block)
    rw [← insert_erase hmem] at h
    obtain ⟨free', hsound, _, hlive, _⟩ := free_spec h (notMem_erase block s.live) hfree
    rw [← hs', hlive]
    exact .inr ⟨free', hsound.relabel _⟩
  next amount =>
  split at hstep
  · cases hstep
  next hksbrk =>
  injection hstep with hs'
  exact hs' ▸ h.ksbrk hksbrk

/-- Small sizes are modest. -/
theorem modest_of_small (h : s.SmallSizes a) : s.Modest a := by
  cases a with
  | malloc size rounds => exact le_trans (le_of_lt h) (by decide)
  | free block rounds => trivial
  | ksbrk amount => trivial

/-- The invariant, in every run. -/
theorem inv_of_reach (h : allocator.Reach SmallSizes s) : ∃ low, s.Inv low := by
  refine h.invariant (I := fun s => ∃ low, s.Inv low) ?_ ?_
  · exact fun s hboot => ⟨_, .inl ⟨hboot, hboot.2.2.2, le_rfl⟩⟩
  · rintro s s' a ⟨low, hinv⟩ hsmall hstep
    exact ⟨low, step_inv hinv (modest_of_small hsmall) hstep⟩

theorem inv_of_reachFrom (h : (allocatorFrom low).Reach Modest s) : s.Inv low := by
  refine h.invariant (I := Inv low) ?_ ?_
  · rintro s ⟨hfresh, hlow⟩
    exact .inl ⟨hfresh, hlow ▸ hfresh.2.2.2, hlow.ge⟩
  · exact fun _ _ _ hinv hmodest hstep => step_inv hinv hmodest hstep

theorem Inv.intact (h : s.Inv low) : s.Intact := by
  rcases h with ⟨⟨hfirst, hlive, hrequested, _⟩, _⟩ | ⟨free, h⟩
  · refine ⟨∅, fun _ => rfl, fun hne => absurd hfirst hne, disjoint_empty_left _, ?_, ?_, ?_⟩
    · rw [hlive]
      exact fun a ha => absurd ha (notMem_empty a)
    · rw [hlive]
      exact fun a ha => absurd ha (notMem_empty a)
    · rw [hlive, hrequested]
      rfl
  obtain ⟨f, hf, hfirst⟩ := h.first
  refine ⟨free, fun hnone => ?_, fun _ => ⟨h.layout.circle, ?_,
    ⟨f, hf, hfirst⟩, ?_⟩, h.layout.disjoint, ?_, ?_, ?_⟩
  · cases hnone.symm.trans hfirst
  · exact fun a ha => h.layout.lowest a (mem_union_left s.live ha)
  · intro a ha b hb htouch
    refine h.settled a ha id ?_
    rw [h.layout.next_of_touch ha hb htouch]
    exact htouch
  · exact fun a ha => ⟨h.layout.lowest a ha, h.layout.tiled.pos a ha, h.layout.below a ha⟩
  · intro a ha b hb hne
    rcases lt_or_gt_of_ne hne with hlt | hlt
    · exact .inl (h.layout.tiled.apart a ha b hb hlt)
    · exact .inr (h.layout.tiled.apart b hb a ha hlt)
  · have hsum := h.layout.sum
    rw [sum_union h.layout.disjoint] at hsum
    exact hsum

theorem Inv.freeEnds (h : s.Inv low) : s.FreeEnds := by
  intro block hmem
  rcases h with ⟨⟨_, hlive, _⟩, _⟩ | ⟨free, h⟩
  · rw [hlive] at hmem
    exact absurd hmem (notMem_empty block)
  rw [← insert_erase hmem] at h
  obtain ⟨n, s', hfree⟩ := free_ends h
  refine ⟨n, fun rounds hle => ?_⟩
  unfold step
  dsimp only
  rw [if_pos hmem, hfree rounds hle]
  exact ⟨_, rfl⟩

/-- `malloc` returns, if `ksbrk` would. -/
theorem Inv.malloc_ends (h : s.Inv low) (hmodest : size ≤ 0xFFFFEFF8)
    (hsbrk : s.heap.sbrk (kernelAskSize (trueSize size)) ≠ none) :
    ∃ n, ∀ rounds ≥ n, ∃ ptr s', s.malloc size rounds = .ok (ptr, s') := by
  obtain ⟨free, hsound, _, _, hheap⟩ := h.firstCall
  obtain ⟨f, hf, hfirst⟩ := hsound.first
  rw [← hheap] at hsbrk
  obtain ⟨n, hends⟩ := search_ends hsound (trueSize_pos size) (trueSize_le hmodest) hfirst hf hsbrk
  refine ⟨n, fun rounds hle => ?_⟩
  obtain ⟨⟨p, s₁⟩, hsearch⟩ := hends rounds hle
  refine ⟨p + Header.size, s₁, ?_⟩
  unfold Malloc.malloc
  dsimp only
  rw [hfirst]
  dsimp only
  unfold nextOf at hsearch
  rw [hsearch]

theorem Inv.mallocEnds (h : s.Inv low) : s.MallocEnds := by
  intro size hsize hsbrk
  have hmodest : size ≤ 0xFFFFEFF8 := le_trans (le_of_lt hsize) (by decide)
  obtain ⟨n, hends⟩ := h.malloc_ends hmodest hsbrk
  refine ⟨n, fun rounds hle => ?_⟩
  obtain ⟨ptr, s₁, hmalloc⟩ := hends rounds hle
  unfold step
  dsimp only
  rw [hmalloc]
  exact ⟨_, rfl⟩

/-- Along every sequence of calls the free list stays circular, in order
and merged, no two blocks overlap and none is lost; and the next call of
`malloc` or `free` returns. -/
theorem heap_intact (h : allocator.Reach SmallSizes s) : s.Intact ∧ s.FreeEnds ∧ s.MallocEnds := by
  obtain ⟨low, hinv⟩ := inv_of_reach h
  exact ⟨hinv.intact, hinv.freeEnds, hinv.mallocEnds⟩

/-- A heap of eight pages from address 4096 on. -/
def eightPages : Malloc :=
  { list := 8
    headers := fun _ => ⟨0, 0⟩
    first := none
    heap := { high := 36863, mCurrent := 4096 }
    live := ∅
    requested := 0 }

/-- Three blocks are taken from the end of the first request, and the one
in the middle is given back. -/
theorem heap_intact_three : ∃ s, allocator.Reach SmallSizes s ∧
    s.live = {11880, 12176} ∧ s.first = some 4096 ∧ s.requested = 1024 ∧
    s.Intact ∧ s.FreeEnds ∧ s.MallocEnds := by
  obtain ⟨s, hreach, hlive, hfirst, hrequested⟩ := Machine.exists_guarded
    (M := allocator) (G := SmallSizes) (P := fun s => s.live = {11880, 12176} ∧
      s.first = some 4096 ∧ s.requested = 1024)
    (show eightPages.Fresh from ⟨rfl, rfl, rfl, by decide⟩)
    [.malloc 100 9, .malloc 200 9, .malloc 77 9, .free 11968 9]
    (by decide +kernel) (by decide +kernel)
  exact ⟨s, hreach, hlive, hfirst, hrequested, heap_intact hreach⟩

end Malloc

end Puppy.Libc
