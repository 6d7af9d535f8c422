/-
Binary heaps in a list, by a key.

The children of the place `i` are `2 * i + 1` and `2 * i + 2`. In a heap no
element has a smaller key than its parent, so the first one has the
smallest key of all (`IsHeap.first`).

# One element out of place

An element that is put at the end may be too small for its place, and one
that is put at the front too large. The first has to rise and the second to
sink. For either there is a predicate that allows for it (`Rising`,
`Sinking`), a lemma for the exchange that moves it on, and one for the end.
-/
import Mathlib.Tactic

namespace Puppy.Lib.Heap

open List

variable {α κ : Type} [LinearOrder κ] {key : α → κ} {data : List α} {i j k c : Nat}

def parent (i : Nat) : Nat := (i - 1) / 2

theorem parent_lt (h : 0 < i) : parent i < i := by
  unfold parent
  omega

theorem parent_eq_iff (h : 0 < c) : parent c = i ↔ c = 2 * i + 1 ∨ c = 2 * i + 2 := by
  unfold parent
  omega

/-- The key at the place `i` is not above that at `j`. -/
def Le (key : α → κ) (data : List α) (i j : Nat) : Prop :=
  ∀ a b, data[i]? = some a → data[j]? = some b → key a ≤ key b

theorem Le.refl (i : Nat) : Le key data i i := by
  intro a b ha hb
  rw [Option.mem_unique ha hb]

theorem Le.trans (h : Le key data i j) (hj : j < data.length)
    (h' : Le key data j k) : Le key data i k := by
  intro a b ha hb
  have hmid := getElem?_eq_getElem hj
  exact le_trans (h a _ ha hmid) (h' _ b hmid hb)

theorem Le.of_not_le (h : ¬ Le key data j i) : Le key data i j := by
  intro a b ha hb
  by_contra hlt
  refine h ?_
  intro b' a' hb' ha'
  rw [Option.mem_unique ha' ha, Option.mem_unique hb' hb]
  exact le_of_lt (not_le.1 hlt)

/-- A place past the end is above everything. -/
theorem Le.past (h : data.length ≤ j) : Le key data i j := by
  intro a b _ hb
  rw [getElem?_eq_none h] at hb
  cases hb

theorem getElem?_swap (hi : i < data.length) (hj : j < data.length) (k : Nat) :
    (data.swap i j)[k]? = data[Equiv.swap i j k]? := by
  by_cases hk : k < data.length
  · have hk' : k < (data.swap i j).length := by
      rw [length_swap]
      exact hk
    rw [getElem?_eq_getElem hk', getElem_swap]
    by_cases hki : k = i
    · have hσ : Equiv.swap i j k = j := by rw [hki, Equiv.swap_apply_left]
      rw [dif_pos ⟨hki, hj⟩, hσ, getElem?_eq_getElem hj]
    rw [dif_neg (fun h => hki h.1)]
    by_cases hkj : k = j
    · have hσ : Equiv.swap i j k = i := by rw [hkj, Equiv.swap_apply_right]
      rw [dif_pos ⟨hkj, hi⟩, hσ, getElem?_eq_getElem hi]
    · rw [dif_neg (fun h => hkj h.1), Equiv.swap_apply_of_ne_of_ne hki hkj, getElem?_eq_getElem hk]
  · have hki : k ≠ i := fun heq => hk (heq ▸ hi)
    have hkj : k ≠ j := fun heq => hk (heq ▸ hj)
    rw [Equiv.swap_apply_of_ne_of_ne hki hkj, getElem?_eq_none, getElem?_eq_none (Nat.not_lt.1 hk)]
    rw [length_swap]
    exact Nat.not_lt.1 hk

/-- After an exchange. -/
theorem le_swap (hi : i < data.length) (hj : j < data.length) {x y : Nat} :
    Le key (data.swap i j) x y ↔ Le key data (Equiv.swap i j x) (Equiv.swap i j y) := by
  unfold Le
  rw [getElem?_swap hi hj, getElem?_swap hi hj]

-- ==== heaps

def IsHeap (key : α → κ) (data : List α) : Prop :=
  ∀ i, 0 < i → Le key data (parent i) i

theorem IsHeap.nil : IsHeap key [] :=
  fun _ _ => .past zero_le

/-- The first element of a heap has the smallest key. -/
theorem IsHeap.first (h : IsHeap key data) (i : Nat) : Le key data 0 i := by
  induction i using Nat.strong_induction_on with
  | _ i ih =>
    by_cases hzero : i = 0
    · rw [hzero]
      exact .refl 0
    by_cases hlen : i < data.length
    · have hpos := Nat.pos_of_ne_zero hzero
      have hparent := parent_lt hpos
      exact (ih _ hparent).trans (hparent.trans hlen) (h i hpos)
    · exact .past (Nat.not_lt.1 hlen)

theorem IsHeap.congr {key' : α → κ} (h : IsHeap key data)
    (hkey : ∀ a ∈ data, key' a = key a) : IsHeap key' data := by
  intro i hi a b ha hb
  rw [hkey a (mem_of_getElem? ha), hkey b (mem_of_getElem? hb)]
  exact h i hi a b ha hb

-- ==== rising

/-- A heap, but the element at `i` may be too small for its place. -/
structure Rising (key : α → κ) (data : List α) (i : Nat) : Prop where
  others : ∀ j, 0 < j → j ≠ i → Le key data (parent j) j
  skip : 0 < i → ∀ c, 0 < c → parent c = i → Le key data (parent i) c

theorem Rising.done (h : Rising key data i)
    (hstay : 0 < i → Le key data (parent i) i) : IsHeap key data := by
  intro j hj
  by_cases hji : j = i
  · rw [hji] at hj ⊢
    exact hstay hj
  · exact h.others j hj hji

/-- The element changes places with its parent. -/
theorem Rising.move (h : Rising key data i) (hpos : 0 < i)
    (hlen : i < data.length) (hle : Le key data i (parent i)) :
    Rising key (data.swap i (parent i)) (parent i) := by
  have hlt := parent_lt hpos
  have hlen' := hlt.trans hlen
  constructor
  · intro j hj hne
    rw [le_swap hlen hlen']
    by_cases hji : j = i
    · rw [hji, Equiv.swap_apply_right, Equiv.swap_apply_left]
      exact hle
    rw [Equiv.swap_apply_of_ne_of_ne hji hne]
    by_cases hchild : parent j = i
    · rw [hchild, Equiv.swap_apply_left]
      exact h.skip hpos j hj hchild
    by_cases hsibling : parent j = parent i
    · have hup := h.others j hj hji
      rw [hsibling] at hup ⊢
      rw [Equiv.swap_apply_right]
      exact hle.trans hlen' hup
    · rw [Equiv.swap_apply_of_ne_of_ne hchild hsibling]
      exact h.others j hj hji
  · intro hpos' c hc hchild
    rw [le_swap hlen hlen']
    have hlt' := parent_lt hpos'
    have hup : Le key data (parent (parent i)) (parent i) := h.others _ hpos' (by omega)
    rw [Equiv.swap_apply_of_ne_of_ne (by omega) (by omega)]
    by_cases hci : c = i
    · rw [hci, Equiv.swap_apply_left]
      exact hup
    have hcp : c ≠ parent i := by
      have := parent_lt hc
      omega
    rw [Equiv.swap_apply_of_ne_of_ne hci hcp]
    have hdown := h.others c hc hci
    rw [hchild] at hdown
    exact hup.trans hlen' hdown

/-- A new element at the end. -/
theorem Rising.append (h : IsHeap key data) (a : α) : Rising key (data ++ [a]) data.length := by
  constructor
  · intro j hj hne
    by_cases hlen : j < data.length
    · unfold Le
      rw [getElem?_append_left hlen, getElem?_append_left ((parent_lt hj).trans hlen)]
      exact h j hj
    · refine .past ?_
      rw [length_append, length_singleton]
      omega
  · intro _ c hc hchild
    refine .past ?_
    have hlt := parent_lt hc
    rw [length_append, length_singleton]
    omega

-- ==== sinking

/-- A heap, but the element at `i` may be too large for its place. -/
structure Sinking (key : α → κ) (data : List α) (i : Nat) : Prop where
  others : ∀ j, 0 < j → parent j ≠ i → Le key data (parent j) j
  skip : 0 < i → ∀ c, 0 < c → parent c = i → Le key data (parent i) c

theorem Sinking.done (h : Sinking key data i)
    (hstay : ∀ c, 0 < c → parent c = i → Le key data i c) :
    IsHeap key data := by
  intro j hj
  by_cases hji : parent j = i
  · rw [hji]
    exact hstay j hj hji
  · exact h.others j hj hji

/-- The element changes places with the smaller one of its children. -/
theorem Sinking.move (h : Sinking key data i) (hc : 0 < c)
    (hchild : parent c = i) (hlen : c < data.length)
    (hle : Le key data c i)
    (hleast : ∀ d, 0 < d → parent d = i → Le key data c d) :
    Sinking key (data.swap i c) c := by
  have hlt : i < c := hchild ▸ parent_lt hc
  have hlen' := hlt.trans hlen
  constructor
  · intro j hj hne
    rw [le_swap hlen' hlen]
    have hjp := parent_lt hj
    by_cases hsibling : parent j = i
    · rw [hsibling, Equiv.swap_apply_left]
      by_cases hjc : j = c
      · rw [hjc, Equiv.swap_apply_right]
        exact hle
      · rw [Equiv.swap_apply_of_ne_of_ne (by omega) hjc]
        exact hleast j hj hsibling
    rw [Equiv.swap_apply_of_ne_of_ne hsibling hne]
    by_cases hji : j = i
    · rw [hji, Equiv.swap_apply_left]
      exact h.skip (hji ▸ hj) c hc hchild
    · have hjc : j ≠ c := fun heq => hsibling (heq ▸ hchild)
      rw [Equiv.swap_apply_of_ne_of_ne hji hjc]
      exact h.others j hj hsibling
  · intro _ d hd hbelow
    have hdp := parent_lt hd
    rw [le_swap hlen' hlen, hchild, Equiv.swap_apply_left,
      Equiv.swap_apply_of_ne_of_ne (by omega) (by omega)]
    have hup := h.others d hd (by omega)
    rw [hbelow] at hup
    exact hup

/-- The last element takes the place of the first. -/
theorem Sinking.replace {top back : α} {rest : List α} (h : IsHeap key (top :: (rest ++ [back]))) :
    Sinking key (back :: rest) 0 := by
  refine ⟨?_, fun hpos => absurd hpos (lt_irrefl 0)⟩
  intro j hj hne
  by_cases hlen : j < rest.length + 1
  · have hsame : ∀ x, 0 < x → x < rest.length + 1 →
        (back :: rest)[x]? = (top :: (rest ++ [back]))[x]? := by
      intro x hx hlt
      obtain ⟨y, rfl⟩ := Nat.exists_eq_succ_of_ne_zero hx.ne'
      rw [getElem?_cons_succ, getElem?_cons_succ, getElem?_append_left (by omega)]
    have hlt := parent_lt hj
    unfold Le
    rw [hsame j hj hlen, hsame (parent j) (Nat.pos_of_ne_zero hne) (by omega)]
    exact h j hj
  · exact .past (by rw [length_cons]; omega)

end Puppy.Lib.Heap
