/-
The priority queue keeps its order.

`pqueue` asks its comparator for the sign of an answer only. A comparator
agrees with a key (`Orders`) if it answers that the first element has
priority exactly when its key is smaller; elements with equal keys it may
put in either order. Up to that, a queue that is a heap by the key stays
one. The key is a parameter of the statement and not of the queue: a heap
by the keys that the elements had when they were inserted is not one by the
keys that they have now.
-/
import Puppy.Lib.Heap
import Puppy.Libc.PQueue

namespace Puppy.Libc.PQueue

open Lib Lib.Heap List

variable {ε α κ : Type} [LinearOrder κ] {compare : α → α → Except ε Int}
  {key : α → κ} {data data' : List α} {idx child : Nat}

/-- The comparator gives priority to smaller keys. -/
def Orders (compare : α → α → Except ε Int) (key : α → κ) : Prop :=
  ∀ a b order, compare a b = .ok order → (order < 0 ↔ key b ≤ key a) ∧ (0 < order ↔ key a < key b)

section

variable (hcmp : Orders compare key)

include hcmp

/-- What the answer means at two places of the queue. -/
theorem compareAt_le {i j : Nat} {order : Int} (hi : i < data.length)
    (hj : j < data.length) (h : compareAt compare data i j = .ok order) :
    (order < 0 ↔ Le key data j i) ∧ (0 < order ↔ ¬ Le key data j i) := by
  unfold compareAt at h
  rw [getElem?_eq_getElem hi, getElem?_eq_getElem hj] at h
  have horder := hcmp _ _ _ h
  have hle : Le key data j i ↔ key data[j] ≤ key data[i] := by
    constructor
    · intro hle
      exact hle _ _ (getElem?_eq_getElem hj) (getElem?_eq_getElem hi)
    intro hle a b ha hb
    rw [getElem?_eq_getElem hj] at ha
    rw [getElem?_eq_getElem hi] at hb
    rw [← Option.some.inj ha, ← Option.some.inj hb]
    exact hle
  rw [hle, not_le]
  exact horder

/-- An element rises to its place. There is a round for every move. -/
theorem up_heap : ∀ {rounds : Nat} {idx : Nat} {data : List α},
    idx ≤ rounds → idx < data.length → Rising key data idx →
    up compare rounds idx data = .ok data' → IsHeap key data' := by
  intro rounds
  induction rounds with
  | zero =>
    intro idx data hrounds _ hrise h
    exact of_ok h (hrise.done (fun hpos => absurd hpos (by omega)))
  | succ rounds ih =>
    intro idx data hrounds hlen hrise h
    unfold up at h
    by_cases hzero : idx = 0
    · rw [if_pos hzero] at h
      exact of_ok h (hrise.done (fun hpos => absurd hzero hpos.ne'))
    rw [if_neg hzero] at h
    have hpos := Nat.pos_of_ne_zero hzero
    have hlt : parentIdx idx < idx := parent_lt hpos
    cases horder : compareAt compare data (parentIdx idx) idx with
    | error e =>
      rw [horder] at h
      cases h
    | ok order =>
      rw [horder] at h
      dsimp only at h
      obtain ⟨hswap, hstay⟩ := compareAt_le hcmp (hlt.trans hlen) hlen horder
      by_cases hneg : order < 0
      · rw [if_pos hneg] at h
        refine ih (Nat.le_of_lt_succ (hlt.trans_le hrounds)) ?_
          (hrise.move hpos hlen (hswap.1 hneg)) h
        rw [length_swap]
        exact hlt.trans hlen
      · rw [if_neg hneg] at h
        refine of_ok h ?_
        refine hrise.done (fun _ => ?_)
        exact Le.of_not_le (fun hle => hneg (hswap.2 hle))

/-- What `larger` decides between a place and one further down. -/
theorem larger_cases {largest : Nat} (hlt : idx < child)
    (h : larger compare data idx child = .ok largest) :
    (largest = idx ∧ Le key data idx child) ∨
      (largest = child ∧ child < data.length ∧ Le key data child idx) := by
  unfold larger at h
  by_cases hchild : child < data.length
  · rw [if_pos hchild] at h
    have hidx := hlt.trans hchild
    cases horder : compareAt compare data child idx with
    | error e =>
      rw [horder] at h
      cases h
    | ok order =>
      rw [horder] at h
      injection h with h
      obtain ⟨_, hless⟩ := compareAt_le hcmp hchild hidx horder
      by_cases hpos : 0 < order
      · rw [if_pos hpos] at h
        exact .inr ⟨h.symm, hchild, Le.of_not_le (hless.1 hpos)⟩
      · rw [if_neg hpos] at h
        exact .inl ⟨h.symm, by_contra fun hle => hpos (hless.2 hle)⟩
  · rw [if_neg hchild] at h
    injection h with h
    exact .inl ⟨h.symm, .past (Nat.not_lt.1 hchild)⟩

/-- The place that `down` compares with, and what is known of it: the
element stays, or the smaller of its children takes its place. -/
theorem largest_cases {largest largest' : Nat}
    (hleft : larger compare data idx (leftIdx idx) = .ok largest)
    (hright : larger compare data largest (rightIdx idx) = .ok largest') :
    (largest' = idx ∧ ∀ c, 0 < c → parent c = idx → Le key data idx c) ∨
      (0 < largest' ∧ parent largest' = idx ∧ largest' < data.length ∧ Le key data largest' idx ∧
        ∀ c, 0 < c → parent c = idx → Le key data largest' c) := by
  -- both children, from what is known of each
  have hboth : ∀ {x : Nat}, Le key data x (leftIdx idx) → Le key data x (rightIdx idx) →
      ∀ c, 0 < c → parent c = idx → Le key data x c := by
    intro x hl hr c hc hchild
    rcases (parent_eq_iff hc).1 hchild with heq | heq
    · rw [heq]
      exact hl
    · rw [heq]
      exact hr
  have hll : idx < leftIdx idx := by
    unfold leftIdx
    omega
  have hlr : leftIdx idx < rightIdx idx := by
    unfold leftIdx rightIdx
    omega
  rcases larger_cases hcmp hll hleft with ⟨heq, hle⟩ | ⟨heq, hlen, hle⟩
  · rw [heq] at hright
    rcases larger_cases hcmp (hll.trans hlr) hright with
      ⟨heq', hle'⟩ | ⟨heq', hlen', hle'⟩
    · exact .inl ⟨heq', hboth hle hle'⟩
    right
    rw [heq']
    refine ⟨Nat.succ_pos _, ?_, hlen', hle', hboth ?_ (.refl _)⟩
    · exact (parent_eq_iff (Nat.succ_pos _)).2 (.inr rfl)
    · exact hle'.trans ((hll.trans hlr).trans hlen') hle
  rw [heq] at hright
  right
  rcases larger_cases hcmp hlr hright with
    ⟨heq', hle'⟩ | ⟨heq', hlen', hle'⟩
  · rw [heq']
    refine ⟨Nat.succ_pos _, ?_, hlen, hle, hboth (.refl _) hle'⟩
    exact (parent_eq_iff (Nat.succ_pos _)).2 (.inl rfl)
  rw [heq']
  refine ⟨Nat.succ_pos _, ?_, hlen', hle'.trans hlen hle, hboth hle' (.refl _)⟩
  exact (parent_eq_iff (Nat.succ_pos _)).2 (.inr rfl)

/-- An element sinks to its place. -/
theorem down_heap : ∀ {rounds : Nat} {idx : Nat} {data : List α},
    data.length - idx ≤ rounds → Sinking key data idx →
    down compare rounds idx data = .ok data' → IsHeap key data' := by
  intro rounds
  induction rounds with
  | zero =>
    intro idx data hrounds hsink h
    refine of_ok h ?_
    refine hsink.done (fun c hc hchild => .past ?_)
    have := parent_lt hc
    omega
  | succ rounds ih =>
    intro idx data hrounds hsink h
    unfold down at h
    cases hleft : larger compare data idx (leftIdx idx) with
    | error e =>
      rw [hleft] at h
      cases h
    | ok largest =>
      rw [hleft] at h
      dsimp only at h
      cases hright : larger compare data largest (rightIdx idx) with
      | error e =>
        rw [hright] at h
        cases h
      | ok largest' =>
        rw [hright] at h
        dsimp only at h
        rcases largest_cases hcmp hleft hright with
          ⟨heq, hstay⟩ | ⟨hpos, hchild, hlen, hle, hleast⟩
        · rw [if_pos heq] at h
          exact of_ok h (hsink.done hstay)
        have hlt : idx < largest' := hchild ▸ parent_lt hpos
        rw [if_neg hlt.ne'] at h
        refine ih ?_ (hsink.move hpos hchild hlen hle hleast) h
        rw [length_swap]
        omega

/-- A heap with one more element. -/
theorem insert_heap {a : α} (hheap : IsHeap key data)
    (h : insert compare a data = .ok data') : IsHeap key data' := by
  refine up_heap hcmp le_rfl ?_ (Rising.append hheap a) h
  rw [length_append, length_singleton]
  exact Nat.lt_succ_self _

/-- A heap without its first element. -/
theorem pop_heap {top : α} {rest : List α} (hheap : IsHeap key (top :: rest))
    (h : pop compare rest = .ok data') : IsHeap key data' := by
  unfold pop at h
  cases hlast : rest.getLast? with
  | none =>
    rw [hlast] at h
    exact of_ok h .nil
  | some back =>
    rw [hlast] at h
    have hsplit : IsHeap key (top :: (rest.dropLast ++ [back])) := by
      rw [dropLast_append_getLast? back hlast]
      exact hheap
    exact down_heap hcmp (Nat.sub_le _ _) (Sinking.replace hsplit) h

end

-- ==== the loops end

/-- A move up takes no more rounds than its index. -/
theorem up_succ : ∀ {rounds idx : Nat} {data : List α}, idx ≤ rounds →
    up compare (rounds + 1) idx data = up compare rounds idx data := by
  intro rounds
  induction rounds with
  | zero =>
    intro idx data h
    simp [up, Nat.le_zero.1 h]
  | succ rounds ih =>
    intro idx data h
    by_cases hzero : idx = 0
    · simp [up, hzero]
    have hlt : parentIdx idx < idx := parent_lt (Nat.pos_of_ne_zero hzero)
    rw [up, ih (Nat.le_of_lt_succ (hlt.trans_le h)), up]

theorem larger_eq {largest : Nat} (h : larger compare data idx child = .ok largest) :
    largest = idx ∨ largest = child := by
  unfold larger at h
  split at h
  · split at h
    · cases h
    · injection h with h
      split at h <;> simp [h]
  · injection h with h
    exact .inl h.symm

/-- A move down takes no more rounds than there are elements from its index
on. -/
theorem down_succ : ∀ {rounds idx : Nat} {data : List α}, data.length - idx ≤ rounds →
    down compare (rounds + 1) idx data = down compare rounds idx data := by
  intro rounds
  induction rounds with
  | zero =>
    intro idx data h
    have hleft : ¬ 2 * idx + 1 < data.length := by omega
    have hright : ¬ 2 * idx + 2 < data.length := by omega
    simp [down, larger, leftIdx, rightIdx, hleft, hright]
  | succ rounds ih =>
    intro idx data h
    rw [down, down]
    cases hleft : larger compare data idx (leftIdx idx) with
    | error e => rfl
    | ok largest =>
      dsimp only
      cases hright : larger compare data largest (rightIdx idx) with
      | error e => rfl
      | ok largest' =>
        have hl := larger_eq hleft
        have hr := larger_eq hright
        unfold leftIdx at hl
        unfold rightIdx at hr
        dsimp only
        split
        · rfl
        · refine ih ?_
          rw [length_swap]
          omega

-- ==== keys that do not change

/-- `sleep_queue_helper::compare`, for elements that carry their key. -/
def compareBy (sleeptill : α → κ) (p1 p2 : α) : Except Unit Int :=
  .ok (if sleeptill p2 ≤ sleeptill p1 then -1 else 1)

/-- A queue, and what has been put into it and taken out. -/
structure Log (α : Type) where
  data : List α := []
  inserted : List α := []
  popped : List α := []

namespace Log

/-- `insert`, or `pop` where there is nothing to insert. Nothing can be
popped from an empty queue. -/
def step (sleeptill : α → κ) (q : Log α) : Option α → Except Unit (Log α)
  | some a => do
    let data ← insert (compareBy sleeptill) a q.data
    .ok { q with data := data, inserted := a :: q.inserted }
  | none =>
    match q.data with
    | [] => .error ()
    | top :: rest => do
      let data ← pop (compareBy sleeptill) rest
      .ok { q with data := data, popped := top :: q.popped }

/-- The queue is a heap of what is still in it, and goes on. -/
structure Serves (sleeptill : α → κ) (q : Log α) : Prop where
  heap : IsHeap sleeptill q.data
  kept : (q.popped ++ q.data).Perm q.inserted
  first : ∀ top rest, q.data = top :: rest → ∀ a ∈ q.data, sleeptill top ≤ sleeptill a
  goes : ∀ c, c ≠ none ∨ q.data ≠ [] → ∃ q', q.step sleeptill c = .ok q'

theorem step_sat {sleeptill : α → κ} {q : Log α} (hheap : IsHeap sleeptill q.data)
    (hkept : (q.popped ++ q.data).Perm q.inserted) (c : Option α) :
    Sat (q.step sleeptill c)
      (fun q => IsHeap sleeptill q.data ∧ (q.popped ++ q.data).Perm q.inserted)
      (fun _ => c = none ∧ q.data = []) := by
  have hcmp : Orders (compareBy sleeptill) sleeptill := by
    intro a b order h
    injection h with h
    rcases le_or_gt (sleeptill b) (sleeptill a) with hle | hlt
    · simp [← h, hle]
    · simp [← h, hlt, hlt.not_ge]
  have hE : ∀ a b e, compareBy sleeptill a b = .error e → (c = none ∧ q.data = []) := by
    intro a b e h
    cases h
  cases c with
  | some a =>
    refine Sat.bind (insert_sat hE a q.data) (fun data h hperm => ?_)
    refine ⟨insert_heap hcmp hheap h, ?_⟩
    exact (hperm.append_left _).trans (perm_middle.trans (hkept.cons a))
  | none =>
    unfold step
    dsimp only
    split
    next hempty => exact ⟨rfl, hempty⟩
    next top rest hdata =>
    rw [hdata] at hheap hkept
    refine Sat.bind (pop_sat hE rest) (fun data h hperm => ?_)
    refine ⟨pop_heap hcmp hheap h, ?_⟩
    exact ((hperm.append_left _).cons top).trans (perm_middle.symm.trans hkept)

end Log

/-- Whatever is inserted and popped, the queue serves; and neither loop goes
on after the rounds that there are for it. -/
theorem queue_serves (sleeptill : α → κ) (calls : List (Option α)) :
    Sat (calls.foldlM (Log.step sleeptill) {}) (Log.Serves sleeptill) (fun _ => True) ∧
      ∀ rounds (data : List α), data.length ≤ rounds →
        (∀ a, up (compareBy sleeptill) (rounds + 1) data.length (data ++ [a])
          = up (compareBy sleeptill) rounds data.length (data ++ [a])) ∧
        down (compareBy sleeptill) (rounds + 1) 0 data
          = down (compareBy sleeptill) rounds 0 data := by
  refine ⟨?_, fun rounds data h => ⟨fun a => up_succ h, down_succ h⟩⟩
  have hrun := Sat.foldlM_mem (l := calls) (s := ({} : Log α))
    (I := fun q => IsHeap sleeptill q.data ∧ (q.popped ++ q.data).Perm q.inserted) ⟨.nil, .refl _⟩
    (fun c _ q hq => (q.step_sat hq.1 hq.2 c).weaken fun _ _ => trivial)
  refine hrun.mono fun q hq => ⟨hq.1, hq.2, ?_, ?_⟩
  · intro top rest hdata a ha
    obtain ⟨i, hi⟩ := mem_iff_getElem?.1 ha
    exact hq.1.first i top a (by simp [hdata]) hi
  intro c hc
  have hstep := q.step_sat hq.1 hq.2 c
  cases h : q.step sleeptill c with
  | ok q' => exact ⟨q', rfl⟩
  | error e =>
    have := hstep.failure h
    simp_all

end Puppy.Libc.PQueue
