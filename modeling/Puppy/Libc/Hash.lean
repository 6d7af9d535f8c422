/-
Hash tables (include/libc/hash.h).

A table has `N` chains, and the index of a key decides in which of them its
pair is. A table is given a comparison of keys. Any equivalence will do under
which equal keys have one index. Insertion takes the pair of an equal key out
and puts the new one at the end of the chain, so no chain has two pairs with
equal keys, which is what makes it enough that `erase` takes out one.

`HashTable` is the table of the source, with its `slist`s. `HashBy` has the
same operations on lists of pairs, and that no key is there twice is part of
its type. The one does what the other does (`Depicts.step`), and that is what
the calls do to a map. `Hash` is for keys that are equal when they are the
same.
-/
import Puppy.Libc.Slist

namespace Puppy.Libc

open Function List Lib

variable {Key Value : Type} {index : Key → Nat} {eq : Key → Key → Bool} {N : Nat}

/-- What is asked of the parameters. -/
class Compares (index : Key → Nat) (eq : Key → Key → Bool) : Prop where
  equiv : Equivalence fun a b => eq a b = true
  index_eq : ∀ {a b}, eq a b = true → index a = index b

-- ==== the table

/-- `hash`. -/
structure HashTable (Key Value : Type) (index : Key → Nat) (eq : Key → Key → Bool) (N : Nat) where
  mData : Nat → Slist (Key × Value) := fun _ => {}

namespace HashTable

variable (t : HashTable Key Value index eq N)

def setEntry (idx : Nat) (entry : Slist (Key × Value)) : HashTable Key Value index eq N :=
  ⟨update t.mData idx entry⟩

def insert (key : Key) (value : Value) : Except Panic (HashTable Key Value index eq N) := do
  let idx := index key % N
  let (_, entry) ← if (t.mData idx).size = 0 then .ok (false, t.mData idx)
    else (t.mData idx).removeItem fun candidate => eq candidate.1 key
  let entry ← entry.add (key, value)
  .ok (t.setEntry idx entry)

def find (key : Key) : Except Panic (Option Value) := do
  let candidate ← (t.mData (index key % N)).findItem fun candidate => eq candidate.1 key
  .ok (candidate.map Prod.snd)

def erase (key : Key) : Except Panic (Bool × HashTable Key Value index eq N) := do
  let idx := index key % N
  let (done, entry) ← (t.mData idx).removeItem fun candidate => eq candidate.1 key
  .ok (done, t.setEntry idx entry)

def clear : Except Panic (HashTable Key Value index eq N) :=
  (range N).foldlM (fun t i => do
    let entry ← (t.mData i).clear
    .ok (t.setEntry i entry)) t

end HashTable

-- ==== chains that are lists

/-- A table whose chains are lists. -/
structure HashBy (Key Value : Type) (index : Key → Nat) (eq : Key → Key → Bool) (N : Nat) where
  mData : Nat → List (Key × Value)
  once : ∀ idx, (mData idx).Pairwise fun a b => eq a.1 b.1 = false

namespace HashBy

variable {chain : List (Key × Value)} {key k : Key}

/-- A new table. -/
def empty : HashBy Key Value index eq N := ⟨fun _ => [], fun _ => .nil⟩

variable (t : HashBy Key Value index eq N)

/-- The table with another chain at an index. -/
def setEntry (idx : Nat) (entry : List (Key × Value))
    (hentry : entry.Pairwise fun a b => eq a.1 b.1 = false) : HashBy Key Value index eq N where
  mData := update t.mData idx entry
  once := by
    intro j
    by_cases hj : j = idx
    · rw [hj, update_self]
      exact hentry
    · rw [update_of_ne hj]
      exact t.once j

def find (key : Key) : Option Value :=
  ((t.mData (index key % N)).find? fun candidate => eq candidate.1 key).map Prod.snd

/-- A chain without the pair of the key. -/
def rest (key : Key) : List (Key × Value) :=
  (t.mData (index key % N)).eraseP fun candidate => eq candidate.1 key

theorem once_rest (key : Key) : (t.rest key).Pairwise fun a b => eq a.1 b.1 = false :=
  (t.once _).sublist eraseP_sublist

def erase (key : Key) : HashBy Key Value index eq N :=
  t.setEntry (index key % N) (t.rest key) (t.once_rest key)

/-- One pair is taken out: that of the key, if it has one. -/
theorem find?_eraseP (hc : Equivalence fun a b => eq a b = true)
    (h : chain.Pairwise fun a b => eq a.1 b.1 = false) :
    (chain.eraseP fun c => eq c.1 key).find? (fun c => eq c.1 k) =
      if eq k key then none else chain.find? fun c => eq c.1 k := by
  induction chain with
  | nil => simp
  | cons c rest ih =>
    obtain ⟨hfirst, hrest⟩ := pairwise_cons.1 h
    cases hkey : eq c.1 key with
    | true =>
      rw [eraseP_cons, hkey, cond_true]
      split
      next hk =>
        rw [find?_eq_none]
        intro d hd hdk
        refine Bool.false_ne_true ((hfirst d hd).symm.trans ?_)
        exact hc.trans hkey (hc.symm (hc.trans hdk hk))
      next hk =>
      have hck : eq c.1 k = false := by
        apply Bool.eq_false_of_not_eq_true
        exact fun hck => hk (hc.trans (hc.symm hck) hkey)
      rw [find?_cons, hck]
    | false =>
      rw [eraseP_cons, hkey, cond_false, find?_cons, ih hrest, find?_cons]
      cases hck : eq c.1 k with
      | false => rfl
      | true =>
        have hk : ¬ eq k key = true := by
          intro hk
          exact Bool.false_ne_true (hkey.symm.trans (hc.trans hck hk))
        simp [hk]

variable [hc : Compares index eq]

/-- What a chain has without the pair of a key. -/
theorem find?_rest (key k : Key) : (t.rest key).find? (fun c => eq c.1 k) =
    if eq k key then none else (t.mData (index key % N)).find? fun c => eq c.1 k :=
  find?_eraseP hc.equiv (t.once _)

def insert (key : Key) (value : Value) : HashBy Key Value index eq N :=
  t.setEntry (index key % N) (t.rest key ++ [(key, value)]) (by
    rw [pairwise_append]
    refine ⟨t.once_rest key, pairwise_singleton _ _, ?_⟩
    intro a ha b hb
    have hnone := (t.find?_rest key key).trans (if_pos (hc.equiv.refl key))
    simpa [mem_singleton.1 hb] using find?_eq_none.1 hnone a ha)

/-- A table with another chain is a map with other values at its keys. -/
theorem find_setEntry {entry : List (Key × Value)} {hentry} {m : Key → Option Value}
    (hin : (entry.find? fun c => eq c.1 k).map Prod.snd =
      if eq k key then m k else ((t.mData (index key % N)).find? fun c => eq c.1 k).map Prod.snd) :
    (t.setEntry (index key % N) entry hentry).find k = if eq k key then m k else t.find k := by
  unfold find setEntry
  dsimp only
  by_cases hidx : index k % N = index key % N
  · rw [hidx, update_self, hin]
  · have hk : ¬ eq k key = true := fun hk => hidx (by rw [hc.index_eq hk])
    rw [update_of_ne hidx, if_neg hk]

theorem find_insert (key : Key) (value : Value) (k : Key) :
    (t.insert key value).find k = if eq k key then some value else t.find k := by
  refine t.find_setEntry (m := fun _ => some value) ?_
  rw [find?_append, t.find?_rest, find?_singleton]
  by_cases hk : eq k key = true
  · simp [hk, hc.equiv.symm hk]
  · have hk' : ¬ eq key k = true := fun h => hk (hc.equiv.symm h)
    simp [hk, hk']

theorem find_erase (key k : Key) : (t.erase key).find k = if eq k key then none else t.find k := by
  refine t.find_setEntry (m := fun _ => none) ?_
  rw [t.find?_rest]
  split <;> rfl

end HashBy

-- ==== from one to the other

namespace HashTable

variable {t t' : HashTable Key Value index eq N} {u : HashBy Key Value index eq N}

/-- The chains are the lists. -/
def Depicts (t : HashTable Key Value index eq N) (u : HashBy Key Value index eq N) : Prop :=
  ∀ idx, (t.mData idx).Is (u.mData idx)

theorem Depicts.setEntry (h : t.Depicts u) {idx : Nat} {entry : Slist (Key × Value)}
    {items : List (Key × Value)} {hitems} (hentry : entry.Is items) :
    (t.setEntry idx entry).Depicts (u.setEntry idx items hitems) := by
  intro j
  unfold HashTable.setEntry HashBy.setEntry
  dsimp only
  by_cases hj : j = idx
  · rw [hj, update_self, update_self]
    exact hentry
  · rw [update_of_ne hj, update_of_ne hj]
    exact h j

theorem Depicts.find (h : t.Depicts u) (key : Key) : t.find key = .ok (u.find key) := by
  unfold HashTable.find
  rw [(h _).findItem]
  rfl

theorem Depicts.erase (h : t.Depicts u) (key : Key) :
    ∃ t', t.erase key = .ok ((u.find key).isSome, t') ∧ t'.Depicts (u.erase key) := by
  obtain ⟨entry, hremove, hentry⟩ := (h (index key % N)).removeItem (f := fun c => eq c.1 key)
  refine ⟨_, ?_, h.setEntry hentry⟩
  unfold HashTable.erase
  dsimp only
  rw [hremove, bind_ok, HashBy.find, Option.isSome_map, isSome_find?]

theorem Depicts.insert [Compares index eq] (h : t.Depicts u) (key : Key) (value : Value) :
    ∃ t', t.insert key value = .ok t' ∧ t'.Depicts (u.insert key value) := by
  unfold HashTable.insert
  dsimp only
  split
  next hsize =>
    -- an empty chain is not searched
    have hrest : (t.mData (index key % N)).Is (u.rest key) := by
      have hchain := h (index key % N)
      have hnil := hchain.size_eq.symm.trans hsize
      rw [length_eq_zero_iff] at hnil
      unfold HashBy.rest
      rw [hnil] at hchain ⊢
      exact hchain
    obtain ⟨entry, hadd, hentry⟩ := hrest.add (key, value)
    rw [bind_ok, hadd]
    exact ⟨_, rfl, h.setEntry hentry⟩
  next =>
  obtain ⟨entry, hremove, hentry⟩ := (h (index key % N)).removeItem (f := fun c => eq c.1 key)
  obtain ⟨entry', hadd, hentry'⟩ := hentry.add (key, value)
  rw [hremove, bind_ok, hadd]
  exact ⟨_, rfl, h.setEntry hentry'⟩

/-- The chains from 0 on that have been cleared. -/
theorem clear_eq (h : t.Depicts u) : ∀ n, ∃ t', (range n).foldlM (fun t i => do
      let entry ← (t.mData i).clear
      .ok (HashTable.setEntry t i entry)) t = Except.ok (ε := Panic) t' ∧
    ∀ idx, (t'.mData idx).Is (if idx < n then [] else u.mData idx) := by
  intro n
  induction n with
  | zero => exact ⟨t, rfl, fun idx => by simpa using h idx⟩
  | succ n ih =>
    obtain ⟨t', hfold, ht'⟩ := ih
    have hn := ht' n
    rw [if_neg (Nat.lt_irrefl n)] at hn
    obtain ⟨entry, hclear, hentry⟩ := hn.clear
    refine ⟨t'.setEntry n entry, ?_, fun idx => ?_⟩
    · rw [range_succ, foldlM_append, hfold, bind_ok, foldlM_cons, hclear]
      rfl
    unfold HashTable.setEntry
    dsimp only
    by_cases hidx : idx = n
    · rw [hidx, update_self, if_pos (Nat.lt_succ_self n)]
      exact hentry
    · rw [update_of_ne hidx]
      have hlt : idx < n + 1 ↔ idx < n := by omega
      simpa only [hlt] using ht' idx

end HashTable

-- ==== a table is a map

inductive HashCall (Key Value : Type) where
  | insert (key : Key) (value : Value)
  | erase (key : Key)
  | clear

def HashTable.step (t : HashTable Key Value index eq N) :
    HashCall Key Value → Except Panic (HashTable Key Value index eq N)
  | .insert key value => t.insert key value
  | .erase key => Prod.snd <$> t.erase key
  | .clear => t.clear

/-- What a call does to a finite map. -/
def HashCall.effect (eq : Key → Key → Bool) (m : Key → Option Value) :
    HashCall Key Value → Key → Option Value
  | .insert key value, k => if eq k key then some value else m k
  | .erase key, k => if eq k key then none else m k
  | .clear, _ => none

/-- The table is the map: its chains are lists that are. -/
def HashTable.Is (t : HashTable Key Value index eq N) (m : Key → Option Value) : Prop :=
  ∃ u : HashBy Key Value index eq N, t.Depicts u ∧ ∀ k, u.find k = m k

theorem HashTable.Is.step [Compares index eq] (hN : 0 < N) {t : HashTable Key Value index eq N}
    {m : Key → Option Value} (h : t.Is m) (c : HashCall Key Value) :
    ∃ t', t.step c = .ok t' ∧ t'.Is (c.effect eq m) := by
  obtain ⟨u, hu, hm⟩ := h
  cases c with
  | insert key value =>
    obtain ⟨t', heq, ht'⟩ := hu.insert key value
    refine ⟨t', heq, _, ht', fun k => ?_⟩
    rw [u.find_insert, hm]
    rfl
  | erase key =>
    obtain ⟨t', heq, ht'⟩ := hu.erase key
    refine ⟨t', ?_, _, ht', fun k => ?_⟩
    · rw [HashTable.step, heq]
      rfl
    · rw [u.find_erase, hm]
      rfl
  | clear =>
    obtain ⟨t', heq, ht'⟩ := clear_eq hu N
    refine ⟨t', heq, ⟨fun idx => if idx < N then [] else u.mData idx, fun idx => ?_⟩, ht',
      fun k => ?_⟩
    · split
      · exact .nil
      · exact u.once idx
    unfold HashBy.find
    dsimp only
    rw [if_pos (Nat.mod_lt _ hN)]
    rfl

/-- Whatever is called, the calls return, and the table is the map that they
make: `find` finds what it has, `erase` answers whether there was something,
and no chain has two pairs with equal keys. -/
theorem hash_is_map [Compares index eq] (hN : 0 < N) (calls : List (HashCall Key Value)) :
    ∃ t : HashTable Key Value index eq N, calls.foldlM HashTable.step {} = .ok t ∧
      (∀ idx, ∃ chain, (t.mData idx).Is chain ∧ chain.Pairwise fun a b => eq a.1 b.1 = false) ∧
      ∀ key, t.find key = .ok (calls.foldl (HashCall.effect eq) (fun _ => none) key) ∧
        ∃ t', t.erase key =
          .ok ((calls.foldl (HashCall.effect eq) (fun _ => none) key).isSome, t') := by
  have hrun : ∀ (calls : List (HashCall Key Value)) {t : HashTable Key Value index eq N} {m},
      t.Is m → ∃ t', calls.foldlM HashTable.step t = .ok t' ∧
        t'.Is (calls.foldl (HashCall.effect eq) m) := by
    intro calls
    induction calls with
    | nil => exact fun {t m} h => ⟨t, rfl, h⟩
    | cons c calls ih =>
      intro t m h
      obtain ⟨t', heq, ht'⟩ := h.step hN c
      rw [foldlM_cons, heq, bind_ok]
      exact ih ht'
  have hnew : HashTable.Is ({} : HashTable Key Value index eq N) fun _ => none :=
    ⟨.empty, fun _ => ⟨[], Slist.holds_nil, rfl⟩, fun _ => rfl⟩
  obtain ⟨t, heq, u, hu, hm⟩ := hrun calls hnew
  refine ⟨t, heq, fun idx => ⟨_, hu idx, u.once idx⟩, fun key => ?_⟩
  obtain ⟨t', herase, _⟩ := hu.erase key
  rw [← hm]
  exact ⟨hu.find key, t', herase⟩

/-- Numbers that have one last digit are equal. -/
instance : Compares (· % 10) (fun a b : Nat => a % 10 == b % 10) where
  equiv := ⟨by simp, by simp; omega, by simp; omega⟩
  index_eq := by simp

/-- One chain for 3 and 7: a pair is replaced, the first of the chain is
erased, and then the last. -/
theorem hash_is_map_digits : ∃ t : HashTable Nat Char (· % 10) (fun a b => a % 10 == b % 10) 4,
    [.insert 3 'a', .insert 7 'b', .insert 1 'c', .insert 13 'd', .erase 17, .insert 27 'e',
      .erase 37].foldlM HashTable.step {} = .ok t ∧
    t.find 23 = .ok (some 'd') ∧ t.find 7 = .ok none ∧ t.find 1 = .ok (some 'c') := by
  obtain ⟨t, heq, -, hfind⟩ := @hash_is_map Nat Char (· % 10) (fun a b => a % 10 == b % 10) 4 _
    (by decide) [.insert 3 'a', .insert 7 'b', .insert 1 'c', .insert 13 'd', .erase 17,
      .insert 27 'e', .erase 37]
  exact ⟨t, heq, (hfind 23).1, (hfind 7).1, (hfind 1).1⟩

-- ==== keys that are the same

/-- `hash`, for keys that are equal when they are the same. -/
abbrev Hash (Key Value : Type) [DecidableEq Key] (index : Key → Nat) (N : Nat) :=
  HashBy Key Value index (fun a b => decide (a = b)) N

namespace Hash

variable [DecidableEq Key]

instance : Compares index fun a b : Key => decide (a = b) where
  equiv := ⟨by simp, by simp [eq_comm], by simp⟩
  index_eq := by
    intro a b h
    rw [of_decide_eq_true h]

theorem find_insert (h : Hash Key Value index N) (key other : Key) (value : Value) :
    (h.insert key value).find other = if other = key then some value else h.find other := by
  rw [HashBy.find_insert]
  simp

theorem find_erase (h : Hash Key Value index N) (key other : Key) :
    (h.erase key).find other = if other = key then none else h.find other := by
  rw [HashBy.find_erase]
  simp

end Hash

end Puppy.Libc
