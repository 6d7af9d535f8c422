/-
Singly linked lists (include/libc/slist.h).

A list has pointers to its first and its last node and knows its size. There
is no way back from a node to the one before it, so `insert` in front of a
node is done behind it: the node gets the new item, and a new node the old
one. `remove` has two ways. The first node is just left behind, and `tail`
with it if it was the only one; for any other, the node before it is looked
for.

`Holds` says which nodes a list consists of, and what each operation does is
stated with it: `insert` and `remove` are then what they are for a list of
items.

The loops go from `begin` to `end`, and are given as many rounds as the list
has nodes and one more. A node that is left behind or deleted is not used
again.
-/
import Puppy.Lib.Except
import Puppy.Lib.Linked
import Puppy.Panic

namespace Puppy.Libc

open Function Lib List

variable {T : Type}

/-- `slist`, and the nodes that have been made for it. -/
structure Slist (T : Type) where
  size : Nat := 0
  head : Option Nat := none
  tail : Option Nat := none
  nodes : Nat → Option (Node T) := fun _ => none
  /-- How many nodes have been made. -/
  made : Nat := 0

namespace Slist

variable (l : Slist T)

/-- The node that a pointer points to. -/
def deref (p : Option Nat) : Except Panic (Node T) :=
  match p.bind l.nodes with
  | none => .error .fault
  | some n => .ok n

/-- `new node`. Its address is `made`. -/
def new (item : T) (next : Option Nat) : Slist T :=
  { l with nodes := update l.nodes l.made (some ⟨item, next⟩), made := l.made + 1 }

/-- `delete`. -/
def delete (p : Nat) : Slist T := { l with nodes := update l.nodes p none }

def add_head (item : T) : Slist T :=
  match l.head with
  | none =>
    { l.new item none with size := l.size + 1, head := some l.made, tail := some l.made }
  | some head => { l.new item (some head) with size := l.size + 1, head := some l.made }

def add (item : T) : Except Panic (Slist T) :=
  match l.head, l.tail with
  | none, _ =>
    .ok { l.new item none with size := l.size + 1, head := some l.made, tail := some l.made }
  | some _, none => .error .fault
  | some _, some tail => do
    let t ← l.deref (some tail)
    .ok { l.new item none with
      size := l.size + 1
      tail := some l.made
      nodes := update (l.new item none).nodes tail (some { t with next := some l.made }) }

def top : Except Panic T := do
  let n ← l.deref l.head
  .ok n.item

/-- `end`. -/
def «end» : Except Panic (Option Nat) :=
  if l.size = 0 then .ok l.head
  else do
    let t ← l.deref l.tail
    .ok t.next

def insert (i : Option Nat) (item : T) : Except Panic (Slist T) :=
  match i with
  | none => l.add item
  | some p => do
    let n ← l.deref (some p)
    .ok { l.new n.item n.next with
      size := l.size + 1
      nodes := update (l.new n.item n.next).nodes p (some ⟨item, some l.made⟩)
      tail := if l.tail = some p then some l.made else l.tail }

/-- The loop of `remove`: the node before another one. -/
def before (current : Nat) : Nat → Option Nat → Except Panic Nat
  | 0, _ => .error .spinning
  | _ + 1, none => .error .fault
  | rounds + 1, some n => do
    let node ← l.deref (some n)
    if node.next = some current then .ok n else before current rounds node.next

def remove (i : Option Nat) : Except Panic (Slist T) :=
  match i with
  | none => .ok l
  | some current => do
    let c ← l.deref (some current)
    if l.head = some current then .ok { l with head := c.next, size := l.size - 1 }
    else do
      let n ← l.before current l.size l.head
      let node ← l.deref (some n)
      if l.tail = some current then
        .ok { ({ l with nodes := update l.nodes n (some { node with next := none })
                        tail := some n } : Slist T).delete current with size := l.size - 1 }
      else
        .ok { ({ l with nodes := update l.nodes n (some { node with next := c.next }) } :
                Slist T).delete current with size := l.size - 1 }

/-- A loop from `b` to `e` that breaks at an item. -/
def findFrom (p : T → Bool) (e : Option Nat) : Nat → Option Nat → Except Panic (Option Nat)
  | 0, _ => .error .spinning
  | rounds + 1, b =>
    if b = e then .ok e
    else do
      let n ← l.deref b
      if p n.item then .ok b else findFrom p e rounds n.next

/-- The same from `begin`. -/
def find (p : T → Bool) : Except Panic (Option Nat) := do
  let e ← l.end
  l.findFrom p e (l.size + 1) l.head

/-- The item that the loop breaks at. -/
def findItem (p : T → Bool) : Except Panic (Option T) := do
  let e ← l.end
  let b ← l.find p
  if b = e then .ok none
  else do
    let n ← l.deref b
    .ok (some n.item)

/-- `remove` of an item, and the same loop in `hash`: whether there was one. -/
def removeItem (p : T → Bool) : Except Panic (Bool × Slist T) := do
  let e ← l.end
  let b ← l.find p
  if b = e then .ok (false, l)
  else do
    let l ← l.remove b
    .ok (true, l)

/-- The loop of `clear`. -/
def clearLoop : Nat → Slist T → Except Panic (Slist T)
  | 0, _ => .error .spinning
  | rounds + 1, l =>
    match l.head with
    | none => .ok { l with tail := none }
    | some head => do
      let n ← l.deref (some head)
      clearLoop rounds { l.delete head with head := n.next }

def clear : Except Panic (Slist T) := clearLoop (l.size + 1) { l with size := 0 }

-- ==== the nodes of a list

/-- A list that consists of these nodes. -/
structure Holds (ps : List (Nat × T)) : Prop where
  chain : Seg l.nodes l.head ps none
  nodup : (ps.map Prod.fst).Nodup
  last : ∀ q ∈ ps.getLast?, l.tail = some q.1
  length : l.size = ps.length
  fresh : ∀ q ∈ ps.map Prod.fst, q < l.made

/-- A list of these items. -/
def Is (items : List T) : Prop := ∃ ps, l.Holds ps ∧ ps.map Prod.snd = items

variable {l} {ps qs : List (Nat × T)} {p : Nat} {item x : T}

theorem deref_eq {n : Node T} (h : l.nodes p = some n) : l.deref (some p) = .ok n := by
  unfold deref
  rw [Option.bind_some, h]

theorem Holds.made_not_mem (h : l.Holds ps) : l.made ∉ ps.map Prod.fst :=
  fun hmem => Nat.lt_irrefl _ (h.fresh _ hmem)

/-- One node more, wherever it is put. -/
theorem Holds.grow (h : l.Holds ps) {ps' : List (Nat × T)}
    (hperm : (ps'.map Prod.fst).Perm (l.made :: ps.map Prod.fst)) :
    (ps'.map Prod.fst).Nodup ∧ l.size + 1 = ps'.length ∧
      ∀ q ∈ ps'.map Prod.fst, q < l.made + 1 := by
  refine ⟨hperm.nodup_iff.2 (nodup_cons.2 ⟨h.made_not_mem, h.nodup⟩), ?_, fun q hq => ?_⟩
  · have hlen := hperm.length_eq
    rw [length_cons, length_map, length_map] at hlen
    rw [h.length, hlen]
  · rcases mem_cons.1 (hperm.mem_iff.1 hq) with rfl | hq
    · exact Nat.lt_succ_self _
    · exact (h.fresh q hq).trans (Nat.lt_succ_self _)

theorem holds_nil : ({} : Slist T).Holds [] where
  chain := .nil _
  nodup := nodup_nil
  last := by rintro _ ⟨⟩
  length := rfl
  fresh := by rintro _ ⟨⟩

/-- A list whose first pointer is null has no nodes. -/
theorem Holds.eq_nil (h : l.Holds ps) (hhead : l.head = none) : ps = [] := by
  have hchain := h.chain
  rw [hhead] at hchain
  cases hchain
  rfl

/-- The pointers on both sides of a node are others. -/
theorem Holds.distinct (h : l.Holds (ps ++ (p, item) :: qs)) :
    p ∉ ps.map Prod.fst ∧ p ∉ qs.map Prod.fst ∧ ∀ q ∈ ps.map Prod.fst, q ∉ qs.map Prod.fst := by
  have hnodup := h.nodup
  rw [map_append, nodup_append, map_cons, nodup_cons] at hnodup
  obtain ⟨-, ⟨hafter, -⟩, hbefore⟩ := hnodup
  exact ⟨fun hmem => hbefore p hmem p mem_cons_self rfl, hafter,
    fun q hq hq' => hbefore q hq q (mem_cons_of_mem _ hq') rfl⟩

/-- A node is the last one exactly if `tail` points to it. -/
theorem Holds.tail_iff (h : l.Holds (ps ++ (p, item) :: qs)) : l.tail = some p ↔ qs = [] := by
  constructor
  · intro htail
    by_contra hqs
    obtain ⟨q, hq⟩ := Option.isSome_iff_exists.1 (getLast?_isSome.2 hqs)
    have hlast := h.last q (by
      obtain ⟨r, rs, rfl⟩ := exists_cons_of_ne_nil hqs
      simpa using hq)
    rw [htail] at hlast
    have hmem : q.1 ∈ qs.map Prod.fst := mem_map_of_mem (mem_of_getLast? hq)
    exact h.distinct.2.1 (Option.some.inj hlast ▸ hmem)
  · rintro rfl
    exact h.last (p, item) (by simp)

theorem end_eq (h : l.Holds ps) : l.end = .ok none := by
  unfold «end»
  rcases eq_nil_or_concat ps with rfl | ⟨qs, ⟨p, item⟩, hps⟩
  · have hsize : l.size = 0 := h.length
    rw [if_pos hsize, h.chain.eq_of_nil]
  rw [concat_eq_append] at hps
  subst hps
  obtain ⟨next, _, hp, hend⟩ := h.chain.split_cons
  have hsize := h.length
  rw [length_append, length_singleton] at hsize
  rw [if_neg (by omega), h.tail_iff.2 rfl, deref_eq hp, hend.eq_of_nil]
  rfl

theorem add_head_holds (h : l.Holds ps) (x : T) : (l.add_head x).Holds ((l.made, x) :: ps) := by
  obtain ⟨hnodup, hlength, hfresh⟩ :=
    h.grow (show (((l.made, x) :: ps).map Prod.fst).Perm _ from .refl _)
  have hrest := h.chain.update h.made_not_mem (some ⟨x, l.head⟩)
  unfold add_head
  cases hhead : l.head with
  | none =>
    obtain rfl := h.eq_nil hhead
    refine ⟨.cons (update_self _ _ _) (.nil none), hnodup, ?_, hlength, hfresh⟩
    rintro q ⟨⟩
    rfl
  | some head =>
    rw [hhead] at hrest
    refine ⟨.cons (update_self _ _ _) hrest, hnodup, fun q hq => h.last q ?_, hlength, hfresh⟩
    cases hrest
    rwa [getLast?_cons_cons] at hq

theorem add_holds (h : l.Holds ps) (x : T) :
    ∃ l', l.add x = .ok l' ∧ l'.Holds (ps ++ [(l.made, x)]) := by
  obtain ⟨hnodup, hlength, hfresh⟩ :=
    h.grow (show ((ps ++ [(l.made, x)]).map Prod.fst).Perm _ by
      rw [map_append]
      exact perm_append_singleton _ _)
  have hlast : ∀ q ∈ (ps ++ [(l.made, x)]).getLast?, some l.made = some q.1 := by
    rw [getLast?_concat]
    rintro q ⟨⟩
    rfl
  unfold add
  rcases eq_nil_or_concat ps with rfl | ⟨qs, ⟨p, item⟩, hps⟩
  · rw [h.chain.eq_of_nil]
    exact ⟨_, rfl, .cons (update_self _ _ _) (.nil none), hnodup, hlast, hlength, hfresh⟩
  rw [concat_eq_append] at hps
  subst hps
  obtain ⟨next, hseg, hp, hend⟩ := h.chain.split_cons
  obtain ⟨hqs, _⟩ := h.distinct
  have hmade := h.made_not_mem
  rw [map_append, mem_append, not_or] at hmade
  obtain ⟨head, hhead⟩ := Option.ne_none_iff_exists'.1 fun hhead => by simpa using h.eq_nil hhead
  rw [h.tail_iff.2 rfl, hhead]
  dsimp only
  rw [deref_eq hp, bind_ok]
  refine ⟨_, rfl, ?_, hnodup, hlast, hlength, hfresh⟩
  -- the node that was the last, and the new one behind it
  rw [append_assoc]
  refine ((hseg.update hmade.1 _).update hqs _).append_cons (update_self _ _ _) (.cons ?_ (.nil _))
  rw [update_of_ne fun heq => hmade.2 (mem_singleton.2 heq)]
  exact update_self _ _ _

theorem insert_holds (h : l.Holds (ps ++ (p, item) :: qs)) (x : T) :
    ∃ l', l.insert (some p) x = .ok l' ∧ l'.Holds (ps ++ (p, x) :: (l.made, item) :: qs) := by
  obtain ⟨hnodup, hlength, hfresh⟩ :=
    h.grow (show ((ps ++ (p, x) :: (l.made, item) :: qs).map Prod.fst).Perm _ by
      simp only [map_append, map_cons]
      exact (List.Perm.append_left _ (.swap _ _ _)).trans perm_middle)
  obtain ⟨next, hseg, hp, hend⟩ := h.chain.split_cons
  obtain ⟨hps, hqs, _⟩ := h.distinct
  have hmade := h.made_not_mem
  simp only [map_append, map_cons, mem_append, mem_cons, not_or] at hmade
  obtain ⟨hmade, hne, hmade'⟩ := hmade
  unfold insert
  dsimp only
  rw [deref_eq hp, bind_ok]
  refine ⟨_, rfl, ?_, hnodup, ?_, hlength, hfresh⟩
  · refine ((hseg.update hmade _).update hps _).append_cons (update_self _ _ _)
      (.cons ?_ ((hend.update hmade' _).update hqs _))
    rw [update_of_ne hne]
    exact update_self _ _ _
  intro q hq
  cases qs with
  | nil =>
    rw [if_pos (h.tail_iff.2 rfl)]
    rw [getLast?_append_of_ne_nil _ (by simp)] at hq
    cases hq
    rfl
  | cons r qs =>
    rw [if_neg fun htail => by simpa using h.tail_iff.1 htail]
    exact h.last q (by simpa using hq)

/-- The loop of `remove` comes to the node before. -/
theorem before_eq {n : Nat} {z : T} {a : Option Nat} {rounds : Nat}
    (hseg : Seg l.nodes a (ps ++ [(n, z)]) (some p)) (hp : p ∉ (ps ++ [(n, z)]).map Prod.fst)
    (hrounds : ps.length < rounds) : l.before p rounds a = .ok n := by
  induction ps generalizing a rounds with
  | nil =>
    obtain ⟨rounds, rfl⟩ := Nat.exists_eq_succ_of_ne_zero (Nat.ne_zero_of_lt hrounds)
    cases hseg with
    | cons hn hend =>
      unfold before
      rw [deref_eq hn, bind_ok, if_pos hend.eq_of_nil]
  | cons q ps ih =>
    obtain ⟨rounds, rfl⟩ := Nat.exists_eq_succ_of_ne_zero (Nat.ne_zero_of_lt hrounds)
    rw [cons_append] at hseg hp
    rw [map_cons, mem_cons, not_or] at hp
    rw [length_cons] at hrounds
    cases hseg with
    | cons hq hrest =>
      unfold before
      rw [deref_eq hq, bind_ok, if_neg ?_]
      · exact ih hrest hp.2 (by omega)
      · rintro rfl
        exact hp.2 (hrest.mem_of_ne_nil (by simp))

theorem remove_holds (h : l.Holds (ps ++ (p, item) :: qs)) :
    ∃ l', l.remove (some p) = .ok l' ∧ l'.Holds (ps ++ qs) := by
  have hsub : (ps ++ qs).Sublist (ps ++ (p, item) :: qs) :=
    (sublist_cons_self _ _).append_left ps
  have hnodup := h.nodup.sublist (hsub.map _)
  have hfresh : ∀ q ∈ (ps ++ qs).map Prod.fst, q < l.made :=
    fun q hq => h.fresh q ((hsub.map _).subset hq)
  have hlength : l.size - 1 = (ps ++ qs).length := by
    rw [h.length, length_append, length_append]
    rfl
  obtain ⟨next, hseg, hp, hend⟩ := h.chain.split_cons
  obtain ⟨hps, hqs, happart⟩ := h.distinct
  unfold remove
  dsimp only
  rw [deref_eq hp, bind_ok]
  rcases eq_nil_or_concat ps with rfl | ⟨ps', ⟨n, z⟩, hps'⟩
  · -- the first node
    rw [if_pos hseg.eq_of_nil]
    refine ⟨_, rfl, hend, hnodup, fun q hq => h.last q ?_, hlength, hfresh⟩
    cases qs with
    | nil => cases hq
    | cons r qs => simpa using hq
  rw [concat_eq_append] at hps'
  subst hps'
  obtain ⟨next', hseg', hn, hnext⟩ := hseg.split_cons
  obtain rfl := hnext.eq_of_nil
  have hfirst : l.head ≠ some p := by
    intro hhead
    rw [hhead] at hseg
    exact hps (hseg.mem_of_ne_nil (by simp))
  have hbefore : l.before p l.size l.head = .ok n := by
    refine before_eq hseg hps ?_
    rw [h.length]
    simp
  have h' : l.Holds (ps' ++ (n, z) :: (p, item) :: qs) := by simpa using h
  obtain ⟨hn₁, hn₂, _⟩ := h'.distinct
  rw [map_append, mem_append, not_or] at hps
  rw [map_cons, mem_cons, not_or] at hn₂
  have hchain : Seg (update (update l.nodes n (some ⟨z, next⟩)) p none) l.head
      (ps' ++ [(n, z)] ++ qs) none := by
    rw [append_assoc]
    exact ((hseg'.update hn₁ _).update hps.1 _).append_cons
      ((update_of_ne hn₂.1 _ _).trans (update_self _ _ _)) ((hend.update hn₂.2 _).update hqs _)
  rw [if_neg hfirst, hbefore, bind_ok, deref_eq hn, bind_ok]
  by_cases htail : l.tail = some p
  · -- the last node
    obtain rfl := h.tail_iff.1 htail
    obtain rfl := hend.eq_of_nil
    rw [if_pos htail]
    refine ⟨_, rfl, hchain, hnodup, fun q hq => ?_, hlength, hfresh⟩
    rw [append_nil, getLast?_concat] at hq
    cases hq
    rfl
  · rw [if_neg htail]
    refine ⟨_, rfl, hchain, hnodup, fun q hq => h.last q ?_, hlength, hfresh⟩
    obtain ⟨r, qs, rfl⟩ := exists_cons_of_ne_nil fun hqs => htail (h.tail_iff.2 hqs)
    simpa using hq

/-- A loop breaks at the first item that it is looking for, or comes to the
end. -/
theorem findFrom_eq {f : T → Bool} {a : Option Nat} {rounds : Nat} (hseg : Seg l.nodes a ps none)
    (hrounds : ps.length < rounds) :
    l.findFrom f none rounds a = .ok ((ps.find? fun q => f q.2).map Prod.fst) := by
  induction ps generalizing a rounds with
  | nil =>
    obtain ⟨rounds, rfl⟩ := Nat.exists_eq_succ_of_ne_zero (Nat.ne_zero_of_lt hrounds)
    unfold findFrom
    rw [if_pos hseg.eq_of_nil]
    rfl
  | cons q ps ih =>
    obtain ⟨rounds, rfl⟩ := Nat.exists_eq_succ_of_ne_zero (Nat.ne_zero_of_lt hrounds)
    rw [length_cons] at hrounds
    cases hseg with
    | @cons p item _ _ _ hq hrest =>
      unfold findFrom
      rw [if_neg (Option.some_ne_none _), deref_eq hq, bind_ok, find?_cons]
      cases f item with
      | true => rfl
      | false => exact ih hrest (by omega)

theorem find_eq {f : T → Bool} (h : l.Holds ps) :
    l.find f = .ok ((ps.find? fun q => f q.2).map Prod.fst) := by
  unfold find
  rw [end_eq h, bind_ok, findFrom_eq h.chain]
  rw [h.length]
  exact Nat.lt_succ_self _

/-- The node that the loop breaks at. -/
theorem find_split {f : T → Bool} (h : l.Holds ps) :
    (l.find f = .ok none ∧ ∀ y ∈ ps.map Prod.snd, f y = false) ∨
    ∃ as p y bs, ps = as ++ (p, y) :: bs ∧ l.find f = .ok (some p) ∧ f y = true ∧
      ∀ y ∈ as.map Prod.snd, f y = false := by
  rw [find_eq h]
  cases hfind : ps.find? fun q => f q.2 with
  | none =>
    refine .inl ⟨rfl, fun y hy => ?_⟩
    obtain ⟨q, hq, rfl⟩ := mem_map.1 hy
    exact Bool.eq_false_of_not_eq_true (find?_eq_none.1 hfind q hq)
  | some q =>
    obtain ⟨hq, as, bs, heq, has⟩ := find?_eq_some_iff_append.1 hfind
    refine .inr ⟨as, q.1, q.2, bs, heq, rfl, hq, fun y hy => ?_⟩
    obtain ⟨r, hr, rfl⟩ := mem_map.1 hy
    simpa using has r hr

theorem clearLoop_holds {rounds : Nat} (hchain : Seg l.nodes l.head ps none)
    (hnodup : (ps.map Prod.fst).Nodup) (hsize : l.size = 0) (hrounds : ps.length < rounds) :
    ∃ l', clearLoop rounds l = .ok l' ∧ l'.Holds [] := by
  induction ps generalizing l rounds with
  | nil =>
    obtain ⟨rounds, rfl⟩ := Nat.exists_eq_succ_of_ne_zero (Nat.ne_zero_of_lt hrounds)
    have hhead := hchain.eq_of_nil
    unfold clearLoop
    rw [hhead]
    exact ⟨_, rfl, .nil none, nodup_nil, by rintro _ ⟨⟩, hsize, by rintro _ ⟨⟩⟩
  | cons q ps ih =>
    obtain ⟨rounds, rfl⟩ := Nat.exists_eq_succ_of_ne_zero (Nat.ne_zero_of_lt hrounds)
    obtain ⟨hq, hps⟩ := nodup_cons.1 hnodup
    rw [length_cons] at hrounds
    unfold clearLoop
    generalize hhead : l.head = head at hchain
    cases hchain with
    | cons hnode hrest =>
      dsimp only
      rw [deref_eq hnode, bind_ok]
      exact ih (hrest.update hq none) hps hsize (by omega)

-- ==== the items of a list

variable {items : List T} {f : T → Bool}

theorem Is.add (h : l.Is items) (x : T) : ∃ l', l.add x = .ok l' ∧ l'.Is (items ++ [x]) := by
  obtain ⟨ps, hps, rfl⟩ := h
  obtain ⟨l', heq, hl'⟩ := add_holds hps x
  exact ⟨l', heq, _, hl', by simp⟩

theorem Is.add_head (h : l.Is items) (x : T) : (l.add_head x).Is (x :: items) := by
  obtain ⟨ps, hps, rfl⟩ := h
  exact ⟨_, add_head_holds hps x, rfl⟩

theorem Is.size_eq (h : l.Is items) : l.size = items.length := by
  obtain ⟨ps, hps, rfl⟩ := h
  rw [hps.length, length_map]

theorem Is.top (h : l.Is (x :: items)) : l.top = .ok x := by
  obtain ⟨ps, hps, heq⟩ := h
  have hchain := hps.chain
  unfold Slist.top
  generalize l.head = head at hchain
  cases hchain with
  | nil => cases heq
  | cons hp _ =>
    obtain rfl := (cons.inj heq).1
    rw [deref_eq hp]
    rfl

/-- A loop that reads. -/
theorem Is.findItem (h : l.Is items) : l.findItem f = .ok (items.find? f) := by
  obtain ⟨ps, hps, rfl⟩ := h
  unfold Slist.findItem
  rw [end_eq hps, bind_ok]
  rcases find_split (f := f) hps with ⟨heq, hnone⟩ | ⟨as, p, y, bs, rfl, heq, hy, has⟩
  · rw [heq, bind_ok, if_pos rfl, find?_eq_none.2 fun y hy => by simp [hnone y hy]]
  obtain ⟨next, _, hp, _⟩ := hps.chain.split_cons
  rw [heq, bind_ok, if_neg (Option.some_ne_none p), deref_eq hp, bind_ok, map_append,
    find?_append, find?_eq_none.2 fun y hy => by simp [has y hy], map_cons,
    find?_cons_of_pos hy]
  rfl

/-- A loop that removes. -/
theorem Is.removeItem (h : l.Is items) :
    ∃ l', l.removeItem f = .ok (items.any f, l') ∧ l'.Is (items.eraseP f) := by
  obtain ⟨ps, hps, rfl⟩ := h
  unfold Slist.removeItem
  rw [end_eq hps, bind_ok]
  rcases find_split (f := f) hps with ⟨heq, hnone⟩ | ⟨as, p, y, bs, rfl, heq, hy, has⟩
  · rw [heq, bind_ok, if_pos rfl, eraseP_of_forall_not fun y hy => by simp [hnone y hy]]
    refine ⟨l, ?_, ps, hps, rfl⟩
    rw [any_eq_false.2 fun y hy => by simp [hnone y hy]]
  obtain ⟨l', hremove, hl'⟩ := remove_holds hps
  rw [heq, bind_ok, if_neg (Option.some_ne_none p), hremove, bind_ok]
  refine ⟨l', ?_, _, hl', ?_⟩
  · simp [hy]
  · rw [map_append, map_append, map_cons,
      eraseP_append_right _ fun y hy => by simp [has y hy], eraseP_cons_of_pos hy]

/-- A loop that inserts in front of the item, or at the end. -/
theorem Is.insertItem (h : l.Is items) (x : T) : ∃ b l', l.find f = .ok b ∧
    (if b = none then l.add x else l.insert b x) = .ok l' ∧
    ((∀ y ∈ items, f y = false) ∧ l'.Is (items ++ [x]) ∨ ∃ as y bs, items = as ++ y :: bs ∧
      f y = true ∧ (∀ y ∈ as, f y = false) ∧ l'.Is (as ++ x :: y :: bs)) := by
  obtain ⟨ps, hps, rfl⟩ := h
  rcases find_split (f := f) hps with ⟨heq, hnone⟩ | ⟨as, p, y, bs, rfl, heq, hy, has⟩
  · obtain ⟨l', hadd, hl'⟩ := add_holds hps x
    exact ⟨none, l', heq, hadd, .inl ⟨hnone, _, hl', by simp⟩⟩
  · obtain ⟨l', hinsert, hl'⟩ := insert_holds hps x
    exact ⟨some p, l', heq, hinsert, .inr ⟨as.map Prod.snd, y, bs.map Prod.snd, by simp, hy, has,
      _, hl', by simp⟩⟩

theorem Is.clear (h : l.Is items) : ∃ l', l.clear = .ok l' ∧ l'.Is [] := by
  obtain ⟨ps, hps, rfl⟩ := h
  have hrounds : ps.length < l.size + 1 := by
    rw [hps.length]
    exact Nat.lt_succ_self _
  obtain ⟨l', heq, hl'⟩ :=
    clearLoop_holds (l := { l with size := 0 }) hps.chain hps.nodup rfl hrounds
  exact ⟨l', heq, [], hl', rfl⟩

end Slist

end Puppy.Libc
