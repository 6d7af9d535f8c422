/-
Bytes in memory: what stands where, numbers, and strings that end with a
zero.

A memory is a function from addresses to bytes. `Holds` says that a list of
bytes stands at an address; what a reader with another idea of the layout
finds there (a little-endian number, a string, a block) is derived from
that, once for each kind.
-/
import Mathlib.Tactic

namespace Puppy.Lib

open Function List


/-- The `count` low bytes of a number, the lowest first. -/
def leBytes : Nat → Nat → List UInt8
  | 0, _ => []
  | count + 1, n => UInt8.ofNat n :: leBytes count (n / 256)

@[simp]
theorem length_leBytes (count n : Nat) : (leBytes count n).length = count := by
  induction count generalizing n with
  | zero => rfl
  | succ count ih => rw [leBytes, length_cons, ih]

namespace Bytes

variable {mem mem' : Nat → UInt8} {addr n count : Nat} {xs ys path : List UInt8}

/-- The number of `count` bytes at an address, the lowest first. -/
def word (mem : Nat → UInt8) (addr : Nat) : Nat → Nat
  | 0 => 0
  | count + 1 => (mem addr).toNat + 256 * word mem (addr + 1) count

/-- The `n` bytes from an address on. -/
def block (mem : Nat → UInt8) (addr : Nat) : Nat → List UInt8
  | 0 => []
  | n + 1 => mem addr :: block mem (addr + 1) n

/-- The bytes from an address on up to a zero, and at most `n`. -/
def string (mem : Nat → UInt8) (addr : Nat) : Nat → List UInt8
  | 0 => []
  | n + 1 => if mem addr = 0 then [] else mem addr :: string mem (addr + 1) n

/-- The bytes at an address, up to a zero, are the given ones, none of
which is zero. -/
def spells (mem : Nat → UInt8) (addr : Nat) : List UInt8 → Bool
  | [] => mem addr == 0
  | c :: rest => mem addr == c && spells mem (addr + 1) rest

/-- The bytes stand at the address. -/
def Holds (mem : Nat → UInt8) (addr : Nat) : List UInt8 → Prop
  | [] => True
  | b :: rest => mem addr = b ∧ Holds mem (addr + 1) rest

@[simp]
theorem holds_nil : Holds mem addr [] := trivial

@[simp]
theorem holds_cons {b : UInt8} :
    Holds mem addr (b :: xs) ↔ mem addr = b ∧ Holds mem (addr + 1) xs :=
  Iff.rfl

@[simp]
theorem holds_append : Holds mem addr (xs ++ ys) ↔
      Holds mem addr xs ∧ Holds mem (addr + xs.length) ys := by
  induction xs generalizing addr with
  | nil => simp
  | cons b rest ih =>
    rw [cons_append, holds_cons, holds_cons, ih, length_cons,
      and_assoc, add_right_comm, add_assoc addr]

/-- Records of one width stand at the multiples of it. -/
theorem Holds.record {α : Type} {f : α → List UInt8} {width : Nat}
    {l : List α} {i : Nat} {a : α} (h : Holds mem addr (l.flatMap f))
    (hwidth : ∀ a ∈ l, (f a).length = width) (ha : l[i]? = some a) :
    Holds mem (addr + width * i) (f a) := by
  induction l generalizing addr i with
  | nil => cases ha
  | cons b rest ih =>
    rw [flatMap_cons, holds_append] at h
    cases i with
    | zero =>
      cases ha
      exact h.1
    | succ i =>
      rw [hwidth b mem_cons_self] at h
      have hrest := ih h.2 (fun a ha => hwidth a (mem_cons_of_mem b ha)) ha
      rwa [add_assoc, add_comm width, ← Nat.mul_succ] at hrest

theorem word_lt : word mem addr count < 256 ^ count := by
  induction count generalizing addr with
  | zero => exact Nat.one_pos
  | succ count ih =>
    have hbyte : (mem addr).toNat < 256 := (mem addr).toNat_lt
    have hrest := @ih (addr + 1)
    rw [word, Nat.pow_succ]
    omega

theorem word_congr {addr' : Nat} (h : ∀ k < count, mem (addr + k) = mem' (addr' + k)) :
    word mem addr count = word mem' addr' count := by
  induction count generalizing addr addr' with
  | zero => rfl
  | succ count ih =>
    have hfirst := h 0 (Nat.succ_pos _)
    rw [add_zero, add_zero] at hfirst
    rw [word, word, hfirst, ih]
    intro k hk
    rw [add_assoc, add_assoc, add_comm 1]
    exact h (k + 1) (Nat.succ_lt_succ hk)

theorem word_eq_zero_iff : word mem addr count = 0 ↔ ∀ k < count, mem (addr + k) = 0 := by
  induction count generalizing addr with
  | zero => exact ⟨fun _ k hk => absurd hk (Nat.not_lt_zero k), fun _ => rfl⟩
  | succ count ih =>
    have hbyte : (mem addr).toNat = 0 ↔ mem addr = 0 :=
      ⟨fun h => UInt8.toNat_inj.1 h, fun h => by rw [h]; rfl⟩
    rw [word, Nat.add_eq_zero_iff, hbyte, Nat.mul_eq_zero, or_iff_right (by decide), ih]
    constructor
    · rintro ⟨hfirst, hrest⟩ k hk
      cases k with
      | zero => exact hfirst
      | succ k =>
        rw [add_comm k, ← add_assoc]
        exact hrest k (Nat.lt_of_succ_lt_succ hk)
    · intro h
      refine ⟨h 0 (Nat.succ_pos _), fun k hk => ?_⟩
      rw [add_assoc, add_comm 1]
      exact h (k + 1) (Nat.succ_lt_succ hk)

theorem Holds.word {v : Nat} (h : Holds mem addr (leBytes count v)) :
    word mem addr count = v % 256 ^ count := by
  induction count generalizing addr v with
  | zero => rw [Bytes.word, Nat.pow_zero, Nat.mod_one]
  | succ count ih =>
    obtain ⟨hfirst, hrest⟩ := h
    rw [Bytes.word, ih hrest, hfirst, Nat.pow_succ', Nat.mod_mul, UInt8.toNat_ofNat']

theorem Holds.block (h : Holds mem addr xs) (hn : n ≤ xs.length) :
    block mem addr n = xs.take n := by
  induction xs generalizing addr n with
  | nil =>
    rw [Nat.le_zero.1 hn]
    rfl
  | cons b rest ih =>
    cases n with
    | zero => rfl
    | succ n => rw [Bytes.block, take_succ_cons, h.1, ih h.2 (Nat.le_of_succ_le_succ hn)]

/-- A string ends where its first zero stands. -/
theorem Holds.string (h : Holds mem addr (xs ++ 0 :: ys))
    (hxs : ∀ b ∈ xs, b ≠ 0) : string mem addr n = xs.take n := by
  induction xs generalizing addr n with
  | nil =>
    cases n with
    | zero => rfl
    | succ n =>
      rw [Bytes.string, if_pos h.1]
      rfl
  | cons b rest ih =>
    obtain ⟨hb, hrest⟩ := h
    cases n with
    | zero => rfl
    | succ n =>
      rw [Bytes.string, hb, if_neg (hxs b mem_cons_self), take_succ_cons,
        ih hrest (fun b hb => hxs b (mem_cons_of_mem _ hb))]

theorem Holds.spells_iff (h : Holds mem addr (xs ++ 0 :: ys))
    (hxs : ∀ b ∈ xs, b ≠ 0) (hpath : ∀ b ∈ path, b ≠ 0) :
    spells mem addr path = true ↔ path = xs := by
  induction xs generalizing addr path with
  | nil =>
    cases path with
    | nil => simp [spells, h.1]
    | cons c rest =>
      have hc := hpath c mem_cons_self
      simp [spells, h.1, Ne.symm hc]
  | cons b rest ih =>
    obtain ⟨hb, hrest⟩ := h
    cases path with
    | nil => simp [spells, hb, hxs b mem_cons_self]
    | cons c path =>
      rw [spells, Bool.and_eq_true, beq_iff_eq, hb,
        ih hrest (fun b hb => hxs b (mem_cons_of_mem _ hb))
          (fun b hb => hpath b (mem_cons_of_mem _ hb)),
        cons.injEq]
      exact and_congr_left' eq_comm

-- ==== stores

/-- Bytes for consecutive addresses. -/
def storesAt (addr : Nat) : List UInt8 → List (Nat × UInt8)
  | [] => []
  | b :: rest => (addr, b) :: storesAt (addr + 1) rest

/-- The memory after some stores, one after the other. -/
def store (mem : Nat → UInt8) (stores : List (Nat × UInt8)) : Nat → UInt8 :=
  stores.foldl (fun mem w => update mem w.1 w.2) mem

variable {ws ws' : List (Nat × UInt8)} {x : Nat}

/-- The addresses that are stored to. -/
theorem map_storesAt : (storesAt addr xs).map Prod.fst = range' addr xs.length := by
  induction xs generalizing addr with
  | nil => rfl
  | cons b rest ih => rw [storesAt, map_cons, ih, length_cons, range'_succ]

theorem storesAt_append :
    storesAt addr (xs ++ ys) = storesAt addr xs ++ storesAt (addr + xs.length) ys := by
  induction xs generalizing addr with
  | nil => rfl
  | cons b rest ih =>
    rw [cons_append, storesAt, storesAt, ih, cons_append, length_cons, add_right_comm, add_assoc addr]

theorem store_append : store mem (ws ++ ws') = store (store mem ws) ws' :=
  foldl_append

/-- In which order stores are made does not matter if no address is stored
to twice. -/
theorem store_perm (h : ws.Perm ws') (hnodup : (ws.map Prod.fst).Nodup) :
    store mem ws = store mem ws' := by
  refine h.foldl_eq' (fun w hw w' hw' mem => ?_) mem
  by_cases heq : w.1 = w'.1
  · rw [inj_on_of_nodup_map hnodup hw hw' heq]
  · exact update_comm heq _ _ mem

/-- What is stored at an address does not depend on the other ones. -/
theorem store_congr (h : mem x = mem' x) : store mem ws x = store mem' ws x := by
  induction ws generalizing mem mem' with
  | nil => exact h
  | cons w rest ih =>
    refine ih ?_
    dsimp only
    by_cases hx : x = w.1
    · rw [hx, update_self, update_self]
    · rw [update_of_ne hx, update_of_ne hx, h]

/-- Nothing changes where nothing is stored. -/
theorem store_of_forall_ne (h : ∀ w ∈ ws, w.1 ≠ x) : store mem ws x = mem x := by
  induction ws generalizing mem with
  | nil => rfl
  | cons w rest ih =>
    obtain ⟨hw, hrest⟩ := forall_mem_cons.1 h
    show store (update mem w.1 w.2) rest x = mem x
    rw [ih hrest, update_of_ne (Ne.symm hw)]

theorem store_storesAt_of_out (h : x < addr ∨ addr + xs.length ≤ x) :
    store mem (storesAt addr xs) x = mem x := by
  refine store_of_forall_ne (fun w hw heq => ?_)
  have hmem := mem_map_of_mem (f := Prod.fst) hw
  rw [map_storesAt, mem_range'_1, heq] at hmem
  omega

/-- The bytes stand where they have been stored. -/
theorem holds_store : Holds (store mem (storesAt addr xs)) addr xs := by
  induction xs generalizing mem addr with
  | nil => trivial
  | cons b rest ih =>
    refine ⟨?_, ih⟩
    show store (update mem addr b) (storesAt (addr + 1) rest) addr = b
    rw [store_storesAt_of_out (.inl (Nat.lt_succ_self _)), update_self]

theorem Holds.congr (h : Holds mem addr xs)
    (hsame : ∀ x, addr ≤ x → x < addr + xs.length → mem' x = mem x) :
    Holds mem' addr xs := by
  induction xs generalizing addr with
  | nil => trivial
  | cons b rest ih =>
    rw [length_cons] at hsame
    refine ⟨?_, ih h.2 (fun x h₁ h₂ => hsame x (by omega) (by omega))⟩
    rw [hsame addr le_rfl (by omega)]
    exact h.1

end Bytes

end Puppy.Lib
