/-
Files in memory (fs/memfs).

A file system in memory makes up the content of a file when the file is
opened. A stream reads it with a loop that gets one byte after the other
until there is none, or until it has as many as it was asked for. That is
checked only once a byte has been read. So a read of nothing reads
everything that is left, into a buffer that need not have room for it.

The loop stores bytes from `dest[0]` on without a gap, and returns how many
there are. So a read is described by the bytes it stores. Positions past the
end of the content give nothing, so that the sums of the loop stay within 32
bits.

A directory keeps its entities in a hash table, where a second one of the
same name replaces the first, and in a list, where it does not. A listing of
the directory has a place in that list. A count of the listings that are open
keeps the directory from being added to meanwhile, so what is proven is about
a directory with its listings (`Shared`).
-/
import Mathlib.Data.List.TakeWhile
import Puppy.Lib.Machine
import Puppy.Libc.Hash

namespace Puppy.Fs.MemFS

open List

open Lib (Machine)

variable {α : Type}

/-- The loop of `FileBuffer::read` at `idx`, where `at` has these bytes left
to give. -/
def readLoop (len : Nat) : Nat → List α → List α
  | _, [] => []
  | idx, c :: rest => c :: if idx + 1 = len then [] else readLoop len (idx + 1) rest

structure FileStream (α : Type) where
  mContent : List α
  mIndex : Nat := 0
  mMode : UInt32

namespace FileStream

/-- `FileStream::read`, with `FILE_OPEN_READ` for 1. -/
def read (s : FileStream α) (n : Nat) : List α × FileStream α :=
  if s.mMode &&& 1 = 0 then ([], s)
  else
    let bytes := readLoop n 0 (s.mContent.drop s.mIndex)
    (bytes, { s with mIndex := s.mIndex + bytes.length })

/-- Reads one after the other: all bytes, and the stream at the end. -/
def reads : List Nat → FileStream α → List α × FileStream α
  | [], s => ([], s)
  | n :: rest, s =>
    let (bytes, s) := s.read n
    let (more, s) := reads rest s
    (bytes ++ more, s)

/-- As many bytes as there are, up to `n`. -/
def Delivers (s : FileStream α) (n : Nat) : Prop :=
  (s.read n).1.length = min n (s.mContent.length - s.mIndex) ∧
    (s.read n).1 = (s.mContent.drop s.mIndex).take n

-- ==== what is read

/-- The loop ends after `len` bytes, unless it is past that already. -/
theorem readLoop_eq (len idx : Nat) (rest : List α) : readLoop len idx rest
      = if len ≤ idx then rest else rest.take (len - idx) := by
  induction rest generalizing idx with
  | nil => simp [readLoop]
  | cons c rest ih =>
    rw [readLoop, ih]
    by_cases hpast : len ≤ idx
    · simp [hpast, show idx + 1 ≠ len by omega, show len ≤ idx + 1 by omega]
    obtain ⟨k, rfl⟩ : ∃ k, len = idx + 1 + k := ⟨len - (idx + 1), by omega⟩
    rw [if_neg hpast, show idx + 1 + k - idx = k + 1 by omega]
    cases k <;> simp

section

variable {s : FileStream α} (hmode : s.mMode &&& 1 ≠ 0)

include hmode

theorem read_eq (n : Nat) : (s.read n).1 = (if n = 0 then s.mContent.drop s.mIndex
        else (s.mContent.drop s.mIndex).take n) ∧
      (s.read n).2 = { s with mIndex := s.mIndex + (s.read n).1.length } := by
  simp [read, hmode, readLoop_eq]

theorem reads_append (sizes : List Nat) :
    (s.reads sizes).1 ++ s.mContent.drop (s.reads sizes).2.mIndex = s.mContent.drop s.mIndex := by
  induction sizes generalizing s with
  | nil => simp [reads]
  | cons n rest ih =>
    obtain ⟨hbytes, hnext⟩ := read_eq hmode n
    have hprefix : (s.read n).1 <+: s.mContent.drop s.mIndex := by
      rw [hbytes]
      split_ifs
      · exact prefix_rfl
      · exact take_prefix _ _
    have ih := ih (s := (s.read n).2) (by rwa [hnext])
    simp only [hnext] at ih
    simp only [reads, hnext, append_assoc, ih, ← drop_drop]
    exact (prefix_iff_eq_append.1 hprefix)

/-- A read of at least one byte, or at the end, gives what it should, and no
other. What a stream has read and what is left of it is always its content,
in order. -/
theorem delivers_iff_asks : (∀ n, s.Delivers n ↔ n ≠ 0 ∨ s.mContent.length ≤ s.mIndex) ∧
      ∀ sizes, (s.reads sizes).1 ++ s.mContent.drop (s.reads sizes).2.mIndex
        = s.mContent.drop s.mIndex := by
  refine ⟨fun n => ?_, reads_append hmode⟩
  by_cases hn : n = 0
  · simp [Delivers, read_eq hmode, hn, Nat.sub_eq_zero_iff_le]
  · simp [Delivers, read_eq hmode, hn]

end

/-- A file of three bytes. After the first, a read of two gives two, one of
five gives as many, and one of nothing does not give nothing. -/
theorem delivers_iff_asks_three : let s : FileStream Nat := ⟨[7, 8, 9], 1, 1⟩
    s.Delivers 2 ∧ s.Delivers 5 ∧ ¬ s.Delivers 0 ∧
      (s.reads [1, 0, 4]).1 ++ [7, 8, 9].drop (s.reads [1, 0, 4]).2.mIndex = [8, 9] := by
  intro s
  obtain ⟨hone, hall⟩ := delivers_iff_asks (s := s) (by decide)
  refine ⟨(hone 2).2 (.inl (by decide)), (hone 5).2 (.inl (by decide)), fun h => ?_, hall _⟩
  exact absurd ((hone 0).1 h) (by decide)

/-- A read of no bytes at the start of a file of two gives both, which is
not what it should. -/
theorem read_nothing : ((⟨[7, 8], 0, 1⟩ : FileStream Nat).read 0).1 = [7, 8] ∧
    ¬ (⟨[7, 8], 0, 1⟩ : FileStream Nat).Delivers 0 := by
  refine ⟨by decide, fun h => ?_⟩
  exact absurd h.1 (by decide)

end FileStream

-- ==== directories

def gMaxPathSize : Nat := 255

variable {ε : Type}

/-- `string_hash_funcs::index`. A string has a 0 after its last character. -/
def index (key : List Char) : Nat := (key.headD '\x00').toNat

/-- `MemFS::Directory`. -/
structure Directory (ε : Type) where
  mContent : Libc.Hash (List Char) ε index 256 := .empty
  mIterableContent : List ε := []
  mLocked : UInt32 := 0

namespace Directory

variable (name : ε → List Char) (d : Directory ε)

def add (entity : ε) : Bool × Directory ε :=
  if d.mLocked ≠ 0 then (false, d)
  else (true, { d with
    mContent := d.mContent.insert (name entity) entity
    mIterableContent := d.mIterableContent ++ [entity] })

def lock : Directory ε := { d with mLocked := d.mLocked + 1 }

def unlock : Directory ε := if d.mLocked ≠ 0 then { d with mLocked := d.mLocked - 1 } else d

/-- `get`, where the rest of a path is looked up in what it leads to; `none`
is the directory itself. -/
def get (descend : ε → List Char → Option ε) (path : List Char) : Option (Option ε) :=
  let path := if path.head? = some '/' then path.tail else path
  if path = [] then some none
  else
    match d.mContent.find (path.takeWhile (· ≠ '/')), path.dropWhile (· ≠ '/') with
    | none, _ => none
    | some entity, [] => some (some entity)
    | some entity, _ :: rest => (descend entity rest).map some

/-- The node of the list at an index; `none` is the null pointer. -/
def node (i : Nat) : Option Nat := if i < d.mIterableContent.length then some i else none

/-- What a listing says about an entity: the name as far as there is room, and
what it gets from the entity itself. -/
def info (entity : ε) : List Char × ε := ((name entity).take (gMaxPathSize + 1), entity)

/-- Everything that there is to list. -/
def infos : List (List Char × ε) := d.mIterableContent.map (info name)

end Directory

/-- `DirectoryIterator`, with what it has given so far. `mEnd` is the null
pointer, since no node comes after the last one. -/
structure DirectoryIterator (ε : Type) where
  mCurrent : Option Nat
  given : List (List Char × ε) := []

def DirectoryIterator.next (name : ε → List Char) (d : Directory ε) (l : DirectoryIterator ε) :
    DirectoryIterator ε :=
  match l.mCurrent with
  | none => l
  | some i => { mCurrent := d.node (i + 1), given := l.given ++ ((d.infos name)[i]?).toList }

/-- A directory, and the listings of it that are open. -/
structure Shared (ε : Type) where
  dir : Directory ε := {}
  listings : List (DirectoryIterator ε) := []

inductive Action (ε : Type) where
  | add (entity : ε)
  | opendir
  | next (i : Nat)
  | closedir (i : Nat)

namespace Shared

variable (name : ε → List Char)

/-- What is done with a directory. Nothing happens to a listing that is not
open. -/
def step (s : Shared ε) : Action ε → Shared ε
  | .add entity => { s with dir := (s.dir.add name entity).2 }
  | .opendir => ⟨s.dir.lock, s.listings ++ [⟨s.dir.node 0, []⟩]⟩
  | .next i => { s with listings := s.listings.modify i (.next name s.dir) }
  | .closedir i =>
    if i < s.listings.length then ⟨s.dir.unlock, s.listings.eraseIdx i⟩ else s

/-- The listings and the table agree. -/
structure Agrees (descend : ε → List Char → Option ε) (s : Shared ε) : Prop where
  /-- No name is listed twice. -/
  once : ((s.dir.infos name).map Prod.fst).Nodup
  /-- A name that is listed leads to the entity it is listed for. -/
  found : ∀ i ∈ s.dir.infos name, s.dir.get descend i.1 = some (some i.2)
  /-- A name that leads to an entity is listed for it. -/
  shown : ∀ path e, '/' ∉ path → s.dir.get descend path = some (some e) →
    (path, e) ∈ s.dir.infos name
  /-- A listing gives what there is, in order, and ends once it has given all
  of it. -/
  given : ∀ l ∈ s.listings, l.given <+: s.dir.infos name ∧
    (l.mCurrent = none ↔ l.given = s.dir.infos name)
  /-- While there is a listing, nothing is added. -/
  steady : s.listings ≠ [] → ∀ e, s.step name (.add e) = s

/-- What can be looked up. -/
def Proper (n : List Char) : Prop := n ≠ [] ∧ '/' ∉ n ∧ n.length ≤ gMaxPathSize

/-- A name that is added is proper and new, and there are never as many
listings as there are addresses. -/
def Fresh (s : Shared ε) : Action ε → Prop
  | .add e => s.listings = [] → Proper (name e) ∧ ∀ x ∈ s.dir.mIterableContent, name x ≠ name e
  | .opendir => s.listings.length + 1 < 2 ^ 32
  | _ => True

instance : DecidablePred Proper := fun n =>
  inferInstanceAs (Decidable (n ≠ [] ∧ '/' ∉ n ∧ n.length ≤ gMaxPathSize))

instance (s : Shared ε) : (a : Action ε) → Decidable (s.Fresh name a)
  | .add e => inferInstanceAs (Decidable (s.listings = [] →
      Proper (name e) ∧ ∀ x ∈ s.dir.mIterableContent, name x ≠ name e))
  | .opendir => inferInstanceAs (Decidable (s.listings.length + 1 < 2 ^ 32))
  | .next _ => inferInstanceAs (Decidable True)
  | .closedir _ => inferInstanceAs (Decidable True)

/-- Actions on a new directory. -/
def machine : Machine (Shared ε) (Action ε) Empty where
  boot s := s = {}
  step a s := .ok (s.step name a)

end Shared

-- ==== the table and the list

namespace Directory

variable {name : ε → List Char} {d : Directory ε}

/-- Both hold the same entities, with different names. -/
structure Paired (name : ε → List Char) (d : Directory ε) : Prop where
  content : ∀ n e, d.mContent.find n = some e ↔ e ∈ d.mIterableContent ∧ name e = n
  nodup : (d.mIterableContent.map name).Nodup
  proper : ∀ e ∈ d.mIterableContent, Shared.Proper (name e)

theorem Paired.relock (h : d.Paired name) (n : UInt32) : Paired name { d with mLocked := n } :=
  ⟨h.content, h.nodup, h.proper⟩

theorem Paired.add (h : d.Paired name) {e : ε} (hproper : Shared.Proper (name e))
    (hnew : ∀ x ∈ d.mIterableContent, name x ≠ name e) : (d.add name e).2.Paired name := by
  unfold Directory.add
  split_ifs
  · exact h
  refine ⟨fun n x => ?_, ?_, fun x hx => ?_⟩
  · simp only [Libc.Hash.find_insert, mem_append, mem_singleton]
    have hcontent := h.content n x
    split_ifs with hn
    · constructor
      · intro hx
        obtain rfl := Option.some.inj hx
        exact ⟨.inr rfl, hn.symm⟩
      · rintro ⟨hx | rfl, hname⟩
        · exact absurd (hname.trans hn) (hnew x hx)
        · rfl
    · constructor
      · intro hx
        exact ⟨.inl (hcontent.1 hx).1, (hcontent.1 hx).2⟩
      · rintro ⟨hx | rfl, hname⟩
        · exact hcontent.2 ⟨hx, hname⟩
        · exact absurd hname.symm hn
  · simpa [nodup_append, h.nodup] using hnew
  · rcases mem_append.1 hx with hx | hx
    · exact h.proper x hx
    · rw [mem_singleton.1 hx]
      exact hproper

theorem get_name (descend : ε → List Char → Option ε) {path : List Char} (hpath : path ≠ [])
    (hslash : '/' ∉ path) : d.get descend path = (d.mContent.find path).map some := by
  have hall : ∀ c ∈ path, decide (c ≠ '/') = true := by
    intro c hc
    exact decide_eq_true fun h => hslash (h ▸ hc)
  have hhead : path.head? ≠ some '/' := fun h => hslash (mem_of_mem_head? h)
  simp only [get, if_neg hhead, if_neg hpath, takeWhile_eq_self_iff.2 hall,
    dropWhile_eq_nil_iff.2 hall]
  cases d.mContent.find path <;> rfl

/-- Proper names are listed in full. -/
theorem Paired.info_eq (h : d.Paired name) {e : ε} (he : e ∈ d.mIterableContent) :
    info name e = (name e, e) := by
  unfold info
  rw [take_of_length_le (Nat.le_succ_of_le (h.proper e he).2.2)]

theorem Paired.mem_infos (h : d.Paired name) {n : List Char} {e : ε} :
    (n, e) ∈ d.infos name ↔ e ∈ d.mIterableContent ∧ name e = n := by
  unfold infos
  rw [mem_map]
  constructor
  · rintro ⟨x, hx, heq⟩
    rw [h.info_eq hx] at heq
    obtain ⟨hname, rfl⟩ := Prod.mk.inj heq
    exact ⟨hx, hname⟩
  · rintro ⟨he, rfl⟩
    exact ⟨e, he, h.info_eq he⟩

end Directory

-- ==== the listings

/-- A listing is at the node that comes after those it has given. -/
structure DirectoryIterator.Follows (name : ε → List Char) (d : Directory ε)
    (l : DirectoryIterator ε) : Prop where
  given : l.given <+: d.infos name
  current : l.mCurrent = d.node l.given.length

theorem DirectoryIterator.Follows.relock {name : ε → List Char} {d : Directory ε}
    {l : DirectoryIterator ε} (h : l.Follows name d) (n : UInt32) :
    l.Follows name { d with mLocked := n } :=
  ⟨h.given, h.current⟩

theorem DirectoryIterator.Follows.next {name : ε → List Char} {d : Directory ε}
    {l : DirectoryIterator ε} (h : l.Follows name d) : (l.next name d).Follows name d := by
  obtain ⟨hgiven, hcurrent⟩ := h
  unfold DirectoryIterator.next
  rw [hcurrent, Directory.node]
  split_ifs with hlt
  · have hin : l.given.length < (d.infos name).length := by simpa [Directory.infos] using hlt
    dsimp only
    rw [getElem?_eq_getElem hin, Option.toList_some]
    refine ⟨?_, by simp⟩
    have htake := take_append_getElem hin
    rw [← prefix_iff_eq_take.1 hgiven] at htake
    rw [htake]
    exact take_prefix _ _
  · exact ⟨hgiven, by rw [hcurrent, Directory.node, if_neg hlt]⟩

namespace Shared

variable {name : ε → List Char} {s : Shared ε}

/-- The directory is in order, its count is that of the listings, and each
listing is at its place. -/
structure Sound (name : ε → List Char) (s : Shared ε) : Prop where
  paired : s.dir.Paired name
  locked : s.dir.mLocked.toNat = s.listings.length
  follows : ∀ l ∈ s.listings, l.Follows name s.dir

theorem Sound.locked_iff (h : s.Sound name) : s.dir.mLocked ≠ 0 ↔ s.listings ≠ [] := by
  rw [ne_eq, ne_eq, ← UInt32.toNat_inj, h.locked]
  exact not_congr length_eq_zero_iff

theorem Sound.steady (h : s.Sound name) (hopen : s.listings ≠ []) (e : ε) :
    s.step name (.add e) = s := by
  rw [step, Directory.add, if_pos (h.locked_iff.2 hopen)]

theorem Sound.step (h : s.Sound name) {a : Action ε} (ha : s.Fresh name a) :
    (s.step name a).Sound name := by
  cases a with
  | add e =>
    by_cases hopen : s.listings = []
    · obtain ⟨hproper, hnew⟩ := ha hopen
      have hlocked : (s.dir.add name e).2.mLocked = s.dir.mLocked := by
        unfold Directory.add
        split_ifs <;> rfl
      refine ⟨h.paired.add hproper hnew, (congrArg _ hlocked).trans h.locked, ?_⟩
      simp [Shared.step, hopen]
    · rw [h.steady hopen]
      exact h
  | opendir =>
    have hroom : s.listings.length + 1 < 2 ^ 32 := ha
    refine ⟨h.paired.relock _, ?_, fun l hl => ?_⟩
    · have hlocked := h.locked
      simp only [Shared.step, Directory.lock, UInt32.toNat_add, length_append, length_singleton]
      rw [hlocked, UInt32.toNat_one, Nat.mod_eq_of_lt hroom]
    rcases mem_append.1 hl with hl | hl
    · exact (h.follows l hl).relock _
    · rw [mem_singleton.1 hl]
      exact ⟨ nil_prefix, rfl⟩
  | next i =>
    refine ⟨h.paired, ?_, fun l hl => ?_⟩
    · rw [Shared.step, h.locked, length_modify]
    obtain ⟨j, hj, rfl⟩ := mem_iff_getElem.1 hl
    simp only [Shared.step, getElem_modify]
    split_ifs
    · exact (h.follows _ (getElem_mem _)).next
    · exact h.follows _ (getElem_mem _)
  | closedir i =>
    unfold Shared.step
    dsimp only
    split_ifs with hi
    · have hopen : s.listings ≠ [] := ne_nil_of_length_pos (Nat.zero_lt_of_lt hi)
      have hlocked : s.dir.unlock = { s.dir with mLocked := s.dir.mLocked - 1 } :=
        if_pos (h.locked_iff.2 hopen)
      rw [hlocked]
      refine ⟨h.paired.relock _, ?_, fun l hl => (h.follows l (mem_of_mem_eraseIdx hl)).relock _⟩
      have hcount := h.locked
      have hone : (1 : UInt32) ≤ s.dir.mLocked := by
        rw [UInt32.le_iff_toNat_le, hcount]
        exact Nat.succ_le_of_lt (Nat.zero_lt_of_lt hi)
      rw [length_eraseIdx_of_lt hi, UInt32.toNat_sub_of_le _ _ hone, hcount]
      rfl
    · exact h

theorem Sound.of_reach (h : (machine name).Reach (Fresh name) s) : s.Sound name := by
  refine h.invariant ?_ ?_
  · rintro _ rfl
    exact ⟨⟨by simp [Libc.HashBy.find, Libc.HashBy.empty], .nil, by simp⟩, rfl, by simp⟩
  · intro s s' a hs ha hstep
    obtain rfl := Except.ok.inj hstep
    exact hs.step ha

/-- Whatever is added, and however many listings are open and read meanwhile,
a directory agrees with its listings if all names that were added are proper
and new. -/
theorem agrees_of_fresh (h : (machine name).Reach (Fresh name) s)
    (descend : ε → List Char → Option ε) : s.Agrees name descend := by
  obtain ⟨hpaired, _, hfollows⟩ := Sound.of_reach h
  refine ⟨?_, ?_, ?_, fun l hl => ?_, (Sound.of_reach h).steady⟩
  · rw [Directory.infos, map_map, map_congr_left (g := name)]
    · exact hpaired.nodup
    · intro e he
      rw [Function.comp_apply, hpaired.info_eq he]
  · intro ⟨n, e⟩ hi
    obtain ⟨he, rfl⟩ := hpaired.mem_infos.1 hi
    obtain ⟨hne, hslash, _⟩ := hpaired.proper e he
    rw [Directory.get_name descend hne hslash, (hpaired.content _ e).2 ⟨he, rfl⟩]
    rfl
  · intro path e hslash hget
    by_cases hpath : path = []
    · simp [Directory.get, hpath] at hget
    · rw [Directory.get_name descend hpath hslash] at hget
      exact hpaired.mem_infos.2 ((hpaired.content path e).1 (by simpa using hget))
  obtain ⟨hgiven, hcurrent⟩ := hfollows l hl
  refine ⟨hgiven, ?_⟩
  have hlength := hgiven.length_le
  rw [hcurrent, Directory.node, ite_eq_right_iff]
  constructor
  · intro hnot
    have hlt : ¬ l.given.length < s.dir.mIterableContent.length := by
      intro hlt
      cases hnot hlt
    exact hgiven.eq_of_length_le (by simpa [Directory.infos] using hlt)
  · intro hall hlt
    simp [hall, Directory.infos] at hlt

/-- Two names in one chain of the table. The second is refused while the first
listing is open, and the next listing has both. -/
theorem agrees_of_fresh_two : ∃ s, ((machine id).Reach (Fresh id) s ∧
      s.listings.map (·.given) = [[("a".toList, "a".toList), ("ab".toList, "ab".toList)]]) ∧
    s.Agrees id fun _ _ => none := by
  obtain ⟨s, hreach, hs⟩ := Machine.exists_guarded (M := machine id) (G := Fresh id) rfl
    [.add "a".toList, .opendir, .next 0, .add "ab".toList, .closedir 0, .add "ab".toList, .opendir,
      .next 0, .next 0, .next 0] (by decide)
    (P := fun s => s.listings.map (·.given) =
      [[("a".toList, "a".toList), ("ab".toList, "ab".toList)]]) (by decide)
  exact ⟨s, ⟨hreach, hs⟩, agrees_of_fresh hreach _⟩

/-- A name that is added twice is listed twice, and only the second is
found. -/
theorem add_twice :
    let name := fun _ => ['a']
    let s := (({} : Shared Nat).step name (.add 1)).step name (.add 2)
    s.dir.infos name = [(['a'], 1), (['a'], 2)] ∧
      s.dir.get (fun _ _ => none) ['a'] = some (some 2) ∧ ¬ s.Agrees name fun _ _ => none := by
  refine ⟨by decide, by decide, fun h => ?_⟩
  exact absurd h.once (by decide)

end Shared

end Puppy.Fs.MemFS
