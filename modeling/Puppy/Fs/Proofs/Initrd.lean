/-
What the kernel finds in a ramdisk image.

The generator and the kernel agree on everything but names. `Parsed` says
so: from the bytes of the image the kernel gets the number of the files,
for every entry its size and its offset, and at the offset the contents.
The name it gets is `Entry.storedName`. So the round trip works exactly
when stored names are as good as names (`roundTrip_iff_namesKept`), and
that is so when the names are different and shorter than their field
(`namesKept_of_short`).
-/
import Puppy.Fs.Initrd
import Puppy.Lib.Except
import Mathlib.Data.List.TakeWhile

namespace Puppy.Fs

open Lib Libc Bytes InitrdDirectory Initrd
open List hiding next

namespace Gen

variable {unixnow : Nat → Fin gTimeLimit} {files : List InputFile}
  {bytes xs : List UInt8} {mem : Nat → UInt8} {base v offset i : Nat}
  {e : Entry} {timeserial : UInt64}

-- ==== an entry

/-- The bytes of an entry. -/
def Entry.packed (e : Entry) : List UInt8 :=
  pack64s e.file.name ++ (leBytes 4 e.file.size ++ (leBytes 4 e.offset ++ packQ e.time))

@[simp]
theorem length_pack64s (s : List UInt8) : (pack64s s).length = 64 := by
  unfold pack64s gNameSize
  rw [length_append, length_take, length_replicate]
  omega

@[simp]
theorem Entry.length_packed (e : Entry) : e.packed.length = 80 := by
  unfold Entry.packed packQ
  simp only [length_append, length_pack64s, length_leBytes]

/-- A number that does not need all of its bytes has a zero. -/
theorem zero_mem_leBytes {k count : Nat} (hv : v < 256 ^ k) (hk : k < count) :
    (0 : UInt8) ∈ leBytes count v := by
  induction k generalizing count v with
  | zero =>
    obtain ⟨n, rfl⟩ := Nat.exists_eq_add_of_lt hk
    rw [Nat.lt_one_iff.1 hv]
    exact mem_cons_self
  | succ k ih =>
    obtain ⟨n, rfl⟩ := Nat.exists_eq_succ_of_ne_zero (Nat.ne_zero_of_lt hk)
    refine mem_cons_of_mem _ (ih ?_ (Nat.lt_of_succ_lt_succ hk))
    rw [Nat.div_lt_iff_lt_mul (by decide)]
    rwa [Nat.pow_succ] at hv

/-- The bytes before the first zero, which is there. -/
theorem takeWhile_zero (h : (0 : UInt8) ∈ xs) : ∃ rest, xs = xs.takeWhile (· ≠ 0) ++ 0 :: rest := by
  induction xs with
  | nil => cases h
  | cons b xs ih =>
    by_cases hb : b = 0
    · subst hb
      exact ⟨xs, rfl⟩
    rcases mem_cons.1 h with h | h
    · exact absurd h.symm hb
    obtain ⟨rest, hrest⟩ := ih h
    refine ⟨rest, ?_⟩
    rw [takeWhile_cons_of_pos (by simpa using hb), cons_append, ← hrest]

theorem Entry.storedName_ne_zero (e : Entry) : ∀ b ∈ e.storedName, b ≠ 0 := by
  intro b hb
  unfold Entry.storedName at hb
  split at hb
  · exact (e.file.clean b hb).1
  · rcases mem_append.1 hb with hb | hb
    · exact (e.file.clean b (mem_of_mem_take hb)).1
    · simpa using mem_takeWhile_imp hb

/-- The stored name is what stands in the entry before the first zero. -/
theorem Entry.packed_eq_storedName (e : Entry) : ∃ rest, e.packed = e.storedName ++ 0 :: rest := by
  unfold Entry.packed Entry.storedName pack64s
  split
  next hshort =>
    obtain ⟨n, hn⟩ := Nat.exists_eq_add_of_lt hshort
    have hpad : gNameSize - e.file.name.length = n + 1 := by omega
    rw [hpad, take_of_length_le (le_of_lt hshort), replicate_succ, append_assoc, cons_append]
    exact ⟨_, rfl⟩
  next hlong =>
  have hpad : gNameSize - e.file.name.length = 0 := by omega
  have hzero : (0 : UInt8) ∈ leBytes 4 e.file.size ++ (leBytes 4 e.offset ++ leBytes 8 e.time) := by
    refine mem_append_right _ (mem_append_right _ ?_)
    refine zero_mem_leBytes (k := 5) ?_ (by decide)
    exact lt_of_lt_of_le e.time.isLt (by decide)
  obtain ⟨rest, hrest⟩ := takeWhile_zero hzero
  refine ⟨rest, ?_⟩
  rw [hpad, replicate_zero, append_nil, append_assoc, ← hrest]
  rfl

theorem Entry.length_storedName (e : Entry) : e.storedName.length < 80 := by
  obtain ⟨rest, hrest⟩ := e.packed_eq_storedName
  have hlen := congrArg length hrest
  rw [e.length_packed, length_append, length_cons] at hlen
  omega

/-- What the kernel reads from an entry. -/
structure Reads (mem : Nat → UInt8) (addr : Nat) (e : Entry) : Prop where
  name : string mem addr gMaxPathSize = e.storedName
  spells : ∀ path : List UInt8, (∀ b ∈ path, b ≠ 0) →
    (spells mem addr path = true ↔ path = e.storedName)
  size : word mem (addr + 64) 4 = e.file.size
  offset : word mem (addr + 68) 4 = e.offset

/-- The kernel reads an entry as it was packed. -/
theorem Entry.reads {addr : Nat} (h : Holds mem addr e.packed)
    (hsize : e.file.size < 0x100000000) (hoffset : e.offset < 0x100000000) :
    Reads mem addr e := by
  have hnumbers := h
  unfold Entry.packed at hnumbers
  simp only [holds_append, length_pack64s, length_leBytes] at hnumbers
  obtain ⟨rest, hrest⟩ := e.packed_eq_storedName
  rw [hrest] at h
  refine ⟨?_, ?_, ?_, ?_⟩
  · rw [h.string e.storedName_ne_zero, take_of_length_le]
    have := e.length_storedName
    unfold gMaxPathSize
    omega
  · intro path hpath
    exact h.spells_iff e.storedName_ne_zero hpath
  · rw [hnumbers.2.1.word]
    exact Nat.mod_eq_of_lt hsize
  · rw [show addr + 68 = addr + 64 + 4 from rfl, hnumbers.2.2.1.word]
    exact Nat.mod_eq_of_lt hoffset

-- ==== the writer

theorem packI_ok (h : packI v = .ok xs) : v < 0x100000000 ∧ xs = leBytes 4 v := by
  obtain ⟨hv, h⟩ := check_eq_ok.1 h
  injection h with h
  exact ⟨hv, h.symm⟩

theorem writeFile_ok {f : InputFile} {now : Fin gTimeLimit}
    (h : writeFile f offset now = .ok bytes) :
    f.size < 0x100000000 ∧ offset < 0x100000000 ∧ bytes = Entry.packed ⟨f, offset, now⟩ := by
  obtain ⟨size, hsize, h⟩ := ok_bind h
  obtain ⟨off, hoffset, h⟩ := ok_bind h
  obtain ⟨hs, rfl⟩ := packI_ok hsize
  obtain ⟨ho, rfl⟩ := packI_ok hoffset
  injection h with h
  exact ⟨hs, ho, h.symm⟩

theorem writeEntries_ok (h : writeEntries unixnow i (genInputFiles offset files) = .ok bytes) :
    bytes = (table unixnow offset i files).flatMap Entry.packed ∧
      ∀ e ∈ table unixnow offset i files, e.file.size < 0x100000000 ∧ e.offset < 0x100000000 := by
  induction files generalizing offset i bytes with
  | nil =>
    injection h with h
    exact ⟨h.symm, nofun⟩
  | cons f rest ih =>
    obtain ⟨entry, hentry, h⟩ := ok_bind h
    obtain ⟨entries, hentries, h⟩ := ok_bind h
    injection h with h
    obtain ⟨hsize, hoffset, rfl⟩ := writeFile_ok hentry
    obtain ⟨rfl, hrest⟩ := ih hentries
    refine ⟨h.symm, ?_⟩
    intro e he
    rcases mem_cons.1 he with rfl | he
    · exact ⟨hsize, hoffset⟩
    · exact hrest e he

@[simp]
theorem length_table (offset i : Nat) : (table unixnow offset i files).length = files.length := by
  induction files generalizing offset i with
  | nil => rfl
  | cons f rest ih => rw [table, length_cons, ih, length_cons]

@[simp]
theorem length_genInputFiles (offset : Nat) :
    (genInputFiles offset files).length = files.length := by
  induction files generalizing offset with
  | nil => rfl
  | cons f rest ih => rw [genInputFiles, length_cons, ih, length_cons]

theorem map_file_table (offset i : Nat) :
    (table unixnow offset i files).map Entry.file = files := by
  induction files generalizing offset i with
  | nil => rfl
  | cons f rest ih => rw [table, map_cons, ih]

/-- The unused part of the table. -/
def padding (n : Nat) : List UInt8 :=
  (replicate (64 - n) writeNullFile).flatten

theorem length_padding {n : Nat} (hn : n ≤ 64) : 80 * n + (padding n).length = 5120 := by
  have hnull : writeNullFile.length = 80 := by
    unfold writeNullFile packQ
    simp only [length_append, length_pack64s, length_leBytes]
  unfold padding
  rw [length_flatten, map_replicate, sum_replicate, hnull, smul_eq_mul]
  omega

/-- The parts of an image. -/
theorem image_ok (h : image timeserial unixnow files = .ok bytes) : files.length ≤ 64 ∧
      (∀ e ∈ table unixnow 5140 0 files, e.file.size < 0x100000000 ∧ e.offset < 0x100000000) ∧
      bytes = writeHeader timeserial ++ (leBytes 4 files.length ++
        ((table unixnow 5140 0 files).flatMap Entry.packed ++
          (padding files.length ++ writeFiles files))) := by
  unfold image at h
  split at h
  · cases h
  obtain ⟨hcount, h⟩ := reject_eq_ok.1 h
  split at h
  · cases h
  obtain ⟨tbl, htable, h⟩ := ok_bind h
  injection h with h
  unfold writeTable at htable
  rw [length_genInputFiles] at htable
  obtain ⟨count, hpack, htable⟩ := ok_bind htable
  obtain ⟨entries, hentries, htable⟩ := ok_bind htable
  injection htable with htable
  obtain ⟨_, rfl⟩ := packI_ok hpack
  obtain ⟨rfl, hbounds⟩ := writeEntries_ok hentries
  refine ⟨Nat.le_of_not_lt hcount, hbounds, ?_⟩
  rw [← h, ← htable]
  simp only [append_assoc]
  rfl

-- ==== the reader

/-- What the kernel gets from an image with these entries. -/
structure Parsed (mem : Nat → UInt8) (base : Nat) (entries : List Entry) :
    Prop where
  tryget : tryget mem base = some ⟨base⟩
  count : count mem ⟨base⟩ = entries.length
  entry : ∀ i e, entries[i]? = some e → Reads mem (fileAt (base + 16) i) e
  content : ∀ e ∈ entries, Holds mem (base + e.offset) e.file.content ∧
    base + e.offset + e.file.size < 0x100000000

/-- The contents stand one after the other. -/
theorem content_of_writeFiles (h : Holds mem (base + offset) (writeFiles files))
    (hend : base + offset + (writeFiles files).length < 0x100000000) :
    ∀ e ∈ table unixnow offset i files, Holds mem (base + e.offset) e.file.content ∧
        base + e.offset + e.file.size < 0x100000000 := by
  induction files generalizing offset i with
  | nil => nofun
  | cons f rest ih =>
    unfold writeFiles at h hend
    rw [flatMap_cons] at h hend
    rw [holds_append] at h
    rw [length_append] at hend
    intro e he
    rcases mem_cons.1 he with rfl | he
    · refine ⟨h.1, ?_⟩
      show base + offset + f.content.length < _
      omega
    refine ih ?_ ?_ e he
    · rw [← add_assoc]
      exact h.2
    · show base + (offset + f.content.length) + (rest.flatMap InputFile.content).length < _
      omega

/-- The whole table. -/
theorem parsed (h : image timeserial unixnow files = .ok bytes) (hload : Loaded mem base bytes) :
    Parsed mem base (table unixnow 5140 0 files) := by
  obtain ⟨hcount, hbounds, rfl⟩ := image_ok h
  obtain ⟨hholds, hend⟩ := hload
  have hheader : (writeHeader timeserial).length = 16 := rfl
  have hentries : ((table unixnow 5140 0 files).flatMap Entry.packed).length
        = 80 * files.length := by
    rw [length_flatMap, map_congr_left (fun e _ => e.length_packed), map_const', sum_replicate,
      length_table, smul_eq_mul, mul_comm]
  have hpad := length_padding hcount
  simp only [length_append, hheader, length_leBytes, hentries] at hend
  rw [holds_append, holds_append, holds_append,
    holds_append, hheader, length_leBytes, hentries] at hholds
  obtain ⟨hmagic, hnumber, htable, _, hfiles⟩ := hholds
  refine ⟨?_, ?_, ?_, ?_⟩
  · obtain ⟨h0, h1, h2, h3, h4, _⟩ := hmagic
    unfold tryget
    rw [if_neg, if_neg]
    · rw [h4]
      decide
    · rw [not_not]
      unfold block block block block block
      rw [h0, h1, h2, h3]
  · rw [length_table]
    show word mem (base + 16) 4 = _
    rw [hnumber.word]
    exact Nat.mod_eq_of_lt (by omega)
  · intro i e he
    have hmem := mem_of_getElem? he
    exact Entry.reads (htable.record (fun e _ => e.length_packed) he)
      (hbounds e hmem).1 (hbounds e hmem).2
  · have hstart : base + 16 + 4 + 80 * files.length
        + (padding files.length).length = base + 5140 := by omega
    rw [hstart] at hfiles
    exact content_of_writeFiles hfiles (by omega)

end Gen

-- ==== reading a file

/-- However a file is read, its contents come in their order. -/
theorem InitrdFile.readAll_eq {mem : Nat → UInt8} {pointer : Nat}
    {content : List UInt8} (h : Holds mem pointer content)
    (hend : pointer + content.length < 0x100000000) (sizes : List Nat) :
    InitrdFile.readAll mem ⟨pointer, content.length⟩ sizes = content.take sizes.sum := by
  -- on the reads, over what is left of the contents
  induction sizes generalizing pointer content with
  | nil => rfl
  | cons n rest ih =>
    have hclamp : (if content.length < n then content.length else n) = min n content.length := by
      split <;> omega
    unfold InitrdFile.readAll InitrdFile.read
    dsimp only
    rw [hclamp, h.block (Nat.min_le_right _ _)]
    rw [← take_append_drop (min n content.length) content, holds_append, length_take] at h
    rw [Nat.min_eq_left (Nat.min_le_right n content.length)] at h
    rw [add32_of_lt (by omega), ← length_drop, ih h.2 (by rw [length_drop]; omega), sum_cons]
    rw [take_add, ← take_eq_take_min]
    rcases Nat.le_total n content.length with hn | hn
    · rw [Nat.min_eq_left hn]
    · rw [Nat.min_eq_right hn, drop_length, drop_eq_nil_of_le hn]

-- ==== finding it

/-- A search over the numbers of a list's elements finds the element that
a search of the list finds. -/
theorem find?_range_getElem? {α : Type} {l : List α} {p : Nat → Bool}
    {q : α → Bool} (h : ∀ i a, l[i]? = some a → p i = q a) :
    ((range l.length).find? p).bind (fun i => l[i]?) = l.find? q := by
  induction l generalizing p with
  | nil => rfl
  | cons a rest ih =>
    rw [length_cons, range_succ_eq_map, find?_cons, find?_cons, h 0 a rfl]
    cases q a with
    | true => rfl
    | false =>
      rw [find?_map, ← ih (p := p ∘ Nat.succ) (fun i b hb => h (i + 1) b hb), Option.bind_map]
      rfl

namespace Gen

variable {unixnow : Nat → Fin gTimeLimit} {files : List InputFile}
  {bytes : List UInt8} {mem : Nat → UInt8} {base mode : Nat} {e : Entry}
  {entries : List Entry}

theorem stripSlash_name (f : InputFile) : stripSlash f.name = f.name := by
  have hclean := f.clean
  cases hname : f.name with
  | nil => rfl
  | cons c rest =>
    rw [hname] at hclean
    exact if_neg (hclean c mem_cons_self).2

/-- The first entry that has the name is opened. -/
theorem Parsed.doOpen (h : Parsed mem base entries) (f : InputFile)
    (hmode : mode &&& gWriteModes = 0) :
    Initrd.doOpen mem ⟨base⟩ f.name mode
      = (entries.find? fun e => decide (e.storedName = f.name)).map
          fun e => ⟨base + e.offset, e.file.size⟩ := by
  have hpath : ∀ b ∈ f.name, b ≠ 0 := fun b hb => (f.clean b hb).1
  have hsearch := find?_range_getElem? (l := entries)
    (p := fun i => spells mem (fileAt (base + 16) i) f.name)
    (q := fun e => decide (e.storedName = f.name)) (by
      intro i e he
      rw [Bool.eq_iff_iff, (h.entry i e he).spells f.name hpath, decide_eq_true_iff]
      exact eq_comm)
  unfold Initrd.doOpen
  rw [if_neg (by rw [not_not]; exact hmode), stripSlash_name, h.count, ← hsearch]
  dsimp only [Initrd.mFiles]
  cases hfind : (range entries.length).find? (fun i =>
      spells mem (fileAt (base + 16) i) f.name) with
  | none => rfl
  | some i =>
    have hi := mem_range.1 (mem_of_find?_eq_some hfind)
    have he := getElem?_eq_getElem hi
    have hreads := h.entry i _ he
    have hend := (h.content _ (getElem_mem hi)).2
    dsimp only [Option.bind_some]
    rw [he]
    show some _ = some _
    rw [hreads.size, hreads.offset, add32_of_lt (by omega)]

/-- The listing has the stored names. -/
theorem Parsed.listing_from (h : Parsed mem base entries) (i : Nat) :
    (listing mem ⟨base + 16, i⟩).map FileInfo.name = (entries.drop i).map Entry.storedName := by
  -- on the entries that are left
  induction hn : entries.length - i generalizing i with
  | zero =>
    have hnext : next mem ⟨base + 16, i⟩ = none := by
      have hcount : word mem (base + 16) 4 = entries.length := h.count
      unfold next
      rw [if_pos (show word mem (base + 16) 4 ≤ i by omega)]
    rw [listing]
    split
    · rw [drop_eq_nil_of_le (by omega)]; rfl
    next info d' hsome =>
    cases hnext.symm.trans hsome
  | succ n ih =>
    have hi : i < entries.length := by omega
    have hcount : word mem (base + 16) 4 = entries.length := h.count
    have hreads := h.entry i _ (getElem?_eq_getElem hi)
    rw [listing]
    split
    next hnone =>
      unfold next at hnone
      rw [if_neg (show ¬ word mem (base + 16) 4 ≤ i by omega)] at hnone
      cases hnone
    next info d' hsome =>
    unfold next at hsome
    rw [if_neg (show ¬ word mem (base + 16) 4 ≤ i by omega)] at hsome
    obtain ⟨rfl, rfl⟩ := Prod.mk.inj (Option.some.inj hsome)
    rw [drop_eq_getElem_cons hi, map_cons, map_cons, ih (i + 1) (by omega)]
    exact congrArg₂ cons hreads.name rfl

-- ==== the result

theorem count_eq_length_filter (f : InputFile) : (entries.map Entry.storedName).count f.name
      = (entries.filter fun e => decide (e.storedName = f.name)).length := by
  rw [List.count, List.countP_map, List.countP_eq_length_filter]
  exact congrArg List.length (List.filter_congr fun e _ => beq_eq_decide _ _)

theorem Parsed.listing_count (h : Parsed mem base entries) (f : InputFile) :
    ((listing mem ⟨base + 16, 0⟩).map FileInfo.name).count f.name
      = (entries.filter fun e => decide (e.storedName = f.name)).length := by
  rw [h.listing_from 0, drop_zero, count_eq_length_filter]

/-- An entry that alone has its name is opened and read. -/
theorem Parsed.opens (h : Parsed mem base entries) {f : InputFile}
    (hone : (entries.filter fun e => decide (e.storedName = f.name)) = [e])
    (hmode : mode &&& gWriteModes = 0) :
    Initrd.doOpen mem ⟨base⟩ f.name mode = some ⟨base + e.offset, e.file.size⟩ ∧
      ∀ sizes, InitrdFile.readAll mem ⟨base + e.offset, e.file.size⟩ sizes
        = e.file.content.take sizes.sum := by
  have hmem : e ∈ entries := mem_of_mem_filter (hone ▸ mem_singleton_self e)
  obtain ⟨hholds, hend⟩ := h.content e hmem
  refine ⟨?_, fun sizes => InitrdFile.readAll_eq hholds hend sizes⟩
  rw [h.doOpen f hmode, ← head?_filter, hone]
  rfl

/-- A name that is not kept is not found. -/
theorem namesKept_of_roundTrip (h : Parsed mem base (table unixnow 5140 0 files))
    (htrip : RoundTrip mem base files) : NamesKept unixnow files := by
  obtain ⟨fs, htryget, hfiles, d, hopendir, hlist⟩ := htrip
  intro f hf
  rw [h.tryget] at htryget
  obtain rfl := Option.some.inj htryget
  obtain rfl := Option.some.inj hopendir
  have hone := (h.listing_count f).symm.trans (hlist f hf)
  obtain ⟨e, he⟩ := length_eq_one_iff.1 hone
  refine ⟨e, he, ?_⟩
  obtain ⟨file, hfile, hread⟩ := hfiles f hf 1 (by decide)
  obtain ⟨hopened, hcontent⟩ := h.opens he (show 1 &&& _ = 0 by decide)
  rw [hopened] at hfile
  obtain rfl := Option.some.inj hfile
  -- one read that is large enough for both
  have hboth := (hcontent [max e.file.size f.size]).symm.trans (hread [max e.file.size f.size])
  rw [sum_singleton] at hboth
  unfold InputFile.size at hboth
  rwa [take_of_length_le (Nat.le_max_left _ _), take_of_length_le (Nat.le_max_right _ _)] at hboth

theorem roundTrip_of_namesKept (h : Parsed mem base (table unixnow 5140 0 files))
    (hkept : NamesKept unixnow files) : RoundTrip mem base files := by
  refine ⟨⟨base⟩, h.tryget, ?_, ⟨base + 16, 0⟩, rfl, ?_⟩
  · intro f hf mode hmode
    obtain ⟨e, he, hcontent⟩ := hkept f hf
    obtain ⟨hopened, hread⟩ := h.opens he hmode
    refine ⟨_, hopened, ?_⟩
    rw [← hcontent]
    exact hread
  · intro f hf
    obtain ⟨e, he, _⟩ := hkept f hf
    rw [h.listing_count f, he]
    rfl

/-- Different names that are shorter than their field survive. -/
theorem namesKept_of_short (hshort : ∀ f ∈ files, f.name.length < gNameSize)
    (hnodup : (files.map InputFile.name).Nodup) : NamesKept unixnow files := by
  intro f hf
  have hfiles := @map_file_table unixnow files 5140 0
  have hstored : ∀ e ∈ table unixnow 5140 0 files, e.storedName = e.file.name := by
    intro e he
    have hfile : e.file ∈ files := hfiles ▸ mem_map_of_mem he
    exact if_pos (hshort e.file hfile)
  have hnames : (table unixnow 5140 0 files).map Entry.storedName = files.map InputFile.name := by
    calc (table unixnow 5140 0 files).map Entry.storedName
        = (table unixnow 5140 0 files).map (InputFile.name ∘ Entry.file) :=
          map_congr_left hstored
      _ = files.map InputFile.name := by rw [← map_map, hfiles]
  have hcount : ((table unixnow 5140 0 files).filter fun e =>
      decide (e.storedName = f.name)).length = 1 := by
    rw [← count_eq_length_filter, hnames]
    exact count_eq_one_of_mem hnodup (mem_map_of_mem hf)
  obtain ⟨e', he'⟩ := length_eq_one_iff.1 hcount
  refine ⟨e', he', ?_⟩
  rw [← hfiles] at hf
  obtain ⟨e, he, rfl⟩ := mem_map.1 hf
  have hin : e ∈ (table unixnow 5140 0 files).filter fun e' =>
      decide (e'.storedName = e.file.name) :=
    mem_filter.2 ⟨he, decide_eq_true (hstored e he)⟩
  rw [he', mem_singleton] at hin
  rw [hin]

/-- The image of accepted files gives them back exactly when the names
survive. -/
theorem roundTrip_iff_namesKept {timeserial : UInt64}
    (h : image timeserial unixnow files = .ok bytes)
    (hload : Loaded mem base bytes) :
    RoundTrip mem base files ↔ NamesKept unixnow files :=
  ⟨namesKept_of_roundTrip (parsed h hload), roundTrip_of_namesKept (parsed h hload)⟩

/-- A memory with the image at its start. -/
def memoryOf (bytes : List UInt8) : Nat → UInt8 := fun i => bytes.getD i 0

theorem holds_memoryOf {xs ys : List UInt8} : Holds (memoryOf (xs ++ ys)) xs.length ys := by
  induction ys generalizing xs with
  | nil => trivial
  | cons b rest ih =>
    constructor
    · unfold memoryOf
      rw [getD_eq_getElem?_getD, getElem?_append_right le_rfl, Nat.sub_self]
      rfl
    · have hrest := @ih (xs ++ [b])
      rwa [append_assoc, singleton_append, length_append, length_singleton] at hrest

theorem loaded_memoryOf (h : bytes.length < 0x100000000) : Loaded (memoryOf bytes) 0 bytes := by
  refine ⟨@holds_memoryOf [] bytes, ?_⟩
  rwa [zero_add]

/-- A clock that stands still. -/
def epoch (_ : Nat) : Fin gTimeLimit := ⟨0, by decide⟩

/-- The files are accepted, and the image is small enough. -/
def accepts (files : List InputFile) : Bool :=
  match image 0 epoch files with
  | .ok bytes => decide (bytes.length < 0x100000000)
  | .error _ => false

theorem accepts_iff : accepts files = true ↔ ∃ bytes, image 0 epoch files = .ok bytes ∧
      bytes.length < 0x100000000 := by
  unfold accepts
  cases image 0 epoch files with
  | error e => simp
  | ok bytes => simp

/-- Two files, a and b. -/
def twoFiles : List InputFile :=
  [⟨[97], [1], by simp⟩, ⟨[98], [2, 3], by simp⟩]

theorem roundTrip_iff_namesKept_two : ∃ bytes, image 0 epoch twoFiles = .ok bytes ∧
      Loaded (memoryOf bytes) 0 bytes ∧
      NamesKept epoch twoFiles ∧
      RoundTrip (memoryOf bytes) 0 twoFiles := by
  obtain ⟨bytes, hbytes, hlen⟩ := accepts_iff.1 (show accepts twoFiles = true by decide +kernel)
  have hload := loaded_memoryOf hlen
  have hkept : NamesKept epoch twoFiles := namesKept_of_short (by decide) (by decide)
  exact ⟨bytes, hbytes, hload, hkept, (roundTrip_iff_namesKept hbytes hload).2 hkept⟩

/-- A file whose name fills its field, with one byte. -/
def longName : InputFile where
  name := replicate 64 97
  content := [1]
  clean := by
    intro b hb
    rw [eq_of_mem_replicate hb]
    decide

/-- The kernel goes on with the size of the file, so that there is no file
with the name. -/
theorem longName_lost : ∃ bytes, image 0 epoch [longName] = .ok bytes ∧
      Loaded (memoryOf bytes) 0 bytes ∧
      ¬ RoundTrip (memoryOf bytes) 0 [longName] := by
  obtain ⟨bytes, hbytes, hlen⟩ := accepts_iff.1 (show accepts [longName] = true by decide +kernel)
  have hload := loaded_memoryOf hlen
  refine ⟨bytes, hbytes, hload, ?_⟩
  intro htrip
  obtain ⟨e, he, _⟩ := namesKept_of_roundTrip (parsed hbytes hload) htrip longName mem_cons_self
  have hnone : ((table epoch 5140 0 [longName]).filter fun e =>
      decide (e.storedName = longName.name)) = [] := by
    rw [filter_eq_nil_iff]
    decide +kernel
  cases hnone.symm.trans he

end Gen

end Puppy.Fs
