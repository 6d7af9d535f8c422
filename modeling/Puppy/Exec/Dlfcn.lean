/-
Loading shared libraries (newlib/syscalls/dlfcn.cpp).

Each segment of a library gets a region of its own, as large as the file
says that the segment is in memory, and as many bytes are copied there as
the file says that it has of it. Nothing relates the two. A library that is
refused at one of its segments has been copied up to it.

Words that refer to a symbol are then relocated, without regard to what was
in them or to where the symbol is defined, and the initialisers are called,
from an array whose size is counted down to zero by four. A size that is not
a multiple of four never gets there, and nothing stops at the end of the
segment. An array that is in no segment starts at the null pointer, which is
tested for, but only its first entry is null.
-/
import Mathlib.Tactic

namespace Puppy.Exec.Dlfcn

/-- `elf_program_t`. -/
structure Program where
  type : UInt32
  vaddr : UInt32
  filesz : UInt32
  memsz : UInt32
  align : UInt32

def roundToPages (s : UInt32) : UInt32 := if s % 4096 = 0 then s else s - s % 4096 + 4096

/-- A segment and what `mapregion` gives for it: nothing, or a region below
the kernel. `ph_load_info` is made from this. -/
structure Segment extends Program where
  virt_start : UInt32
  mapped : virt_start ≠ 0 → roundToPages memsz ≠ 0 ∧
    virt_start.toNat + (roundToPages memsz).toNat ≤ 0xC0000000

/-- How much `do_copy_program` copies. -/
def copied (phdr : Program) : UInt32 :=
  if phdr.memsz = phdr.filesz then phdr.memsz else phdr.filesz

/-- The loop of `do_load_programs`: whether it comes to its end, and the
segments it has loaded. -/
def loadPrograms : List Segment → Bool × List Segment
  | [] => (true, [])
  | phdr :: rest =>
    if phdr.type ≠ 1 then loadPrograms rest
    else if phdr.align ≠ 4096 ∨ phdr.virt_start = 0 then (false, [])
    else ((loadPrograms rest).1, phdr :: (loadPrograms rest).2)

def doLoadPrograms (phdrs : List Segment) : Bool × List Segment :=
  if 10 < phdrs.length then (false, []) else loadPrograms phdrs

/-- The segment that `findRealAddress` finds. -/
def segmentOf (headers : List Segment) (offset : UInt32) : Option Segment :=
  headers.find? fun p => p.vaddr ≤ offset && offset < p.vaddr + p.memsz

def findRealAddress (headers : List Segment) (offset : UInt32) : UInt32 :=
  match segmentOf headers offset with
  | some p => p.virt_start + offset - p.vaddr
  | none => 0

-- ==== relocations

/-- The kinds of relocations that there are. -/
inductive RelKind where
  | R_386_32
  | R_386_PC32

/-- `elf_symtab_entry_t`. -/
structure Symbol where
  value : UInt32
  secheader : UInt16

/-- `do_perform_relocation`, of the word at `offset`: where it writes, and
what. -/
def doPerformRelocation (headers : List Segment) (kind : RelKind) (offset : UInt32)
    (symbol : Symbol) : Option (UInt32 × UInt32) :=
  let virt_dest := findRealAddress headers offset
  let virt_value := findRealAddress headers symbol.value
  if virt_dest = 0 then none
  else match kind with
    | .R_386_32 => some (virt_dest, virt_value)
    | .R_386_PC32 => some (virt_dest, virt_value - virt_dest - 4)

/-- The segment that has an address of the file. The bounds are numbers, so
they do not wrap around. -/
def holder (headers : List Segment) (a : UInt32) : Option Segment :=
  headers.find? fun p => p.vaddr.toNat ≤ a.toNat && a.toNat < p.vaddr.toNat + p.memsz.toNat

/-- Where an address of the file is at run time, as the segment has it. -/
def Segment.runTime (p : Segment) (a : UInt32) : UInt32 := p.virt_start + (a - p.vaddr)

/-- Where a symbol is at run time. One that is undefined is `elsewhere`, in
another image, if it is defined at all, and an absolute one is its value. -/
def Symbol.runTime (symbol : Symbol) (headers : List Segment) (elsewhere : Option UInt32) :
    Option UInt32 :=
  if symbol.secheader = 0 then elsewhere
  else if symbol.secheader = 0xFFF1 then some symbol.value
  else (holder headers symbol.value).map (Segment.runTime · symbol.value)

/-- `S + A`, or `S + A - P`, in a word that is within its segment. -/
def Relocated (headers : List Segment) (kind : RelKind) (offset addend : UInt32)
    (S : Option UInt32) (written : UInt32 × UInt32) : Prop :=
  ∃ s p, S = some s ∧ holder headers offset = some p ∧
    offset.toNat + 4 ≤ p.vaddr.toNat + p.memsz.toNat ∧
    written.1 = p.runTime offset ∧
    written.2 = match kind with
      | .R_386_32 => s + addend
      | .R_386_PC32 => s + addend - written.1

/-- The addend that a relocation leaves out, or puts in. -/
def impliedAddend : RelKind → UInt32
  | .R_386_32 => 0
  | .R_386_PC32 => -4

/-- Code at 0 and data at 4096, in two regions. -/
def twoSegments : List Segment :=
  [⟨⟨1, 0, 64, 64, 4096⟩, 0x10000, by decide⟩, ⟨⟨1, 4096, 16, 16, 4096⟩, 0x20000, by decide⟩]

/-- A round of the loop of `do_execute_init`: `init_ptr` and `size`. -/
def initRound (p : Nat × Nat) : Nat × Nat :=
  ((p.1 + 4) % 2 ^ 32, (p.2 + 2 ^ 32 - 4) % 2 ^ 32)

/-- The loop ends, and until then whatever it looks at is an entry of the
array, and in the segment of the array. The null pointer it does not look
at. -/
def InitEnds (headers : List Segment) (location size : UInt32) : Prop :=
  ∃ n, (initRound^[n] ((findRealAddress headers location).toNat, size.toNat)).2 = 0 ∧
    ∀ k < n, (initRound^[k] ((findRealAddress headers location).toNat, size.toNat)).1 ≠ 0 →
      4 * k + 4 ≤ size.toNat ∧ ∃ p, segmentOf headers location = some p ∧
        (location - p.vaddr).toNat + (4 * k + 4) ≤ p.memsz.toNat

/-- Copies stay in their regions, also those of a library that is refused.
If it is not, in the steps between either, the initialisers are those of the
array. -/
def Bounded (phdrs : List Segment) (relocated : Bool) (location size : UInt32) : Prop :=
  (∀ p ∈ (doLoadPrograms phdrs).2, copied p.toProgram ≤ roundToPages p.memsz) ∧
    ((doLoadPrograms phdrs).1 && relocated → location = 0 ∨ size = 0 ∨
      InitEnds (doLoadPrograms phdrs).2 location size)

theorem initRound_iterate {init_ptr size : Nat} (hp : init_ptr < 2 ^ 32)
    (hs : size < 2 ^ 32) (k : Nat) :
    initRound^[k] (init_ptr, size)
      = ((init_ptr + 4 * k) % 2 ^ 32, (size + (2 ^ 32 - 4) * k) % 2 ^ 32) := by
  induction k with
  | zero =>
    rw [Function.iterate_zero_apply, Prod.mk.injEq]
    omega
  | succ k ih =>
    rw [Function.iterate_succ_apply', ih, initRound, Prod.mk.injEq]
    omega

/-- The size comes to zero after all entries, which are whole ones. -/
theorem entries_le {size n : Nat} (hs : size < 2 ^ 32)
    (hend : (size + (2 ^ 32 - 4) * n) % 2 ^ 32 = 0) : size % 4 = 0 ∧ size ≤ 4 * n := by
  obtain ⟨c, hc⟩ := Nat.dvd_of_mod_eq_zero hend
  rcases le_or_gt c n with hle | hgt
  · obtain ⟨d, rfl⟩ := Nat.exists_eq_add_of_le hle
    omega
  · omega

/-- A region has room for its segment. -/
theorem le_roundToPages {s : UInt32} (h : roundToPages s ≠ 0) :
    s.toNat ≤ (roundToPages s).toNat := by
  unfold roundToPages at h ⊢
  split
  · exact le_rfl
  next hmod =>
  rw [if_neg hmod] at h
  have hlt := s.toNat_lt
  have hne : (s - s % 4096 + 4096).toNat ≠ 0 := fun hzero => h (UInt32.toNat_inj.1 hzero)
  have hle : (s % 4096) ≤ s := by
    rw [UInt32.le_iff_toNat_le, UInt32.toNat_mod]
    exact Nat.mod_le _ _
  rw [UInt32.toNat_add, UInt32.toNat_sub_of_le _ _ hle, UInt32.toNat_mod] at hne ⊢
  have hpage : (4096 : UInt32).toNat = 4096 := rfl
  rw [hpage] at hne ⊢
  omega

theorem loadPrograms_mapped {phdrs : List Segment} :
    ∀ p ∈ (doLoadPrograms phdrs).2, p.virt_start ≠ 0 := by
  have hloop : ∀ {phdrs : List Segment}, ∀ p ∈ (loadPrograms phdrs).2, p.virt_start ≠ 0 := by
    intro phdrs
    induction phdrs with
    | nil => simp [loadPrograms]
    | cons phdr rest ih =>
      unfold loadPrograms
      split
      · exact ih
      split
      · simp
      next hok =>
      simpa [not_or.1 hok] using ih
  unfold doLoadPrograms
  split
  · simp
  · exact hloop

/-- The array is in a segment, where its first entry is. -/
theorem findRealAddress_some {headers : List Segment} {location : UInt32} {p : Segment}
    (hp : segmentOf headers location = some p) (hmapped : p.virt_start ≠ 0) :
    (findRealAddress headers location).toNat = p.virt_start.toNat + (location - p.vaddr).toNat ∧
      (location - p.vaddr).toNat < p.memsz.toNat ∧
      p.virt_start.toNat + p.memsz.toNat ≤ 0xC0000000 := by
  obtain ⟨hround, huser⟩ := p.mapped hmapped
  have hroom := le_roundToPages hround
  have hin := List.find?_some hp
  rw [Bool.and_eq_true, decide_eq_true_eq, decide_eq_true_eq, UInt32.le_iff_toNat_le,
    UInt32.lt_iff_toNat_lt, UInt32.toNat_add] at hin
  have hoff := UInt32.toNat_sub_of_le location p.vaddr (UInt32.le_iff_toNat_le.2 hin.1)
  have hlt := p.memsz.toNat_lt
  have hlt' := location.toNat_lt
  have hbelow : (location - p.vaddr).toNat < p.memsz.toNat := by omega
  refine ⟨?_, hbelow, by omega⟩
  rw [findRealAddress, hp]
  dsimp only
  rw [show p.virt_start + location - p.vaddr = p.virt_start + (location - p.vaddr) by grind,
    UInt32.toNat_add]
  omega

theorem initEnds_iff {headers : List Segment} {location size : UInt32}
    (hmapped : ∀ p ∈ headers, p.virt_start ≠ 0) (hpos : size ≠ 0) :
    InitEnds headers location size ↔ size.toNat % 4 = 0 ∧ match segmentOf headers location with
      | some p => (location - p.vaddr).toNat + size.toNat ≤ p.memsz.toNat
      | none => size = 4 := by
  have hpos : size.toNat ≠ 0 := fun h => hpos (UInt32.toNat_inj.1 h)
  have hs := size.toNat_lt
  unfold InitEnds
  simp only [initRound_iterate (UInt32.toNat_lt _) (UInt32.toNat_lt _)]
  cases hp : segmentOf headers location with
  | none =>
    have hnull : (findRealAddress headers location).toNat = 0 := by
      rw [findRealAddress, hp]
      rfl
    rw [hnull, ← UInt32.toNat_inj, show (4 : UInt32).toNat = 4 from rfl]
    constructor
    · rintro ⟨n, hend, hlook⟩
      obtain ⟨hfour, hn⟩ := entries_le hs hend
      refine ⟨hfour, ?_⟩
      by_contra hmore
      -- the second round looks at what is at address 4
      obtain ⟨_, p, hp, _⟩ := hlook 1 (by omega) (by omega)
      cases hp
    · rintro ⟨_, hone⟩
      exact ⟨1, by omega, fun k hk hlook => by omega⟩
  | some p =>
    have hstart := hmapped p (List.mem_of_find?_eq_some hp)
    obtain ⟨hptr, hin, hbound⟩ := findRealAddress_some hp hstart
    have hnull : p.virt_start.toNat ≠ 0 := fun h => hstart (UInt32.toNat_inj.1 h)
    rw [hptr]
    constructor
    · rintro ⟨n, hend, hlook⟩
      obtain ⟨hfour, hn⟩ := entries_le hs hend
      refine ⟨hfour, ?_⟩
      by_contra hlong
      -- the first entry that is not all in the segment, which is below the kernel
      have hrounds : (p.memsz.toNat - (location - p.vaddr).toNat) / 4 < n := by omega
      obtain ⟨_, _, hfound, hfits⟩ :=
        hlook _ hrounds (by omega)
      cases hfound
      omega
    · rintro ⟨hfour, hfits⟩
      exact ⟨size.toNat / 4, by omega, fun k hk _ => ⟨by omega, p, rfl, by omega⟩⟩

/-- A library is loaded as it should be exactly when no segment that it gets
to has more bytes in the file than in its region and, if it is not refused,
the initialisers are none, or fill an array of whole entries that is all in
one segment, or has one entry and is in none. -/
theorem bounded_iff_fits (phdrs : List Segment) (relocated : Bool) (location size : UInt32) :
    Bounded phdrs relocated location size ↔
      (∀ p ∈ (doLoadPrograms phdrs).2, p.filesz ≤ roundToPages p.memsz) ∧
      ((doLoadPrograms phdrs).1 && relocated → location = 0 ∨ size = 0 ∨ size.toNat % 4 = 0 ∧
        match segmentOf (doLoadPrograms phdrs).2 location with
        | some p => (location - p.vaddr).toNat + size.toNat ≤ p.memsz.toNat
        | none => size = 4) := by
  have hcopied : ∀ p : Program, copied p = p.filesz := by
    intro p
    unfold copied
    split <;> simp_all
  refine and_congr (by simp [hcopied]) (imp_congr_right fun _ => or_congr_right
    (or_congr_right' fun hsize => ?_))
  exact initEnds_iff loadPrograms_mapped hsize

/-- Three initialisers, to the end of the data. -/
theorem bounded_iff_fits_three : Bounded twoSegments true 4100 12 :=
  (bounded_iff_fits _ _ _ _).2 ⟨by decide, fun _ => .inr (.inr ⟨rfl, Nat.le_refl 16⟩)⟩

/-- Two pages of a file for a segment of one byte, five bytes of
initialisers, and eight of which four are in their segment. -/
theorem load_overruns :
    (∀ relocated location size, ¬ Bounded [⟨⟨1, 0, 8192, 1, 4096⟩, 4096, by decide⟩]
      relocated location size) ∧
    ¬ Bounded twoSegments true 4096 5 ∧ ¬ Bounded twoSegments true 4108 8 := by
  have hends : ∀ {location size : UInt32}, Bounded twoSegments true location size →
      location = 0 ∨ size = 0 ∨ InitEnds twoSegments location size := fun h => h.2 rfl
  refine ⟨fun _ _ _ h => ?_, fun h => ?_, fun h => ?_⟩
  · exact absurd (h.1 _ (.head _)) (by decide)
  · rcases hends h with h | h | h
    · exact absurd h (by decide)
    · exact absurd h (by decide)
    · exact absurd ((initEnds_iff (by decide) (by decide)).1 h).1 (by decide)
  rcases hends h with h | h | h
  · exact absurd h (by decide)
  · exact absurd h (by decide)
  · have hfits : 12 + 8 ≤ 16 := ((initEnds_iff (by decide) (by decide)).1 h).2
    exact absurd hfits (by decide)

end Puppy.Exec.Dlfcn
