/-
Headers that nobody checks.

`load_elf_image` takes counts and offsets from the file as they are. It is
not told how long the file is, and so it leaves the buffer exactly where the
file sends it there, unless it has stopped before: at a header that it
refuses, which the file decides as well, or because there is no memory, or a
page is protected.
-/
import Puppy.Exec.Proofs.Elf

namespace Puppy.Exec

open Libc Lib Mm

section Checked

variable {file : List UInt8} {b : Buffer} {h : ProgramHeader} {l : Loading} {m : Nat}

/-- What one header comes to. -/
theorem loadSegment_keeps (hsize : b.size = file.length) :
    Keeps (0 < h.copied → h.offset + h.copied ≤ file.length)
      (fun again => again = true ↔ (0 < h.memsz → h.vaddr + h.memsz ≤ gKernelBase))
      (loadSegment b h l m) := by
  have hcopy : Keeps _ _ (copySegment b h.writable { user := true, clear := true } h.memsz
    h.filesz (b.load0 + h.offset) h.vaddr l.vm) := copySegment_keeps h.memsz
  have hin : (0 < h.copied → b.holds (b.load0 + h.offset) h.copied = true) ↔
      (0 < h.copied → h.offset + h.copied ≤ file.length) := by
    rw [holds_iff, hsize]
    omega
  have hcopy := hcopy.congr hin (fun _ => id)
  unfold loadSegment
  split
  next hend =>
    rw [hend] at hcopy
    exact hcopy.error id
  next hend =>
    rw [hend] at hcopy
    exact hcopy
  next hend =>
  rw [hend] at hcopy
  exact hcopy

/-- The loop over the headers, by induction on the rounds that are left,
which are enough for the headers that are left. -/
theorem loadHeaders_keeps (hheader : 46 ≤ file.length)
    (haside : Aside b.load0 file (programHeaders file)) (rounds : Nat) :
    ∀ {i idx : Nat} {l : Loading} {m : Nat}, Separate l.vm → InBuffer file b l.vm →
      elfPhnum (byteAt file) 0 < i + rounds →
      Keeps (InFile file i idx ((programHeaders file).drop i)) (fun _ => True)
        (loadHeaders b rounds i idx l m) := by
  induction rounds with
  | zero =>
    intro i idx l m _ _ hrounds
    rw [drop_programHeaders_of_le (by omega)]
    exact ⟨trivial, trivial⟩
  | succ rounds ih =>
    intro i idx l m hsep hbuf hrounds
    unfold loadHeaders
    dsimp only
    rw [hbuf.phnum hheader, hbuf.phoff hheader]
    split
    next hi =>
      rw [drop_programHeaders_of_le hi]
      exact ⟨trivial, trivial⟩
    next hi =>
    have hi := Nat.lt_of_not_le hi
    have hdrop := drop_programHeaders hi
    rw [hdrop]
    split
    next hout =>
      rw [Bool.not_eq_true', ← Bool.not_eq_true, holds_iff, hbuf.size] at hout
      exact fun hin => hout ⟨by omega, by have := hin.1; omega⟩
    next htable =>
    have htable := hbuf.table_of_holds htable
    rw [hbuf.program hheader htable]
    generalize elfProgram (byteAt file) 0 i = h at hdrop
    unfold InFile
    rw [and_iff_right htable]
    cases hloadable : h.loadable with
    | false => exact ih hsep hbuf (by omega)
    | true =>
    rw [if_pos rfl, if_neg (by decide)]
    have hmem : h ∈ (programHeaders file).drop i := by
      rw [hdrop]
      exact List.mem_cons_self
    have hmem : h ∈ segments (programHeaders file) :=
      List.mem_filter.2 ⟨List.mem_of_mem_drop hmem, hloadable⟩
    split
    next halign => exact ⟨fun h => absurd h halign, trivial⟩
    next halign =>
    rw [forall_prop_of_true (not_not.1 halign)]
    split
    next hidx => exact fun hin => absurd hin.1 (Nat.not_lt.2 hidx)
    next hidx =>
    have hseg : Keeps _ _ (loadSegment b h l m) := loadSegment_keeps hbuf.size
    split
    next e hend =>
      -- the segment has led out of the file, or the load was cut short
      rw [hend] at hseg
      exact hseg.error fun hin => hin.2.1
    next hend =>
      rw [hend] at hseg
      have hstop := not_congr hseg.2
      exact ⟨⟨Nat.lt_of_not_le hidx, hseg.1, fun hfits => absurd hfits
        (hstop.1 Bool.false_ne_true)⟩, trivial⟩
    next l₁ m₁ hend =>
    rw [hend] at hseg
    obtain ⟨hcopy, _⟩ := loadSegment_ok hend
    obtain ⟨⟨hfirst, hbuf₁⟩, _⟩ := copySegment_stores (haside h hmem) hsep hbuf hcopy
    refine (ih hfirst.separate hbuf₁ (by omega)).congr ?_ (fun _ => id)
    exact ⟨fun hin => ⟨Nat.lt_of_not_le hidx, hseg.1, fun _ => hin⟩,
      fun hin => hin.2.2 (hseg.2.1 rfl)⟩

theorem loadElfImage_keeps (haside : Aside b.load0 file (programHeaders file))
    (hsep : Separate l.vm) (hbuf : InBuffer file b l.vm) :
    Keeps (46 ≤ file.length ∧ InFile file 0 0 (programHeaders file)) (fun _ => True)
      (loadElfImage b l) := by
  unfold loadElfImage
  split
  next hout =>
    rw [Bool.not_eq_true', ← Bool.not_eq_true, holds_iff, hbuf.size] at hout
    exact fun hin => hout ⟨le_rfl, by have := hin.1; omega⟩
  next hin =>
  rw [Bool.not_eq_true', Bool.not_eq_false, holds_iff, hbuf.size] at hin
  have hheader : 46 ≤ file.length := by omega
  have hphnum : elfPhnum (byteAt file) 0 < 0 + 0x10000 := Bytes.word_lt
  refine (loadHeaders_keeps hheader haside _ hsep hbuf hphnum).congr ?_ (fun _ => id)
  rw [List.drop_zero, and_iff_right hheader]

theorem InBuffer.sanitycheck_eq (h : InBuffer file b l.vm) (hlen : 20 ≤ file.length) :
    sanitycheck (fun i => l.vm.view (b.load0 + i)) = sanitycheck (byteAt file) := by
  have hword : ∀ off count, off + count ≤ 20 →
      Bytes.word (fun i => l.vm.view (b.load0 + i)) off count
        = Bytes.word (byteAt file) off count := by
    intro off count hin
    exact Bytes.word_congr (fun k hk => h.bytes (off + k) (by omega))
  unfold sanitycheck
  simp only [hword _ _ (show 0 + 4 ≤ 20 by decide), hword _ _ (show 4 + 1 ≤ 20 by decide),
    hword _ _ (show 5 + 1 ≤ 20 by decide), hword _ _ (show 6 + 1 ≤ 20 by decide),
    hword _ _ (show 16 + 2 ≤ 20 by decide), hword _ _ (show 18 + 2 ≤ 20 by decide)]

theorem loadMainImage_keeps (haside : Aside b.load0 file (programHeaders file))
    (hsep : Separate l.vm) (hbuf : InBuffer file b l.vm) :
    Keeps (Checked file) (fun _ => True) (loadMainImage b l) := by
  unfold loadMainImage Checked
  split
  next hout =>
    rw [Bool.not_eq_true', ← Bool.not_eq_true, holds_iff, hbuf.size] at hout
    exact fun hin => hout ⟨le_rfl, by have := hin.1; omega⟩
  next hin =>
  rw [Bool.not_eq_true', Bool.not_eq_false, holds_iff, hbuf.size] at hin
  have hlen : 20 ≤ file.length := by omega
  have htype : elfType l.vm.view b.load0 = elfType (byteAt file) 0 := hbuf.word (by omega)
  rw [hbuf.sanitycheck_eq hlen, htype, and_iff_right hlen]
  split
  next hnot =>
    rw [Bool.not_eq_true'] at hnot
    exact ⟨fun hsane => absurd hsane (by rw [hnot]; decide), trivial⟩
  next hsane =>
  rw [Bool.not_eq_true', Bool.not_eq_false] at hsane
  split
  next hdyn => exact ⟨fun _ hnot => absurd hdyn hnot, trivial⟩
  next hdyn =>
  refine (loadElfImage_keeps haside hsep hbuf).congr ?_ (fun _ => id)
  rw [forall_prop_of_true hsane, forall_prop_of_true hdyn]

end Checked

/-- A header that is not loadable, the data, one in the kernel, which is
refused, and eleven more that would lead out. -/
def fileOfMany : List UInt8 :=
  executable 0x8000 ([{ emptySegment with type := 0 }, dataSegment 500,
    { emptySegment with vaddr := 0xC0000000, memsz := 1 }] ++
      List.replicate 11 (dataSegment 0x40000000)) [1, 2]

theorem checked_fileOfMany : Checked fileOfMany := by
  refine ⟨by decide +kernel, fun _ _ => ⟨by decide +kernel, ?_⟩⟩
  refine ⟨by decide +kernel, by decide +kernel, fun _ => ⟨by decide, fun _ => by decide +kernel,
    fun _ => ?_⟩⟩
  exact ⟨by decide +kernel, fun _ => ⟨by decide, fun h => absurd h (by decide),
    fun h => absurd (h (by decide)) (by decide)⟩⟩

/-- An access went out of bounds. -/
def strays {α : Type} : Except Panic α → Bool
  | .error .outOfBounds => true
  | _ => false

theorem eq_of_strays {α : Type} {r : Except Panic α} (h : strays r = true) :
    r = .error .outOfBounds := by
  unfold strays at h
  split at h
  · rfl
  · cases h

/-- Eleven segments; a segment whose bytes are not in the file; headers that
are not in the file; and a file that ends in its own header. -/
def strayFiles : List (List UInt8) :=
  [executable 0x8000 (List.replicate 11 emptySegment) [],
    executable 0x8000 [dataSegment 0x40000000] [],
    (executable 0x8000 [dataSegment 84] []).take 52,
    (executable 0x8000 [] []).take 20]

end Puppy.Exec
