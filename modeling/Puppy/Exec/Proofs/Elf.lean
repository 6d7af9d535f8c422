/-
Segments in memory.

One segment first: what the loop reads from the buffer is what was there at
the start, because the segment is not written over the buffer
(`copySegment_eq`), and then the loop is the one of `Puppy.Mm.LoadElf`. The
segments of a file compose, each writing its own bytes (`segmentBytes`); as
they are apart, none takes back what another has written.

What the loader relies on and does not see to are the zeros behind the bytes
of the file. They come with the page if the page is new.
-/
import Puppy.Exec.Elf
import Puppy.Mm.Proofs.LoadElf
import Puppy.Mm.Proofs.View

namespace Puppy.Exec

open Libc Lib Mm Loading
open List hiding span

-- ==== one segment

variable {vaddr count i : Nat} {b : Buffer} {writable : Bool} {file : List UInt8}

theorem copyIn_congr {vm : Vm} {content content' : Nat → UInt8}
    (h : ∀ o < count, content o = content' o) :
    copyIn vm vaddr count content = copyIn vm vaddr count content' := by
  unfold copyIn
  dsimp only
  congr 1
  funext o
  split
  next hin => exact h _ (by omega)
  · rfl

theorem holds_iff {addr : Nat} : b.holds addr count = true ↔
    b.load0 ≤ addr ∧ addr + count ≤ b.load0 + b.size := decide_eq_true_iff

theorem page_add_le (h : iskernel (page vaddr) = false) : page vaddr + gPageSize ≤ gKernelBase := by
  rw [iskernel, decide_eq_false_iff_not] at h
  unfold page at h ⊢
  have hbase : gKernelBase % gPageSize = 0 := rfl
  have hmod := Nat.div_add_mod vaddr gPageSize
  have hdiv := Nat.div_add_mod gKernelBase gPageSize
  have hlt : vaddr / gPageSize < gKernelBase / gPageSize :=
    Nat.lt_of_mul_lt_mul_left (show gPageSize * (vaddr / gPageSize)
      < gPageSize * (gKernelBase / gPageSize) by omega)
  have hmul := Nat.mul_le_mul_left gPageSize hlt
  rw [Nat.mul_succ] at hmul
  omega

/-- A load ends well, or goes out of bounds, as it is told by the file. Or
it does not get there. -/
def Keeps {α : Type} (inside : Prop) (whole : Bool → Prop) : Except Panic (Bool × α) → Prop
  | .ok (again, _) => inside ∧ whole again
  | .error .outOfBounds => ¬ inside
  | .error e => e = .resultOfFailure ∨ e = .writeProtected

theorem Keeps.congr {α : Type} {inside inside' : Prop} {whole whole' : Bool → Prop}
    {r : Except Panic (Bool × α)} (h : Keeps inside whole r) (hin : inside ↔ inside')
    (hwhole : ∀ again, whole again → whole' again) : Keeps inside' whole' r := by
  unfold Keeps at h ⊢
  split at h
  · exact ⟨hin.1 h.1, hwhole _ h.2⟩
  · exact fun hin' => h (hin.2 hin')
  · exact h

/-- What has gone wrong in a part has gone wrong. -/
theorem Keeps.error {α β : Type} {inside inside' : Prop} {whole whole' : Bool → Prop} {e : Panic}
    (h : Keeps inside whole (.error e : Except Panic (Bool × α))) (hin : inside' → inside) :
    Keeps inside' whole' (.error e : Except Panic (Bool × β)) := by
  cases e with
  | outOfBounds => exact fun hin' => h (hin hin')
  | _ => exact h

/-- The only panic in the way of a page is that there is none. -/
theorem mapAny_error {vm : Vm} {virt : Nat} {opts : MapOptions} {e : Panic}
    (h : vm.mapAnyPhysicalPage virt opts = .error e) : e = .resultOfFailure := by
  unfold Vm.mapAnyPhysicalPage at h
  split at h
  · cases h
  split at h
  · injection h with h
    exact h.symm
  · cases h

/-- What a segment comes to: whether its bytes are in the buffer, up to where
the kernel begins, and whether it gets there. -/
theorem copySegment_keeps (len : Nat) : ∀ {mapopts : MapOptions} {flen src vaddr : Nat} {vm : Vm},
    Keeps (0 < min (min flen len) (gKernelBase - vaddr) →
        b.holds src (min (min flen len) (gKernelBase - vaddr)) = true)
      (fun again => again = true ↔ (0 < len → vaddr + len ≤ gKernelBase))
      (copySegment b writable mapopts len flen src vaddr vm) := by
  induction len using Nat.strong_induction_on with
  | h len ih =>
    intro mapopts flen src vaddr vm
    rw [copySegment]
    by_cases hlen : len = 0
    · rw [dif_pos hlen]
      exact ⟨fun hpos => by omega, iff_of_true rfl (fun hpos => by omega)⟩
    rw [dif_neg hlen]
    dsimp only
    have hres := offset_add_chunk vaddr
    have hoff : offset vaddr < gPageSize := Nat.mod_lt _ (by decide)
    split
    next hkernel =>
      have hkernel : gKernelBase ≤ page vaddr := of_decide_eq_true hkernel
      have hle : page vaddr ≤ vaddr := Nat.sub_le _ _
      exact ⟨fun hpos => by omega, iff_of_false Bool.false_ne_true (fun hend => by omega)⟩
    next huser =>
    have hpage := page_add_le (Bool.not_eq_true _ ▸ huser)
    generalize hchunk : min len (gPageSize - (vaddr - page vaddr)) = chunk
    have hend : vaddr + chunk ≤ gKernelBase := by
      omega
    split
    next e hmap =>
      rw [mapAny_error hmap]
      exact .inl rfl
    next =>
    split
    next hwrite =>
      split
      · exact .inr rfl
      next hout =>
      refine fun hin => hout ?_
      have hin := holds_iff.1 (hin (by omega))
      rw [holds_iff]
      omega
    next =>
    split
    next hout =>
      intro hin
      have hin := holds_iff.1 (hin (by omega))
      rw [← Bool.not_eq_true, holds_iff] at hout
      omega
    next hfrom =>
    -- the rest of the segment, when this page is in the buffer
    refine (ih (len - chunk) (by omega)).congr ?_ (fun again hagain => ?_)
    · rw [← Bool.not_eq_true, holds_iff] at hfrom
      simp only [holds_iff]
      omega
    · rw [hagain]
      omega

/-- A segment that got through is below the kernel, and what was copied is
from the buffer. -/
theorem copySegment_ok {len flen src vaddr : Nat} {mapopts : MapOptions} {vm vm' : Vm}
    (h : copySegment b writable mapopts len flen src vaddr vm = .ok (true, vm')) :
    (0 < len → vaddr + len ≤ gKernelBase) ∧
      (0 < min flen len → b.holds src (min flen len) = true) := by
  have hkeeps : Keeps _ _ (copySegment b writable mapopts len flen src vaddr vm) :=
    copySegment_keeps len
  rw [h] at hkeeps
  have hbelow := hkeeps.2.1 rfl
  refine ⟨hbelow, fun hpos => ?_⟩
  have hall : min (min flen len) (gKernelBase - vaddr) = min flen len := by
    have := hbelow (by omega)
    omega
  have hin := hkeeps.1
  rw [hall] at hin
  exact hin hpos

/-- The loop that reads the buffer, against the loop that is given the
bytes. -/
theorem copySegment_eq (len : Nat) :
    ∀ {mapopts : MapOptions} {flen src vaddr : Nat} {content : Nat → UInt8}
      {vm vm' : Vm}, Separate vm → mapopts.clear = true →
      vaddr + len ≤ gKernelBase → b.load0 + b.size ≤ gKernelBase →
      (0 < min flen len → b.holds src (min flen len) = true) →
      (∀ o, o < min flen len → ¬ (vaddr ≤ src + o ∧ src + o < vaddr + len)) →
      (∀ o, o < min flen len → content o = vm.view (src + o)) →
      copySegment b writable mapopts len flen src vaddr vm = .ok (true, vm') →
      loadPages writable mapopts len flen vaddr content vm = .ok (true, vm') := by
  induction len using Nat.strong_induction_on with
  | h len ih =>
    intro mapopts flen src vaddr content vm vm' hsep hclear hend hbuf hsrc haside hcontent hcopied
    rw [copySegment] at hcopied
    rw [loadPages]
    by_cases hlen : len = 0
    · rwa [dif_pos hlen] at hcopied ⊢
    rw [dif_neg hlen] at hcopied ⊢
    dsimp only at hcopied ⊢
    have huser : vaddr < gKernelBase := by omega
    split
    · rwa [if_pos ‹_›] at hcopied
    rw [if_neg ‹_›] at hcopied
    cases hmap : vm.mapAnyPhysicalPage (page vaddr) { mapopts with rw := true } with
    | error e =>
      rw [hmap] at hcopied
      cases hcopied
    | ok vm₁ =>
      rw [hmap] at hcopied
      dsimp only at hcopied ⊢
      have hmapped := @mapAny_stores vm vm₁ (page vaddr)
        { mapopts with rw := true } hsep hclear hmap
      have hpresent := Vm.present_of_mapAny hmap
      rw [Vm.entry_page] at hpresent
      have hres := offset_add_chunk vaddr
      have hoff : offset vaddr < gPageSize := Nat.mod_lt _ (by decide)
      generalize hchunk : min len (gPageSize - (vaddr - page vaddr)) = chunk at hcopied ⊢
      split at hcopied
      · cases hcopied
      next hwrite =>
      split at hcopied
      · cases hcopied
      next =>
      rw [if_neg hwrite]
      have hlow : ∀ o, o < min flen len → src + o < gKernelBase := by
        intro o ho
        have hin := holds_iff.1 (hsrc (by omega))
        omega
      have hview : ∀ o, o < min flen len → vm₁.view (src + o) = content o := by
        intro o ho
        rw [hmapped.view _ (hlow o ho), hcontent o ho]
        rfl
      rw [copyIn_congr (show ∀ o, o < min chunk flen → vm₁.view (src + o) = content o from
        fun o ho => hview o (by omega))] at hcopied
      have hcopy := @Loading.copyChunk_stores vm₁ vaddr
        (min chunk flen) content mapopts writable hmapped.separate
        huser hpresent (by omega)
      -- what is left in the buffer has not been written to
      refine ih (len - chunk) (by omega) hcopy.separate (by exact hclear) (by omega) hbuf
        ?_ ?_ ?_ hcopied
      · intro hpos
        have hin := holds_iff.1 (hsrc (by omega))
        rw [holds_iff]
        omega
      · intro o ho
        have hout := haside (chunk + o) (by omega)
        omega
      intro o ho
      have hout := haside (chunk + o) (by omega)
      have hbelow := hlow (chunk + o) (by omega)
      rw [hcopy.view _ (by omega)]
      unfold span
      rw [if_neg (by omega), Option.getD_none, add_assoc,
        hview (chunk + o) (by omega), add_comm o chunk]

-- ==== headers in the buffer

section Headers

variable {b : Buffer} {file : List UInt8} {vm : Vm} {i : Nat}

section

variable (h : InBuffer file b vm)
include h

/-- The loader reads the headers of the file. -/
theorem InBuffer.word {off count : Nat} (hin : off + count ≤ file.length) :
    Bytes.word vm.view (b.load0 + off) count = Bytes.word (byteAt file) (0 + off) count := by
  refine Bytes.word_congr (fun k hk => ?_)
  rw [add_assoc, zero_add]
  exact h.bytes (off + k) (by omega)

theorem InBuffer.phnum (hheader : 46 ≤ file.length) :
    elfPhnum vm.view b.load0 = elfPhnum (byteAt file) 0 := h.word (by omega)

theorem InBuffer.phoff (hheader : 46 ≤ file.length) :
    elfPhoff vm.view b.load0 = elfPhoff (byteAt file) 0 := h.word (by omega)

theorem InBuffer.table_of_holds {phoff : Nat}
    (hin : ¬ (!b.holds (b.load0 + phoff + 32 * i) 32) = true) :
    phoff + 32 * i + 32 ≤ file.length := by
  rw [Bool.not_eq_true', Bool.not_eq_false, holds_iff, h.size] at hin
  omega

/-- A header that is in the file is read from the buffer as it is. -/
theorem InBuffer.program (hheader : 46 ≤ file.length)
    (hin : elfPhoff (byteAt file) 0 + 32 * i + 32 ≤ file.length) :
    elfProgram vm.view b.load0 i = elfProgram (byteAt file) 0 i := by
  have hfield : ∀ k, k + 4 ≤ 32 → Bytes.word vm.view
      (b.load0 + elfPhoff (byteAt file) 0 + 32 * i + k) 4
      = Bytes.word (byteAt file) (0 + elfPhoff (byteAt file) 0 + 32 * i + k) 4 := by
    intro k hk
    have hword := @InBuffer.word b file vm h (elfPhoff (byteAt file) 0 + 32 * i + k) 4 (by omega)
    rw [← add_assoc, ← add_assoc, ← add_assoc, ← add_assoc] at hword
    exact hword
  unfold elfProgram ProgramHeader.decode
  rw [h.phoff hheader]
  congr 1
  · exact hfield 0 (by decide)
  · exact hfield 4 (by decide)
  · exact hfield 8 (by decide)
  · exact hfield 16 (by decide)
  · exact hfield 20 (by decide)
  · exact hfield 24 (by decide)
  · exact hfield 28 (by decide)

end

theorem drop_programHeaders (hi : i < elfPhnum (byteAt file) 0) : (programHeaders file).drop i
      = elfProgram (byteAt file) 0 i :: (programHeaders file).drop (i + 1) := by
  have hlen : i < (programHeaders file).length := by
    unfold programHeaders
    rwa [length_map, length_range]
  have hget : (programHeaders file)[i] = elfProgram (byteAt file) 0 i := by
    simp only [programHeaders, getElem_map, getElem_range]
  rw [drop_eq_getElem_cons hlen, hget]

theorem drop_programHeaders_of_le (hi : elfPhnum (byteAt file) 0 ≤ i) :
    (programHeaders file).drop i = [] := by
  refine drop_eq_nil_of_le ?_
  unfold programHeaders
  rwa [length_map, length_range]

end Headers

-- ==== all segments

section Segments

variable {load0 m m' : Nat} {file : List UInt8} {h : ProgramHeader}
  {hs rest : List ProgramHeader} {a : Nat} {b : Buffer} {l l' : Loading}

theorem segments_cons_of_not (hload : h.loadable = false) : segments (h :: rest) = segments rest :=
  filter_cons_of_neg (by rw [hload]; decide)

theorem segments_cons (hload : h.loadable = true) : segments (h :: rest) = h :: segments rest :=
  filter_cons_of_pos hload

instance : Std.Symm ProgramHeader.Apart :=
  ⟨fun _ _ hr a hb ha => hr a ha hb⟩

/-- The bytes of a segment in the file. -/
def content (file : List UInt8) (h : ProgramHeader) (o : Nat) : UInt8 :=
  file.getD (h.offset + o) 0

/-- The bytes that the segments write, a later one over an earlier one. -/
def segmentBytes (file : List UInt8) : List ProgramHeader → Nat → Option UInt8
  | [], _ => none
  | h :: rest, a => (segmentBytes file rest a).or (span h.vaddr h.filesz (content file h) a)

/-- Outside of what the segments take from the file nothing is written. -/
theorem segmentBytes_eq_none (hout : ∀ h ∈ hs, ¬ (h.vaddr ≤ a ∧ a < h.vaddr + h.filesz)) :
    segmentBytes file hs a = none := by
  induction hs with
  | nil => rfl
  | cons h rest ih =>
    obtain ⟨hfirst, hrest⟩ := forall_mem_cons.1 hout
    unfold segmentBytes
    rw [ih hrest, Option.none_or]
    exact if_neg hfirst

/-- Inside there are the bytes of the one segment. -/
theorem segmentBytes_eq_some (hshort : ∀ h ∈ hs, h.filesz ≤ h.memsz)
    (hapart : hs.Pairwise ProgramHeader.Apart)
    (hh : h ∈ hs) (hlo : h.vaddr ≤ a) (hhi : a < h.vaddr + h.filesz) :
    segmentBytes file hs a = some (content file h (a - h.vaddr)) := by
  induction hs with
  | nil => cases hh
  | cons g rest ih =>
    obtain ⟨hfirst, hrest⟩ := pairwise_cons.1 hapart
    obtain ⟨hg, hshort'⟩ := forall_mem_cons.1 hshort
    unfold segmentBytes
    rcases mem_cons.1 hh with rfl | hh
    · have hnone : segmentBytes file rest a = none := by
        refine segmentBytes_eq_none (fun g hg' hin => ?_)
        have hle := hshort' g hg'
        exact hfirst g hg' a ⟨hlo, by omega⟩ ⟨hin.1, by omega⟩
      rw [hnone, Option.none_or]
      exact if_pos ⟨hlo, hhi⟩
    · rw [ih hshort' hrest hh]
      rfl

/-- One segment, away from the buffer. -/
theorem copySegment_stores {vm vm' : Vm} (haside : ∀ i < file.length, ¬ h.Covers (b.load0 + i))
    (hsep : Separate vm) (hbuf : InBuffer file b vm)
    (hcopy : copySegment b h.writable { user := true, clear := true } h.memsz
      h.filesz (b.load0 + h.offset) h.vaddr vm = .ok (true, vm')) :
    (Stores (PagesOf h.vaddr h.memsz)
        (span h.vaddr (min h.filesz h.memsz) (content file h)) vm vm' ∧
      InBuffer file b vm') ∧
      ∀ a, h.Covers a → (vm'.entry a).present = true := by
  have hsize := hbuf.size
  have hlow := hbuf.below
  obtain ⟨hbelow, hinside⟩ := copySegment_ok hcopy
  by_cases hempty : h.memsz = 0
  · rw [hempty, copySegment, dif_pos rfl] at hcopy
    cases hcopy
    rw [hempty, Nat.min_zero, span_zero]
    refine ⟨⟨Stores.refl hsep, hbuf⟩, fun a ha => ?_⟩
    obtain ⟨hlo, hhi⟩ := ha
    omega
  have hbelow := hbelow (Nat.pos_of_ne_zero hempty)
  have hcopy : loadPages h.writable { user := true, clear := true } h.memsz
      h.filesz h.vaddr (content file h) vm = .ok (true, vm') := by
    have hin : ∀ o, o < min h.filesz h.memsz → h.offset + o < file.length := by
      intro o ho
      have hin := holds_iff.1 (hinside (by omega))
      omega
    refine copySegment_eq h.memsz hsep rfl hbelow hlow hinside ?_ ?_ hcopy
    · intro o ho
      have hout := haside (h.offset + o) (hin o ho)
      rw [← add_assoc] at hout
      exact hout
    · intro o ho
      rw [add_assoc]
      exact (hbuf.bytes (h.offset + o) (hin o ho)).symm
  obtain ⟨hstores, hpresent⟩ := loadPages_stores h.memsz hsep rfl hbelow hcopy
  refine ⟨⟨hstores, hsize, hlow, fun i hi => ?_⟩, fun a ha => hpresent a ha.1 ha.2⟩
  have hout := haside i hi
  unfold ProgramHeader.Covers at hout
  rw [hstores.view _ (by omega)]
  unfold span
  rw [if_neg (by omega)]
  exact hbuf.bytes i hi

/-- The highest address, over the segments. -/
def highest (entry : Nat) (hs : List ProgramHeader) : Nat :=
  (hs.map fun h => h.program fun _ => 0).foldl maxAddr entry

/-- A segment got through. -/
theorem loadSegment_ok (hload : loadSegment b h l m = .ok (true, l', m')) :
    copySegment b h.writable { user := true, clear := true } h.memsz h.filesz
        (b.load0 + h.offset) h.vaddr l.vm = .ok (true, l'.vm) ∧
      m' = maxAddr m (h.program fun _ => 0) := by
  unfold loadSegment at hload
  split at hload
  · cases hload
  · cases hload
  next vm hcopy =>
  obtain ⟨_, hl, hm⟩ := ok_triple hload
  rw [← hl, ← hm]
  exact ⟨hcopy, rfl⟩

/-- A load that gets through, header by header. -/
inductive Loads (b : Buffer) : List ProgramHeader → Nat → Loading → Nat →
    Loading → Nat → Prop
  | done {idx : Nat} {l : Loading} {m : Nat} : Loads b [] idx l m l m
  | skip {h : ProgramHeader} {rest : List ProgramHeader} {idx : Nat}
      {l l' : Loading} {m m' : Nat} (hload : h.loadable = false)
      (hrest : Loads b rest idx l m l' m') : Loads b (h :: rest) idx l m l' m'
  | load {h : ProgramHeader} {rest : List ProgramHeader} {idx : Nat}
      {l l₁ l' : Loading} {m m₁ m' : Nat} (hload : h.loadable = true)
      (hidx : idx < 10) (hseg : loadSegment b h l m = .ok (true, l₁, m₁))
      (hrest : Loads b rest (idx + 1) l₁ m₁ l' m') :
      Loads b (h :: rest) idx l m l' m'

/-- What the loop does from the header `i` on: the headers it reads are
those of the file, as no segment has been written over them. -/
theorem loads_of_loadHeaders (hheader : 46 ≤ file.length)
    (haside : Aside b.load0 file (programHeaders file)) (rounds : Nat) :
    ∀ {i idx : Nat} {l l' : Loading} {m m' : Nat}, 0x10000 ≤ i + rounds →
      Separate l.vm → InBuffer file b l.vm →
      loadHeaders b rounds i idx l m = .ok (true, l', m') →
      Loads b ((programHeaders file).drop i) idx l m l' m' ∧
        ∀ j, i ≤ j → j < elfPhnum (byteAt file) 0 →
          elfPhoff (byteAt file) 0 + 32 * j + 32 ≤ file.length := by
  have hphnum : elfPhnum (byteAt file) 0 < 0x10000 := Bytes.word_lt
  induction rounds with
  | zero =>
    intro i idx l l' m m' hrounds hsep hbuf hload
    obtain ⟨_, hl, hm⟩ := ok_triple hload
    subst hl hm
    rw [drop_programHeaders_of_le (by omega)]
    exact ⟨.done, fun j h₁ h₂ => by omega⟩
  | succ rounds ih =>
    intro i idx l l' m m' hrounds hsep hbuf hload
    unfold loadHeaders at hload
    dsimp only at hload
    rw [hbuf.phnum hheader, hbuf.phoff hheader] at hload
    split at hload
    next hi =>
      obtain ⟨_, hl, hm⟩ := ok_triple hload
      subst hl hm
      rw [drop_programHeaders_of_le hi]
      exact ⟨.done, fun j h₁ h₂ => by omega⟩
    next hi =>
    obtain ⟨hin, hload⟩ := reject_eq_ok.1 hload
    have hin := hbuf.table_of_holds hin
    have hdrop := drop_programHeaders (Nat.lt_of_not_le hi)
    rw [hbuf.program hheader hin] at hload
    rw [hdrop]
    generalize elfProgram (byteAt file) 0 i = h at hload hdrop
    split at hload
    next hnot =>
      rw [Bool.not_eq_true'] at hnot
      obtain ⟨hloads, htable⟩ := ih (by omega) hsep hbuf hload
      refine ⟨.skip hnot hloads, fun j h₁ h₂ => ?_⟩
      rcases Nat.eq_or_lt_of_le h₁ with rfl | h₁
      · exact hin
      · exact htable j h₁ h₂
    next hloadable =>
    rw [Bool.not_eq_true', Bool.not_eq_false] at hloadable
    split at hload
    · cases hload
    next =>
    obtain ⟨hidx, hload⟩ := reject_eq_ok.1 hload
    split at hload
    · cases hload
    · cases hload
    next l₁ m₁ hseg =>
    have hmem : h ∈ (programHeaders file).drop i := by
      rw [hdrop]
      exact mem_cons_self
    have hmem : h ∈ segments (programHeaders file) :=
      mem_filter.2 ⟨mem_of_mem_drop hmem, hloadable⟩
    obtain ⟨hcopy, _⟩ := loadSegment_ok hseg
    obtain ⟨⟨hfirst, hbuf₁⟩, _⟩ := copySegment_stores (haside h hmem) hsep hbuf hcopy
    obtain ⟨hloads, htable⟩ := ih (by omega) hfirst.separate hbuf₁ hload
    refine ⟨.load hloadable (Nat.lt_of_not_le hidx) hseg hloads, fun j h₁ h₂ => ?_⟩
    rcases Nat.eq_or_lt_of_le h₁ with rfl | h₁
    · exact hin
    · exact htable j h₁ h₂

/-- The segments of a list, one after the other. -/
theorem Loads.stores {idx : Nat} (h : Loads b hs idx l m l' m')
    (hshort : ∀ h ∈ segments hs, h.filesz ≤ h.memsz)
    (haside : Aside b.load0 file hs) (hsep : Separate l.vm)
    (hbuf : InBuffer file b l.vm) :
    Stores (Touched hs) (segmentBytes file (segments hs)) l.vm l'.vm ∧
      (∀ h ∈ segments hs, ∀ a, h.Covers a → (l'.vm.entry a).present = true) ∧
      m' = highest m (segments hs) := by
  induction h with
  | done =>
    refine ⟨Stores.refl hsep, fun h hh => ?_, rfl⟩
    cases hh
  | @skip h rest idx l l' m m' hload _ ih =>
    have hsame := @segments_cons_of_not h rest hload
    unfold Aside Touched at *
    rw [hsame] at hshort haside ⊢
    exact ih hshort haside hsep hbuf
  | @load h rest idx l l₁ l' m m₁ m' hload _ hseg _ ih =>
    have hcons := @segments_cons h rest hload
    obtain ⟨hcopy, rfl⟩ := loadSegment_ok hseg
    unfold Aside at haside
    rw [hcons] at hshort haside ⊢
    obtain ⟨hshort, hshort'⟩ := forall_mem_cons.1 hshort
    obtain ⟨haside, haside'⟩ := forall_mem_cons.1 haside
    obtain ⟨⟨hfirst, hbuf₁⟩, hthere⟩ := copySegment_stores haside hsep hbuf hcopy
    rw [Nat.min_eq_left hshort] at hfirst
    obtain ⟨hrest, hpresent, hmax⟩ := ih hshort' haside' hfirst.separate hbuf₁
    refine ⟨(hfirst.trans hrest).mono ?_ (fun a _ => rfl), ?_, hmax⟩
    · unfold Touched
      rw [hcons]
      rintro i (⟨a, h₁, h₂, rfl⟩ | ⟨g, hg, a, hga, hi⟩)
      · exact ⟨h, mem_cons_self, a, ⟨h₁, h₂⟩, rfl⟩
      · exact ⟨g, mem_cons_of_mem _ hg, a, hga, hi⟩
    · intro g hg a hga
      rcases mem_cons.1 hg with rfl | hg
      · exact hrest.present _ (hthere a hga)
      · exact hpresent g hg a hga

theorem loads_of_loadElfImage
    (haside : Aside b.load0 file (programHeaders file)) (hsep : Separate l.vm)
    (hbuf : InBuffer file b l.vm)
    (hload : loadElfImage b l = .ok (true, l', m)) :
    (Loads b (programHeaders file) 0 l (elfEntry (byteAt file) 0) l' m ∧ 46 ≤ file.length) ∧
      ∀ j, j < elfPhnum (byteAt file) 0 → elfPhoff (byteAt file) 0 + 32 * j + 32 ≤ file.length := by
  obtain ⟨hheader, hload⟩ := reject_eq_ok.1 hload
  rw [Bool.not_eq_true', Bool.not_eq_false, holds_iff, hbuf.size] at hheader
  have hheader : 46 ≤ file.length := by omega
  have hentry : elfEntry l.vm.view b.load0 = elfEntry (byteAt file) 0 := hbuf.word (by omega)
  rw [hentry] at hload
  obtain ⟨hloads, htable⟩ := loads_of_loadHeaders hheader haside _ (by decide) hsep hbuf hload
  exact ⟨⟨hloads, hheader⟩, fun j hj => htable j zero_le hj⟩

/-- An address is not above the highest one if it is not above the entry
or a segment that is not empty. -/
theorem le_highest_iff {entry : Nat} : a ≤ highest entry hs ↔
    a ≤ entry ∨ ∃ h ∈ hs, h.memsz ≠ 0 ∧ a ≤ h.vaddr + h.memsz := by
  unfold highest
  constructor
  · intro hle
    rcases foldl_maxAddr_attained (hs.map fun h => h.program fun _ => 0) entry
      with heq | ⟨p, hp, hne, heq⟩
    · rw [heq] at hle
      exact .inl hle
    · obtain ⟨h, hh, rfl⟩ := mem_map.1 hp
      rw [heq] at hle
      exact .inr ⟨h, hh, hne, hle⟩
  · rintro (hle | ⟨h, hh, hne, hle⟩)
    · exact hle.trans (foldl_maxAddr_ge _ entry)
    refine hle.trans ?_
    have hmem : h.program (fun _ => 0)
        ∈ hs.map fun h => h.program fun _ => 0 := mem_map.2 ⟨h, hh, rfl⟩
    exact foldl_maxAddr_mem hmem (Nat.pos_of_ne_zero hne) entry

/-- Behind the bytes of the file nothing is written to a segment. -/
theorem segmentBytes_behind {o : Nat} (hord : InOrder load0 file hs)
    (hh : h ∈ segments hs) (hlo : h.filesz ≤ o) (hhi : o < h.memsz) :
    segmentBytes file (segments hs) (h.vaddr + o) = none := by
  refine segmentBytes_eq_none (fun g hg hin => ?_)
  have hshort := hord.short g hg
  by_cases hgh : g = h
  · subst hgh
    omega
  · exact hord.apart.forall hg hh hgh (h.vaddr + o) ⟨hin.1, by omega⟩ ⟨by omega, by omega⟩

variable {l l' : Loading} {entry max_load_addr : Nat}

theorem zero_iff_vacant (hord : InOrder load0 file hs)
    (hstores : Stores (Touched hs) (segmentBytes file (segments hs)) l.vm l'.vm) :
    Vacant l'.vm hs ↔ Vacant l.vm hs := by
  have hview : ∀ h ∈ segments hs, ∀ o, h.filesz ≤ o → o < h.memsz →
      l'.vm.view (h.vaddr + o) = l.vm.view (h.vaddr + o) := by
    intro h hh o hlo hhi
    have hbelow := hord.below h hh
    rw [hstores.view _ (by omega), segmentBytes_behind hord hh hlo hhi, Option.getD_none]
  constructor
  · intro hzero h hh o hlo hhi
    rw [← hview h hh o hlo hhi]
    exact hzero h hh o hlo hhi
  · intro hzero h hh o hlo hhi
    rw [hview h hh o hlo hhi]
    exact hzero h hh o hlo hhi

/-- When the address reported is really the highest. -/
theorem highest_iff_noneAbove : (∀ h ∈ segments hs,
    h.vaddr + h.memsz ≤ highest entry (segments hs)) ↔ NoneAbove entry hs := by
  constructor
  · intro hall h hh hempty
    have hle := hall h hh
    rw [hempty, add_zero] at hle
    exact le_highest_iff.1 hle
  intro hnone h hh
  by_cases hempty : h.memsz = 0
  · rw [hempty, add_zero]
    exact le_highest_iff.2 (hnone h hh hempty)
  · exact le_highest_iff.2 (.inr ⟨h, hh, hempty, le_rfl⟩)

theorem loadedAs_of_stores (hord : InOrder load0 file hs)
    (hstores : Stores (Touched hs) (segmentBytes file (segments hs)) l.vm l'.vm)
    (hmapped : ∀ h ∈ segments hs, ∀ a, h.Covers a → (l'.vm.entry a).present = true)
    (hvacant : Vacant l.vm hs) (hnone : NoneAbove entry hs) :
    LoadedAs file hs l.vm l'.vm (highest entry (segments hs)) where
  mapped := hmapped
  copied h hh o ho := by
    have hshort := hord.short h hh
    have hbelow := hord.below h hh
    have hinside := hord.inside h hh
    rw [hstores.view _ (by omega), segmentBytes_eq_some hord.short hord.apart
      hh (by omega) (by omega), Option.getD_some, Nat.add_sub_cancel_left,
      content, getD_eq_getElem?_getD,
      getElem?_eq_getElem (show h.offset + o < file.length by omega)]
    rfl
  zero := (zero_iff_vacant hord hstores).2 hvacant
  elsewhere a ha hout := by
    refine ⟨hstores.elsewhere _ hout, ?_⟩
    rw [hstores.view a ha, segmentBytes_eq_none, Option.getD_none]
    intro h hh hin
    have hshort := hord.short h hh
    exact hout ⟨h, hh, a, ⟨hin.1, by omega⟩, rfl⟩
  highest := highest_iff_noneAbove.2 hnone

end Segments

/-- Where an executable that is in order has been loaded, its segments are
as the file says, if there was nothing in the way of the zeros and the
highest segment is not empty; and only then. -/
theorem loadedAs_iff {b : Buffer} {file : List UInt8} {l l' : Loading}
    {max_load_addr : Nat} (hord : InOrder b.load0 file (programHeaders file))
    (hsep : Separate l.vm) (hbuf : InBuffer file b l.vm)
    (hload : loadElfImage b l = .ok (true, l', max_load_addr)) :
    LoadedAs file (programHeaders file) l.vm l'.vm max_load_addr ↔
      Vacant l.vm (programHeaders file) ∧
        NoneAbove (elfEntry (byteAt file) 0) (programHeaders file) := by
  obtain ⟨⟨hloads, _⟩, _⟩ := loads_of_loadElfImage hord.aside hsep hbuf hload
  obtain ⟨hstores, hmapped, rfl⟩ := hloads.stores hord.short hord.aside hsep hbuf
  constructor
  · intro h
    exact ⟨(zero_iff_vacant hord hstores).1 h.zero, highest_iff_noneAbove.1 h.highest⟩
  · rintro ⟨hvacant, hnone⟩
    exact loadedAs_of_stores hord hstores hmapped hvacant hnone

-- ==== what may be in the way

/-- A header in a file. -/
def ProgramHeader.bytes (h : ProgramHeader) : List UInt8 :=
  leBytes 4 h.type ++ leBytes 4 h.offset ++ leBytes 4 h.vaddr ++
    leBytes 4 0 ++ leBytes 4 h.filesz ++ leBytes 4 h.memsz ++
    leBytes 4 h.flags ++ leBytes 4 h.align

/-- An executable: its header, the program headers right behind it, and the
rest of the file. -/
def executable (entry : Nat) (hs : List ProgramHeader) (rest : List UInt8) : List UInt8 :=
  [0x7F, 0x45, 0x4C, 0x46, 1, 1, 1] ++ replicate 9 0 ++
    leBytes 2 exec ++ leBytes 2 3 ++ leBytes 4 1 ++
    leBytes 4 entry ++ leBytes 4 52 ++ replicate 12 0 ++
    leBytes 2 hs.length ++ replicate 6 0 ++
    hs.flatMap ProgramHeader.bytes ++ rest

/-- A process with a file in its second page and, if `old`, something that
was there before in its ninth. -/
def desk (file : List UInt8) (old : Bool) : Loading where
  mm := MemoryManager.init
  vm :=
    { pmm := { mPages := fun i => { usable := decide (4 ≤ i) } }
      memory := fun f o => if f = 1 then byteAt file o else if f = 2 then 0x61 else 0
      table := fun i =>
        if i = 1 then { present := true, rw := true, page := 0x1000 }
        else if i = 8 ∧ old = true then
          { present := true, rw := true, page := 0x2000 }
        else {}
      mKernelRegions := [] }

/-- The pages of the example: the buffer and an old one. -/
theorem desk_present {old : Bool} (h : ((desk file old).vm.table i).present = true) :
    (i = 1 ∧ index ((desk file old).vm.table i).page = 1) ∨
      (i = 8 ∧ index ((desk file old).vm.table i).page = 2) := by
  unfold desk at h ⊢
  dsimp only at h ⊢
  by_cases h1 : i = 1
  · rw [if_pos h1]
    exact .inl ⟨h1, rfl⟩
  rw [if_neg h1] at h ⊢
  by_cases h8 : i = 8 ∧ old = true
  · rw [if_pos h8]
    exact .inr ⟨h8.1, rfl⟩
  · rw [if_neg h8] at h
    cases h

theorem desk_separate (file : List UInt8) (old : Bool) : Separate (desk file old).vm := by
  constructor
  · intro i j _ _ hi hj heq
    rcases desk_present hi with ⟨hi, hp⟩ | ⟨hi, hp⟩ <;>
      rcases desk_present hj with ⟨hj, hq⟩ | ⟨hj, hq⟩ <;> omega
  · intro i _ hi
    rcases desk_present hi with ⟨_, hp⟩ | ⟨_, hp⟩ <;> rw [hp] <;> rfl

theorem desk_inBuffer (hfile : file.length ≤ gPageSize) (old : Bool) :
    InBuffer file ⟨0x1000, file.length⟩ (desk file old).vm where
  size := rfl
  below := by
    show 0x1000 + file.length ≤ gKernelBase
    have hbase : 0x1000 + gPageSize ≤ gKernelBase := by decide
    omega
  bytes i hi := by
    have hi : i < gPageSize := lt_of_lt_of_le hi hfile
    have hdiv : (0x1000 + i) / gPageSize = 1 := by
      rw [show (0x1000 : Nat) = gPageSize from rfl, Nat.add_div_left _
        (by decide), Nat.div_eq_of_lt hi]
    have hmod : (0x1000 + i) % gPageSize = i := by
      rw [show (0x1000 : Nat) = gPageSize from rfl, Nat.add_mod_left, Nat.mod_eq_of_lt hi]
    have hnum : 1 % gNumPages = 1 := by decide
    have hframe : 0x1000 / gPageSize = 1 := by decide
    simp [Vm.view, Vm.entry, desk, pageNumber, offset, hdiv, hmod, hnum, index, hframe]

/-- A segment of two bytes and three zeros. -/
def dataSegment (offset : Nat) : ProgramHeader where
  type := 1
  offset := offset
  vaddr := 0x8000
  filesz := 2
  memsz := 5
  flags := 2
  align := 0x1000

/-- A segment without bytes. -/
def emptySegment : ProgramHeader where
  type := 1
  offset := 0
  vaddr := 0x20000
  filesz := 0
  memsz := 0
  flags := 0
  align := 0x1000

theorem emptySegment_covers {a : Nat} : ¬ emptySegment.Covers a := by
  rintro ⟨hlo, hhi⟩
  exact absurd hhi (Nat.not_lt.2 hlo)

/-- The data segment, and the two of them. -/
def fileOfOne : List UInt8 := executable 0x8000 [dataSegment 84] [1, 2]

def fileOfTwo : List UInt8 :=
  executable 0x8000 [emptySegment, dataSegment 116] [1, 2]

theorem programHeaders_fileOfOne : programHeaders fileOfOne = [dataSegment 84] := rfl

theorem programHeaders_fileOfTwo : programHeaders fileOfTwo = [emptySegment, dataSegment 116] := rfl

theorem dataSegment_aside {offset : Nat} (hfile : file.length ≤ gPageSize) (hi : i < file.length) :
    ¬ (dataSegment offset).Covers (0x1000 + i) := by
  rintro ⟨hlo, _⟩
  have hlo : 0x8000 ≤ 0x1000 + i := hlo
  have hsize : gPageSize = 0x1000 := rfl
  omega

theorem inOrder_fileOfOne : InOrder 0x1000 fileOfOne (programHeaders fileOfOne) := by
  rw [programHeaders_fileOfOne]
  refine ⟨by decide, by decide, by decide, by decide,
    pairwise_singleton _ _, fun h hh i hi => ?_⟩
  rw [mem_singleton.1 hh]
  exact dataSegment_aside (by decide) hi

theorem inOrder_fileOfTwo : InOrder 0x1000 fileOfTwo (programHeaders fileOfTwo) := by
  rw [programHeaders_fileOfTwo]
  refine ⟨by decide, by decide, by decide, by decide, ?_,
    fun h hh i hi => ?_⟩
  · refine pairwise_cons.2 ⟨?_, pairwise_singleton _ _⟩
    intro h _ a ha
    exact absurd ha emptySegment_covers
  rcases mem_cons.1 hh with rfl | hh
  · exact emptySegment_covers
  · rw [mem_singleton.1 hh]
    exact dataSegment_aside (by decide) hi

/-- It got through. -/
def succeeded : Except Panic (Bool × Loading × Nat) → Bool
  | .ok (true, _, _) => true
  | _ => false

theorem exists_of_succeeded {r : Except Panic (Bool × Loading × Nat)}
    (h : succeeded r = true) : ∃ l max_load_addr, r = .ok (true, l, max_load_addr) := by
  unfold succeeded at h
  split at h
  next l m => exact ⟨l, m, rfl⟩
  · cases h

/-- The data segment on an empty page. -/
theorem loadedAs_iff_data : ∃ l' max_load_addr,
    loadElfImage ⟨0x1000, fileOfOne.length⟩ (desk fileOfOne false) = .ok (true, l', max_load_addr) ∧
    LoadedAs fileOfOne (programHeaders fileOfOne) (desk fileOfOne false).vm
      l'.vm max_load_addr := by
  obtain ⟨l', m, hload⟩ := exists_of_succeeded (show succeeded
    (loadElfImage ⟨0x1000, fileOfOne.length⟩ (desk fileOfOne false)) = true by decide +kernel)
  refine ⟨l', m, hload, (loadedAs_iff inOrder_fileOfOne (desk_separate _ false)
    (desk_inBuffer (by decide) false) hload).2 ⟨?_, ?_⟩⟩
  · intro h hh o hlo hhi
    rw [programHeaders_fileOfOne] at hh
    rw [mem_singleton.1 hh] at hlo hhi ⊢
    have hlo : 2 ≤ o := hlo
    have hhi : o < 5 := hhi
    interval_cases o <;> decide +kernel
  · intro h hh hempty
    rw [programHeaders_fileOfOne] at hh
    rw [mem_singleton.1 hh] at hempty
    cases hempty

/-- Something is left in the page of the data segment, as the buffer of a
script is while its interpreter is loaded; and an empty segment above all
others. -/
theorem not_loadedAs : (InOrder 0x1000 fileOfOne (programHeaders fileOfOne) ∧ ∃ l' max_load_addr,
        loadElfImage ⟨0x1000, fileOfOne.length⟩ (desk fileOfOne true)
          = .ok (true, l', max_load_addr) ∧
        l'.vm.view 0x8002 = 0x61 ∧
        ¬ LoadedAs fileOfOne (programHeaders fileOfOne)
          (desk fileOfOne true).vm l'.vm max_load_addr) ∧
    InOrder 0x1000 fileOfTwo (programHeaders fileOfTwo) ∧
    ∃ l' max_load_addr, loadElfImage ⟨0x1000, fileOfTwo.length⟩ (desk fileOfTwo false)
        = .ok (true, l', max_load_addr) ∧
      max_load_addr < emptySegment.vaddr + emptySegment.memsz ∧
      ¬ LoadedAs fileOfTwo (programHeaders fileOfTwo)
        (desk fileOfTwo false).vm l'.vm max_load_addr := by
  refine ⟨⟨inOrder_fileOfOne, ?_⟩, inOrder_fileOfTwo, ?_⟩
  · obtain ⟨l', m, hload⟩ := exists_of_succeeded (show succeeded
      (loadElfImage ⟨0x1000, fileOfOne.length⟩ (desk fileOfOne true)) = true by decide +kernel)
    have hbuf := desk_inBuffer (show fileOfOne.length ≤ gPageSize by decide) true
    have hsep := desk_separate fileOfOne true
    obtain ⟨⟨hloads, _⟩, _⟩ := loads_of_loadElfImage inOrder_fileOfOne.aside hsep hbuf hload
    obtain ⟨hstores, _, _⟩ := hloads.stores inOrder_fileOfOne.short
      inOrder_fileOfOne.aside hsep hbuf
    have hview : l'.vm.view 0x8002 = 0x61 := by
      rw [hstores.view 0x8002 (by decide)]
      decide +kernel
    refine ⟨l', m, hload, hview, fun h => ?_⟩
    have hmem : dataSegment 84 ∈ segments (programHeaders fileOfOne) := by
      rw [programHeaders_fileOfOne]
      exact mem_cons_self
    have hzero : l'.vm.view 0x8002 = 0 := h.zero _ hmem 2 (by decide) (by decide)
    cases hview.symm.trans hzero
  · obtain ⟨l', m, hload⟩ := exists_of_succeeded (show succeeded
      (loadElfImage ⟨0x1000, fileOfTwo.length⟩ (desk fileOfTwo false)) = true
        by decide +kernel)
    have hbuf := desk_inBuffer (show fileOfTwo.length ≤ gPageSize by decide) false
    have hsep := desk_separate fileOfTwo false
    obtain ⟨⟨hloads, _⟩, _⟩ := loads_of_loadElfImage inOrder_fileOfTwo.aside hsep hbuf hload
    obtain ⟨_, _, hmax⟩ := hloads.stores inOrder_fileOfTwo.short inOrder_fileOfTwo.aside hsep hbuf
    have hlt : m < emptySegment.vaddr + emptySegment.memsz := by
      rw [hmax]
      decide +kernel
    have hmem : emptySegment ∈ segments (programHeaders fileOfTwo) := by
      rw [programHeaders_fileOfTwo]
      exact mem_cons_self
    exact ⟨l', m, hload, hlt, fun h => absurd (h.highest emptySegment hmem) (Nat.not_le.2 hlt)⟩

end Puppy.Exec
