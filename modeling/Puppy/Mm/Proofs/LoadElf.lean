/-
What loading a program does to an invariant.

The loader is a sequence of regions that are added, pages that are touched
and segments that are copied. `LoaderRules` lists these steps; a property
of the loading process that survives each of them survives the loader, in
whatever way it ends. `MainRules` is the finer list behind it.
-/
import Puppy.Mm.Proofs.Effects
import Puppy.Mm.Proofs.MemMgr

namespace Puppy.Mm

open Libc Lib PageFault Loading

-- ==== the highest address

/-- The highest address only goes up. -/
theorem maxAddr_ge (m : Nat) (p : Program) : m ≤ maxAddr m p := by
  unfold maxAddr
  split <;> omega

theorem foldl_maxAddr_ge (l : List Program) (m : Nat) : m ≤ l.foldl maxAddr m := by
  induction l generalizing m with
  | nil => exact Nat.le_refl m
  | cons p rest ih => exact le_trans (maxAddr_ge m p) (ih _)

/-- No segment with pages ends above it. -/
theorem foldl_maxAddr_mem {p : Program} {l : List Program} (hp : p ∈ l)
    (hbytes : 0 < p.memsz) (m : Nat) :
    p.vaddr + p.memsz ≤ l.foldl maxAddr m := by
  induction l generalizing m with
  | nil => cases hp
  | cons first rest ih =>
    rcases List.mem_cons.1 hp with rfl | hp
    · have hrest := foldl_maxAddr_ge rest (maxAddr m p)
      have hfirst : p.vaddr + p.memsz ≤ maxAddr m p := by
        unfold maxAddr
        rw [if_neg (by omega)]
        omega
      exact le_trans hfirst hrest
    · exact ih hp _

/-- The highest address is the first one or the end of a segment with
bytes. -/
theorem foldl_maxAddr_attained (l : List Program) (m : Nat) : l.foldl maxAddr m = m ∨
      ∃ p ∈ l, p.memsz ≠ 0 ∧ l.foldl maxAddr m = p.vaddr + p.memsz := by
  induction l generalizing m with
  | nil => exact .inl rfl
  | cons q rest ih =>
    rw [List.foldl_cons]
    rcases ih (maxAddr m q) with heq | ⟨p, hp, hne, heq⟩
    · rw [heq]
      unfold maxAddr
      split
      · exact .inl rfl
      next hne =>
      rcases max_choice m (q.vaddr + q.memsz) with hm | hm
      · exact .inl hm
      · exact .inr ⟨q, List.mem_cons_self, hne, hm⟩
    · exact .inr ⟨p, List.mem_cons_of_mem q hp, hne, heq⟩

-- ==== one segment

/-- What copying a segment does to the pages of a set. -/
structure SegmentRules (I : Vm → Prop) (E : Panic → Prop)
    (pages : Nat → Prop) : Prop where
  fresh : ∀ vm virt opts, pages (pageNumber virt) → I vm → Sat (vm.mapAnyPhysicalPage virt opts) I E
  store : ∀ vm virt bytes, pages (pageNumber virt) → I vm →
    (vm.entry virt).present = true → (vm.entry virt).rw = true →
    I (vm.setMemory (vm.entry virt).page bytes)
  flags : ∀ vm virt rw, pages (pageNumber virt) → I vm → (vm.entry virt).present = true →
    I (vm.setEntry virt { vm.entry virt with rw := rw })

namespace Loading

section Segment

variable {I : Vm → Prop} {E : Panic → Prop} {pages : Nat → Prop} {vm : Vm} {writable : Bool}

/-- Setting the flags of a page that is there. -/
theorem newoptions_keeps (hrules : SegmentRules I E pages) {virt : Nat}
    (hpage : pages (pageNumber virt)) (h : I vm)
    (hpresent : (vm.entry virt).present = true) (opts : MapOptions)
    (rw : Bool) :
    I (vm.newoptions virt { (vm.entry virt).options opts with rw := rw }) := by
  rw [Vm.newoptions_rw, hpresent, Bool.true_or, if_pos rfl]
  exact hrules.flags vm virt rw hpage h hpresent

/-- Storing bytes in a page that may be written to. -/
theorem copyIn_keeps (hrules : SegmentRules I E pages) {vaddr : Nat}
    (hpage : pages (pageNumber vaddr)) (h : I vm)
    (hpresent : (vm.entry vaddr).present = true)
    (hrw : (vm.entry vaddr).rw = true) (count : Nat) (content : Nat → UInt8) :
    I (copyIn vm vaddr count content) :=
  hrules.store vm vaddr _ hpage h hpresent hrw

theorem copyIn_entry (vm : Vm) (vaddr count virt : Nat) (content : Nat → UInt8) :
    (copyIn vm vaddr count content).entry virt = vm.entry virt := rfl

/-- The loop over the pages of a segment. -/
theorem loadPages_sat (hrules : SegmentRules I E pages) (len : Nat) :
    ∀ {mapopts : MapOptions} {flen vaddr : Nat} {content : Nat → UInt8} {vm : Vm},
      (∀ a, vaddr ≤ a → a < vaddr + len → iskernel (page a) = false → pages (pageNumber a)) → I vm →
      Sat (loadPages writable mapopts len flen vaddr content vm) (fun r => I r.2) E := by
  -- on the bytes that are left
  induction len using Nat.strong_induction_on with
  | h len ih =>
    intro mapopts flen vaddr content vm hpages h
    rw [loadPages]
    by_cases hlen : len = 0
    · rw [dif_pos hlen]
      exact Sat.ok h
    rw [dif_neg hlen]
    by_cases hkernel : iskernel (page vaddr) = true
    · rw [if_pos hkernel]
      exact Sat.ok h
    rw [if_neg hkernel]
    rw [Bool.not_eq_true] at hkernel
    have hpage : pages (pageNumber vaddr) := hpages vaddr le_rfl (by omega) hkernel
    have hfresh := hrules.fresh vm (page vaddr) { mapopts with rw := true }
      (by rw [pageNumber_page]; exact hpage) h
    cases hmap : vm.mapAnyPhysicalPage (page vaddr) { mapopts with rw := true } with
    | error e => exact Sat.error (hfresh.failure hmap)
    | ok vm₁ =>
      have h₁ : I vm₁ := hfresh.result hmap
      have hpresent := Vm.present_of_mapAny hmap
      rw [Vm.entry_page] at hpresent
      dsimp only
      split
      · exact Sat.ok h₁
      next hallowed =>
      have hchunk : 0 < min len (gPageSize - (vaddr - page vaddr)) := by
        unfold page gPageSize
        omega
      apply ih _ (by omega)
      · intro a hle hlt
        exact hpages a (by omega) (by omega)
      split
      next hcopied =>
        rw [copyIn_entry]
        have hrw : (vm₁.entry vaddr).rw = true := by
          by_contra hro
          rw [Bool.not_eq_true] at hro
          exact hallowed ⟨hcopied, hro⟩
        exact newoptions_keeps hrules hpage (copyIn_keeps hrules hpage h₁ hpresent hrw _ _) hpresent
          mapopts writable
      · exact newoptions_keeps hrules hpage h₁ hpresent mapopts writable

end Segment

end Loading

-- ==== the whole loader

/-- The steps that the loader is made of. The regions it asks for are
writable. -/
structure LoaderRules (I : Loading → Prop) (E : Panic → Prop)
    (segment : Program → Prop) : Prop where
  zeroRegion : ∀ l size opts rgn mm vm, I l → opts.rw = true →
    opts.cow = false → opts.clear = true →
    l.mm.findAndZeroPageRegion l.vm size opts = some (rgn, mm, vm) →
    I ⟨mm, vm⟩
  mapRegion : ∀ l size, I l → Sat (l.mm.findAndMapRegion l.vm size
        { clear := true, rw := true, user := true })
      (fun r => ∀ rgn mm vm, r = some (rgn, mm, vm) → I ⟨mm, vm⟩) E
  touch : ∀ l vaddr, I l → Sat (kernelTouch l.mm l.vm vaddr) (fun r => I ⟨l.mm, r.2⟩) E
  copySegment : ∀ l p, I l → segment p →
    Sat (loadPages p.writable { user := true, clear := true } p.memsz
        p.filesz p.vaddr p.content l.vm)
      (fun r => I ⟨l.mm, r.2⟩) E
  addSegment : ∀ l p, I l → segment p →
    I ⟨l.mm.addUncheckedRegion p.vaddr (sub32 (segmentEnd p) 1), l.vm⟩
  guardPage : ∀ l addr, I l → I (l.guardPage addr)
  removeRegion : ∀ l rgn, I l → Sat (l.mm.removeRegion l.vm rgn) (fun r => I ⟨r.1, r.2⟩) E
  noStack : E .fault
  tooMany : E .outOfBounds

/-- The finer list, for a property that minds where guard pages go and that
gets weaker when the stack is there: `I` before, `J` after. -/
structure MainRules (I J : Loading → Prop) (E : Panic → Prop)
    (segment : Program → Prop) (guard : Nat → Prop) : Prop where
  touch : ∀ l vaddr, I l → Sat (kernelTouch l.mm l.vm vaddr) (fun r => I ⟨l.mm, r.2⟩) E
  copySegment : ∀ l p, I l → segment p →
    Sat (loadPages p.writable { user := true, clear := true } p.memsz
        p.filesz p.vaddr p.content l.vm)
      (fun r => I ⟨l.mm, r.2⟩) E
  addSegment : ∀ l p, I l → segment p →
    I ⟨l.mm.addUncheckedRegion p.vaddr (sub32 (segmentEnd p) 1), l.vm⟩
  segmentGuard : ∀ p, segment p → guard (p.vaddr + p.memsz)
  guardPage : ∀ l addr, I l → guard addr → I (l.guardPage addr)
  stack : ∀ l stacksize, I l → Sat (l.loadStack stacksize) (fun r => J r.2) E
  strings : ∀ l size, J l → Sat (l.mm.findAndMapRegion l.vm size
        { clear := true, rw := true, user := true })
      (fun r => ∀ rgn mm vm, r = some (rgn, mm, vm) → J ⟨mm, vm⟩) E
  touchStack : ∀ l vaddr, J l → Sat (kernelTouch l.mm l.vm vaddr) (fun r => J ⟨l.mm, r.2⟩) E
  refused : ∀ l, I l → J l
  tooMany : E .outOfBounds

/-- The coarser list implies the finer one. -/
theorem LoaderRules.main {I : Loading → Prop} {E : Panic → Prop}
    {segment : Program → Prop} (h : LoaderRules I E segment) :
    MainRules I I E segment (fun _ => True) where
  touch := h.touch
  copySegment := h.copySegment
  addSegment := h.addSegment
  segmentGuard _ _ := trivial
  guardPage l addr hl _ := h.guardPage l addr hl
  stack l stacksize hl := by
    unfold loadStack
    split
    · exact Sat.error h.noStack
    next rgn mm vm heq =>
    exact Sat.ok (h.guardPage _ _ (h.zeroRegion l _ _ rgn mm vm hl rfl rfl rfl heq))
  strings := h.mapRegion
  touchStack := h.touch
  refused _ hl := hl
  tooMany := h.tooMany

namespace Loading

section Main

variable {I J : Loading → Prop} {E : Panic → Prop} {segment : Program → Prop}
  {guard : Nat → Prop} {l : Loading} {maxprogaddr : Nat} {image : Image}

section

variable (hrules : MainRules I J E segment guard)
include hrules

/-- The address of the guard page is moved along by the segments. -/
theorem guard_maxAddr {p : Program} (hp : segment p) (h : guard maxprogaddr) :
    guard (maxAddr maxprogaddr p) := by
  unfold maxAddr
  split
  · exact h
  · rcases max_choice maxprogaddr (p.vaddr + p.memsz) with heq | heq <;> rw [heq]
    · exact h
    · exact hrules.segmentGuard p hp

/-- The loop over the segments. -/
theorem loadPrograms_sat {programs : List Program}
    (hall : ∀ p ∈ programs, p.loadable = true → segment p)
    (haddr : guard maxprogaddr) (h : I l) :
    Sat (l.loadPrograms maxprogaddr programs) (fun r => I r.2.1 ∧ guard r.2.2) E := by
  induction programs generalizing l maxprogaddr with
  | nil => exact Sat.ok ⟨h, haddr⟩
  | cons p rest ih =>
    have hrest : ∀ q ∈ rest, q.loadable = true → segment q :=
      fun q hq => hall q (List.mem_cons_of_mem p hq)
    unfold loadPrograms
    split
    · exact ih hrest haddr h
    next hload =>
    rw [Bool.not_eq_true, Bool.not_eq_false'] at hload
    have hp := hall p List.mem_cons_self hload
    split
    · exact Sat.ok ⟨h, haddr⟩
    have hcopy := hrules.copySegment l p h hp
    split
    next e heq => exact Sat.error (hcopy.failure heq)
    next vm heq => exact Sat.ok ⟨hcopy.result heq, haddr⟩
    next vm heq =>
    exact ih hrest (guard_maxAddr hrules hp haddr)
      (hrules.addSegment ⟨l.mm, vm⟩ p (hcopy.result heq) hp)

/-- One table of strings. -/
theorem copyStrings_sat (a : Strings) (h : J l) : Sat (l.copyStrings a) (fun r => J r.2) E := by
  have hmap := hrules.strings l (stringsSize a) h
  unfold copyStrings
  split
  next e heq => exact Sat.error (hmap.failure heq)
  next heq => exact Sat.ok h
  next rgn mm vm heq => exact Sat.ok (hmap.result heq rgn mm vm rfl)

/-- The stack, the environment and the arguments. -/
theorem loadStrings_sat (stackbegin : Nat) (environ : Strings) (args : Option Strings) (h : J l) :
    Sat (l.loadStrings stackbegin environ args) (fun r => J r.2) E := by
  have hcopy := copyStrings_sat hrules environ h
  unfold loadStrings
  split
  next e heq => exact Sat.error (hcopy.failure heq)
  next l₁ heq => exact Sat.ok (hcopy.result heq)
  next l₁ heq =>
  have h₁ : J l₁ := hcopy.result heq
  have htouch := hrules.touchStack l₁ (stackbegin - 20) h₁
  split
  next e heq' => exact Sat.error (htouch.failure heq')
  next vm heq' => exact Sat.ok (htouch.result heq')
  next vm heq' =>
  have h₂ : J ⟨l₁.mm, vm⟩ := htouch.result heq'
  cases args with
  | none => exact Sat.ok h₂
  | some a => exact copyStrings_sat hrules a h₂

/-- The segments, the guard page and what follows them. -/
theorem loadMainBinary_sat (hall : ∀ p ∈ image.programs, p.loadable = true → segment p)
    (hentry : guard image.entry) (stacksize : Nat) (h : I l) :
    Sat (l.loadMainBinary image stacksize) (fun r => J r.2) E := by
  have hload := loadPrograms_sat hrules hall hentry h
  unfold loadMainBinary
  split
  · exact Sat.ok (hrules.refused l h)
  split
  · exact Sat.error hrules.tooMany
  split
  next e heq => exact Sat.error (hload.failure heq)
  next l₁ _ heq => exact Sat.ok (hrules.refused l₁ (hload.result heq).1)
  next l₁ addr heq =>
  obtain ⟨h₁, haddr⟩ := hload.result heq
  have hstack := hrules.stack _ stacksize (hrules.guardPage l₁ addr h₁ haddr)
  split
  next e heq' => exact Sat.error (hstack.failure heq')
  next stackbegin l₂ heq' => exact loadStrings_sat hrules stackbegin _ _ (hstack.result heq')

/-- The buffer of the file is filled. -/
theorem readFile_sat {pages : List Nat} (h : I l) : Sat (l.readFile pages) (fun r => I r.2) E := by
  induction pages generalizing l with
  | nil => exact Sat.ok h
  | cons base rest ih =>
    have htouch := hrules.touch l base h
    unfold readFile
    split
    next e heq => exact Sat.error (htouch.failure heq)
    next vm heq => exact Sat.ok (htouch.result heq)
    next vm heq => exact ih (htouch.result heq)

/-- The loader from the file's buffer, which has to be found first, to the
point where it is given up. -/
theorem loadBinary_main {K : Loading → Prop}
    (hfile : ∀ rgn mm vm, l.mm.findAndZeroPageRegion l.vm image.fileSize
      { clear := true, rw := true, user := false } = some (rgn, mm, vm) →
      I ⟨mm, vm⟩) (hremove : ∀ l rgn, J l →
      Sat (l.mm.removeRegion l.vm rgn) (fun r => K ⟨r.1, r.2⟩) E)
    (hleft : ∀ l, J l → K l)
    (hall : ∀ p ∈ image.programs, p.loadable = true → segment p)
    (hentry : guard image.entry) (h : K l) :
    Sat (l.loadBinary image) (fun r => K r.2) E := by
  unfold loadBinary
  split
  · exact Sat.ok h
  split
  · exact Sat.ok h
  next file_rgn mm vm heq =>
  have h₁ : I ⟨mm, vm⟩ := hfile file_rgn mm vm heq
  have hread := @readFile_sat I J E segment guard ⟨mm, vm⟩ hrules
    (Vm.pagesBelow file_rgn.frm file_rgn.upto) h₁
  split
  next e heq' => exact Sat.error (hread.failure heq')
  next l₂ heq' => exact Sat.ok (hleft _ (hrules.refused _ (hread.result heq')))
  next l₂ heq' =>
  have h₂ : I l₂ := hread.result heq'
  split
  · exact Sat.ok (hleft _ (hrules.refused _ h₂))
  have hmain := loadMainBinary_sat hrules hall hentry gDefaultStackSize h₂
  split
  next e heq'' => exact Sat.error (hmain.failure heq'')
  next started l₃ heq'' =>
  have hdrop := hremove l₃ file_rgn (hmain.result heq'')
  split
  next e h₄ => exact Sat.error (hdrop.failure h₄)
  next mm' vm' h₄ => exact Sat.ok (hdrop.result h₄)

end

end Main

variable {I : Loading → Prop} {E : Panic → Prop} {segment : Program → Prop} {l : Loading}

/-- The loader as a whole, for a property that minds no guard pages. -/
theorem loadBinary_sat (hrules : LoaderRules I E segment) {image : Image}
    (hall : ∀ p ∈ image.programs, p.loadable = true → segment p) (h : I l) :
    Sat (l.loadBinary image) (fun r => I r.2) E :=
  loadBinary_main hrules.main (fun rgn mm vm hfind =>
      hrules.zeroRegion l _ _ rgn mm vm h rfl rfl rfl hfind)
    hrules.removeRegion (fun _ hl => hl) hall trivial h

end Loading

end Puppy.Mm
