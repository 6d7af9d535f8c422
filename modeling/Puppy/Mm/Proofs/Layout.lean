/-
The layout of a process's regions is kept.

`Laid` is the invariant: a well-formed list with page 0 and the kernel
half in it. Those two are never removed, because a lookup does not find
them for an address of the process. They also bound every search: all
regions but the last lie below the kernel, and a search for up to a
gigabyte cannot wrap.

The loader is followed stage by stage, since each part of its plan is
disjoint from those before it for a reason of its own. `Drawn` says that
nothing but the plan has been laid out so far; it ends with the stack,
whose place is searched for in a list that consists of the plan.
-/
import Puppy.Mm.Layout
import Puppy.Mm.Proofs.Protection

namespace Puppy.Mm

open Libc Lib IntervalList MemoryManager Interval Machine
open List hiding Disjoint

-- ==== well-formed lists

/-- The list is in order, with both fences. -/
structure Laid (mm : MemoryManager) : Prop extends Fenced mm where
  layout : Layout 0xFFFFFFFF mm.mRegions

section Laid

variable {mm mm' : MemoryManager} {rgn r : Region} {size : Nat}

theorem laid_init : Laid init := ⟨init_fenced, init_layout⟩

section

variable (h : Laid mm)
include h

theorem Laid.add (hord : rgn.frm ≤ rgn.upto) (hbound : rgn.upto ≤ 0xFFFFFFFF)
    (hfree : ∀ r ∈ mm.mRegions, rgn.toInterval.Disjoint r.toInterval) :
    Laid (mm.addRegion rgn) := by
  obtain ⟨hbounds, hsep⟩ := layout_iff_separated.1 h.layout
  have hmem : ∀ r ∈ mm.mRegions, r ∈ (mm.addRegion rgn).mRegions :=
    fun r hr => mem_add.2 (.inr hr)
  refine ⟨⟨?_, ?_⟩, layout_iff_separated.2 ⟨?_, ?_⟩⟩
  · obtain ⟨r, hr, hr'⟩ := h.zero
    exact ⟨r, hmem r hr, hr'⟩
  · obtain ⟨r, hr, hr'⟩ := h.kernel
    exact ⟨r, hmem r hr, hr'⟩
  · intro r hr
    rcases mem_add.1 hr with rfl | hr
    · exact ⟨hord, hbound⟩
    · exact hbounds r hr
  · exact hsep.add hord (fun r hr => (hbounds r hr).1) hfree

/-- Everything but the kernel half lies below it. -/
theorem Laid.user (hr : r ∈ mm.mRegions) :
    r.toInterval = ⟨gKernelBase, 0xFFFFFFFF⟩ ∨ r.upto < gKernelBase := by
  obtain ⟨k, hk, hkeq⟩ := h.kernel
  by_cases hrk : r = k
  · rw [hrk]
    exact .inl hkeq
  have hdis := h.layout.disjoint.of_mem hr hk hrk
  have hord : r.frm ≤ r.upto := h.layout.ordered r hr
  have hbound : r.upto ≤ 0xFFFFFFFF := h.layout.bounded r hr
  have hkord : k.frm ≤ k.upto := h.layout.ordered k hk
  have hkfrm : k.frm = gKernelBase := congrArg frm hkeq
  have hkupto : k.upto = 0xFFFFFFFF := congrArg upto hkeq
  rcases (disjoint_iff hord hkord).1 hdis with hlt | hlt
  · have hlt : r.upto < k.frm := hlt
    exact .inr (hkfrm ▸ hlt)
  · have hlt : k.upto < r.frm := hlt
    omega

theorem Laid.two : ∃ i0 i1 rest, mm.mRegions = i0 :: i1 :: rest := by
  obtain ⟨z, hz, hzeq⟩ := h.zero
  obtain ⟨k, hk, hkeq⟩ := h.kernel
  match hl : mm.mRegions with
  | [] =>
    rw [hl] at hz
    cases hz
  | [i] =>
    rw [hl, mem_singleton] at hz hk
    rw [hz, ← hk, hkeq] at hzeq
    exact absurd (congrArg upto hzeq) (by decide)
  | i0 :: i1 :: rest => exact ⟨i0, i1, rest, rfl⟩

/-- A request for up to a gigabyte does not wrap around. -/
theorem Laid.safe (hsize : size ≤ 0x40000000) : SafeRequest 0xFFFFFFFF size mm.mRegions := by
  have hnowrap : NoWrap size mm.mRegions := by
    intro i hi
    obtain ⟨i0, i1, rest, hl⟩ := h.two
    have hne : mm.mRegions ≠ [] := by
      rw [hl]
      exact cons_ne_nil _ _
    have hmem : i ∈ mm.mRegions := mem_of_mem_dropLast hi
    rcases h.user hmem with hkernel | hlow
    · -- nothing lies behind the kernel half
      have hsep := (layout_iff_separated.1 h.layout).2
      unfold Separated at hsep
      rw [← dropLast_append_getLast hne, pairwise_append] at hsep
      have hlt := hsep.2.2 i hi _ (mem_singleton.2 rfl)
      have hlast := getLast_mem hne
      have hord := h.layout.ordered _ hlast
      have hbound := h.layout.bounded _ hlast
      have hupto : (ival i).upto = 0xFFFFFFFF := congrArg upto hkernel
      omega
    · have hlow : (ival i).upto < 0xC0000000 := hlow
      omega
  obtain ⟨i0, i1, rest, hl⟩ := h.two
  rw [hl] at hnowrap ⊢
  exact .inr hnowrap

/-- A search succeeds in a gap between two regions: there is nothing
behind the kernel half. -/
theorem Laid.gap {range : Interval} (hsafe : SafeRequest 0xFFFFFFFF size mm.mRegions)
    (hfind : findFree 0xFFFFFFFF size mm.mRegions = some range) :
    0 < size ∧ ∃ i0 i1, [i0, i1] <:+: mm.mRegions ∧ i0.upto + size < i1.frm ∧
      range = ⟨i0.upto + 1, size + i0.upto⟩ := by
  obtain ⟨k, hk, hkeq⟩ := h.kernel
  obtain ⟨i0, i1, rest, hl⟩ := h.two
  have hlayout := h.layout
  rw [hl] at hsafe hfind hlayout hk ⊢
  unfold findFree at hfind
  split_ifs at hfind with hzero
  refine ⟨Nat.pos_of_ne_zero hzero, ?_⟩
  dsimp only at hfind
  split at hfind
  next found hgap =>
    cases hfind
    exact findGap_some (by decide) hlayout hsafe hgap
  have hlast := hlayout.upto_le_getLast (cons_ne_nil _ _) k hk
  have hbound := hlayout.bounded _ (getLast_mem (cons_ne_nil i0 (i1 :: rest)))
  have hkupto : (ival k).upto = 0xFFFFFFFF := congrArg upto hkeq
  rw [getLast_cons (cons_ne_nil i1 rest)] at hlast hbound
  unfold findAfter at hfind
  rw [sub32_of_le (by decide) hbound, if_neg (by omega)] at hfind
  cases hfind

/-- What a search has found may be added. -/
theorem Laid.addFound (hsafe : SafeRequest 0xFFFFFFFF (toPage size) mm.mRegions)
    (hfind : mm.findRegionImpl size = some rgn.toInterval) :
    Laid (mm.addRegion rgn) := by
  have hfree := findFree_freeRange (by decide) h.layout hsafe hfind
  exact h.add hfree.ordered hfree.bounded hfree.disjoint

/-- A region that is neither of the fences may go. -/
theorem Laid.del {regions : List Region} {allsize : Nat} (hdel : del rgn mm.mRegions = some regions)
    (hzero : rgn.toInterval ≠ ⟨0, 0xFFF⟩)
    (hkernel : rgn.toInterval ≠ ⟨gKernelBase, 0xFFFFFFFF⟩) :
    Laid ⟨regions, allsize⟩ := by
  have hsub := del_sublist hdel
  obtain ⟨j, hj, l₁, l₂, hl, hl', _⟩ := del_some hdel
  have hj : j.toInterval = rgn.toInterval := hj
  have hkeep : ∀ r ∈ mm.mRegions, r.toInterval ≠ rgn.toInterval → r ∈ regions := by
    intro r hr hne
    rw [hl, mem_append, mem_cons] at hr
    rw [hl', mem_append]
    rcases hr with hr | rfl | hr
    · exact .inl hr
    · exact absurd hj hne
    · exact .inr hr
  refine ⟨⟨?_, ?_⟩, h.layout.sublist hsub⟩
  · obtain ⟨z, hz, hzeq⟩ := h.zero
    exact ⟨z, hkeep z hz (by rw [hzeq]; exact hzero.symm), hzeq⟩
  · obtain ⟨k, hk, hkeq⟩ := h.kernel
    exact ⟨k, hkeep k hk (by rw [hkeq]; exact hkernel.symm), hkeq⟩

theorem Laid.removeRegion {vm vm' : Vm} (hremove : mm.removeRegion vm rgn = .ok (mm', vm'))
    (hzero : rgn.toInterval ≠ ⟨0, 0xFFF⟩)
    (hkernel : rgn.toInterval ≠ ⟨gKernelBase, 0xFFFFFFFF⟩) : Laid mm' := by
  unfold MemoryManager.removeRegion at hremove
  split at hremove
  · cases hremove
    exact h
  next regions hdel =>
  obtain ⟨vm₁, _, hremove⟩ := ok_bind hremove
  cases hremove
  exact h.del hdel hzero hkernel

end

theorem setPermission_bounds (rgn : Region) (opts : MapOptions) (regions : List Region) :
    (setPermission rgn opts regions).map Region.toInterval = regions.map Region.toInterval := by
  induction regions with
  | nil => rfl
  | cons first rest ih =>
    unfold setPermission
    split
    · rfl
    · rw [map_cons, map_cons, ih]

/-- The layout is a matter of bounds. -/
theorem Laid.congr (h : Laid mm) (hsame : mm'.mRegions.map Region.toInterval
      = mm.mRegions.map Region.toInterval) : Laid mm' := by
  have hbounds : ∀ i, (∃ r ∈ mm'.mRegions, r.toInterval = i) ↔
      ∃ r ∈ mm.mRegions, r.toInterval = i := by
    intro i
    rw [← mem_map, ← mem_map, hsame]
  have hpairs : ∀ R : Interval → Interval → Prop,
      mm.mRegions.Pairwise (fun r r' => R r.toInterval r'.toInterval) →
      mm'.mRegions.Pairwise (fun r r' => R r.toInterval r'.toInterval) := by
    intro R hR
    rw [← pairwise_map] at hR ⊢
    rw [hsame]
    exact hR
  refine ⟨⟨(hbounds _).2 h.zero, (hbounds _).2 h.kernel⟩, ?_, ?_,
    hpairs (fun i j => i.frm ≤ j.frm) h.layout.sorted,
    hpairs Disjoint h.layout.disjoint⟩
  · intro r hr
    obtain ⟨r₀, hr₀, heq⟩ := (hbounds _).1 ⟨r, hr, rfl⟩
    have hord := h.layout.ordered r₀ hr₀
    show r.toInterval.frm ≤ r.toInterval.upto
    rw [← heq]
    exact hord
  intro r hr
  obtain ⟨r₀, hr₀, heq⟩ := (hbounds _).1 ⟨r, hr, rfl⟩
  have hbound := h.layout.bounded r₀ hr₀
  show r.toInterval.upto ≤ 0xFFFFFFFF
  rw [← heq]
  exact hbound

/-- In a sorted list a lookup gives up too early for no address. -/
theorem Laid.findsRegions (h : Laid mm) (vm : Vm) : FindsRegions mm vm := by
  constructor
  · intro addr r huser hfound
    exact contains_some (isWithinRegion_user (iskernel_eq_false huser) hfound)
  intro addr huser hnull
  unfold isWithinRegion
  rw [if_neg hnull, iskernel_eq_false huser, if_neg Bool.false_ne_true]
  exact contains_isSome_iff h.layout.sorted

/-- The region found for an address of the process is not one of the
fences. -/
theorem found_not_fence {vm : Vm} {addr : Nat} (huser : iskernel addr = false)
    (hfound : mm.isWithinRegion vm addr = some rgn) :
    rgn.toInterval ≠ ⟨0, 0xFFF⟩ ∧ rgn.toInterval ≠ ⟨gKernelBase, 0xFFFFFFFF⟩ := by
  have hin : (ival rgn).contains addr = true := (contains_some (isWithinRegion_user huser hfound)).2
  have hnull : page addr ≠ 0 := by
    intro hzero
    unfold isWithinRegion at hfound
    rw [if_pos hzero] at hfound
    cases hfound
  rw [Ne, page_eq_zero_iff] at hnull
  unfold iskernel at huser
  rw [decide_eq_false_iff_not] at huser
  rw [contains_iff] at hin
  constructor
  · intro heq
    have hupto : (ival rgn).upto = 0xFFF := congrArg upto heq
    unfold gPageSize at hnull
    omega
  · intro heq
    have hfrm : (ival rgn).frm = gKernelBase := congrArg frm heq
    omega

end Laid

-- ==== the parts of a plan

section Plan

variable {image : Image} {p : Program}

/-- A segment with bytes has a region, which ends below the kernel. -/
theorem Image.Planned.segment (h : image.Planned) (hp : p ∈ image.segments) :
    p.range.frm ≤ p.range.upto ∧ p.range.upto < gKernelBase ∧ (p.range.upto + 1) % gPageSize = 0 ∧
      sub32 (Loading.segmentEnd p) 1 = p.range.upto := by
  have hbytes := h.filled p hp
  have hbelow := h.below
  have hmem := foldl_maxAddr_mem hp hbytes image.entry
  unfold Image.highest at hbelow
  have hend : Loading.segmentEnd p
      = p.vaddr + p.memsz - 1 - (p.vaddr + p.memsz - 1) % 0x1000 + 0x1000 := by
    unfold Loading.segmentEnd page gPageSize
    rw [if_neg (by omega)]
  unfold gKernelBase at hbelow
  unfold Program.range sub32 gKernelBase gPageSize
  rw [hend]
  dsimp only
  omega

theorem Image.Planned.ends (h : image.Planned) {i : Interval}
    (hi : i ∈ image.plan) : (i.upto + 1) % gPageSize = 0 := by
  unfold Image.plan at hi
  rw [mem_cons, mem_cons, mem_cons, mem_cons, mem_map] at hi
  rcases hi with rfl | rfl | rfl | rfl | ⟨p, hp, rfl⟩
  · rfl
  · rfl
  · have hsize := toPage_mod image.fileSize
    unfold Image.fileBuffer gPageSize at *
    dsimp only
    omega
  · unfold Image.segmentGuard page gPageSize
    dsimp only
    omega
  · exact (h.segment hp).2.2.1

end Plan

-- ==== the loader

/-- Nothing but parts of the plan is in the list. -/
structure Drawn (image : Image) (mm : MemoryManager) : Prop
    extends Laid mm where
  planned : ∀ r ∈ mm.mRegions, r.toInterval ∈ image.plan

namespace Loading

variable {image : Image} {l l' : Loading} {p : Program} {ok : Bool} {stackbegin : Nat}

/-- The first request of a process is answered right after page 0. -/
theorem init_findRegionImpl {size : Nat} {range : Interval}
    (hsize : 0xFFF + toPage size < gKernelBase)
    (h : init.findRegionImpl size = some range) :
    range = ⟨0x1000, 0xFFF + toPage size⟩ := by
  unfold gKernelBase at hsize
  have hsafe : SafeRequest 0xFFFFFFFF (toPage size) init.mRegions := by
    refine .inr ?_
    intro i hi
    have hi : i = { frm := 0, upto := 0xFFF } := mem_singleton.1 hi
    rw [hi]
    show 0xFFF + toPage size < 0x100000000
    omega
  obtain ⟨_, i0, i1, hin, _, hrange⟩ := laid_init.gap hsafe h
  have hlist : [i0, i1] = init.mRegions := hin.eq_of_length rfl
  rw [init_mRegions] at hlist
  injection hlist with hfirst _
  rw [hrange, hfirst]
  exact congrArg (Interval.mk 0x1000) (add_comm _ _)

/-- A buffer that does not meet the kernel half ends below it. -/
theorem fileBuffer_below (h : image.Planned) (hsize : 0 < toPage image.fileSize) :
    0xFFF + toPage image.fileSize < gKernelBase := by
  have hapart := h.apart
  unfold Image.plan at hapart
  rw [pairwise_cons, pairwise_cons] at hapart
  have hdis := hapart.2.1 image.fileBuffer mem_cons_self
  have hord : image.fileBuffer.frm ≤ image.fileBuffer.upto := by
    show 0x1000 ≤ 0xFFF + toPage image.fileSize
    omega
  rcases (disjoint_iff (by decide) hord).1 hdis with hlt | hlt
  · have hlt : 0xFFFFFFFF < 0x1000 := hlt
    omega
  · exact hlt

theorem findAndZeroPageRegion_drawn (h : image.Planned) {rgn : Region}
    {mm : MemoryManager} {vm vm' : Vm} {opts : MapOptions}
    (hfind : init.findAndZeroPageRegion vm image.fileSize opts = some (rgn, mm, vm')) :
    Drawn image mm ∧ rgn.toInterval = image.fileBuffer ∧
      ∀ r ∈ mm.mRegions, ∀ i, i ∈ image.segmentGuard ::
        image.segments.map Program.range → r.toInterval.Disjoint i := by
  obtain ⟨hrange, _, hmm, _⟩ := findAndZeroPageRegion_some hfind
  have hsize : 0 < toPage image.fileSize := by
    obtain ⟨_, hrange⟩ := Option.ite_none_left_eq_some.1 hrange
    omega
  have hbelow := fileBuffer_below h hsize
  have hbuffer : rgn.toInterval = image.fileBuffer := init_findRegionImpl hbelow hrange
  have hapart := h.apart
  unfold Image.plan at hapart
  rw [pairwise_cons, pairwise_cons, pairwise_cons] at hapart
  obtain ⟨hzero, hkernel, hfile, _⟩ := hapart
  have hmem : ∀ r ∈ mm.mRegions, r.toInterval = image.fileBuffer ∨ r.toInterval = ⟨0, 0xFFF⟩ ∨
      r.toInterval = ⟨gKernelBase, 0xFFFFFFFF⟩ := by
    intro r hr
    rw [hmm] at hr
    have hr : r ∈ add rgn init.mRegions := hr
    rcases mem_add.1 hr with rfl | hr
    · exact .inl hbuffer
    rw [init_mRegions, mem_cons, mem_singleton] at hr
    rcases hr with rfl | rfl
    · exact .inr (.inl rfl)
    · exact .inr (.inr rfl)
  have hlaid : Laid mm := by
    rw [hmm]
    refine laid_init.add ?_ ?_ ?_
    · rw [hbuffer]
      show 0x1000 ≤ 0xFFF + toPage image.fileSize
      omega
    · rw [hbuffer]
      unfold gKernelBase at hbelow
      show 0xFFF + toPage image.fileSize ≤ 0xFFFFFFFF
      omega
    intro r hr
    rw [hbuffer]
    rw [init_mRegions, mem_cons, mem_singleton] at hr
    rcases hr with rfl | rfl
    · exact (hzero _ (mem_cons_of_mem _ mem_cons_self)).symm
    · exact (hkernel _ mem_cons_self).symm
  refine ⟨⟨hlaid, ?_⟩, hbuffer, ?_⟩
  · intro r hr
    unfold Image.plan
    rcases hmem r hr with heq | heq | heq <;> rw [heq] <;> simp
  intro r hr i hi
  rcases hmem r hr with heq | heq | heq <;> rw [heq]
  · exact hfile i hi
  · exact hzero i (mem_cons_of_mem _ (mem_cons_of_mem _ hi))
  · exact hkernel i (mem_cons_of_mem _ hi)

/-- The file is read into pages that are there already. -/
theorem readFile_mm {pages : List Nat} (h : l.readFile pages = .ok (ok, l')) : l'.mm = l.mm := by
  induction pages generalizing l with
  | nil =>
    obtain ⟨_, h⟩ := ok_pair h
    rw [← h]
  | cons base rest ih =>
    unfold readFile at h
    split at h
    · cases h
    · obtain ⟨_, h⟩ := ok_pair h
      rw [← h]
    · have hrest := ih h
      exact hrest

/-- Each segment is disjoint from what is there and from those to come. -/
theorem loadPrograms_laid {programs : List Program} : ∀ {l l' : Loading} {m m' : Nat}, Laid l.mm →
      (∀ p ∈ programs.filter (fun p => p.loadable),
        p.range.frm ≤ p.range.upto ∧ p.range.upto < gKernelBase ∧
          sub32 (segmentEnd p) 1 = p.range.upto) →
      ((programs.filter fun p => p.loadable).map Program.range).Pairwise Disjoint →
      (∀ r ∈ l.mm.mRegions, ∀ p ∈ programs.filter (fun p => p.loadable),
        r.toInterval.Disjoint p.range) →
      l.loadPrograms m programs = .ok (true, l', m') →
      Laid l'.mm ∧ m' = (programs.filter fun p => p.loadable).foldl maxAddr m ∧
        ∀ r ∈ l'.mm.mRegions, r ∈ l.mm.mRegions ∨
          r.toInterval ∈ (programs.filter fun p => p.loadable).map Program.range := by
  induction programs with
  | nil =>
    intro l l' m m' hlaid _ _ _ h
    obtain ⟨_, hl, hm⟩ := ok_triple h
    subst hl hm
    exact ⟨hlaid, rfl, fun r hr => .inl hr⟩
  | cons p rest ih =>
    intro l l' m m' hlaid hbounds hapart hfree h
    unfold loadPrograms at h
    split at h
    next hskip =>
      have hno : p.loadable = false := by simpa using hskip
      rw [filter_cons_of_neg (by rw [hno]; exact Bool.false_ne_true)] at hbounds hapart hfree ⊢
      exact ih hlaid hbounds hapart hfree h
    next hload =>
    have hyes : p.loadable = true := by simpa using hload
    rw [filter_cons_of_pos hyes] at hbounds hapart hfree ⊢
    rw [map_cons, pairwise_cons] at hapart
    split at h
    · cases h
    split at h
    · cases h
    · cases h
    next vm _ =>
    obtain ⟨hord, hbelow, hupto⟩ := hbounds p mem_cons_self
    rw [hupto] at h
    have hnew : Laid (l.mm.addUncheckedRegion p.vaddr p.range.upto) := by
      refine hlaid.add hord ?_ ?_
      · unfold gKernelBase at hbelow
        show p.range.upto ≤ 0xFFFFFFFF
        omega
      · intro r hr
        exact (hfree r hr p mem_cons_self).symm
    have hmem : ∀ r ∈ (l.mm.addUncheckedRegion p.vaddr p.range.upto).mRegions,
        r.toInterval = p.range ∨ r ∈ l.mm.mRegions := by
      intro r hr
      rcases mem_add.1 hr with rfl | hr
      · exact .inl rfl
      · exact .inr hr
    obtain ⟨hlaid', hm', hregions⟩ := ih hnew
      (fun q hq => hbounds q (mem_cons_of_mem p hq)) hapart.2
      (by
        intro r hr q hq
        rcases hmem r hr with heq | hr
        · rw [heq]
          exact hapart.1 _ (mem_map_of_mem hq)
        · exact hfree r hr q (mem_cons_of_mem p hq)) h
    refine ⟨hlaid', hm', ?_⟩
    intro r hr
    rcases hregions r hr with hr | hr
    · rcases hmem r hr with heq | hr
      · rw [heq]
        exact .inr mem_cons_self
      · exact .inl hr
    · exact .inr (mem_cons_of_mem _ hr)

/-- The guard page after the segments. -/
theorem guardPage_drawn (h : image.Planned) (hdrawn : Drawn image l.mm)
    (hfree : ∀ r ∈ l.mm.mRegions, image.segmentGuard.Disjoint r.toInterval) :
    Drawn image (l.guardPage image.highest).mm := by
  have hbelow := h.below
  unfold gKernelBase at hbelow
  refine ⟨hdrawn.toLaid.add ?_ ?_ hfree, ?_⟩
  · exact Nat.le_add_right _ _
  · show page image.highest + (gPageSize - 1) ≤ 0xFFFFFFFF
    unfold page gPageSize
    omega
  intro r hr
  rcases mem_add.1 hr with rfl | hr
  · unfold Image.plan Image.segmentGuard
    simp
  · exact hdrawn.planned r hr

/-- The stack goes where there is room for its guard page too, since the
two regions around it are parts of the plan. -/
theorem loadStack_laid (h : image.Planned) (hdrawn : Drawn image l.mm)
    (hload : l.loadStack gDefaultStackSize = .ok (stackbegin, l')) :
    Laid l'.mm := by
  unfold loadStack at hload
  split at hload
  · cases hload
  next rgn mm vm hfind =>
  obtain ⟨_, hload⟩ := ok_pair hload
  obtain ⟨hrange, _, hmm, _⟩ := findAndZeroPageRegion_some hfind
  have hlaid := hdrawn.toLaid
  have hsize : toPage gDefaultStackSize = gDefaultStackSize := rfl
  unfold findRegionImpl at hrange
  rw [hsize] at hrange
  have hsafe : SafeRequest 0xFFFFFFFF gDefaultStackSize l.mm.mRegions := hlaid.safe (by decide)
  obtain ⟨_, i0, i1, hin, hroom, hbounds⟩ := hlaid.gap hsafe hrange
  have hi0 : i0.toInterval ∈ image.plan := hdrawn.planned i0 (hin.subset (by simp))
  have hi1 : i1.toInterval ∈ image.plan := hdrawn.planned i1 (hin.subset (by simp))
  have hends := h.ends hi0
  -- stack and guard page together are a free range
  have hboth : i0.upto + (gDefaultStackSize + gPageSize) < i1.frm := h.roomy _ hi0 _ hi1 hroom
  have hfree := freeRange_gap hlaid.layout (by decide) hin hboth
  have hbounded := hfree.bounded
  have hfrm : rgn.frm = i0.upto + 1 := congrArg frm hbounds
  have hupto : rgn.upto = gDefaultStackSize + i0.upto := congrArg upto hbounds
  have hpart : ∀ i : Interval, i0.upto + 1 ≤ i.frm →
      i.upto ≤ gDefaultStackSize + gPageSize + i0.upto →
      ∀ r ∈ l.mm.mRegions, i.Disjoint r.toInterval := by
    intro i hlow hhigh r hr addr hboth
    refine hfree.disjoint r hr addr ⟨?_, hboth.2⟩
    have hmine := hboth.1
    rw [contains_iff] at hmine ⊢
    show i0.upto + 1 ≤ addr ∧ addr ≤ gDefaultStackSize + gPageSize + i0.upto
    omega
  unfold gDefaultStackSize gPageSize at *
  have hstack : Laid (l.mm.addRegion rgn) := by
    refine hlaid.add (by omega) ?_ (hpart _ ?_ ?_)
    · have hbounded : 0x400000 + 0x1000 + i0.upto ≤ 0xFFFFFFFF := hbounded
      omega
    · exact le_of_eq hfrm.symm
    · omega
  rw [← hload, hmm]
  have hguard : page (rgn.upto + 1) = rgn.upto + 1 := by
    have hends : (i0.upto + 1) % 0x1000 = 0 := hends
    unfold page gPageSize
    omega
  unfold guardPage
  rw [hguard]
  refine hstack.add (Nat.le_add_right _ _) ?_ ?_
  · have hbounded : 0x400000 + 0x1000 + i0.upto ≤ 0xFFFFFFFF := hbounded
    show rgn.upto + 1 + (0x1000 - 1) ≤ 0xFFFFFFFF
    omega
  intro r hr
  rcases mem_add.1 hr with rfl | hr
  · refine (disjoint_iff (Nat.le_add_right _ _) ?_).2 (.inr ?_)
    · omega
    · exact Nat.lt_succ_self r.upto
  refine hpart _ ?_ ?_ r hr
  · show i0.upto + 1 ≤ rgn.upto + 1
    omega
  · show rgn.upto + 1 + (0x1000 - 1) ≤ 0x400000 + 0x1000 + i0.upto
    omega

theorem copyStrings_laid (hlaid : Laid l.mm) {a : Strings}
    (hsize : toPage (stringsSize a) ≤ 0x40000000)
    (h : l.copyStrings a = .ok (ok, l')) : Laid l'.mm := by
  unfold copyStrings at h
  split at h
  · cases h
  · cases h
    exact hlaid
  next rgn mm vm hmap =>
  cases h
  unfold findAndMapRegion at hmap
  cases hfind : l.mm.findRegionImpl (stringsSize a) with
  | none =>
    rw [hfind] at hmap
    cases hmap
  | some range =>
    rw [hfind] at hmap
    obtain ⟨vm₁, _, hmap⟩ := ok_bind hmap
    cases hmap
    exact hlaid.addFound (hlaid.safe hsize) hfind

theorem loadStrings_laid (h : image.Planned) (hlaid : Laid l.mm)
    (hload : l.loadStrings stackbegin image.environ image.args = .ok (ok, l')) : Laid l'.mm := by
  unfold loadStrings at hload
  split at hload
  · cases hload
  next l₁ hcopy =>
    cases hload
    exact copyStrings_laid hlaid h.environ hcopy
  next l₁ hcopy =>
  have hlaid₁ := copyStrings_laid hlaid h.environ hcopy
  split at hload
  · cases hload
  · cases hload
    exact hlaid₁
  next vm _ =>
  split at hload
  · cases hload
    exact hlaid₁
  next a hargs => exact @copyStrings_laid ⟨l₁.mm, vm⟩ l' ok hlaid₁ a (h.args a hargs) hload

/-- A program that is started has been laid out as planned. -/
theorem loadMainBinary_laid (h : image.Planned) (hdrawn : Drawn image l.mm)
    (hfree : ∀ r ∈ l.mm.mRegions, ∀ i, i ∈ image.segmentGuard ::
      image.segments.map Program.range → r.toInterval.Disjoint i)
    (hload : l.loadMainBinary image gDefaultStackSize = .ok (true, l')) :
    Laid l'.mm := by
  have hapart := h.apart
  unfold Image.plan at hapart
  rw [pairwise_cons, pairwise_cons, pairwise_cons, pairwise_cons] at hapart
  obtain ⟨_, _, _, hguard, hsegments⟩ := hapart
  unfold loadMainBinary at hload
  split at hload
  · cases hload
  obtain ⟨_, hload⟩ := reject_eq_ok.1 hload
  split at hload
  · cases hload
  · cases hload
  next l₁ m hprograms =>
  obtain ⟨hlaid₁, hm, hregions⟩ := loadPrograms_laid hdrawn.toLaid
    (fun p hp => ⟨(h.segment hp).1, (h.segment hp).2.1, (h.segment hp).2.2.2⟩) hsegments
    (fun r hr p hp => hfree r hr _ (mem_cons_of_mem _ (mem_map_of_mem hp))) hprograms
  have hm : m = image.highest := hm
  rw [hm] at hload
  have hdrawn₁ : Drawn image l₁.mm := by
    refine ⟨hlaid₁, ?_⟩
    intro r hr
    rcases hregions r hr with hr | hr
    · exact hdrawn.planned r hr
    · unfold Image.plan
      simp only [mem_cons]
      exact .inr (.inr (.inr (.inr hr)))
  have hdrawn₂ := guardPage_drawn h hdrawn₁ (by
    intro r hr
    rcases hregions r hr with hr | hr
    · exact (hfree r hr _ mem_cons_self).symm
    · exact hguard _ hr)
  split at hload
  · cases hload
  next stackbegin l₂ hstack => exact loadStrings_laid h (loadStack_laid h hdrawn₂ hstack) hload

theorem loadBinary_laid (h : image.Planned) {vm : Vm}
    (hload : loadBinary ⟨init, vm⟩ image = .ok (true, l')) :
    Laid l'.mm := by
  unfold loadBinary at hload
  split at hload
  · cases hload
  split at hload
  · cases hload
  next file_rgn mm vm₁ hfile =>
  obtain ⟨hdrawn, hbuffer, hfree⟩ := findAndZeroPageRegion_drawn h hfile
  split at hload
  · cases hload
  · cases hload
  next l₁ hread =>
  have hmm : l₁.mm = mm := readFile_mm hread
  split at hload
  · cases hload
  split at hload
  · cases hload
  next started l₂ hmain =>
  split at hload
  · cases hload
  next mm' vm' hremove =>
  obtain ⟨hstarted, hload⟩ := ok_pair hload
  rw [Bool.and_eq_true] at hstarted
  rw [hstarted.1] at hmain
  rw [← hmm] at hdrawn hfree
  have hlaid := loadMainBinary_laid h hdrawn hfree hmain
  rw [← hload]
  have hfrm : file_rgn.toInterval.frm = 0x1000 := congrArg frm hbuffer
  refine hlaid.removeRegion hremove ?_ ?_
  · intro heq
    rw [heq] at hfrm
    cases hfrm
  · intro heq
    rw [heq] at hfrm
    cases hfrm

end Loading

-- ==== every step

namespace System

/-- The invariant of a process. Before it is loaded it has no regions of
its own. -/
structure Settled (t : Task) : Prop where
  laid : t.status ≠ .exited → Laid t.mm
  fresh : t.status = .created → t.mm = init

variable {s : System} {a : MemAction} {p : Nat} {u : Task}

theorem settled_running (hrun : u.status = .running) (hlaid : Laid u.mm) : Settled u := by
  refine ⟨fun _ => hlaid, ?_⟩
  intro hcreated
  cases hrun.symm.trans hcreated

theorem Settled.becomes (hall : ∀ p t, s.tasks p = some t → Settled t)
    (hok : s.KeepsLayout a) (h : Becomes s a p u) : Settled u := by
  cases h with
  | spawned => exact ⟨fun _ => laid_init, fun _ => rfl⟩
  | loaded ht hstatus hload =>
    rw [(hall _ _ ht).fresh hstatus] at hload
    exact settled_running rfl (Loading.loadBinary_laid hok hload)
  | parent ht hrun _ => exact settled_running hrun ((hall _ _ ht).laid (running_live hrun))
  | child ht hrun _ => exact ⟨fun _ => (hall _ _ ht).laid (running_live hrun), nofun⟩
  | @cloneStarted p t l ht hstatus hstart =>
    have hlaid := (hall _ _ ht).laid (hstatus.trans_ne nofun)
    refine settled_running rfl ?_
    unfold Loading.cloneStart at hstart
    split at hstart
    · subst hstart
      exact hlaid
    next rgn mm vm hfind =>
    subst hstart
    obtain ⟨hrange, _, rfl, _⟩ := findAndZeroPageRegion_some hfind
    exact hlaid.addFound (hlaid.safe (by decide)) hrange
  | @mapped p size perm t rgn mm vm ht hrun hfind =>
    have hlaid := (hall _ _ ht).laid (running_live hrun)
    obtain ⟨hrange, _, hmm, _⟩ := findAndZeroPageRegion_some hfind
    refine settled_running hrun ?_
    rw [hmm]
    exact hlaid.addFound (hok t ht) hrange
  | @fileMapped p size t rgn mm vm ht hrun hfind =>
    have hlaid := (hall _ _ ht).laid (running_live hrun)
    obtain ⟨hrange, _, hmm, _⟩ := findAndFileMapRegion_some hfind
    refine settled_running hrun ?_
    rw [hmm]
    exact hlaid.addFound (hok t ht) hrange
  | unmapped ht hrun huser hfound hremove =>
    have hlaid := (hall _ _ ht).laid (running_live hrun)
    obtain ⟨hzero, hkernel⟩ := found_not_fence huser hfound
    exact settled_running hrun (hlaid.removeRegion hremove hzero hkernel)
  | reprotected ht hrun huser hfound =>
    have hlaid := (hall _ _ ht).laid (running_live hrun)
    exact settled_running hrun (hlaid.congr (setPermission_bounds _ _ _))
  | read ht hrun _ => exact settled_running hrun ((hall _ _ ht).laid (running_live hrun))
  | written ht hrun _ => exact settled_running hrun ((hall _ _ ht).laid (running_live hrun))
  | exited hstatus _ =>
    refine ⟨fun hlive => absurd hstatus hlive, ?_⟩
    intro hcreated
    cases hstatus.symm.trans hcreated

-- ==== the result

/-- After steps that keep the layout, the regions of every process are
sorted and disjoint, and a lookup finds exactly what is there. -/
theorem laidOut_of_keepsLayout {s₀ : System} (hb : s₀.Booted)
    (h : (memSystem s₀).Reach KeepsLayout s) : s.LaidOut := by
  have hall := each_of_reach hb (fun s a q u hs hok hu => Settled.becomes hs hok hu) h
  intro p t ht hlive
  have hlaid := (hall p t ht).laid hlive
  exact ⟨hlaid.layout.sorted, hlaid.layout.disjoint, hlaid.findsRegions _⟩

theorem textImage_planned : textImage.Planned := by
  refine ⟨?_, by decide, ?_, ?_, by decide, nofun⟩
  · intro p hp
    rw [mem_singleton.1 hp]
    decide
  · have hsep : textImage.plan.Pairwise fun i j => i.frm ≤ i.upto ∧
        j.frm ≤ j.upto ∧ (i.upto < j.frm ∨ j.upto < i.frm) := by
      decide
    refine hsep.imp ?_
    rintro i j ⟨hi, hj, hne⟩
    exact (disjoint_iff hi hj).2 hne
  · decide

theorem laidOut_of_keepsLayout_text : plain.Booted ∧ ∃ s, (memSystem plain).Reach KeepsLayout s ∧
      (s.tasks 1).any hasText = true ∧ s.LaidOut := by
  obtain ⟨s, hrun, htest⟩ := plain_hasText
  rw [Bool.and_eq_true] at htest
  have hreach : (memSystem plain).Reach KeepsLayout s := by
    refine Machine.Reach.run (.boot rfl) (guarded_of_forall ?_ _) hrun
    intro a ha s
    simp only [mem_cons, not_mem_nil, or_false] at ha
    rcases ha with rfl | rfl
    · trivial
    · exact textImage_planned
  exact ⟨plain_booted, s, hreach, htest.2, laidOut_of_keepsLayout plain_booted hreach⟩

-- ==== a segment that ends in the middle of a page

/-- An executable with a page and a half of code. -/
def raggedImage : Image where
  fileSize := 0x2000
  entry := 0x08048000
  programs := [{ vaddr := 0x08048000, memsz := 0x1800, filesz := 0x1800 }]

/-- The process runs, and a lookup does not find its code. -/
def losesText (t : Task) : Bool :=
  decide (t.status = .running) && (contains 0x08048000 t.mm.mRegions).isNone &&
    t.mm.mRegions.any fun r => r.toInterval.contains 0x08048000

/-- The guard page overlaps the last page of the segment and stands before
it in the list. -/
theorem plain_not_laidOut : plain.Booted ∧
    ∃ s, (memSystem plain).Reach anyStep s ∧ ¬ s.LaidOut := by
  have hrun : ∃ s, (memSystem plain).run [.spawn 1, .load 1 raggedImage] plain = .ok s ∧
        (s.tasks 1).any losesText = true := by
    rw [← endsWith_iff, endsWith_cons,
      show (memSystem plain).step (.spawn 1) plain = _ from plain_spawn]
    decide +kernel
  obtain ⟨s, hrun, htest⟩ := hrun
  refine ⟨plain_booted, s, reach_run rfl hrun, ?_⟩
  intro hlaid
  rw [Option.any_eq_true] at htest
  obtain ⟨t, ht, hloses⟩ := htest
  unfold losesText at hloses
  rw [Bool.and_eq_true, Bool.and_eq_true, decide_eq_true_eq, any_eq_true] at hloses
  obtain ⟨⟨hstatus, hnone⟩, hsome⟩ := hloses
  obtain ⟨_, _, hfinds⟩ := hlaid 1 t ht (running_live hstatus)
  have hfound := (hfinds.exact 0x08048000 (by decide) (by decide)).2 hsome
  unfold isWithinRegion at hfound
  rw [if_neg (by decide), if_neg (by decide)] at hfound
  rw [Option.isNone_iff_eq_none.1 hnone] at hfound
  cases hfound

end System

end Puppy.Mm
