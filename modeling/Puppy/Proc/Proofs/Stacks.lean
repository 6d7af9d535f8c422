/-
Where the stack of a killed process is.

# Pages that are kept apart

In every state reached, the pages of all processes are mapped, each with a
physical page of its own that is held (`Secured`). A page that is mapped for
a new process was not mapped before, and the physical page behind it was
free, so it is none of them; and when a page is unmapped, the reference that
is given back is nobody else's. So the word that `kill` writes changes
nothing but the target's own kernel stack.

# One word too low

The word goes to the first address of the stack page, and the stack pointer
one word below it. That is outside the page, for every target.
-/
import Puppy.Proc.Stacks
import Puppy.Mm.Proofs.Virt

namespace Puppy.Proc

open Libc Lib Mm Mm.Vm PhysicalPageManager Function List Machine

-- ==== pages with memory of their own

/-- Each of these pages has a physical page of its own, which is held. -/
structure Secured (vm : Vm) (P : Nat → Prop) : Prop where
  page : ∀ v, P v → v % gPageSize = 0 ∧ v < 0x100000000
  frame : ∀ v, P v → ∃ f, (vm.entry v).frame = some f ∧
    (vm.pmm.mPages f).usable = true ∧ (vm.pmm.mPages f).refcnt ≠ 0
  apart : ∀ v w f, P v → P w → (vm.entry v).frame = some f → (vm.entry w).frame = some f → v = w

namespace Secured

variable {vm vm' : Vm} {P Q : Nat → Prop} {v : Nat} {opts : MapOptions}

theorem mono (h : Secured vm P) (hsub : ∀ v, Q v → P v) : Secured vm Q where
  page v hv := h.page v (hsub v hv)
  frame v hv := h.frame v (hsub v hv)
  apart v w f hv hw := h.apart v w f (hsub v hv) (hsub w hw)

/-- Different pages have different numbers. -/
theorem pageNumber_ne {w : Nat} (hv : v % gPageSize = 0 ∧ v < 0x100000000)
    (hw : w % gPageSize = 0 ∧ w < 0x100000000) (hne : w ≠ v) :
    pageNumber w ≠ pageNumber v := by
  unfold pageNumber index gNumPages
  unfold gPageSize at *
  omega

/-- A page that is mapped now was not one of them, and becomes one. -/
theorem map {idx : Nat} (h : Secured vm P) (hv : v % gPageSize = 0 ∧ v < 0x100000000)
    (hmapped : Mapped vm v opts idx vm') :
    ¬ P v ∧ Secured vm' (fun w => w = v ∨ P w) := by
  have hnew : ¬ P v := by
    intro hold
    obtain ⟨f, hf, _⟩ := h.frame v hold
    have hpresent := (TableEntry.frame_eq_some.1 hf).1
    cases hmapped.absent.symm.trans hpresent
  obtain ⟨husable, hzero⟩ := available_iff.1 hmapped.free
  have hself : (vm'.entry v).frame = some idx := by
    unfold Vm.entry
    rw [hmapped.table, update_self]
    exact TableEntry.frame_eq_some.2 ⟨rfl, rfl, index_mul idx⟩
  have hother : ∀ w, P w → (vm'.entry w).frame = (vm.entry w).frame := by
    intro w hw
    have hne : w ≠ v := fun heq => hnew (heq ▸ hw)
    unfold Vm.entry
    rw [hmapped.table, update_of_ne (pageNumber_ne hv (h.page w hw) hne)]
  -- the new physical page is none of the old ones
  have hfresh : ∀ w f, P w → (vm.entry w).frame = some f → f ≠ idx := by
    intro w f hw hf heq
    obtain ⟨f', hf', _, hheld⟩ := h.frame w hw
    rw [Option.mem_unique hf hf'] at heq
    rw [heq] at hheld
    exact hheld hzero
  refine ⟨hnew, ⟨?_, ?_, ?_⟩⟩
  · rintro w (hw | hw)
    · rw [hw]
      exact hv
    · exact h.page w hw
  · rintro w (hw | hw)
    · refine ⟨idx, by rw [hw]; exact hself, ?_, ?_⟩
      · rw [hmapped.traded.usable]
        exact husable
      · have hcount := hmapped.traded.refcnt idx
        rw [named_self] at hcount
        omega
    obtain ⟨f, hf, husable', hheld⟩ := h.frame w hw
    refine ⟨f, (hother w hw).trans hf, ?_, ?_⟩
    · rw [hmapped.traded.usable]
      exact husable'
    · have hcount := hmapped.traded.refcnt f
      omega
  · rintro w x f (hw | hw) (hx | hx) hfw hfx
    · rw [hw, hx]
    · rw [hw, hself] at hfw
      rw [hother x hx] at hfx
      exact absurd (Option.some.inj hfw).symm (hfresh x f hx hfx)
    · rw [hx, hself] at hfx
      rw [hother w hw] at hfw
      exact absurd (Option.some.inj hfx).symm (hfresh w f hw hfw)
    · rw [hother w hw] at hfw
      rw [hother x hx] at hfx
      exact h.apart w x f hw hx hfw hfx

/-- One of them is unmapped. -/
theorem unmap (h : Secured vm P) (hv : P v) : ∃ vm', vm.unmap v = .ok vm' ∧
      Secured vm' (fun w => P w ∧ w ≠ v) := by
  obtain ⟨f, hf, husable, hheld⟩ := h.frame v hv
  have hentry := TableEntry.frame_eq_some.1 hf
  have hok : Vm.Held vm (vm.entry v) := by
    intro _
    rw [hentry.2.2]
    exact ⟨hentry.1, husable, hheld⟩
  obtain ⟨vm', hunmap, hcleared⟩ := unmap_of_held hok
  refine ⟨vm', hunmap, ⟨fun w hw => h.page w hw.1, ?_, ?_⟩⟩
  · rintro w ⟨hw, hne⟩
    obtain ⟨g, hg, husable', hheld'⟩ := h.frame w hw
    have hfg : f ≠ g := fun heq => hne (h.apart w v g hw hv hg (heq ▸ hf))
    refine ⟨g, ?_, ?_, ?_⟩
    · unfold Vm.entry
      rw [hcleared.table, update_of_ne (pageNumber_ne (h.page v hv) (h.page w hw) hne)]
      exact hg
    · rw [hcleared.traded.usable]
      exact husable'
    · have hcount := hcleared.traded.refcnt g
      rw [hf, named_of_ne hfg] at hcount
      omega
  · rintro w x g ⟨hw, hwne⟩ ⟨hx, hxne⟩ hgw hgx
    unfold Vm.entry at hgw hgx
    rw [hcleared.table, update_of_ne (pageNumber_ne (h.page v hv) (h.page w hw) hwne)] at hgw
    rw [hcleared.table, update_of_ne (pageNumber_ne (h.page v hv) (h.page x hx) hxne)] at hgx
    exact h.apart w x g hw hx hgw hgx

/-- What stands in memory does not matter. -/
theorem congr (h : Secured vm P) (htable : vm'.table = vm.table)
    (hpmm : vm'.pmm = vm.pmm) : Secured vm' P := by
  refine ⟨h.page, ?_, ?_⟩
  · intro v hv
    unfold Vm.entry
    rw [htable, hpmm]
    exact h.frame v hv
  intro v w f hv hw
  unfold Vm.entry
  rw [htable]
  exact h.apart v w f hv hw

/-- `mapPageWithinRange` finds a page that is none of them. -/
theorem mapPageWithinRange {low high : Nat} (h : Secured vm P) (hhigh : high < 0x100000000)
    (hmap : vm.mapPageWithinRange low high opts = .ok (v, vm')) :
    ¬ P v ∧ Secured vm' (fun w => w = v ∨ P w) := by
  unfold Vm.mapPageWithinRange at hmap
  split at hmap
  · cases hmap
  next virt hfind =>
  obtain ⟨vm₁, hmap, heq⟩ := ok_bind hmap
  obtain ⟨hvirt, hvm⟩ := ok_pair heq
  rw [hvirt] at hfind hmap
  rw [hvm] at hmap
  obtain ⟨k, hk, hlt⟩ := mem_pagesBelow.1 (mem_of_find?_eq_some hfind)
  have habsent := find?_some hfind
  have hv : v % gPageSize = 0 ∧ v < 0x100000000 := by
    unfold Mm.page at hk hlt
    unfold gPageSize at *
    omega
  rcases mapAnyPhysicalPage_cases vm v opts with ⟨hpresent, _⟩ | herror | ⟨idx, vm₂, hok, hmapped⟩
  · rw [hpresent] at habsent
    cases habsent
  · rw [herror] at hmap
    cases hmap
  · rw [hok] at hmap
    injection hmap with hmap
    exact h.map hv (hmap ▸ hmapped)

end Secured

-- ==== words in memory

section Words

variable {vm : Vm} {virt word : Nat}

theorem storeWord_table : (storeWord vm virt word).table = vm.table := rfl

theorem storeWord_pmm : (storeWord vm virt word).pmm = vm.pmm := rfl

/-- A word that is on one page changes nothing but its physical page. -/
theorem storeWord_memory {f : Nat} (hword : virt % gPageSize + 3 < gPageSize)
    (hf : f ≠ index (vm.entry virt).page) :
    (storeWord vm virt word).memory f = vm.memory f := by
  have hpage : ∀ k < 4, pageNumber (virt + k) = pageNumber virt := by
    intro k hk
    unfold pageNumber index
    congr 1
    unfold gPageSize at *
    omega
  have hall : ∀ (ks : List Nat) (vm₁ : Vm), (∀ k ∈ ks, k < 4) →
      vm₁.table = vm.table → (ks.foldl (fun vm k => System.storeByte (virt + k)
        (UInt8.ofNat (word / 0x100 ^ k)) vm) vm₁).memory f = vm₁.memory f := by
    intro ks
    induction ks with
    | nil => exact fun _ _ _ => rfl
    | cons k ks ih =>
      intro vm₁ hks htable
      have hother : f ≠ index (vm₁.entry (virt + k)).page := by
        unfold Vm.entry
        rw [htable, hpage k (hks k mem_cons_self)]
        exact hf
      rw [foldl_cons]
      exact (ih (System.storeByte (virt + k) _ vm₁)
        (fun j hj => hks j (mem_cons_of_mem k hj)) htable).trans
        (update_of_ne hother _ _)
  exact hall _ _ (by decide) rfl

end Words

-- ==== runs

namespace Stacks

variable {s s' : Stacks} {p self pid : Pid} {vm : Vm} {answer : Bool}

/-- A page of a process. -/
def Owns (s : Stacks) (q : Pid) (v : Nat) : Prop :=
  ∃ t, s.tasks q = some t ∧ v ∈ t.pages

/-- The pages of all processes are apart. -/
structure Inv (s : Stacks) : Prop where
  high : s.mProcessPagesHigh < 0x100000000
  secured : Secured s.vm (fun v => ∃ q, s.Owns q v)
  single : ∀ q t, s.tasks q = some t → t.pages.Nodup
  unique : ∀ q r v, s.Owns q v → s.Owns r v → q = r

/-- A word in memory and what a process is to do next are no matter of
pages. -/
theorem Inv.relabel {t t' : StackTask} (h : s.Inv) (ht : s.tasks p = some t)
    (hpages : t'.pages = t.pages)
    (htable : vm.table = s.vm.table) (hpmm : vm.pmm = s.vm.pmm) :
    (setTask { s with vm := vm } p (some t')).Inv := by
  have htask : ∀ q u, (setTask { s with vm := vm } p (some t')).tasks q =
      some u → ∃ u', s.tasks q = some u' ∧ u.pages = u'.pages := by
    intro q u hu
    rcases update_eq_some hu with ⟨hq, hu⟩ | ⟨_, hu⟩
    · exact ⟨t, hq ▸ ht, Option.some.inj hu ▸ hpages⟩
    · exact ⟨u, hu, rfl⟩
  have howns : ∀ q v, (setTask { s with vm := vm } p (some t')).Owns q v → s.Owns q v := by
    rintro q v ⟨u, hu, hv⟩
    obtain ⟨u', hu', heq⟩ := htask q u hu
    exact ⟨u', hu', heq ▸ hv⟩
  refine ⟨h.high, ?_, ?_, ?_⟩
  · exact (h.secured.congr htable hpmm).mono (fun v ⟨q, hq⟩ => ⟨q, howns q v hq⟩)
  · intro q u hu
    obtain ⟨u', hu', heq⟩ := htask q u hu
    rw [heq]
    exact h.single q u' hu'
  · exact fun q r v hq hr => h.unique q r v (howns q v hq) (howns r v hr)

/-- Three pages that nobody has. -/
theorem findPages_spec {pp e0 ep : Nat} (h : s.Inv) (hfind : s.findPages = .ok ((pp, e0, ep), vm)) :
    [pp, e0, ep].Nodup ∧ (∀ v ∈ [pp, e0, ep], ¬ ∃ q, s.Owns q v) ∧
      Secured vm (fun v => v ∈ [pp, e0, ep] ∨ ∃ q, s.Owns q v) := by
  obtain ⟨⟨v₁, vm₁⟩, h₁, hfind⟩ := ok_bind hfind
  obtain ⟨⟨v₂, vm₂⟩, h₂, hfind⟩ := ok_bind hfind
  obtain ⟨⟨v₃, vm₃⟩, h₃, hfind⟩ := ok_bind hfind
  obtain ⟨hpages, hvm⟩ := ok_pair hfind
  injection hpages with hpp hpages
  injection hpages with he0 hep
  obtain ⟨hnew₁, hs₁⟩ := h.secured.mapPageWithinRange h.high h₁
  obtain ⟨hnew₂, hs₂⟩ := hs₁.mapPageWithinRange h.high h₂
  obtain ⟨hnew₃, hs₃⟩ := hs₂.mapPageWithinRange h.high h₃
  rw [not_or] at hnew₂ hnew₃
  rw [not_or] at hnew₃
  rw [← hpp, ← he0, ← hep, ← hvm]
  refine ⟨?_, ?_, hs₃.mono ?_⟩
  · rw [nodup_cons, nodup_cons, mem_cons, mem_singleton, mem_singleton, not_or]
    exact ⟨⟨fun heq => hnew₂.1 heq.symm, fun heq => hnew₃.2.1 heq.symm⟩,
      fun heq => hnew₃.1 heq.symm, nodup_singleton _⟩
  · intro v hv
    rw [mem_cons, mem_cons, mem_singleton] at hv
    rcases hv with hv | hv | hv
    · rw [hv]
      exact hnew₁
    · rw [hv]
      exact hnew₂.2
    · rw [hv]
      exact hnew₃.2.2
  · rintro v (hv | hv)
    · rw [mem_cons, mem_cons, mem_singleton] at hv
      rcases hv with hv | hv | hv
      · exact .inr (.inr (.inl hv))
      · exact .inr (.inl hv)
      · exact .inl hv
    · exact .inr (.inr (.inr hv))

/-- A process with pages that nobody has. -/
theorem Inv.add {t : StackTask} (h : s.Inv) (hnodup : t.pages.Nodup)
    (hnew : ∀ v ∈ t.pages, ¬ ∃ q, s.Owns q v)
    (hsecured : Secured vm (fun v => v ∈ t.pages ∨ ∃ q, s.Owns q v)) :
    (setTask { s with vm := vm } p (some t)).Inv := by
  have hself : (setTask { s with vm := vm } p (some t)).tasks p = some t := update_self _ _ _
  have hother : ∀ q ≠ p, (setTask { s with vm := vm } p (some t)).tasks q = s.tasks q :=
    fun q hq => update_of_ne hq _ _
  have howns : ∀ q v, (setTask { s with vm := vm } p (some t)).Owns q v →
      q = p ∧ v ∈ t.pages ∨ q ≠ p ∧ s.Owns q v := by
    rintro q v ⟨u, hu, hv⟩
    by_cases hq : q = p
    · rw [hq, hself] at hu
      exact .inl ⟨hq, Option.some.inj hu ▸ hv⟩
    · rw [hother q hq] at hu
      exact .inr ⟨hq, u, hu, hv⟩
  refine ⟨h.high, hsecured.mono ?_, ?_, ?_⟩
  · rintro v ⟨q, hq⟩
    rcases howns q v hq with ⟨_, hv⟩ | ⟨_, hold⟩
    · exact .inl hv
    · exact .inr ⟨q, hold⟩
  · intro q u hu
    by_cases hq : q = p
    · rw [hq, hself] at hu
      exact Option.some.inj hu ▸ hnodup
    · rw [hother q hq] at hu
      exact h.single q u hu
  intro q r v hqv hrv
  rcases howns q v hqv with ⟨hq, hv⟩ | ⟨_, hold⟩ <;>
    rcases howns r v hrv with ⟨hr, hv'⟩ | ⟨_, hold'⟩
  · rw [hq, hr]
  · exact absurd ⟨r, hold'⟩ (hnew v hv)
  · exact absurd ⟨q, hold⟩ (hnew v hv')
  · exact h.unique q r v hold hold'

theorem spawn_inv {cr3 eip argument : Nat} {system : Bool} (h : s.Inv)
    (hspawn : s.spawn p cr3 eip argument system = .ok s') :
    s'.Inv := by
  obtain ⟨_, hspawn⟩ := reject_eq_ok.1 hspawn
  obtain ⟨⟨⟨pp, e0, ep⟩, vm⟩, hfind, hspawn⟩ := ok_bind hspawn
  injection hspawn with hspawn
  obtain ⟨hnodup, hnew, hsecured⟩ := findPages_spec h hfind
  rw [← hspawn]
  exact h.add hnodup hnew (hsecured.congr storeWord_table storeWord_pmm)

/-- The deleter can unmap the three pages, and does. -/
theorem delete_inv (h : s.Inv) (hdelete : s.delete p = .ok s') : s'.Inv := by
  unfold delete at hdelete
  split at hdelete
  · cases hdelete
  next t ht =>
  have hmem : ∀ v ∈ t.pages, ∃ q, s.Owns q v := fun v hv => ⟨p, t, ht, hv⟩
  have hnodup := h.single p t ht
  unfold StackTask.pages at hmem hnodup
  rw [nodup_cons, nodup_cons, mem_cons, mem_singleton, mem_singleton, not_or] at hnodup
  obtain ⟨⟨hp0, hpp⟩, h0p, _⟩ := hnodup
  obtain ⟨vm₁, h₁, hs₁⟩ := h.secured.unmap (hmem t.esp0start (mem_cons_of_mem _ mem_cons_self))
  obtain ⟨vm₂, h₂, hs₂⟩ := hs₁.unmap (v := t.espstart)
    ⟨hmem _ (mem_cons_of_mem _ (mem_cons_of_mem _ mem_cons_self)), Ne.symm h0p⟩
  obtain ⟨vm₃, h₃, hs₃⟩ := hs₂.unmap (v := t.proc) ⟨⟨hmem _ mem_cons_self, hp0⟩, hpp⟩
  rw [h₁, bind_ok, h₂, bind_ok, h₃, bind_ok] at hdelete
  refine of_ok hdelete ?_
  have howns : ∀ q v, (setTask { s with vm := vm₃ } p none).Owns q v → q ≠ p ∧ s.Owns q v := by
    rintro q v ⟨u, hu, hv⟩
    rcases update_eq_some hu with ⟨_, ⟨⟩⟩ | ⟨hq, hu⟩
    · exact ⟨hq, u, hu, hv⟩
  refine ⟨h.high, hs₃.mono ?_, ?_, ?_⟩
  · rintro v ⟨q, hqv⟩
    obtain ⟨hq, hold⟩ := howns q v hqv
    -- nobody else has the pages of the process that goes
    have hnot : ∀ w ∈ t.pages, v ≠ w := fun w hw heq => hq (h.unique q p w (heq ▸ hold) ⟨t, ht, hw⟩)
    exact ⟨⟨⟨⟨q, hold⟩, hnot _ (mem_cons_of_mem _ mem_cons_self)⟩,
      hnot _ (mem_cons_of_mem _ (mem_cons_of_mem _ mem_cons_self))⟩, hnot _ mem_cons_self⟩
  · intro q u hu
    rcases update_eq_some hu with ⟨_, ⟨⟩⟩ | ⟨_, hu⟩
    · exact h.single q u hu
  · exact fun q r v hqv hrv => h.unique q r v (howns q v hqv).2 (howns r v hrv).2

-- ==== kill

/-- A kill that redirects writes one word and sets the registers. -/
theorem kill_redirects (h : s.Redirects self pid) : ∃ t, s.tasks pid = some t ∧ s.kill self pid =
      .ok (true, setTask { s with
        vm := storeWord s.vm t.esp0start killedWord } pid
          (some (resumeat t s.reaper (sub32 t.esp0start 4) 0x08 0x10))) := by
  obtain ⟨current, task, hself, htask, hne, hallowed⟩ := h
  refine ⟨task, htask, ?_⟩
  unfold kill
  rw [hself, htask]
  dsimp only
  rw [if_neg hne, if_neg (by rw [hallowed]; decide)]

/-- Any other leaves everything as it is. -/
theorem kill_refused (h : ¬ s.Redirects self pid)
    (hkill : s.kill self pid = .ok (answer, s')) : s' = s := by
  unfold kill at hkill
  split at hkill
  · cases hkill
  · cases hkill
  next current task hself htask =>
  split at hkill
  · obtain ⟨_, hkill⟩ := ok_pair hkill
    exact hkill.symm
  next hne =>
  split at hkill
  · obtain ⟨_, hkill⟩ := ok_pair hkill
    exact hkill.symm
  next hallowed => exact absurd ⟨current, task, hself, htask, hne, Bool.eq_false_iff.2 hallowed⟩ h

theorem kill_inv (h : s.Inv) (hkill : s.kill self pid = .ok (answer, s')) : s'.Inv := by
  by_cases hredirects : s.Redirects self pid
  · obtain ⟨t, ht, heq⟩ := kill_redirects hredirects
    cases heq.symm.trans hkill
    exact h.relabel ht rfl storeWord_table storeWord_pmm
  · rw [kill_refused hredirects hkill]
    exact h

theorem inv_of_reach (h : stackSystem.Reach anyStep s) : s.Inv := by
  refine h.invariant (I := Inv) ?_ ?_
  · rintro s ⟨hnone, hhigh⟩
    have hnobody : ∀ q v, ¬ s.Owns q v := by
      rintro q v ⟨t, ht, _⟩
      rw [hnone] at ht
      cases ht
    refine ⟨hhigh, ⟨?_, ?_, ?_⟩, ?_, ?_⟩
    · exact fun v ⟨q, hq⟩ => absurd hq (hnobody q v)
    · exact fun v ⟨q, hq⟩ => absurd hq (hnobody q v)
    · exact fun v _ _ ⟨q, hq⟩ => absurd hq (hnobody q v)
    · intro q t ht
      rw [hnone] at ht
      cases ht
    · exact fun q _ v hq => absurd hq (hnobody q v)
  · intro s s' a hinv _ hstep
    cases a with
    | spawn p cr3 eip argument system => exact spawn_inv hinv hstep
    | kill self pid =>
      obtain ⟨⟨answer, s₁⟩, hkill, heq⟩ := ok_bind hstep
      exact of_ok heq (kill_inv hinv hkill)
    | delete p => exact delete_inv hinv hstep

/-- The pages of a process have physical pages of their own, so a byte of
one that is not the stack is not on the stack. -/
theorem storeWord_byteAt {t u : StackTask} {q : Pid} {v a : Nat} (h : s.Inv)
    (ht : s.tasks p = some t) (hu : s.tasks q = some u)
    (hv : v ∈ u.pages) (hle : v ≤ a) (hlt : a < v + gPageSize)
    (hne : v ≠ t.esp0start) :
    byteAt (storeWord s.vm t.esp0start killedWord) a = byteAt s.vm a := by
  have howned : ∃ q, s.Owns q v := ⟨q, u, hu, hv⟩
  have hstack : ∃ q, s.Owns q t.esp0start := ⟨p, t, ht, mem_cons_of_mem _ mem_cons_self⟩
  obtain ⟨haligned, _⟩ := h.secured.page v howned
  obtain ⟨haligned', _⟩ := h.secured.page _ hstack
  obtain ⟨f, hf, _⟩ := h.secured.frame v howned
  obtain ⟨g, hg, _⟩ := h.secured.frame _ hstack
  have hfg : f ≠ g := fun heq => hne (h.secured.apart v _ f howned hstack hf (heq ▸ hg))
  have hpage : pageNumber a = pageNumber v := by
    unfold pageNumber index
    congr 1
    unfold gPageSize at *
    omega
  have hentry : s.vm.entry a = s.vm.entry v := by
    unfold Vm.entry
    rw [hpage]
  have hframe : index (s.vm.entry a).page = f := by
    rw [hentry]
    exact (TableEntry.frame_eq_some.1 hf).2.2
  have hword : t.esp0start % gPageSize + 3 < gPageSize := by
    rw [haligned']
    decide
  have hother : index (s.vm.entry a).page ≠ index (s.vm.entry t.esp0start).page := by
    rw [hframe, (TableEntry.frame_eq_some.1 hg).2.2]
    exact hfg
  unfold byteAt
  rw [show (storeWord s.vm t.esp0start killedWord).entry a = s.vm.entry a
    from rfl, storeWord_memory hword hother]

/-- A kill that redirects writes to the stack of its target only, and lets
the stack pointer begin below it. -/
theorem kill_writes (h : s.Inv) (hredirects : s.Redirects self pid) :
    ∃ t t' s', s.kill self pid = .ok (true, s') ∧ s.tasks pid = some t ∧
      s'.tasks pid = some t' ∧ WritesAtHome s s' pid t ∧
      t'.tss.esp = sub32 t.esp0start 4 := by
  obtain ⟨t, ht, hkill⟩ := kill_redirects hredirects
  refine ⟨t, _, _, hkill, ht, update_self _ _ _, ⟨?_, ?_⟩, rfl⟩
  · rintro a ⟨v, hv, hle, hlt⟩ hchanged
    by_cases heq : v = t.esp0start
    · rw [heq] at hle hlt
      refine ⟨hle, ?_⟩
      unfold gPageSize at hlt
      omega
    · exact absurd (storeWord_byteAt h ht ht hv hle hlt heq) hchanged
  · intro q u hq hu
    constructor
    · exact (update_of_ne hq _ _).trans hu
    rintro a ⟨v, hv, hle, hlt⟩
    refine storeWord_byteAt h ht hu hv hle hlt fun heq => hq ?_
    exact h.unique q pid v ⟨u, hu, hv⟩ ⟨t, ht, heq ▸ mem_cons_of_mem _ mem_cons_self⟩

/-- One word below a page is not on the page. -/
theorem sub32_below (v : Nat) : ¬ (v ≤ sub32 v 4 ∧ sub32 v 4 ≤ v + 4095) := by
  unfold sub32
  omega

theorem not_killsAtHome (h : s.Redirects self pid) : ¬ s.KillsAtHome self pid := by
  intro hhome
  obtain ⟨t, ht, hkill⟩ := kill_redirects h
  obtain ⟨t₁, t', ht₁, ht', hunwinds⟩ := hhome _ _ hkill h
  rw [ht] at ht₁
  have heq : resumeat t s.reaper (sub32 t.esp0start 4) 0x08 0x10 = t' := by
    rw [show (setTask { s with
      vm := storeWord s.vm t.esp0start killedWord } pid _).tasks pid = _ from
      update_self _ _ _] at ht'
    exact Option.some.inj ht'
  have hpointer := hunwinds.pointer
  rw [← heq, ← Option.some.inj ht₁] at hpointer
  exact sub32_below t.esp0start hpointer

/-- In every state reached: a killed process unwinds on its own stack only
if nobody is killed. Otherwise the one word that is written is on the
target's stack, and the stack pointer is below it. -/
theorem killsAtHome_iff (h : stackSystem.Reach anyStep s) (self pid : Pid) :
    (s.KillsAtHome self pid ↔ ¬ s.Redirects self pid) ∧
      (s.Redirects self pid → ∃ t t' s', s.kill self pid = .ok (true, s') ∧
        s.tasks pid = some t ∧ s'.tasks pid = some t' ∧
        WritesAtHome s s' pid t ∧ t'.tss.esp = sub32 t.esp0start 4) := by
  refine ⟨⟨fun hhome hredirects => ?_, fun hnobody => ?_⟩, kill_writes (inv_of_reach h)⟩
  · exact not_killsAtHome hredirects hhome
  · exact fun _ _ _ hredirects => absurd hredirects hnobody

/-- Room for three processes, and no process yet. -/
def emptyStacks : Stacks where
  vm :=
    { pmm := { mPages := fun i => { usable := decide (i < 16) } }
      memory := fun _ _ => 0
      table := fun _ => {}
      mKernelRegions := [] }
  mProcessPagesLow := 0xD0000000
  mProcessPagesHigh := 0xD0008FFF
  reaper := 0xC0101234

/-- A process may kill itself, and the other one is left alone. -/
theorem killsAtHome_iff_self : ∃ s, stackSystem.run [.spawn 1 0 0 0 false, .spawn 2 0 0 0 false]
      emptyStacks = .ok s ∧ s.KillsAtHome 2 2 := by
  obtain ⟨s, hrun, _⟩ := endsWith_iff.1 (show stackSystem.endsWith
      [.spawn 1 0 0 0 false, .spawn 2 0 0 0 false] emptyStacks
      (fun _ => true) = true by decide +kernel)
  have hreach : stackSystem.Reach anyStep s := reach_run ⟨rfl, by decide⟩ hrun
  refine ⟨s, hrun, (killsAtHome_iff hreach 2 2).1.2 ?_⟩
  rintro ⟨_, _, _, _, hne, _⟩
  exact hne rfl

/-- Two processes: the kernel stack of the second one is the page at
0xD0004000, and after the first one has killed it, it goes on with a stack
that ends at 0xD0003FFC, in its process object. -/
theorem second_unwinds_below : ∃ s, stackSystem.run [.spawn 1 0 0 0 false, .spawn 2 0 0 0 false]
      emptyStacks = .ok s ∧
    (s.tasks 2).map (fun t => (t.proc, t.esp0start, t.system)) =
      some (0xD0003000, 0xD0004000, false) ∧
    ((s.kill 1 2).toOption.bind fun r => (r.2.tasks 2).map fun t =>
      t.tss.esp) = some 0xD0003FFC ∧
    ¬ s.KillsAtHome 1 2 := by
  obtain ⟨s, hrun, hone, htwo, hesp⟩ := exists_run (M := stackSystem)
    (P := fun s => (s.tasks 1).map StackTask.system = some false ∧
      (s.tasks 2).map (fun t => (t.proc, t.esp0start, t.system)) =
        some (0xD0003000, 0xD0004000, false) ∧
      ((s.kill 1 2).toOption.bind fun r => (r.2.tasks 2).map fun t => t.tss.esp) = some 0xD0003FFC)
    [.spawn 1 0 0 0 false, .spawn 2 0 0 0 false] emptyStacks
    (by decide +kernel)
  refine ⟨s, hrun, htwo, hesp, not_killsAtHome ?_⟩
  obtain ⟨first, hfirst, _⟩ := Option.map_eq_some_iff.1 hone
  obtain ⟨second, hsecond, heq⟩ := Option.map_eq_some_iff.1 htwo
  refine ⟨first, second, hfirst, hsecond, by decide, ?_⟩
  injection heq with _ heq
  injection heq with _ hsystem
  rw [hsystem]
  rfl

end Stacks

end Puppy.Proc
