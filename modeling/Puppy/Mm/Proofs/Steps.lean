/-
What a step of the system does to one process.

A property of single processes (the order of their regions, the rights in
their tables) does not depend on the others, and most steps concern one
process only. `Becomes` lists once what can become of a process, with the
call of the memory manager that made it so; an invariant about single
processes is then a case analysis over that list, with no other process in
sight.
-/
import Puppy.Mm.Proofs.Isolation

namespace Puppy.Mm

open Libc Lib PageFault

variable {mm : MemoryManager} {vm : Vm} {status : Status}

namespace System

/-- After the action the place `p` of the process table has this process,
new or changed. -/
inductive Becomes (s : System) : MemAction → Nat → Task → Prop
  | spawned {p : Nat} {space : AddressSpace} {proc esp0 esp : Nat} : Becomes s (.spawn p) p
        ⟨.created, space, fun _ => {}, MemoryManager.init, proc, esp0, esp⟩
  | loaded {p : Nat} {t : Task} {image : Image} {l : Loading}
      (ht : s.tasks p = some t) (hstatus : t.status = .created)
      (h : Loading.loadBinary ⟨t.mm, s.view t⟩ image = .ok (true, l)) :
      Becomes s (.load p image) p { t with status := .running, table := l.vm.table, mm := l.mm }
  | parent {p q : Nat} {t : Task} {space : AddressSpace} {table : Nat → TableEntry} {vm : Vm}
      (ht : s.tasks p = some t) (hrun : t.status = .running)
      (h : cloneAddressSpace (s.view t) = .ok (space, table, vm)) :
      Becomes s (.clone p q) p { t with table := vm.table }
  | child {p q : Nat} {t : Task} {space : AddressSpace}
      {table : Nat → TableEntry} {vm : Vm} {proc esp0 esp : Nat}
      (ht : s.tasks p = some t) (hrun : t.status = .running)
      (h : cloneAddressSpace (s.view t) = .ok (space, table, vm)) :
      Becomes s (.clone p q) q ⟨.cloned, space, table, t.mm, proc, esp0, esp⟩
  | cloneStarted {p : Nat} {t : Task} {l : Loading}
      (ht : s.tasks p = some t) (hstatus : t.status = .cloned)
      (h : Loading.cloneStart ⟨t.mm, s.view t⟩ = l) :
      Becomes s (.cloneStart p) p { t with status := .running, table := l.vm.table, mm := l.mm }
  | mapped {p size perm : Nat} {t : Task} {rgn : Region} {mm : MemoryManager} {vm : Vm}
      (ht : s.tasks p = some t) (hrun : t.status = .running)
      (h : t.mm.findAndZeroPageRegion (s.view t) size
        { user := true, clear := true, cached := true,
          rw := allowsWrite perm } = some (rgn, mm, vm)) :
      Becomes s (.mapregion p size perm) p { t with table := vm.table, mm := mm }
  | fileMapped {p size : Nat} {t : Task} {rgn : Region} {mm : MemoryManager} {vm : Vm}
      (ht : s.tasks p = some t) (hrun : t.status = .running)
      (h : t.mm.findAndFileMapRegion (s.view t) size = some (rgn, mm, vm)) :
      Becomes s (.mmap p size) p { t with table := vm.table, mm := mm }
  | unmapped {p address : Nat} {t : Task} {rgn : Region} {mm : MemoryManager} {vm : Vm}
      (ht : s.tasks p = some t) (hrun : t.status = .running)
      (huser : iskernel address = false)
      (hfound : t.mm.isWithinRegion (s.view t) address = some rgn)
      (h : t.mm.removeRegion (s.view t) rgn = .ok (mm, vm)) :
      Becomes s (.unmapregion p address) p { t with table := vm.table, mm := mm }
  | reprotected {p address perm : Nat} {t : Task} {rgn : Region}
      (ht : s.tasks p = some t) (hrun : t.status = .running)
      (huser : iskernel address = false)
      (hfound : t.mm.isWithinRegion (s.view t) address = some rgn) :
      Becomes s (.setregionperms p address perm) p
        { t with
          table := ((Vm.pagesUpto rgn.frm rgn.upto).foldl (MemoryManager.protectPage
              { rgn.permission with rw := allowsWrite perm })
            (s.view t)).table
          mm := { t.mm with
            mRegions := MemoryManager.setPermission rgn
              { rgn.permission with rw := allowsWrite perm } t.mm.mRegions } }
  | read {p vaddr : Nat} {file : FileRead} {t : Task} {vm : Vm}
      (ht : s.tasks p = some t) (hrun : t.status = .running)
      (h : userAccess t.mm (s.view t) vaddr false file = .ok (true, vm)) :
      Becomes s (.read p vaddr file) p { t with table := vm.table }
  | written {p vaddr : Nat} {byte : UInt8} {file : FileRead} {t : Task}
      {vm : Vm} (ht : s.tasks p = some t) (hrun : t.status = .running)
      (h : userAccess t.mm (s.view t) vaddr true file = .ok (true, vm)) :
      Becomes s (.write p vaddr byte file) p { t with table := vm.table }
  | exited {a : MemAction} {p : Nat} {t : Task} (hstatus : t.status = .exited)
      (hempty : ∀ i < gNumUserPages, t.table i = {}) : Becomes s a p t

variable {s s₁ s' : System} {a : MemAction} {p q size perm address : Nat} {t u : Task}

/-- No action of a process adds to the kernel's regions, and a process that
is not as before has become what the list says. -/
structure Follows (s : System) (a : MemAction) (s' : System) : Prop where
  regions : s'.mKernelRegions = s.mKernelRegions
  tasks : ∀ q u, s'.tasks q = some u → s.tasks q = some u ∨ Becomes s a q u

-- ==== one place of the process table

/-- A call is made by a process that is there, in the right state. -/
theorem find_ok (h : s.find p status = .ok t) : s.tasks p = some t ∧ t.status = status := by
  unfold find at h
  split at h
  next u hu =>
    obtain ⟨hstatus, h⟩ := check_eq_ok.1 h
    cases h
    exact ⟨hu, hstatus⟩
  · cases h

/-- A process that is where a call finds it. -/
theorem find_bind {α : Type} {f : Task → Except Panic α} {a : α}
    (h : (s.find p status >>= f) = .ok a) :
    ∃ t, s.tasks p = some t ∧ t.status = status ∧ f t = .ok a := by
  obtain ⟨t, hfind, h⟩ := ok_bind h
  obtain ⟨ht, hstatus⟩ := find_ok hfind
  exact ⟨t, ht, hstatus, h⟩

theorem addTask_ok {space : AddressSpace} {table : Nat → TableEntry}
    (h : s.addTask p status space table mm = .ok s') :
    ∃ vm proc esp0 esp, (s.storeKernel vm).setTask p
      (some ⟨status, space, table, mm, proc, esp0, esp⟩) = s' := by
  obtain ⟨⟨proc, vm₁⟩, _, h⟩ := ok_bind h
  obtain ⟨⟨esp0, vm₂⟩, _, h⟩ := ok_bind h
  obtain ⟨⟨esp, vm₃⟩, _, h⟩ := ok_bind h
  injection h with h
  exact ⟨vm₃, proc, esp0, esp, h⟩

namespace Follows

theorem refl : Follows s a s := ⟨rfl, fun _ _ => .inl⟩

/-- What was in a place does not matter once it has been written to. -/
theorem setTask {o : Option Task} (hregions : s₁.mKernelRegions = s.mKernelRegions)
    (hothers : ∀ q u, q ≠ p → s₁.tasks q = some u → s.tasks q = some u ∨ Becomes s a q u)
    (ho : ∀ u, o = some u → Becomes s a p u) :
    Follows s a ((s₁.storeKernel vm).setTask p o) := by
  refine ⟨hregions, ?_⟩
  intro q u hu
  rcases update_eq_some hu with ⟨rfl, hnew⟩ | ⟨hq, hold⟩
  · exact .inr (ho u hnew)
  · exact hothers q u hq hold

/-- One process has changed its own memory. -/
theorem store (h : Becomes s a p { t with table := vm.table, mm := mm }) :
    Follows s a (s.store p t mm vm) := by
  refine setTask rfl (fun _ _ _ => .inl) ?_
  rintro u ⟨⟩
  exact h

theorem addTask {space : AddressSpace} {table : Nat → TableEntry}
    (h : Follows s a s₁) (hadd : s₁.addTask p status space table mm = .ok s')
    (hnew : ∀ proc esp0 esp, Becomes s a p ⟨status, space, table, mm, proc, esp0, esp⟩) :
    Follows s a s' := by
  obtain ⟨vm, proc, esp0, esp, rfl⟩ := addTask_ok hadd
  refine setTask h.regions (fun q u _ => h.tasks q u) ?_
  rintro u ⟨⟩
  exact hnew proc esp0 esp

/-- A process that exits is left without memory. -/
theorem exitTask (h : s₁.exitTask p t = .ok s') (hregions : s₁.mKernelRegions = s.mKernelRegions)
    (hothers : ∀ q u, q ≠ p → s₁.tasks q = some u → s.tasks q = some u) :
    Follows s a s' := by
  obtain ⟨⟨mm, vm⟩, _, h⟩ := ok_bind h
  obtain ⟨vm', hclean, h⟩ := ok_bind h
  obtain ⟨pmm, _, hclean⟩ := ok_bind hclean
  cases hclean
  refine of_ok h ?_
  refine setTask hregions (fun q u hq hu => .inl (hothers q u hq hu)) ?_
  rintro u ⟨⟩
  exact .exited rfl (fun i hi => if_pos hi)

/-- A process goes on with what it was given, or it exits. -/
theorem proceed {alive : Bool} (h : s.proceed p t alive mm vm = .ok s') (halive : alive = true →
      Becomes s a p { t with table := vm.table, mm := mm }) :
    Follows s a s' := by
  unfold System.proceed at h
  split at h
  next hyes =>
    exact of_ok h (store (halive hyes))
  · refine exitTask h rfl ?_
    intro q u hq hu
    rwa [store_other hq] at hu

end Follows

-- ==== the actions

theorem spawn_follows (h : s.spawn p = .ok s') : Follows s (.spawn p) s' := by
  obtain ⟨_, h⟩ := check_eq_ok.1 h
  obtain ⟨⟨space, pmm⟩, _, h⟩ := ok_bind h
  have hstart : Follows s (.spawn p) { s with pmm := pmm } := ⟨rfl, fun _ _ => .inl⟩
  exact hstart.addTask h (fun _ _ _ => .spawned)

theorem clone_follows (h : s.clone p q = .ok s') : Follows s (.clone p q) s' := by
  obtain ⟨_, h⟩ := check_eq_ok.1 h
  obtain ⟨t, ht, hrun, h⟩ := find_bind h
  obtain ⟨⟨space, table, vm⟩, hspace, h⟩ := ok_bind h
  exact (Follows.store (.parent ht hrun hspace)).addTask h (fun _ _ _ => .child ht hrun hspace)

theorem load_follows {image : Image} (h : s.load p image = .ok s') :
    Follows s (.load p image) s' := by
  obtain ⟨t, ht, hstatus, h⟩ := find_bind h
  obtain ⟨⟨started, l⟩, hload, h⟩ := ok_bind h
  refine .proceed h ?_
  intro hstarted
  rw [hstarted] at hload
  exact Becomes.loaded (t := t) ht hstatus hload

theorem mapregion_follows (h : s.mapregion p size perm = .ok s') :
    Follows s (.mapregion p size perm) s' := by
  obtain ⟨t, ht, hrun, h⟩ := find_bind h
  split at h
  · exact of_ok h .refl
  split at h
  · exact of_ok h .refl
  next rgn mm vm hregion =>
  exact of_ok h (.store (.mapped ht hrun hregion))

theorem mmap_follows (h : s.mmap p size = .ok s') : Follows s (.mmap p size) s' := by
  obtain ⟨t, ht, hrun, h⟩ := find_bind h
  split at h
  · exact of_ok h .refl
  next rgn mm vm hregion =>
  exact of_ok h (.store (.fileMapped ht hrun hregion))

theorem unmapregion_follows (h : s.unmapregion p address = .ok s') :
    Follows s (.unmapregion p address) s' := by
  obtain ⟨t, ht, hrun, h⟩ := find_bind h
  split at h
  · exact of_ok h .refl
  next huser =>
  split at h
  · exact of_ok h .refl
  next rgn hfound =>
  obtain ⟨⟨mm, vm⟩, hremove, h⟩ := ok_bind h
  exact of_ok h (.store (.unmapped ht hrun (Bool.not_eq_true _ ▸ huser) hfound hremove))

theorem setregionperms_follows (h : s.setregionperms p address perm = .ok s') :
    Follows s (.setregionperms p address perm) s' := by
  obtain ⟨t, ht, hrun, h⟩ := find_bind h
  split at h
  · exact of_ok h .refl
  next huser =>
  split at h
  · exact of_ok h .refl
  next rgn hfound =>
  unfold MemoryManager.protectRegionAtAddress at h
  rw [hfound] at h
  exact of_ok h (.store (.reprotected ht hrun (Bool.not_eq_true _ ▸ huser) hfound))

/-- The bytes that an access stores are not in the tables. -/
theorem accessMemory_follows {vaddr : Nat} {write : Bool} {file : FileRead}
    {effect : Vm → Vm} (heffect : ∀ vm, (effect vm).table = vm.table)
    (h : s.accessMemory p vaddr write file effect = .ok s')
    (halive : ∀ t vm, s.tasks p = some t → t.status = .running →
      userAccess t.mm (s.view t) vaddr write file = .ok (true, vm) →
      Becomes s a p { t with table := vm.table }) :
    Follows s a s' := by
  obtain ⟨t, ht, hrun, h⟩ := find_bind h
  split at h
  · split at h
    · cases h
    · exact of_ok h .refl
  obtain ⟨⟨alive, vm⟩, haccess, h⟩ := ok_bind h
  refine .proceed h ?_
  intro hyes
  subst hyes
  rw [if_pos rfl, heffect]
  exact halive t vm ht hrun haccess

/-- **Every step** leaves all processes as they were, but for one that becomes
something it may become. -/
theorem step_follows (h : step a s = .ok s') : Follows s a s' := by
  cases a with
  | spawn p => exact spawn_follows h
  | load p image => exact load_follows h
  | clone p child => exact clone_follows h
  | cloneStart p =>
    obtain ⟨t, ht, hstatus, h⟩ := find_bind h
    exact of_ok h (.store (Becomes.cloneStarted (t := t) ht hstatus rfl))
  | mapregion p size perm => exact mapregion_follows h
  | mmap p size => exact mmap_follows h
  | unmapregion p address => exact unmapregion_follows h
  | setregionperms p address perm => exact setregionperms_follows h
  | read p vaddr file =>
    have heffect : ∀ vm : Vm, (id vm).table = vm.table := fun _ => rfl
    exact accessMemory_follows heffect h (fun _ _ ht hrun haccess => .read ht hrun haccess)
  | write p vaddr byte file =>
    have heffect : ∀ vm : Vm, (storeByte vaddr byte vm).table = vm.table := fun _ => rfl
    exact accessMemory_follows heffect h (fun _ _ ht hrun haccess => .written ht hrun haccess)
  | exit p =>
    obtain ⟨t, _, h⟩ := ok_bind h
    exact .exitTask h rfl (fun _ _ _ => id)
  | delete p =>
    obtain ⟨t, _, h⟩ := ok_bind h
    obtain ⟨pmm, _, h⟩ := ok_bind h
    obtain ⟨vm₁, _, h⟩ := ok_bind h
    obtain ⟨vm₂, _, h⟩ := ok_bind h
    obtain ⟨vm₃, _, h⟩ := ok_bind h
    exact of_ok h (.setTask rfl (fun _ _ _ => Or.inl) nofun)

/-- The rule for properties of single processes: what becomes of a process
that had the property has it again. -/
theorem each_of_reach {s₀ : System} {T : Task → Prop}
    {ok : System → MemAction → Prop} (hb : s₀.Booted)
    (hstep : ∀ s a q u, (∀ p t, s.tasks p = some t → T t) → ok s a → Becomes s a q u → T u)
    (h : (memSystem s₀).Reach ok s) :
    ∀ p t, s.tasks p = some t → T t := by
  refine Machine.Reach.invariant (I := fun s => ∀ p t, s.tasks p = some t → T t) ?_ ?_ h
  · intro s hs p t ht
    have hs : s = s₀ := hs
    rw [hs, hb.none p] at ht
    cases ht
  intro s s' a hs hok hs' q u hu
  rcases (step_follows hs').tasks q u hu with hu | hu
  · exact hs q u hu
  · exact hstep s a q u hs hok hu

end System

end Puppy.Mm
