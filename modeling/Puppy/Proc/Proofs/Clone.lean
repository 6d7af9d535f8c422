/-
What `clone` does to the arguments.

Everything but the arguments goes from the old process to the new one. The
arguments go the other way: the old process gets a copy of those of the new
one, which has none. So the two lists are equal afterwards in any case, and
they are what the old process had only if the new one had the same before.
-/
import Puppy.Proc.Clone

namespace Puppy.Proc

namespace ProcessRecord

variable {self other : ProcessRecord} {fpu : List UInt8}

/-- The old process has the arguments of the new one. -/
theorem clone_self : (self.clone other fpu).1 =
      { self with args := some other.argv, fpstate := fpu } := rfl

/-- The new process keeps its own. -/
theorem clone_other : (self.clone other fpu).2 =
      { other with
        tss := self.tss
        cr0 := self.cr0
        path := self.path
        cwd := self.cwd
        environ := none
        state := .new
        mmap := self.mmap
        quantum := self.quantum
        scheduling := self.scheduling
        usedticks := 0
        fpstate := fpu
        system := self.system
        memstats := { other.memstats with allocated := 0, pagefaults := 0 }
        iostats := {}
        runtimestats := { other.runtimestats with runtime := 0 }
        sleeptill := 0 } := rfl

theorem clone_argv : (self.clone other fpu).1.argv = other.argv ∧
    (self.clone other fpu).2.argv = other.argv := ⟨rfl, rfl⟩

theorem clonesCleanly_of_argv (h : other.argv = self.argv) : self.ClonesCleanly other fpu := by
  obtain ⟨hself, hother⟩ := @clone_argv self other fpu
  refine ⟨⟨hself.trans h, ?_, ?_, ?_, ?_⟩, ⟨hother.trans h, ?_, ?_, ?_⟩⟩
  all_goals first | rw [clone_self] | rw [clone_other]

theorem argv_of_clonesCleanly (h : self.ClonesCleanly other fpu) : other.argv = self.argv := by
  rw [← h.2.argv]
  exact clone_argv.2.symm

/-- `clone` is clean exactly if the new process has the arguments of the
old one to begin with. -/
theorem clonesCleanly_iff : self.ClonesCleanly other fpu ↔ other.argv = self.argv :=
  ⟨argv_of_clonesCleanly, clonesCleanly_of_argv⟩

/-- A process without arguments, and the copy of it. -/
theorem clonesCleanly_iff_none :
    ClonesCleanly { path := some [0x69], quantum := ⟨128, 10⟩ } {} [] :=
  clonesCleanly_iff.2 rfl

/-- A process with one argument loses it, and the copy does not have it
either. -/
theorem clone_loses_argument : (clone { args := some [[0x6C, 0x73]] } {} []).1.argv = [] ∧
    (clone { args := some [[0x6C, 0x73]] } {} []).2.argv = [] ∧
    ¬ ClonesCleanly { args := some [[0x6C, 0x73]] } {} [] := by
  refine ⟨rfl, rfl, fun h => ?_⟩
  have hargv := argv_of_clonesCleanly h
  cases hargv

end ProcessRecord

end Puppy.Proc
