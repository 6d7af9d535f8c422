/-
What a user access comes to, and what a clone is for.

From where the process stands, an access to memory either gives it the byte
at the address or ends it; the faults in between it does not notice. A
clone should have the same memory in this sense, although almost nothing in
its page tables is the same: pages that were there are shared and wait to
be copied, and pages that were not are left out and have to come from the
list of regions.
-/
import Puppy.Mm.Accounts
import Puppy.Mm.View

namespace Puppy.Mm

open PageFault

/-- The byte that is there when the access goes through, or nothing when
the process is killed for it. -/
def outcome (mm : MemoryManager) (vm : Vm) (vaddr : Nat) (write : Bool)
    (file : FileRead) : Except Panic (Option UInt8) :=
  match userAccess mm vm vaddr write file with
  | .error e => .error e
  | .ok (false, _) => .ok none
  | .ok (true, vm) => .ok (some (vm.view vaddr))

namespace System

/-- What an access comes to for one process. -/
def outcome (s : System) (t : Task) (vaddr : Nat) (write : Bool)
    (file : FileRead) : Except Panic (Option UInt8) :=
  Mm.outcome t.mm (s.view t) vaddr write file

/-- Every access of one process to its own half comes to the same as that
of the other. -/
def Alike (s : System) (t : Task) (s' : System) (t' : Task) : Prop :=
  ∀ vaddr < gKernelBase, ∀ write file, s.outcome t vaddr write file = s'.outcome t' vaddr write file

/-- A clone that leaves some memory free gives the child the memory of its
parent, and leaves it to the parent. -/
def Duplicates (s : System) (p q : Nat) : Prop :=
  ∀ s' t t' u, step (.clone p q) s = .ok s' → s'.pmm.alloc ≠ none →
    s.tasks p = some t → s'.tasks p = some t' → s'.tasks q = some u →
    s.Alike t s' u ∧ s.Alike t s' t'

end System

end Puppy.Mm
