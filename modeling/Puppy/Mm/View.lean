/-
The memory of a process as the process sees it: bytes at addresses.

A page that has no memory is full of zeros as far as the process can tell,
because that is what it gets when it touches the page. So the view does not
change when a page is mapped, only when something is stored.
-/
import Puppy.Mm.LoadElf

namespace Puppy.Mm

/-- The byte at an address. -/
def Vm.view (vm : Vm) (a : Nat) : UInt8 :=
  if (vm.entry a).present then
    vm.memory (index (vm.entry a).page) (offset a)
  else 0

/-- No two pages of the process share memory, and none has memory that may
be given away. -/
structure Separate (vm : Vm) : Prop where
  apart : ∀ i j, i < gNumUserPages → j < gNumUserPages →
    (vm.table i).present = true → (vm.table j).present = true →
    index (vm.table i).page = index (vm.table j).page → i = j
  held : ∀ i < gNumUserPages, (vm.table i).present = true →
    (vm.pmm.mPages (index (vm.table i).page)).available = false

/-- From `vm` to `vm'`, some bytes have been stored, and only pages of a
set have been mapped or changed. -/
structure Stores (pages : Nat → Prop) (bytes : Nat → Option UInt8)
    (vm vm' : Vm) : Prop where
  separate : Separate vm'
  view : ∀ a < gKernelBase, vm'.view a = (bytes a).getD (vm.view a)
  elsewhere : ∀ i, ¬ pages i → vm'.table i = vm.table i
  present : ∀ i, (vm.table i).present = true → (vm'.table i).present = true

/-- So many bytes from an address on. -/
def span (lo count : Nat) (content : Nat → UInt8) (a : Nat) : Option UInt8 :=
  if lo ≤ a ∧ a < lo + count then some (content (a - lo)) else none

end Puppy.Mm
