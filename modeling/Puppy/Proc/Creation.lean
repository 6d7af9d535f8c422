/-
Making a process, with its memory (src/process/manager.cpp: exec,
cloneProcess and spawn; src/mm/virt.cpp: createAddressSpace and
cloneAddressSpace).

The process manager and the memory managers have models of their own
(Puppy.Proc.Manager, Puppy.Mm.System). Here they meet: a process is made by
`spawn`, out of an address space that the caller of `spawn` has already
built. `exec` builds an empty one, `cloneProcess` a copy of the caller's,
and both do so while they fill in the `spawninfo_t`. Only then does `spawn`
look at the priorities, and it answers with no process if they are more
than the caller may give. The address space is not given back then, and
neither is what `cloneAddressSpace` has done to the caller's own pages.

The arguments, the environment and the open files of the new process are
left out.
-/
import Puppy.Proc.Priority
import Puppy.Mm.System

namespace Puppy.Proc

open Libc Lib Mm

/-- The processes, and the memory of each by its pid. -/
structure Creator where
  procs : State
  mem : Mm.System

/-- What a process may ask for. -/
inductive Request where
  | exec (inheritsSystem : Bool) (prio : ExecPriority)
  | clone
  deriving DecidableEq, Repr

namespace Request

/-- The priorities that the new process begins with. -/
def prio (k : Process) : Request → ExecPriority
  | .exec _ prio => prio
  | .clone => ⟨k.quantum.current, k.scheduling.current⟩

end Request

namespace Creator

/-- `spawn`, by the process `parent` that runs, into an address space. -/
def spawn (c : Creator) (parent : Ptr) (si : State.SpawnInfo) (status : Status)
    (space : AddressSpace) (table : Nat → TableEntry) (mm : MemoryManager) :
    Except Panic (Option Ptr × Creator) := do
  let k ← c.procs.deref parent
  if State.excessive k si then .ok (none, c)
  else
    let (pid, _) ← c.procs.gPidBitmap.next
    let mem ← c.mem.addTask pid status space table mm
    let t ← mem.find pid status
    let procs ← c.procs.spawn parent t.proc si
    .ok (some t.proc, ⟨procs, mem⟩)

def exec (c : Creator) (parent : Ptr) (inheritsSystem : Bool)
    (prio : ExecPriority) : Except Panic (Option Ptr × Creator) := do
  let k ← c.procs.deref parent
  let (space, pmm) ← createAddressSpace c.mem.pmm
  spawn { c with mem := { c.mem with pmm := pmm } } parent
    (State.execInfo k inheritsSystem prio) .created space (fun _ => {})
    MemoryManager.init

def cloneProcess (c : Creator) (parent : Ptr) : Except Panic (Option Ptr × Creator) := do
  let k ← c.procs.deref parent
  let t ← c.mem.find k.pid .running
  let (space, table, vm) ← cloneAddressSpace (c.mem.view t)
  spawn { c with mem := c.mem.store k.pid t t.mm vm } parent
    (State.cloneInfo k) .cloned space table t.mm

def create (c : Creator) (parent : Ptr) : Request → Except Panic (Option Ptr × Creator)
  | .exec inheritsSystem prio => c.exec parent inheritsSystem prio
  | .clone => c.cloneProcess parent

-- ==== what a call leaves

def getfreepages (c : Creator) : Nat := c.mem.pmm.mFreePages

/-- The page table entries that a process runs with. -/
def entries (c : Creator) (pid : Pid) : Option (Nat → TableEntry) :=
  (c.mem.tasks pid).map fun t => (c.mem.view t).table

/-- The caller finds everything as it was. -/
structure Unaffected (c c' : Creator) (parent : Ptr) (pid : Pid) :
    Prop where
  free : c'.getfreepages = c.getfreepages
  entries : c'.entries pid = c.entries pid
  table : c'.procs.gProcessTable = c.procs.gProcessTable
  children : (c'.procs.procs parent).map Process.children =
    (c.procs.procs parent).map Process.children

/-- The process may give the priorities that are asked for. -/
def Permitted (k : Process) (r : Request) : Prop :=
  k.system = true ∨ (r.prio k).quantum ≤ k.quantum.max ∧ (r.prio k).scheduling ≤ k.scheduling.max

/-- What a request that is refused has done to the caller's memory: `exec`
has taken the pages of an address space, and `cloneProcess` has also made
the caller's writable pages read-only, to be copied. -/
def Spent (c c' : Creator) (pid : Pid) : Request → Prop
  | .exec _ _ => c'.getfreepages = sub32 c.getfreepages 771 ∧ c'.entries pid = c.entries pid
  | .clone => c'.getfreepages ≠ c.getfreepages ∧ ∃ table table', c.entries pid = some table ∧
        c'.entries pid = some table' ∧
        ∀ i < gNumUserPages, (table i).present = true → table' i = (table i).shared

end Creator

end Puppy.Proc
