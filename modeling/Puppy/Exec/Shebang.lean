/-
Scripts (src/process/shebang.cpp) and the loader that finds them
(load_binary in src/process/fileloader.cpp).

A file that begins with `#!/` names the program that is to run it, and
perhaps one argument, in its first line. `shebang_do_load` copies both into
buffers on its stack, puts them in front of the arguments of the process
and calls `load_binary` for the program, which may be a script again. The
stack of the loader is a single page.

# What is modelled

A filesystem is what opening, measuring and reading the file at a path
gives. Each load holds a buffer for its file until it returns; whether the
memory manager has room for one more is a parameter, and so is the part of
a stack frame that the compiler decides on. An ELF file ends the recursion:
what is done with it stands in `Puppy.Mm.LoadElf`.

A buffer is mapped in whole pages, zero after the end of the file, and the
page behind it is not mapped. `strchr` stops at a zero or at the end of
what is mapped.
-/
import Puppy.Exec.Elf
import Puppy.Lib.Except
import Puppy.Libc.KeyedStore

namespace Puppy.Exec

open Libc Lib

/-- `sizeof(path_name_t)`. -/
def pathNameSize : Nat := 256

-- ==== the first line

/-- Where `strchr` finds a character. -/
inductive Search where
  | found (i : Nat)
  | nowhere
  /-- It has read behind the buffer. -/
  | unmapped
  deriving DecidableEq, Repr

/-- One character later. -/
def Search.next : Search → Search
  | .found i => .found (i + 1)
  | .nowhere => .nowhere
  | .unmapped => .unmapped

/-- `strchr`, for a character other than zero. -/
def strchr (c : UInt8) : List UInt8 → Search
  | [] => .unmapped
  | b :: rest =>
    if b = c then .found 0
    else if b = 0 then .nowhere
    else (strchr c rest).next

/-- ' ' -/
def space : UInt8 := 0x20

/-- '\n' -/
def newline : UInt8 := 0x0A

/-- What the first line of a script asks for. -/
structure Bangspec where
  interp : CString
  arg : CString
  deriving DecidableEq, Repr

/-- What `shebang_do_load` makes of a text. -/
inductive FirstLine where
  | spec (s : Bangspec)
  /-- "cannot find newline; won't process shebang" -/
  | noNewline
  /-- The search for a character has ended in a page fault. -/
  | fault
  deriving DecidableEq, Repr

/-- The first line, from behind the `#!`. The argument is everything after
the first space. -/
def firstLine (bangspec : List UInt8) : FirstLine :=
  match strchr space bangspec, strchr newline bangspec with
  | .unmapped, _ => .fault
  | _, .unmapped => .fault
  | _, .nowhere => .noNewline
  | .nowhere, .found nl => .spec ⟨bangspec.take nl, []⟩
  | .found sp, .found nl =>
    if sp < nl then
      .spec ⟨bangspec.take sp, (bangspec.drop (sp + 1)).take (nl - (sp + 1))⟩
    else .spec ⟨bangspec.take nl, []⟩

/-- `shebang_can_load`. -/
def shebangCanLoad (txt : Nat → UInt8) : Bool :=
  txt 0 == 0x23 && txt 1 == 0x21 && txt 2 == 0x2F

-- ==== the arguments

/-- What the loader reads and changes of `gCurrentProcess`. -/
structure Launch where
  path : CString
  args : Option (List CString)
  deriving DecidableEq, Repr

/-- `memcpy` into a `path_name_t`. Without room for a terminator, whoever
uses the string reads behind the buffer. -/
def copyPath (bytes : CString) : Except Panic CString :=
  if bytes.length < pathNameSize then .ok bytes else .error .outOfBounds

/-- A store into an array of strings. -/
def store (array : List (Option CString)) (i : Nat) (value : CString) :
    Except Panic (List (Option CString)) :=
  if i < array.length then .ok (array.set i (some value))
  else .error .outOfBounds

/-- A loop of stores, from an index on. -/
def storeFrom (array : List (Option CString)) (i : Nat) :
    List CString → Except Panic (List (Option CString))
  | [] => .ok array
  | value :: rest => do
    let array ← store array i value
    storeFrom array (i + 1) rest

namespace Launch

/-- The strings of `args`, which may be null. -/
def argv (p : Launch) : List CString := p.args.getD []

/-- The argument goes behind the interpreter, if there is one. Returns
`arg_offset`. -/
def storeArg (array : List (Option CString)) (arg : CString) :
    Except Panic (List (Option CString) × Nat) :=
  if arg = [] then .ok (array, 1)
  else do
    let array ← store array 1 arg
    .ok (array, 2)

/-- `newArgs`, as `shebang_do_load` fills it. -/
def newArgs (p : Launch) (s : Bangspec) : Except Panic (List (Option CString)) := do
  let array ← store (List.replicate (p.argv.length + 3) none) 0 s.interp
  let (array, arg_offset) ← storeArg array s.arg
  let array ← store array arg_offset p.path
  storeFrom array (arg_offset + 1) (p.argv.drop 1)

/-- The strings of an array up to the null pointer. -/
def strings : List (Option CString) → Except Panic (List CString)
  | [] => .error .outOfBounds
  | none :: _ => .ok []
  | some value :: rest => do
    let values ← strings rest
    .ok (value :: values)

def copyArguments (p : Launch) (srcArgs : List (Option CString)) : Except Panic Launch := do
  let args ← strings srcArgs
  .ok { p with args := some args }

/-- `shebang_do_load`, up to the call of `load_binary`. -/
def shebang (p : Launch) (s : Bangspec) : Except Panic Launch := do
  let interp ← copyPath s.interp
  let arg ← copyPath s.arg
  let array ← p.newArgs ⟨interp, arg⟩
  p.copyArguments array

end Launch

-- ==== load_binary

/-- How a process ends in the loader. -/
inductive LoadError where
  | noSuchFile
  | malformedFile
  | pageFault
  deriving DecidableEq, Repr

/-- What comes of a load. -/
inductive Loaded where
  /-- `elf_do_load` takes over. -/
  | elf (file : List UInt8)
  /-- An address of zero is returned, and `fileloader` ends the process. -/
  | invalid
  | ended (why : LoadError)
  deriving DecidableEq, Repr

/-- The filesystem: what the file at a path is. -/
abbrev Disk := CString → Option (List UInt8)

/-- Whether there is a buffer for a file, next to those held. -/
abbrev Grants := List Nat → Nat → Bool

/-- What `load_binary` finds at a path. -/
inductive Found where
  | script (size : Nat) (line : FirstLine)
  | other (result : Loaded)
  deriving DecidableEq, Repr

/-- `load_binary`, up to the call of the loader for the format. -/
def inspect (disk : Disk) (grants : Grants) (held : List Nat) (path : CString) : Found :=
  match disk path with
  | none => .other (.ended .noSuchFile)
  | some file =>
    if file.length = 0 then .other (.ended .malformedFile)
    else if !grants held file.length then .other (.ended .pageFault)
    else if elfCanLoad (byteAt file) then .other (.elf file)
    else if shebangCanLoad (byteAt file) then
      .script file.length (firstLine ((padded file).drop 2))
    else .other (.ended .malformedFile)

/-- What a nested load takes of the stack: the two paths, and the rest of
the frames of `load_binary` and `shebang_do_load`. -/
def frameSize (locals : Nat) : Nat := 2 * pathNameSize + locals

/-- `load_binary`, with `room` bytes left on the stack of the kernel. -/
def loadBinary (disk : Disk) (grants : Grants) (locals room : Nat)
    (held : List Nat) (p : Launch) (path : CString) :
    Except Panic (Loaded × Launch) :=
  match inspect disk grants held path with
  | .other result => .ok (result, p)
  | .script size line =>
    if _ : room < frameSize locals then .error .outOfBounds
    else
      match line with
      | .fault => .ok (.ended .pageFault, p)
      | .noNewline => .ok (.invalid, p)
      | .spec s => do
        let p ← p.shebang s
        loadBinary disk grants locals (room - frameSize locals) (size :: held) p s.interp
termination_by room
decreasing_by
  have hframe : 0 < frameSize locals := lt_of_lt_of_le (by decide)
    (Nat.le_add_right (2 * pathNameSize) locals)
  omega

-- ==== what is asked of it

/-- The arguments of the interpreter. -/
def Launch.expanded (p : Launch) (s : Bangspec) : List CString :=
  s.interp :: ((if s.arg = [] then [] else [s.arg]) ++ p.path :: p.argv.drop 1)

/-- The paths of a first line fit into their buffers. -/
def Bangspec.Fits (s : Bangspec) : Prop :=
  s.interp.length < pathNameSize ∧ s.arg.length < pathNameSize

instance (s : Bangspec) : Decidable s.Fits :=
  inferInstanceAs (Decidable (_ ∧ _))

/-- The array for the arguments has a place left for the null pointer. -/
def Launch.Roomy (p : Launch) (s : Bangspec) : Prop :=
  s.arg = [] ∨ p.argv ≠ []

instance (p : Launch) (s : Bangspec) : Decidable (p.Roomy s) :=
  inferInstanceAs (Decidable (_ ∨ _))

/-- What may follow the interpreter in a first line. -/
def argument : Option CString → List UInt8
  | none => []
  | some arg => space :: arg

/-- The loader builds this list for the program in the first line: all of
it, in an array that ends with a null pointer. -/
def Launch.Builds (p : Launch) (bangspec : List UInt8) (expected : List CString) : Prop :=
  ∃ s array, firstLine bangspec = .spec s ∧ s.Fits ∧ p.newArgs s = .ok array ∧
    (∃ more, array = expected.map some ++ none :: more) ∧
    p.shebang s = .ok { p with args := some expected }

/-- The scripts that name one another, from the one at a path on, are so
many, and all of them are in order. -/
inductive Nests (disk : Disk) (grants : Grants) :
    List Nat → Launch → CString → Nat → Prop
  | other {held p path result} : inspect disk grants held path = .other result →
      Nests disk grants held p path 0
  | broken {held p path size line} : inspect disk grants held path = .script size line →
      (∀ s, line ≠ .spec s) → Nests disk grants held p path 1
  | script {held p path size s n} : inspect disk grants held path = .script size (.spec s) →
      s.Fits → p.Roomy s →
      Nests disk grants (size :: held) { p with args := some (p.expanded s) } s.interp n →
      Nests disk grants held p path (n + 1)

end Puppy.Exec
