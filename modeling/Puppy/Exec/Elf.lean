/-
Executable files (include/process/elf.h, src/process/loadelf.cpp), from the
buffer that `load_binary` has read them into.

`Puppy.Mm.LoadElf` takes the headers and the bytes of a file as given. Here
they are read from the buffer, which is memory of the process like the
segments are: a segment that is copied over the buffer changes what is read
next. An access behind the buffer is out of bounds.

Offsets are 32-bit numbers in the file, and the source adds them to the
address of the buffer without looking at a carry. A sum that wraps lies in
front of the buffer, and one that the model does not wrap behind it, so
both are out of bounds.
-/
import Puppy.Lib.Bytes
import Puppy.Mm.View

namespace Puppy.Exec

open Libc Lib Mm

-- ==== files

/-- The bytes of a buffer: those of the file, and zeros in the rest of the
last page. -/
def padded (file : List UInt8) : List UInt8 :=
  file ++ List.replicate ((gPageSize - file.length % gPageSize) % gPageSize) 0

/-- A byte of the first page of a buffer. -/
def byteAt (file : List UInt8) (offset : Nat) : UInt8 := file.getD offset 0

-- ==== headers

/-- The values of `type` that are used. -/
def exec : Nat := 2

def dyn : Nat := 3

def sanitycheck (header : Nat → UInt8) : Bool :=
  decide (Bytes.word header 0 4 = 0x464C457F) &&
  decide (Bytes.word header 4 1 = 1) &&
  decide (Bytes.word header 5 1 = 1) &&
  decide (Bytes.word header 6 1 = 1) &&
  (decide (Bytes.word header 16 2 = exec) || decide (Bytes.word header 16 2 = dyn)) &&
  decide (Bytes.word header 18 2 = 3)

/-- `elf_can_load`. -/
def elfCanLoad (load0 : Nat → UInt8) : Bool := sanitycheck load0

/-- `elf_program_t`. -/
structure ProgramHeader where
  type : Nat
  offset : Nat
  vaddr : Nat
  filesz : Nat
  memsz : Nat
  flags : Nat
  align : Nat
  deriving DecidableEq, Repr

namespace ProgramHeader

def loadable (h : ProgramHeader) : Bool := decide (h.type = 1)

def writable (h : ProgramHeader) : Bool := decide (h.flags &&& 2 = 2)

/-- The segment, with its bytes. -/
def program (h : ProgramHeader) (content : Nat → UInt8) : Program where
  loadable := h.loadable
  vaddr := h.vaddr
  memsz := h.memsz
  filesz := h.filesz
  align := h.align
  writable := h.writable
  content := content

end ProgramHeader

/-- The header at an address. -/
def ProgramHeader.decode (mem : Nat → UInt8) (addr : Nat) : ProgramHeader where
  type := Bytes.word mem addr 4
  offset := Bytes.word mem (addr + 4) 4
  vaddr := Bytes.word mem (addr + 8) 4
  filesz := Bytes.word mem (addr + 16) 4
  memsz := Bytes.word mem (addr + 20) 4
  flags := Bytes.word mem (addr + 24) 4
  align := Bytes.word mem (addr + 28) 4

/-- The fields of `elf_header_t` that the loader uses, for a header at an
address. -/
def elfType (mem : Nat → UInt8) (header : Nat) : Nat :=
  Bytes.word mem (header + 16) 2

def elfEntry (mem : Nat → UInt8) (header : Nat) : Nat :=
  Bytes.word mem (header + 24) 4

def elfPhoff (mem : Nat → UInt8) (header : Nat) : Nat :=
  Bytes.word mem (header + 28) 4

def elfPhnum (mem : Nat → UInt8) (header : Nat) : Nat :=
  Bytes.word mem (header + 44) 2

/-- `program`. -/
def elfProgram (mem : Nat → UInt8) (header i : Nat) : ProgramHeader :=
  .decode mem (header + elfPhoff mem header + 32 * i)

-- ==== load_elf_image

/-- The buffer of a file. -/
structure Buffer where
  load0 : Nat
  size : Nat
  deriving DecidableEq, Repr

/-- So many bytes at an address are in the buffer. -/
def Buffer.holds (b : Buffer) (addr count : Nat) : Bool :=
  decide (b.load0 ≤ addr ∧ addr + count ≤ b.load0 + b.size)

/-- The loop over the pages of one segment. -/
def copySegment (b : Buffer) (writable : Bool) (mapopts : MapOptions)
    (len flen src vaddr : Nat) (vm : Vm) : Except Panic (Bool × Vm) :=
  if _ : len = 0 then .ok (true, vm)
  else
    let vaddr_Page := page vaddr
    let residualPage := gPageSize - (vaddr - vaddr_Page)
    if iskernel vaddr_Page then .ok (false, vm)
    else
      match vm.mapAnyPhysicalPage vaddr_Page { mapopts with rw := true } with
      | .error e => .error e
      | .ok vm =>
        let chunk := min len residualPage
        let copied := min chunk flen
        -- a page that another segment has protected: the process is killed at the first byte
        if 0 < copied ∧ (vm.entry vaddr).rw = false then
          .error (if b.holds src 1 then .writeProtected else .outOfBounds)
        else if 0 < copied ∧ b.holds src copied = false then .error .outOfBounds
        else
          let vm :=
            if 0 < copied then
              Loading.copyIn vm vaddr copied fun o => vm.view (src + o)
            else vm
          let mapopts :=
            { (vm.entry vaddr).options mapopts with rw := writable }
          let vm := vm.newoptions vaddr mapopts
          copySegment b writable mapopts (len - chunk) (flen - copied)
            (src + chunk) (vaddr + chunk) vm
termination_by len
decreasing_by
  have hmod : vaddr % gPageSize < gPageSize := Nat.mod_lt _ (by decide)
  have hpage : vaddr - vaddr_Page ≤ vaddr % gPageSize := by
    show vaddr - (vaddr - vaddr % gPageSize) ≤ vaddr % gPageSize
    omega
  have hres : 0 < residualPage := by
    omega
  have hchunk : 0 < min len residualPage := by omega
  omega

/-- One round of the loop of `load_elf_image`: what the header with this
number asks for. -/
def loadSegment (b : Buffer) (h : ProgramHeader) (l : Loading)
    (maxprogaddr : Nat) : Except Panic (Bool × Loading × Nat) :=
  match copySegment b h.writable { user := true, clear := true } h.memsz
      h.filesz (b.load0 + h.offset) h.vaddr l.vm with
  | .error e => .error e
  | .ok (false, vm) => .ok (false, ⟨l.mm, vm⟩, maxprogaddr)
  | .ok (true, vm) =>
    let p := h.program fun _ => 0
    let mm := l.mm.addUncheckedRegion h.vaddr
      (sub32 (Loading.segmentEnd p) 1)
    .ok (true, ⟨mm, vm⟩, Loading.maxAddr maxprogaddr p)

/-- The loop of `load_elf_image` from the header `i` on, with room for ten
segments on the stack. The number of headers has 16 bits, and so many rounds
are enough. -/
def loadHeaders (b : Buffer) : Nat → Nat → Nat → Loading → Nat → Except Panic (Bool × Loading × Nat)
  | 0, _, _, l, maxprogaddr => .ok (true, l, maxprogaddr)
  | rounds + 1, i, loaded_header_idx, l, maxprogaddr =>
    let mem := l.vm.view
    let h := elfProgram mem b.load0 i
    if elfPhnum mem b.load0 ≤ i then .ok (true, l, maxprogaddr)
    else if !b.holds (b.load0 + elfPhoff mem b.load0 + 32 * i) 32 then
      .error .outOfBounds
    else if !h.loadable then
      loadHeaders b rounds (i + 1) loaded_header_idx l maxprogaddr
    else if h.align ≠ gPageSize then .ok (false, l, maxprogaddr)
    else if 10 ≤ loaded_header_idx then .error .outOfBounds
    else
      match loadSegment b h l maxprogaddr with
      | .error e => .error e
      | .ok (false, l, maxprogaddr) => .ok (false, l, maxprogaddr)
      | .ok (true, l, maxprogaddr) =>
        loadHeaders b rounds (i + 1) (loaded_header_idx + 1) l maxprogaddr

/-- `load_elf_image`. -/
def loadElfImage (b : Buffer) (l : Loading) : Except Panic (Bool × Loading × Nat) :=
  if !b.holds b.load0 46 then .error .outOfBounds
  else loadHeaders b 0x10000 0 0 l (elfEntry l.vm.view b.load0)

/-- `load_main_binary`, up to the point where the file is not needed any
more. -/
def loadMainImage (b : Buffer) (l : Loading) : Except Panic (Bool × Loading × Nat) :=
  if !b.holds b.load0 20 then .error .outOfBounds
  else if !sanitycheck (fun i => l.vm.view (b.load0 + i)) then
    .ok (false, l, 0)
  -- `isDylib`
  else if elfType l.vm.view b.load0 = dyn then .ok (false, l, 0)
  else loadElfImage b l

-- ==== what is asked of it

/-- The headers of a file. -/
def programHeaders (file : List UInt8) : List ProgramHeader :=
  (List.range (elfPhnum (byteAt file) 0)).map (elfProgram (byteAt file) 0)

/-- The addresses of a segment. -/
def ProgramHeader.Covers (h : ProgramHeader) (a : Nat) : Prop :=
  h.vaddr ≤ a ∧ a < h.vaddr + h.memsz

/-- Two segments have no address in common. -/
def ProgramHeader.Apart (h h' : ProgramHeader) : Prop :=
  ∀ a, h.Covers a → ¬ h'.Covers a

/-- The loadable segments. -/
def segments (hs : List ProgramHeader) : List ProgramHeader :=
  hs.filter fun h => h.loadable

/-- No segment lies on the buffer of its file. -/
def Aside (load0 : Nat) (file : List UInt8) (hs : List ProgramHeader) : Prop :=
  ∀ h ∈ segments hs, ∀ i < file.length, ¬ h.Covers (load0 + i)

/-- An executable that is in order: its segments are below the kernel and
apart from each other, and what they take from the file is in the file,
whose buffer they do not touch. -/
structure InOrder (load0 : Nat) (file : List UInt8) (hs : List ProgramHeader) :
    Prop where
  aligned : ∀ h ∈ segments hs, h.align = gPageSize
  below : ∀ h ∈ segments hs, h.vaddr + h.memsz ≤ gKernelBase
  short : ∀ h ∈ segments hs, h.filesz ≤ h.memsz
  inside : ∀ h ∈ segments hs, h.offset + h.filesz ≤ file.length
  apart : (segments hs).Pairwise ProgramHeader.Apart
  aside : Aside load0 file hs

/-- The file is in its buffer, which is memory of the process. -/
structure InBuffer (file : List UInt8) (b : Buffer) (vm : Vm) : Prop where
  size : b.size = file.length
  below : b.load0 + b.size ≤ gKernelBase
  bytes : ∀ i < file.length, vm.view (b.load0 + i) = byteAt file i

/-- How much of a segment is copied: it stops where the kernel begins. -/
def ProgramHeader.copied (h : ProgramHeader) : Nat :=
  min (min h.filesz h.memsz) (gKernelBase - h.vaddr)

/-- What nobody checks, from the header `i` on, when so many segments have
been loaded: the header is in the file, it is not the eleventh, and what is
copied is in the file. It goes on with the next header unless this one is
refused. -/
def InFile (file : List UInt8) : Nat → Nat → List ProgramHeader → Prop
  | _, _, [] => True
  | i, loaded, h :: rest =>
    elfPhoff (byteAt file) 0 + 32 * i + 32 ≤ file.length ∧ if h.loadable then
        h.align = gPageSize → loaded < 10 ∧ (0 < h.copied → h.offset + h.copied ≤ file.length) ∧
          ((0 < h.memsz → h.vaddr + h.memsz ≤ gKernelBase) → InFile file (i + 1) (loaded + 1) rest)
      else InFile file (i + 1) loaded rest

/-- The same for a file. One that is not an executable is not looked at any
further. -/
def Checked (file : List UInt8) : Prop :=
  20 ≤ file.length ∧ (sanitycheck (byteAt file) = true → elfType (byteAt file) 0 ≠ dyn →
    46 ≤ file.length ∧ InFile file 0 0 (programHeaders file))

/-- A page that a segment is in. -/
def Touched (hs : List ProgramHeader) (i : Nat) : Prop :=
  ∃ h ∈ segments hs, ∃ a, h.Covers a ∧ pageNumber a = i

/-- The segments are where they belong, and nothing else has changed. -/
structure LoadedAs (file : List UInt8) (hs : List ProgramHeader) (vm vm' : Vm)
    (max_load_addr : Nat) : Prop where
  mapped : ∀ h ∈ segments hs, ∀ a, h.Covers a → (vm'.entry a).present = true
  copied : ∀ h ∈ segments hs, ∀ o, o < h.filesz →
    file[h.offset + o]? = some (vm'.view (h.vaddr + o))
  zero : ∀ h ∈ segments hs, ∀ o, h.filesz ≤ o → o < h.memsz → vm'.view (h.vaddr + o) = 0
  elsewhere : ∀ a < gKernelBase, ¬ Touched hs (pageNumber a) →
    vm'.entry a = vm.entry a ∧ vm'.view a = vm.view a
  highest : ∀ h ∈ segments hs, h.vaddr + h.memsz ≤ max_load_addr

/-- Nothing is where the zeros of a segment go. -/
def Vacant (vm : Vm) (hs : List ProgramHeader) : Prop :=
  ∀ h ∈ segments hs, ∀ o, h.filesz ≤ o → o < h.memsz → vm.view (h.vaddr + o) = 0

/-- No empty segment lies higher than everything else. -/
def NoneAbove (entry : Nat) (hs : List ProgramHeader) : Prop :=
  ∀ h ∈ segments hs, h.memsz = 0 → h.vaddr ≤ entry ∨
    ∃ h' ∈ segments hs, h'.memsz ≠ 0 ∧ h.vaddr ≤ h'.vaddr + h'.memsz

end Puppy.Exec
