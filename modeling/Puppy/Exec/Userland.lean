/-
Arguments and environment (copyStringArrayToUserland in
src/process/loadelf.cpp).

The strings are copied to the process into one region: first a table of
pointers, then the strings, one behind the other. The sizes are added up in
a pass of their own before. The null pointer that ends the table is never
written: the region is meant to be zero.

`Puppy.Mm.LoadElf` has the same function without the bytes.
-/
import Puppy.Exec.Elf
import Puppy.Libc.KeyedStore

namespace Puppy.Exec

open Libc Lib Mm PageFault

def arraySize (array : List CString) : Strings where
  num_vars := array.length
  payload_size := (array.map List.length).sum

/-- `total_chunk_size`. -/
def totalChunkSize (array : List CString) : Nat :=
  Loading.stringsSize (arraySize array)

/-- What the loop over the strings stores, in its order: a pointer, and the
string with its terminator. -/
def stringStores (dest_environ dest_payloads : Nat) : List CString → List (Nat × UInt8)
  | [] => []
  | s :: rest =>
    Bytes.storesAt dest_environ (leBytes 4 dest_payloads) ++
      (Bytes.storesAt dest_payloads (s ++ [0]) ++
        stringStores (dest_environ + 4) (dest_payloads + s.length + 1) rest)

/-- The kernel stores bytes in the memory of the process; whether the process
survives that. -/
def writeBytes (l : Loading) : List (Nat × UInt8) → Except Panic (Bool × Loading)
  | [] => .ok (true, l)
  | w :: rest =>
    match kernelTouch l.mm l.vm w.1 with
    | .error e => .error e
    | .ok (false, vm) => .ok (false, ⟨l.mm, vm⟩)
    | .ok (true, vm) => writeBytes ⟨l.mm, Loading.copyIn vm w.1 1 fun _ => w.2⟩ rest

/-- `dest_payloads`, at first. -/
def payloadStart (dest_environ : Nat) (array : List CString) : Nat :=
  dest_environ + 4 * (array.length + 1)

/-- `copyStringArrayToUserland`: the address of the table, unless the
process has ended. -/
def copyStringArrayToUserland (l : Loading) (srcArray : List CString) :
    Except Panic (Option (Nat × Loading)) :=
  match l.mm.findAndMapRegion l.vm (totalChunkSize srcArray)
      { clear := true, rw := true, user := true } with
  | .error e => .error e
  | .ok none => finish l 0
  | .ok (some (rgn, mm, vm)) => finish ⟨mm, vm⟩ rgn.frm
where
  finish (l : Loading) (dest_environ : Nat) : Except Panic (Option (Nat × Loading)) :=
    match writeBytes l (stringStores dest_environ
        (payloadStart dest_environ srcArray) srcArray) with
    | .error e => .error e
    | .ok (false, _) => .ok none
    | .ok (true, l) => .ok (some (dest_environ, l))

-- ==== what is asked of it

/-- Reading a table of pointers up to the null pointer, and the strings they
point to. -/
inductive Reads (mem : Nat → UInt8) : Nat → List CString → Prop
  | null {addr} : Bytes.word mem addr 4 = 0 → Reads mem addr []
  | next {addr s rest} : Bytes.word mem addr 4 ≠ 0 →
      Bytes.spells mem (Bytes.word mem addr 4) s = true →
      Reads mem (addr + 4) rest → Reads mem addr (s :: rest)

/-- The pointer with this number. -/
def pointer (mem : Nat → UInt8) (dest i : Nat) : Nat :=
  Bytes.word mem (dest + 4 * i) 4

/-- The size before it is cut off to 32 bits. -/
def chunkSize (array : List CString) : Nat :=
  4 * array.length + (array.map List.length).sum + array.length + 4

/-- The strings have arrived: every store is in the region and together with
the null pointer they take the bytes that were asked for, the table reads
back as the strings, and no string shares a byte with another one or with
the table. -/
structure Delivered (array : List CString) (rgn : Region) (mem : Nat → UInt8) :
    Prop where
  inside : ∀ w ∈ stringStores rgn.frm (payloadStart rgn.frm array) array,
    rgn.frm ≤ w.1 ∧ w.1 ≤ rgn.upto
  exact : ∀ x, (rgn.frm ≤ x ∧ x < rgn.frm + totalChunkSize array) ↔
    (∃ w ∈ stringStores rgn.frm (payloadStart rgn.frm array) array, w.1 = x) ∨
      (rgn.frm + 4 * array.length ≤ x ∧ x < rgn.frm + 4 * array.length + 4)
  reads : Reads mem rgn.frm array
  behind : ∀ i < array.length, rgn.frm + 4 * (array.length + 1) ≤ pointer mem rgn.frm i
  apart : ∀ i j s, i < j → j < array.length → array[i]? = some s →
    pointer mem rgn.frm i + s.length < pointer mem rgn.frm j

/-- The process gets its strings. -/
def Arrives (l : Loading) (array : List CString) (rgn : Region) : Prop :=
  ∃ l', copyStringArrayToUserland l array = .ok (some (rgn.frm, l')) ∧
    Delivered array rgn l'.vm.view

/-- Where the strings go, nothing is in the way: what is mapped already can
be written to, and is zero where the null pointer is to be. -/
structure Clear (l : Loading) (array : List CString) (rgn : Region) : Prop where
  writable : ∀ w ∈ stringStores rgn.frm (payloadStart rgn.frm array) array,
    (l.vm.entry w.1).present = true → (l.vm.entry w.1).rw = true
  null : ∀ k < 4, l.vm.view (rgn.frm + 4 * array.length + k) = 0

/-- A region of whole pages below the kernel that is as large as it has to
be. -/
structure Fitting (array : List CString) (rgn : Region) : Prop where
  aligned : rgn.frm % gPageSize = 0
  exact : rgn.upto + 1 = rgn.frm + toPage (totalChunkSize array)
  user : rgn.upto < gKernelBase

end Puppy.Exec
