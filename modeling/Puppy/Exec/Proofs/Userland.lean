/-
The strings of a process, byte by byte.

The loop writes two runs that do not meet: the table of pointers upwards
from the start of the region, and the strings upwards from behind it. So
after the loop both stand in memory as wholes (`holds_strings`), and reading
the table back is reading the two runs. What stands between them, the null
pointer, has not been written.
-/
import Puppy.Exec.Proofs.Elf
import Puppy.Exec.Userland
import Puppy.Mm.Proofs.PageZero

namespace Puppy.Exec

open Libc Lib Mm PageFault Bytes Function
open List hiding span

-- ==== sizes

/-- The strings with their terminators. -/
def payload (array : List CString) : List UInt8 :=
  array.flatMap fun s => s ++ [0]

/-- The table without the null pointer, for strings that start at `pay`. -/
def table (pay : Nat) : List CString → List UInt8
  | [] => []
  | s :: rest => leBytes 4 pay ++ table (pay + s.length + 1) rest

section Sizes

variable {array : List CString} {pay env : Nat}

@[simp]
theorem length_table : (table pay array).length = 4 * array.length := by
  induction array generalizing pay with
  | nil => rfl
  | cons s rest ih =>
    rw [table, length_append, length_leBytes, ih, length_cons]
    omega

theorem payload_cons (s : CString) (rest : List CString) :
    payload (s :: rest) = s ++ [0] ++ payload rest := flatMap_cons

@[simp]
theorem length_payload : (payload array).length = (array.map length).sum + array.length := by
  induction array with
  | nil => rfl
  | cons s rest ih =>
    rw [payload_cons, length_append, length_append, ih,
      map_cons, sum_cons, length_singleton, length_cons]
    omega

theorem chunkSize_eq : chunkSize array = 4 * (array.length + 1) + (payload array).length := by
  rw [length_payload]
  unfold chunkSize
  omega

theorem totalChunkSize_eq (h : chunkSize array < 0x100000000) :
    totalChunkSize array = chunkSize array := by
  unfold totalChunkSize Loading.stringsSize arraySize
  unfold chunkSize at h ⊢
  dsimp only
  rw [Nat.mod_eq_of_lt (by omega)]
  omega

-- ==== the stores

/-- The loop stores the table and the strings, each in its turn. -/
theorem stringStores_perm : (stringStores env pay array).Perm
    (storesAt env (table pay array) ++ storesAt pay (payload array)) := by
  induction array generalizing env pay with
  | nil => exact .nil
  | cons s rest ih =>
    unfold stringStores table
    rw [payload_cons, @storesAt_append env, @storesAt_append pay (s ++ [0]), length_leBytes,
      length_append, length_singleton, ← add_assoc pay, append_assoc]
    exact .append_left _ ((ih.append_left _).trans (perm_append_comm_assoc ..))

theorem mem_stringStores {x : Nat} : (∃ w ∈ stringStores env pay array, w.1 = x) ↔
    (env ≤ x ∧ x < env + 4 * array.length) ∨ (pay ≤ x ∧ x < pay + (payload array).length) := by
  rw [← mem_map, (stringStores_perm.map _).mem_iff, map_append, mem_append, map_storesAt,
    map_storesAt, mem_range'_1, mem_range'_1, length_table]

/-- After the loop, the table and the strings stand in memory. -/
theorem holds_strings {mem : Nat → UInt8} (h : env + 4 * array.length ≤ pay) :
    Holds (Bytes.store mem (stringStores env pay array)) env (table pay array) ∧
      Holds (Bytes.store mem (stringStores env pay array)) pay (payload array) := by
  have hnodup : ((storesAt env (table pay array) ++
      storesAt pay (payload array)).map Prod.fst).Nodup := by
    rw [map_append, map_storesAt, map_storesAt]
    refine (nodup_range' 1).append (nodup_range' 1) (fun x h₁ h₂ => ?_)
    rw [mem_range'_1, length_table] at h₁
    rw [mem_range'_1] at h₂
    omega
  rw [← store_perm stringStores_perm.symm hnodup, store_append]
  refine ⟨holds_store.congr (fun x _ h₂ => store_storesAt_of_out (.inl ?_)), holds_store⟩
  rw [length_table] at h₂
  omega

end Sizes

-- ==== reading back

section Reading

variable {mem : Nat → UInt8} {array : List CString} {env pay : Nat}

/-- The table reads back as far as the null pointer. -/
theorem reads_iff (hstrings : ∀ s ∈ array, ∀ b ∈ s, b ≠ 0) (hpay : 0 < pay)
    (hend : pay + (payload array).length < 0x100000000)
    (htable : Holds mem env (table pay array))
    (hpayload : Holds mem pay (payload array)) :
    Reads mem env array ↔ word mem (env + 4 * array.length) 4 = 0 := by
  induction array generalizing env pay with
  | nil =>
    constructor
    · intro h
      cases h with
      | null h => exact h
    · intro h
      exact .null h
  | cons s rest ih =>
    obtain ⟨hs, hrest⟩ := forall_mem_cons.1 hstrings
    rw [payload_cons, length_append, length_append, length_singleton] at hend
    unfold table at htable
    rw [holds_append, length_leBytes] at htable
    rw [payload_cons, holds_append, length_append, length_singleton, ← add_assoc] at hpayload
    have hword : word mem env 4 = pay := by rw [htable.1.word, Nat.mod_eq_of_lt (by omega)]
    have hih := ih hrest (Nat.succ_pos _) (by omega) htable.2 hpayload.2
    rw [length_cons, Nat.mul_succ, add_comm (4 * rest.length), ← add_assoc, ← hih]
    constructor
    · intro h
      cases h with
      | next _ _ h => exact h
    intro h
    refine .next ?_ ?_ h
    · rw [hword]
      omega
    · rw [hword]
      exact (Holds.spells_iff hpayload.1 hs hs).2 rfl

theorem pointer_succ (i : Nat) : pointer mem env (i + 1) = pointer mem (env + 4) i := by
  unfold pointer
  rw [Nat.mul_succ, add_comm (4 * i), ← add_assoc]

/-- Every pointer points behind the table, and behind the strings before. -/
theorem pointers_apart (hend : pay + (payload array).length < 0x100000000)
    (htable : Holds mem env (table pay array)) {i : Nat} {s : CString} (hs : array[i]? = some s) :
    pay ≤ pointer mem env i ∧ ∀ j < array.length, i < j →
      pointer mem env i + s.length < pointer mem env j := by
  induction array generalizing env pay i s with
  | nil => cases hs
  | cons first rest ih =>
    rw [payload_cons, length_append, length_append, length_singleton] at hend
    unfold table at htable
    rw [holds_append, length_leBytes] at htable
    have hzero : pointer mem env 0 = pay := by
      unfold pointer
      rw [mul_zero, add_zero, htable.1.word, Nat.mod_eq_of_lt (by omega)]
    have hrest := fun i s => @ih (env + 4) (pay + first.length + 1) (by omega) htable.2 i s
    cases i with
    | zero =>
      cases hs
      refine ⟨hzero.ge, fun j hj hij => ?_⟩
      obtain ⟨j, rfl⟩ := Nat.exists_eq_add_one_of_ne_zero (Nat.ne_zero_of_lt hij)
      have hlater := (hrest j _ (getElem?_eq_getElem (Nat.lt_of_succ_lt_succ hj))).1
      rw [hzero, pointer_succ]
      omega
    | succ i =>
      obtain ⟨hpay, hlater⟩ := hrest i s hs
      rw [pointer_succ]
      refine ⟨by omega, fun j hj hij => ?_⟩
      obtain ⟨j, rfl⟩ := Nat.exists_eq_add_one_of_ne_zero (Nat.ne_zero_of_lt hij)
      rw [pointer_succ]
      exact hlater j (Nat.lt_of_succ_lt_succ hj) (Nat.lt_of_succ_lt_succ hij)

end Reading

-- ==== writing

section Writing

variable {l : Loading} {ws : List (Nat × UInt8)}

/-- A store to a page that is there. -/
theorem kernelTouch_present {mm : MemoryManager} {vm : Vm} {vaddr : Nat}
    (h : (vm.entry vaddr).present = true) :
    kernelTouch mm vm vaddr = .ok ((vm.entry vaddr).rw, vm) := if_pos h

theorem copyByte_view {vm : Vm} {addr x : Nat} {b : UInt8}
    (hsep : Separate vm) (huser : addr < gKernelBase)
    (hpresent : (vm.entry addr).present = true) :
    Separate (Loading.copyIn vm addr 1 fun _ => b) ∧
      (x < gKernelBase → (Loading.copyIn vm addr 1 fun _ => b).view x
        = update vm.view addr b x) := by
  have hoff : offset addr < gPageSize := Nat.mod_lt _ (by decide)
  have hstores := @copyIn_stores vm addr 1 (fun _ => b) hsep huser hpresent hoff
  refine ⟨hstores.separate, fun hx => ?_⟩
  rw [hstores.view x hx]
  unfold span
  by_cases heq : x = addr
  · rw [heq, if_pos ⟨le_rfl, Nat.lt_succ_self _⟩, update_self]
    rfl
  · rw [if_neg (by omega), update_of_ne heq]
    rfl

theorem writeBytes_of_writable (hsep : Separate l.vm) (hws : ∀ w ∈ ws, w.1 < gKernelBase ∧
      (l.vm.entry w.1).present = true ∧ (l.vm.entry w.1).rw = true) :
    ∃ l', writeBytes l ws = .ok (true, l') ∧
      ∀ x < gKernelBase, l'.vm.view x = Bytes.store l.vm.view ws x := by
  induction ws generalizing l with
  | nil => exact ⟨l, rfl, fun _ _ => rfl⟩
  | cons w rest ih =>
    obtain ⟨⟨huser, hpresent, hrw⟩, hrest⟩ := forall_mem_cons.1 hws
    have hbyte := fun x => @copyByte_view l.vm w.1 x w.2 hsep huser hpresent
    obtain ⟨l', hwrite, hview⟩ := @ih
      ⟨l.mm, Loading.copyIn l.vm w.1 1 fun _ => w.2⟩ (hbyte 0).1 hrest
    refine ⟨l', ?_, fun x hx => ?_⟩
    · unfold writeBytes
      rw [kernelTouch_present hpresent, hrw]
      exact hwrite
    · rw [hview x hx]
      exact store_congr ((hbyte x).2 hx)

/-- Nothing but bytes changes. -/
theorem writeBytes_map (hws : ∀ w ∈ ws, (l.vm.entry w.1).present = true)
    {alive : Bool} {l' : Loading} (h : writeBytes l ws = .ok (alive, l')) :
    l'.mm = l.mm ∧ l'.vm.table = l.vm.table ∧ l'.vm.pmm = l.vm.pmm := by
  induction ws generalizing l with
  | nil =>
    cases h
    exact ⟨rfl, rfl, rfl⟩
  | cons w rest ih =>
    obtain ⟨hpresent, hrest⟩ := forall_mem_cons.1 hws
    unfold writeBytes at h
    rw [kernelTouch_present hpresent] at h
    cases hrw : (l.vm.entry w.1).rw with
    | false =>
      rw [hrw] at h
      cases h
      exact ⟨rfl, rfl, rfl⟩
    | true =>
      rw [hrw] at h
      exact @ih ⟨l.mm, Loading.copyIn l.vm w.1 1 fun _ => w.2⟩ hrest h

/-- A page that cannot be written to ends the process. -/
theorem writeBytes_of_not_writable (hws : ∀ w ∈ ws, (l.vm.entry w.1).present = true)
    (hbad : ∃ w ∈ ws, (l.vm.entry w.1).rw = false) :
    ∃ l', writeBytes l ws = .ok (false, l') := by
  induction ws generalizing l with
  | nil =>
    obtain ⟨w, hw, _⟩ := hbad
    cases hw
  | cons w rest ih =>
    obtain ⟨hpresent, hrest⟩ := forall_mem_cons.1 hws
    unfold writeBytes
    rw [kernelTouch_present hpresent]
    cases hrw : (l.vm.entry w.1).rw with
    | false => exact ⟨_, rfl⟩
    | true =>
      refine @ih ⟨l.mm, Loading.copyIn l.vm w.1 1 fun _ => w.2⟩ hrest ?_
      obtain ⟨w', hw', hro⟩ := hbad
      rcases mem_cons.1 hw' with rfl | hw'
      · cases hrw.symm.trans hro
      · exact ⟨w', hw', hro⟩

end Writing

-- ==== the region

section Region

variable {l : Loading} {array : List CString} {rgn : Region} {mm : MemoryManager} {vm : Vm}

theorem le_toPage {size : Nat} (h : size ≤ 0x40000000) : size ≤ toPage size := by
  unfold toPage add32 gPageSize
  split <;> omega

/-- The stores are in the region, and together with the null pointer they
fill what was asked for. -/
theorem stores_inside (hsize : chunkSize array ≤ 0x40000000) (hfit : Fitting array rgn) :
    (∀ w ∈ stringStores rgn.frm (payloadStart rgn.frm array) array,
      rgn.frm ≤ w.1 ∧ w.1 ≤ rgn.upto) ∧
    ∀ x, (rgn.frm ≤ x ∧ x < rgn.frm + totalChunkSize array) ↔
      (∃ w ∈ stringStores rgn.frm (payloadStart rgn.frm array) array, w.1 = x) ∨
      (rgn.frm + 4 * array.length ≤ x ∧ x < rgn.frm + 4 * array.length + 4) := by
  have htotal := totalChunkSize_eq (show chunkSize array < _ by omega)
  have hle := le_toPage (show totalChunkSize array ≤ _ by omega)
  have hexact := hfit.exact
  have hchunk := @chunkSize_eq array
  have hpay : payloadStart rgn.frm array = rgn.frm + 4 * (array.length + 1) := rfl
  constructor
  · intro w hw
    have hrange := mem_stringStores.1 ⟨w, hw, rfl⟩
    omega
  · intro x
    rw [mem_stringStores]
    omega

/-- Every address of the region is in a page that the mapping visits. -/
theorem exists_base {x : Nat} (hfit : Fitting array rgn) (h₁ : rgn.frm ≤ x) (h₂ : x ≤ rgn.upto) :
    ∃ base ∈ Vm.pagesBelow rgn.frm rgn.upto, pageNumber base = pageNumber x := by
  have haligned := hfit.aligned
  have hexact := hfit.exact
  have hpages : toPage (totalChunkSize array) % gPageSize = 0 := by
    unfold toPage add32 gPageSize
    split <;> omega
  refine ⟨page x, Vm.mem_pagesBelow.2 ⟨(x - rgn.frm) / gPageSize, ?_, ?_⟩, pageNumber_page x⟩
  · unfold page
    unfold gPageSize at *
    omega
  · unfold page
    unfold gPageSize at *
    omega

/-- The options of the region. -/
abbrev stringOptions : MapOptions := { clear := true, rw := true, user := true }

theorem findAndMapRegion_pages {size : Nat} {opts : MapOptions}
    (h : l.mm.findAndMapRegion l.vm size opts = .ok (some (rgn, mm, vm))) :
    (Vm.pagesBelow rgn.frm rgn.upto).foldlM
      (fun vm base => vm.mapAnyPhysicalPage base opts) l.vm = .ok vm := by
  unfold MemoryManager.findAndMapRegion at h
  split at h
  · cases h
  next range _ =>
  obtain ⟨vm₁, hmap, h⟩ := ok_bind h
  cases h
  exact hmap

/-- After the mapping, every byte of the region is there, can be written to
if it could before or is new, and is what it was. -/
theorem mapped_region (hsep : Separate l.vm)
    (hfound : l.mm.findAndMapRegion l.vm (totalChunkSize array) stringOptions
      = .ok (some (rgn, mm, vm))) (hfit : Fitting array rgn) :
    Separate vm ∧ (∀ x < gKernelBase, vm.view x = l.vm.view x) ∧
      ∀ x, rgn.frm ≤ x → x ≤ rgn.upto → (vm.entry x).present = true ∧ ((vm.entry x).rw = true ↔
          ((l.vm.entry x).present = true → (l.vm.entry x).rw = true)) := by
  obtain ⟨hstores, hkept, hthere⟩ := mapPages_stores rfl hsep (findAndMapRegion_pages hfound)
  refine ⟨hstores.separate, hstores.view, fun x h₁ h₂ => ?_⟩
  obtain ⟨base, hbase, hnum⟩ := exists_base hfit h₁ h₂
  have hentry : ∀ v : Vm, v.entry x = v.entry base := by
    intro v
    unfold Vm.entry
    rw [hnum]
  obtain ⟨hpresent, hnew⟩ := hthere base hbase
  rw [hentry, hentry]
  refine ⟨hpresent, ?_⟩
  cases hold : (l.vm.entry base).present with
  | false =>
    rw [hnew hold]
    exact iff_of_true rfl nofun
  | true =>
    have hsame : vm.entry base = l.vm.entry base := hkept _ hold
    rw [hsame]
    exact ⟨fun h _ => h, fun h => h rfl⟩

theorem copyStringArray_eq (hfound : l.mm.findAndMapRegion l.vm (totalChunkSize array) stringOptions
      = .ok (some (rgn, mm, vm))) :
    copyStringArrayToUserland l array
      = copyStringArrayToUserland.finish array ⟨mm, vm⟩ rgn.frm := by
  unfold copyStringArrayToUserland
  rw [show l.mm.findAndMapRegion l.vm (totalChunkSize array)
    { clear := true, rw := true, user := true } = _ from hfound]

/-- What the stores leave in the region, where the null pointer is and where
it is not. -/
theorem delivered_iff {mem mem' : Nat → UInt8} (hstrings : ∀ s ∈ array, ∀ b ∈ s, b ≠ 0)
    (hsize : chunkSize array ≤ 0x40000000) (hfit : Fitting array rgn)
    (hmem : ∀ x < gKernelBase, mem' x = Bytes.store mem
      (stringStores rgn.frm (payloadStart rgn.frm array) array) x) :
    Delivered array rgn mem' ↔ ∀ k < 4, mem (rgn.frm + 4 * array.length + k) = 0 := by
  obtain ⟨hinside, hexact⟩ := stores_inside hsize hfit
  have htotal := totalChunkSize_eq (show chunkSize array < _ by omega)
  have hle := le_toPage (show totalChunkSize array ≤ _ by omega)
  have hchunk := @chunkSize_eq array
  have huser := hfit.user
  have hend := hfit.exact
  have hpay : payloadStart rgn.frm array = rgn.frm + 4 * (array.length + 1) := rfl
  have hbase : gKernelBase < 0x100000000 := by decide
  obtain ⟨htable, hpayload⟩ := @holds_strings array
    (payloadStart rgn.frm array) rgn.frm mem (by omega)
  have htable' : Holds mem' rgn.frm (table (payloadStart rgn.frm array) array) := by
    refine htable.congr (fun x _ h₂ => hmem x ?_)
    rw [length_table] at h₂
    omega
  have hpayload' : Holds mem' (payloadStart rgn.frm array) (payload array) :=
    hpayload.congr (fun x _ h₂ => hmem x (by omega))
  have hlimit : payloadStart rgn.frm array + (payload array).length
      < 0x100000000 := by omega
  have hreads := reads_iff hstrings (by omega) hlimit htable' hpayload'
  have hnull : ∀ k < 4, mem' (rgn.frm + 4 * array.length + k)
      = mem (rgn.frm + 4 * array.length + k) := by
    intro k hk
    rw [hmem _ (by omega)]
    refine store_of_forall_ne (fun w hw heq => ?_)
    have hrange := mem_stringStores.1 ⟨w, hw, heq⟩
    omega
  constructor
  · intro h k hk
    rw [← hnull k hk]
    exact word_eq_zero_iff.1 (hreads.1 h.reads) k hk
  intro h
  refine ⟨hinside, hexact, hreads.2 (word_eq_zero_iff.2 ?_), ?_, ?_⟩
  · intro k hk
    rw [hnull k hk]
    exact h k hk
  · intro i hi
    exact (pointers_apart hlimit htable' (getElem?_eq_getElem hi)).1
  · intro i j s hij hj hs
    exact (pointers_apart hlimit htable' hs).2 j hj hij

section

variable (hsep : Separate l.vm) (hsize : chunkSize array ≤ 0x40000000)
  (hfound : l.mm.findAndMapRegion l.vm (totalChunkSize array) stringOptions
    = .ok (some (rgn, mm, vm))) (hfit : Fitting array rgn)
include hsep hsize hfound hfit

/-- Without a page that cannot be written to, the strings are written. -/
theorem finish_of_writable
    (hwritable : ∀ w ∈ stringStores rgn.frm (payloadStart rgn.frm array) array,
      (l.vm.entry w.1).present = true → (l.vm.entry w.1).rw = true) :
    ∃ l', copyStringArrayToUserland l array = .ok (some (rgn.frm, l')) ∧
      ∀ x < gKernelBase, l'.vm.view x = Bytes.store l.vm.view
        (stringStores rgn.frm (payloadStart rgn.frm array) array) x := by
  obtain ⟨hsep₁, hview, hthere⟩ := mapped_region hsep hfound hfit
  obtain ⟨hinside, _⟩ := stores_inside hsize hfit
  have huser := hfit.user
  obtain ⟨l', hwrite, hmem⟩ := @writeBytes_of_writable ⟨mm, vm⟩
    (stringStores rgn.frm (payloadStart rgn.frm array) array) hsep₁ (by
      intro w hw
      obtain ⟨h₁, h₂⟩ := hinside w hw
      obtain ⟨hpresent, hrw⟩ := hthere w.1 h₁ h₂
      exact ⟨by omega, hpresent, hrw.2 (hwritable w hw)⟩)
  refine ⟨l', ?_, fun x hx => ?_⟩
  · rw [copyStringArray_eq hfound]
    unfold copyStringArrayToUserland.finish
    rw [hwrite]
  · rw [hmem x hx]
    exact store_congr (hview x hx)

/-- A process that gets through has found every page writable. -/
theorem writable_of_finish {r : Nat × Loading}
    (h : copyStringArrayToUserland l array = .ok (some r)) :
    ∀ w ∈ stringStores rgn.frm (payloadStart rgn.frm array) array,
      (l.vm.entry w.1).present = true → (l.vm.entry w.1).rw = true := by
  obtain ⟨_, _, hthere⟩ := mapped_region hsep hfound hfit
  obtain ⟨hinside, _⟩ := stores_inside hsize hfit
  intro w hw
  obtain ⟨h₁, h₂⟩ := hinside w hw
  rw [← (hthere w.1 h₁ h₂).2]
  by_contra hro
  rw [Bool.not_eq_true] at hro
  obtain ⟨l', hdies⟩ := @writeBytes_of_not_writable ⟨mm, vm⟩
    (stringStores rgn.frm (payloadStart rgn.frm array) array)
    (fun w hw => (hthere w.1 (hinside w hw).1 (hinside w hw).2).1)
    ⟨w, hw, hro⟩
  rw [copyStringArray_eq hfound] at h
  unfold copyStringArrayToUserland.finish at h
  rw [hdies] at h
  cases h

/-- The function without the bytes has the same pages and regions. -/
theorem copyStrings_agrees {dest : Nat} {l' : Loading}
    (h : copyStringArrayToUserland l array = .ok (some (dest, l'))) :
    ∃ l₁, l.copyStrings (arraySize array) = .ok (true, l₁) ∧ l'.mm = l₁.mm ∧
      l'.vm.table = l₁.vm.table ∧ l'.vm.pmm = l₁.vm.pmm := by
  obtain ⟨_, _, hthere⟩ := mapped_region hsep hfound hfit
  obtain ⟨hinside, _⟩ := stores_inside hsize hfit
  refine ⟨⟨mm, vm⟩, ?_, ?_⟩
  · unfold Loading.copyStrings
    rw [show l.mm.findAndMapRegion l.vm (Loading.stringsSize (arraySize array))
      { clear := true, rw := true, user := true } = _ from hfound]
  rw [copyStringArray_eq hfound] at h
  unfold copyStringArrayToUserland.finish at h
  split at h
  · cases h
  · cases h
  next l₂ hwrite =>
  cases h
  exact @writeBytes_map ⟨mm, vm⟩ _ (fun w hw =>
    (hthere w.1 (hinside w hw).1 (hinside w hw).2).1) _ _ hwrite

end

/-- Among regions of whole pages below the kernel, a region that is found
fits. -/
theorem fitting_of_capped (hsize : chunkSize array ≤ 0x40000000)
    (hregions : Capped gKernelBase l.mm.mRegions)
    (hbelow : ∀ r ∈ l.mm.mRegions.dropLast, r.upto < gKernelBase)
    (hfound : l.mm.findAndMapRegion l.vm (totalChunkSize array) stringOptions
      = .ok (some (rgn, mm, vm))) : Fitting array rgn := by
  unfold MemoryManager.findAndMapRegion at hfound
  split at hfound
  · cases hfound
  next range hfind =>
  obtain ⟨_, _, hfound⟩ := ok_bind hfound
  have hrgn : rgn.toInterval = range := by
    rw [← Prod.mk.inj (Option.some.inj (Except.ok.inj hfound)) |>.1]
  obtain ⟨i0, hi0, hend, hfrm, _, hupto, _⟩ := hregions.findFree_above hfind
  obtain ⟨_, _, _, huser⟩ := hregions.findRegionImpl hfind
  have htop := hbelow i0 hi0
  have hwhole := hend.whole
  have hpages : toPage (totalChunkSize array) ≤ 0x40000000 := by
    have htotal := totalChunkSize_eq (show chunkSize array < _ by omega)
    unfold toPage add32 gPageSize
    split <;> omega
  have hbase : gKernelBase = 0xC0000000 := rfl
  rw [add32_of_lt (by omega)] at hupto
  refine ⟨?_, ?_, ?_⟩ <;> rw [hrgn]
  · rw [hfrm]
    exact hwhole
  · omega
  · omega

end Region

/-- Where regions are whole pages below the kernel, the strings arrive in the
one that has been found exactly if nothing was in the way. -/
theorem arrives_iff {l : Loading} {array : List CString} {rgn : Region}
    {mm : MemoryManager} {vm : Vm} (hstrings : ∀ s ∈ array, ∀ b ∈ s, b ≠ 0)
    (hsize : chunkSize array ≤ 0x40000000) (hsep : Separate l.vm)
    (hfound : l.mm.findAndMapRegion l.vm (totalChunkSize array)
      { clear := true, rw := true, user := true } = .ok (some (rgn, mm, vm)))
    (hregions : Capped gKernelBase l.mm.mRegions)
    (hbelow : ∀ r ∈ l.mm.mRegions.dropLast, r.upto < gKernelBase) :
    Arrives l array rgn ↔ Clear l array rgn := by
  have hfit := fitting_of_capped hsize hregions hbelow hfound
  constructor
  · rintro ⟨l', hcopy, hdelivered⟩
    have hwritable := writable_of_finish hsep hsize hfound hfit hcopy
    obtain ⟨l₁, hcopy₁, hmem⟩ := finish_of_writable hsep hsize hfound hfit hwritable
    cases hcopy.symm.trans hcopy₁
    exact ⟨hwritable, (delivered_iff hstrings hsize hfit hmem).1 hdelivered⟩
  · rintro ⟨hwritable, hnull⟩
    obtain ⟨l', hcopy, hmem⟩ := finish_of_writable hsep hsize hfound hfit hwritable
    exact ⟨l', hcopy, (delivered_iff hstrings hsize hfit hmem).2 hnull⟩

/-- A process that has nothing yet but the buffer of its file. -/
def starting : Loading where
  mm := MemoryManager.init.addUncheckedRegion 0x1000 0x1FFF
  vm :=
    { pmm := { mPages := fun i => { usable := decide (4 ≤ i) } }
      memory := fun _ _ => 0
      table := fun _ => {}
      mKernelRegions := [] }

/-- The region for one short string. -/
def foundAt (frm : Nat) : Except Panic (Option (Region × MemoryManager × Vm)) → Bool
  | .ok (some (rgn, _, _)) => decide (rgn.frm = frm) && decide (rgn.upto = frm + 0xFFF)
  | _ => false

theorem exists_of_foundAt {frm : Nat} {r : Except Panic (Option (Region × MemoryManager × Vm))}
    (h : foundAt frm r = true) : ∃ rgn mm vm, r = .ok (some (rgn, mm, vm)) ∧ rgn.frm = frm ∧
        rgn.upto = frm + 0xFFF := by
  unfold foundAt at h
  split at h
  next rgn mm vm =>
    rw [Bool.and_eq_true, decide_eq_true_eq, decide_eq_true_eq] at h
    exact ⟨rgn, mm, vm, rfl, h.1, h.2⟩
  · cases h

theorem fitting_one {frm : Nat} {rgn : Region} (halign : frm % gPageSize = 0)
    (huser : frm + 0xFFF < gKernelBase) (hfrm : rgn.frm = frm)
    (hupto : rgn.upto = frm + 0xFFF) : Fitting [[0x61]] rgn := by
  refine ⟨by rw [hfrm]; exact halign, ?_, by rw [hupto]; exact huser⟩
  rw [hupto, hfrm]
  rfl

/-- Three strings in a new region, one of them empty. -/
theorem arrives_iff_three : ∃ rgn, rgn.frm = 0x2000 ∧
    Arrives starting [[0x61, 0x62], [], [0x63]] rgn := by
  obtain ⟨rgn, mm, vm, hfound, hfrm, hupto⟩ := exists_of_foundAt
    (show foundAt 0x2000 (starting.mm.findAndMapRegion starting.vm
      (totalChunkSize [[0x61, 0x62], [], [0x63]]) { clear := true, rw := true, user := true })
        = true by decide +kernel)
  have hregions : Capped gKernelBase starting.mm.mRegions :=
    (Capped.init (show 0 < gKernelBase by decide)).add (by decide)
      (show Region.Below gKernelBase { frm := 0x1000, upto := 0x1FFF } from
        ⟨by decide, by decide, by decide⟩)
  refine ⟨rgn, hfrm, (arrives_iff (by simp) (by decide) (separate_of_absent fun _ _ => rfl) hfound
    hregions (by decide +kernel)).2 ⟨?_, ?_⟩⟩
  · intro w _ hpresent
    cases hpresent
  · intro k _
    rfl

/-- A small segment. -/
def smallSegment : Program where
  vaddr := 0x3000
  memsz := 0x1000
  filesz := 0
  writable := true

/-- A larger one around it, full of ones. -/
def largeSegment : Program where
  vaddr := 0x2000
  memsz := 0x4000
  filesz := 0x4000
  writable := true
  content := fun _ => 0xFF

/-- The process after these segments have been loaded. The list of regions
has the larger one in front, so that its second half counts as free. -/
def crowded : Loading :=
  match starting.loadPrograms 0 [smallSegment, largeSegment] with
  | .ok (_, l, max_load_addr) => l.guardPage max_load_addr
  | .error _ => starting

/-- The byte after the table is not zero. -/
def unterminated : Except Panic (Option (Nat × Loading)) → Bool
  | .ok (some (_, l)) => decide (l.vm.view 0x4004 = 0xFF)
  | _ => false

/-- The strings are put into a segment, and the table has no end. -/
theorem not_arrives : ∃ rgn mm vm, crowded.mm.findAndMapRegion crowded.vm (totalChunkSize [[0x61]])
      { clear := true, rw := true, user := true } = .ok (some (rgn, mm, vm)) ∧
    rgn.frm = 0x4000 ∧ Fitting [[0x61]] rgn ∧
    ¬ Arrives crowded [[0x61]] rgn := by
  obtain ⟨rgn, mm, vm, hfound, hfrm, hupto⟩ := exists_of_foundAt
    (show foundAt 0x4000 (crowded.mm.findAndMapRegion crowded.vm
      (totalChunkSize [[0x61]]) { clear := true, rw := true, user := true })
        = true by decide +kernel)
  refine ⟨rgn, mm, vm, hfound, hfrm, fitting_one (by decide) (by decide) hfrm hupto, ?_⟩
  rintro ⟨l', hcopy, hdelivered⟩
  have hbyte : unterminated (copyStringArrayToUserland crowded [[0x61]])
      = true := by decide +kernel
  rw [hcopy] at hbyte
  have hone : l'.vm.view 0x4004 = 0xFF := of_decide_eq_true hbyte
  have hreads := hdelivered.reads
  rw [hfrm] at hreads
  cases hreads with
  | next _ _ hreads =>
    cases hreads with
    | null hword =>
      have hzero := word_eq_zero_iff.1 hword 0 (by decide)
      have hzero : l'.vm.view 0x4004 = 0 := hzero
      cases hone.symm.trans hzero

end Puppy.Exec
