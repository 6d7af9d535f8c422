/-
How large the blocks of `malloc` and `calloc` are.

A size goes through three computations on 32-bit words before memory is
found for it: the length of the block in headers, the number of bytes to
ask `sbrk` for, and that number rounded up to pages. `calloc` puts a product
before them. Each can wrap, and a wrapped value looks like a small request.

The rounding is the first to wrap, for requests above the last page of the
address space. Below that, a block has room for its size by arithmetic
(`trueSize_holds`), and lies in memory of the kernel heap by the invariant of
the runs. Above it, no block in the address space is large enough, and yet
there is an answer. The block that is answered with may be given back, and
then smaller requests are served from it: so all of them have to be modest.
-/
import Puppy.Libc.Proofs.Malloc

namespace Puppy.Libc

open Lib Finset Headers

namespace Malloc

variable {s s' : Malloc} {low n size ptr num len rounds : Nat} {bytes bytes' : Nat → UInt8}

/-- The header and the size fit into the length. -/
theorem trueSize_holds (hle : size ≤ 0xFFFFFFF8) :
    Header.size + size ≤ Header.size * trueSize size := by
  unfold trueSize Header.size
  rw [add32_of_lt (by omega)]
  omega

/-- Sizes for which nothing wraps get blocks that are large enough. -/
theorem malloc_hasBytes (hreach : (allocatorFrom low).Reach Modest s) (hmodest : size ≤ 0xFFFFEFF8)
    (hmalloc : s.malloc size rounds = .ok (ptr, s')) :
    s'.HasBytes low ptr size := by
  obtain ⟨free, block, hptr, hsound, hlen, _⟩ :=
    malloc_spec (inv_of_reachFrom hreach) hmodest hmalloc
  have hblock : block ∈ free ∪ insert block s.live :=
    mem_union_right free (mem_insert_self block s.live)
  have hholds := trueSize_holds (le_trans hmodest (by decide))
  rw [hptr]
  unfold HasBytes
  rw [Nat.add_sub_cancel]
  refine ⟨?_, hsound.layout.above block hblock, hsound.layout.below block hblock⟩
  rw [endOf_eq, hlen]
  omega

/-- No block is larger than the address space without its first page. -/
theorem modest_of_hasBytes (hlow : Heap.blocksize ≤ low) (hspace : s.heap.mCurrent ≤ 0x100000000)
    (h : s.HasBytes low ptr n) : n ≤ 0xFFFFEFF8 := by
  obtain ⟨henough, habove, hbacked⟩ := h
  unfold Header.size Heap.blocksize at *
  omega

theorem bzero_zero {k : Nat} (hk : k < n) : bzero bytes ptr n (ptr + k) = 0 :=
  if_pos ⟨Nat.le_add_right ptr k, Nat.add_lt_add_left hk ptr⟩

/-- The same for `calloc`, whose memory is zero. -/
theorem calloc_hasBytes (hreach : (allocatorFrom low).Reach Modest s)
    (hmodest : num * len ≤ 0xFFFFEFF8)
    (hcalloc : s.calloc bytes num len rounds = .ok (ptr, s', bytes')) :
    s'.HasBytes low ptr (num * len) ∧ ∀ k < num * len, bytes' (ptr + k) = 0 := by
  have hword : num * len % 0x100000000 = num * len := Nat.mod_eq_of_lt (by omega)
  unfold calloc at hcalloc
  dsimp only at hcalloc
  rw [hword] at hcalloc
  split at hcalloc
  · cases hcalloc
  next ptr₁ s₁ hmalloc =>
  obtain ⟨rfl, rfl, hbytes⟩ := ok_triple hcalloc
  have hserved := malloc_hasBytes hreach hmodest hmalloc
  refine ⟨hserved, fun k hk => ?_⟩
  by_cases hnull : ptr₁ = 0
  · obtain ⟨_, block, hptr, _⟩ := malloc_spec (inv_of_reachFrom hreach) hmodest hmalloc
    unfold Header.size at hptr
    omega
  · rw [← hbytes, if_neg hnull]
    exact bzero_zero hk

/-- After requests for which nothing has wrapped, in a heap that is in the
address space and not in its first page: what is returned is large enough
and made of memory exactly if nothing wraps for its size, and for `calloc`,
if the product does not wrap either. -/
theorem serves_iff_modest (hreach : (allocatorFrom low).Reach Modest s)
    (hlow : Heap.blocksize ≤ low) :
    (∀ size rounds ptr s', s.malloc size rounds = .ok (ptr, s') →
      s'.heap.mCurrent ≤ 0x100000000 → (s'.HasBytes low ptr size ↔ size ≤ 0xFFFFEFF8)) ∧
    ∀ bytes num len rounds ptr s' bytes', s.calloc bytes num len rounds = .ok (ptr, s', bytes') →
      s'.heap.mCurrent ≤ 0x100000000 →
      (s'.HasBytes low ptr (num * len) ∧ (∀ k < num * len, bytes' (ptr + k) = 0) ↔
        num * len ≤ 0xFFFFEFF8) := by
  constructor
  · intro size rounds ptr s' hmalloc hspace
    exact ⟨modest_of_hasBytes hlow hspace, fun hmodest => malloc_hasBytes hreach hmodest hmalloc⟩
  · intro bytes num len rounds ptr s' bytes' hcalloc hspace
    exact ⟨fun h => modest_of_hasBytes hlow hspace h.1,
      fun hmodest => calloc_hasBytes hreach hmodest hcalloc⟩

/-- What a call has returned, by evaluation. -/
theorem exists_of_any {α : Type} {r : Except Panic α} {P : α → Prop} [DecidablePred P]
    (h : r.toOption.any (fun x => decide (P x)) = true) : ∃ x, r = .ok x ∧ P x := by
  cases r with
  | error e => cases h
  | ok x => exact ⟨x, rfl, of_decide_eq_true h⟩

theorem eightPages_boot : (allocatorFrom 4096).boot eightPages :=
  ⟨⟨rfl, rfl, rfl, show 8 + 8 ≤ 4096 by decide⟩, rfl⟩

/-- An array of three times seven bytes, where another block has been taken
and given back. -/
theorem serves_iff_modest_array : ∃ s ptr s' bytes', (allocatorFrom 4096).Reach Modest s ∧
    s.calloc (fun _ => 1) 3 7 9 = .ok (ptr, s', bytes') ∧ ptr = 12264 ∧
      s'.HasBytes 4096 ptr 21 ∧ ∀ k < 21, bytes' (ptr + k) = 0 := by
  obtain ⟨s, hreach, hcall⟩ := Machine.exists_guarded (M := allocatorFrom 4096) (G := Modest)
    (P := fun s => (s.calloc (fun _ => 1) 3 7 9).toOption.any (fun x =>
      decide (x.1 = 12264 ∧ x.2.1.heap.mCurrent ≤ 0x100000000)) = true) eightPages_boot
    [.malloc 100 9, .malloc 200 9, .free 12176 9] (by decide +kernel) (by decide +kernel)
  obtain ⟨⟨ptr, s', bytes'⟩, hcalloc, hptr, hspace⟩ := exists_of_any hcall
  have hserves := ((serves_iff_modest hreach (by decide)).2 _ _ _ _ _ _ _ hcalloc hspace).2
    (by decide)
  exact ⟨s, ptr, s', bytes', hreach, hcalloc, hptr, hserves⟩

/-- A size of almost the whole address space gets a block that is all
header, and so does an array of 2^16 times 2^16 bytes. And when a block
without memory has been given back, a small request is served from it. -/
theorem serves_nothing : (∃ x, eightPages.malloc 0xFFFFFFFF 9 = .ok x ∧ x.1 ≠ 0 ∧
      ¬ x.2.HasBytes 4096 x.1 0xFFFFFFFF) ∧
    (∃ x, eightPages.calloc (fun _ => 1) 0x10000 0x10000 9 = .ok x ∧ x.1 ≠ 0 ∧
      ¬ x.2.1.HasBytes 4096 x.1 (0x10000 * 0x10000)) ∧
    ∃ s, (allocatorFrom 4096).Reach Machine.anyStep s ∧
      ∃ x, s.malloc 100 9 = .ok x ∧ x.1 ≠ 0 ∧ ¬ x.2.HasBytes 4096 x.1 100 := by
  refine ⟨exists_of_any (by decide +kernel), exists_of_any (by decide +kernel), ?_⟩
  obtain ⟨s, hreach, hcall⟩ := Machine.exists_reach (M := allocatorFrom 4096)
    (P := fun s => (s.malloc 100 9).toOption.any (fun x =>
      decide (x.1 ≠ 0 ∧ ¬ x.2.HasBytes 4096 x.1 100)) = true) eightPages_boot
    [.malloc 0xFFFFEFF9 9, .free 4096 9] (by decide +kernel)
  exact ⟨s, hreach, exists_of_any hcall⟩

end Malloc

end Puppy.Libc
