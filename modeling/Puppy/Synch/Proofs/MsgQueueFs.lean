/-
Who counts the users of a message queue.

The store counts look-ups and the queue counts readers and writers. A file
is one look-up and one reader or writer, so the counts agree as long as
every look-up ends in a file, and then the last file to be closed takes the
queue with it (`owned_of_saysWhatFor`).

A look-up that ends in no file is possible: a mode with neither
`FILE_OPEN_READ` nor `FILE_OPEN_WRITE` passes the two checks in front of
the look-up and fails after it. The count then is one too high for good, the
queue outlives its files, and closing the last of them panics.

# The invariant

`Tended` has a queue that is ahead by one, if there is one: while a file is
being opened its look-up is counted already, and while it is being closed
its reference is counted still.
-/
import Puppy.Lib.Except
import Puppy.Lib.Ledger
import Puppy.Synch.MsgQueueFs

open Function
open List hiding count

namespace Puppy.Libc.KeyedStore

variable {T : Type} {nameOf : T → CString} {s : KeyedStore T} {count pointer i : Nat} {object : T}

/-- Every object is filed under its name, and nothing else is. -/
def Filed (nameOf : T → CString) (s : KeyedStore T) : Prop :=
  ∀ key pointer, s.mHash.find key = some pointer ↔
    ∃ object count, s.pointers pointer = some (object, count) ∧ nameOf object = key

/-- The store with another pair in the place of one. -/
def put (s : KeyedStore T) (pointer : Nat) (object : T) (count : Nat) : KeyedStore T :=
  { s with pointers := update s.pointers pointer (some (object, count)) }

theorem named_iff {key : CString} :
    (∃ o c, some (object, count) = some (o, c) ∧ nameOf o = key) ↔ nameOf object = key := by
  simp

theorem Filed.find (h : s.Filed nameOf) (hpointer : s.pointers pointer = some (object, count)) :
    s.mHash.find (nameOf object) = some pointer :=
  (h _ _).2 ⟨object, count, hpointer, rfl⟩

/-- What stands at one pointer changes, and with it what is found there. -/
theorem Filed.change {s' : KeyedStore T} {v : Option (T × Nat)} (h : s.Filed nameOf)
    (hpointers : s'.pointers = update s.pointers pointer v)
    (hhere : ∀ key, s'.mHash.find key = some pointer ↔ ∃ o c, v = some (o, c) ∧ nameOf o = key)
    (hother : ∀ key, ∀ p ≠ pointer, s'.mHash.find key = some p ↔ s.mHash.find key = some p) :
    s'.Filed nameOf := by
  intro key p
  rw [hpointers]
  by_cases hp : p = pointer
  · rw [hp, update_self]
    exact hhere key
  · rw [update_of_ne hp, hother key p hp]
    exact h key p

theorem Filed.put {count' : Nat} {object' : T} (h : s.Filed nameOf)
    (hold : s.pointers pointer = some (object, count))
    (hname : nameOf object' = nameOf object) :
    (s.put pointer object' count').Filed nameOf := by
  refine h.change rfl (fun key => ?_) (fun _ _ _ => Iff.rfl)
  show s.mHash.find key = _ ↔ _
  rw [h key pointer, hold, named_iff, named_iff, hname]

theorem modify_eq_put (f : T → T) (h : s.pointers pointer = some (object, count)) :
    s.modify pointer f = s.put pointer (f object) count := by
  unfold modify put
  rw [h]
  rfl

/-- A look-up finds the object of that name. -/
theorem getOrNull_of_find {key : CString} (hfind : s.mHash.find key = some pointer)
    (hpointer : s.pointers pointer = some (object, count)) :
    s.getOrNull key = .ok (some (pointer, s.put pointer object (add32 count 1))) := by
  unfold getOrNull
  rw [hfind]
  dsimp only
  rw [hpointer]
  rfl

/-- Or there is none. -/
theorem getOrNull_of_absent {key : CString} (habsent : s.mHash.find key = none) :
    s.getOrNull key = .ok none := by
  unfold getOrNull
  rw [habsent]

theorem Filed.make {key : CString} (h : s.Filed nameOf)
    (habsent : s.mHash.find key = none) (hfresh : s.pointers s.made = none)
    (hname : nameOf object = key) :
    Filed nameOf
      { mHash := s.mHash.insert key s.made
        pointers := update s.pointers s.made (some (object, 1))
        made := s.made + 1 } := by
  refine h.change rfl (fun k => ?_) (fun k p hp => ?_) <;> dsimp only <;> rw [Hash.find_insert]
  · rw [named_iff, hname]
    split
    next hk => exact iff_of_true rfl hk.symm
    next hk =>
    refine iff_of_false (fun hfind => ?_) (Ne.symm hk)
    obtain ⟨o, c, ho, _⟩ := (h k s.made).1 hfind
    cases hfresh.symm.trans ho
  · split
    next hk =>
      rw [hk, habsent]
      exact iff_of_false (fun heq => hp (Option.some.inj heq).symm) nofun
    · exact Iff.rfl

/-- The last reference takes the object with it, any other is one less. -/
theorem release_of_find {key : CString} (hfind : s.mHash.find key = some pointer)
    (hpointer : s.pointers pointer = some (object, count)) (hpos : 0 < count)
    (hsmall : count < 0x100000000) :
    s.release key = if count = 1 then
        .ok (true,
          { s with
            mHash := s.mHash.erase key
            pointers := update s.pointers pointer none })
      else .ok (false, s.put pointer object (count - 1)) := by
  unfold release
  rw [hfind]
  dsimp only
  rw [hpointer]
  show (if sub32 count 1 = 0 then _ else _) = _
  rw [sub32_of_le hsmall hpos]
  by_cases hlast : count = 1
  · rw [if_pos hlast, if_pos (by omega)]
  · rw [if_neg hlast, if_neg (by omega)]
    rfl

theorem Filed.erase (h : s.Filed nameOf) (hpointer : s.pointers pointer = some (object, count)) :
    Filed nameOf
      { s with
        mHash := s.mHash.erase (nameOf object)
        pointers := update s.pointers pointer none } := by
  refine h.change rfl (fun k => ?_) (fun k p hp => ?_) <;> dsimp only <;> rw [Hash.find_erase]
  · split
    next hk => exact iff_of_false nofun (by rintro ⟨_, _, heq, _⟩; cases heq)
    next hk =>
    refine iff_of_false (fun hfind => ?_) (by rintro ⟨_, _, heq, _⟩; cases heq)
    rw [h k pointer, hpointer, named_iff] at hfind
    exact hk hfind.symm
  · split
    next hk =>
      rw [hk, h.find hpointer]
      exact iff_of_false nofun (fun heq => hp (Option.some.inj heq).symm)
    · exact Iff.rfl

end Puppy.Libc.KeyedStore

namespace Puppy.Synch

open Lib Libc MessageQueueBuffer KeyedStore

variable {i count : Nat} {file : QueueFile} {queue : NamedQueue}

-- ==== counting files

/-- The files of a queue. -/
def filesOf (files : List QueueFile) (buffer : Nat) : Nat :=
  files.countP fun file => file.mBuffer = buffer

/-- The files of a queue that are for reading, or for writing. -/
def filesFor (files : List QueueFile) (mode : QueueMode) (buffer : Nat) : Nat :=
  files.countP fun file => file.mBuffer = buffer ∧ file.mode = mode

theorem filesOf_cons (file : QueueFile) (files : List QueueFile) (buffer : Nat) :
    filesOf (file :: files) buffer = filesOf files buffer + named (some file.mBuffer) buffer := by
  unfold filesOf named
  rw [countP_cons]
  by_cases h : file.mBuffer = buffer
  · simp [h]
  · simp [h]

theorem filesFor_cons (file : QueueFile) (files : List QueueFile)
    (mode : QueueMode) (buffer : Nat) :
    filesFor (file :: files) mode buffer = filesFor files mode buffer +
      if file.mBuffer = buffer ∧ file.mode = mode then 1 else 0 := by
  unfold filesFor
  rw [countP_cons]
  simp

/-- A file is a reader or a writer. -/
theorem filesOf_eq (files : List QueueFile) (buffer : Nat) : filesOf files buffer =
      filesFor files .reading buffer + filesFor files .writing buffer := by
  induction files with
  | nil => rfl
  | cons file rest ih =>
    rw [filesOf_cons, filesFor_cons, filesFor_cons, ih]
    by_cases h : file.mBuffer = buffer
    · rw [h, named_self]
      cases file.mode <;> simp <;> omega
    · rw [named_of_ne h]
      simp [h]

theorem perm_eraseIdx {files : List QueueFile} (h : files[i]? = some file) :
    (file :: files.eraseIdx i).Perm files := by
  obtain ⟨hi, rfl⟩ := List.getElem?_eq_some_iff.1 h
  exact getElem_cons_eraseIdx_perm hi

-- ==== the invariant

namespace MessageQueueFS

/-- A queue whose counts are right, but for one reference that is on its
way. -/
structure Attended (files : List QueueFile) (pending : Option Nat)
    (buffer : Nat) (queue : NamedQueue) (count : Nat) : Prop where
  count_eq : count = filesOf files buffer + named pending buffer
  pos : 0 < count
  readers : queue.mNumReaders = filesFor files .reading buffer
  writers : queue.mNumWriters = filesFor files .writing buffer

structure Tended (pending : Option Nat) (fs : MessageQueueFS) : Prop where
  filed : fs.mQueues.Filed NamedQueue.mName
  fresh : ∀ p, fs.mQueues.made ≤ p → fs.mQueues.pointers p = none
  file : ∀ f ∈ fs.files, ∃ queue count,
    fs.mQueues.pointers f.mBuffer = some (queue, count) ∧ queue.mName = f.name
  queue : ∀ p queue count, fs.mQueues.pointers p = some (queue, count) →
    Attended fs.files pending p queue count
  few : fs.files.length < 0x10000000

variable {fs fs' : MessageQueueFS}

theorem tended_boot : Tended none {} where
  filed := by
    intro key p
    constructor
    · nofun
    · rintro ⟨_, _, h, _⟩
      cases h
  fresh := fun _ _ => rfl
  file := fun f hf => absurd hf not_mem_nil
  queue := fun p queue count h => by cases h
  few := by decide

section Change

variable {pending pending' : Option Nat} {files : List QueueFile} {p : Nat}

/-- What stands at one pointer changes, and the counts are right for the new
list of files. -/
theorem Tended.change {store : KeyedStore NamedQueue} {v : Option (NamedQueue × Nat)}
    (h : Tended pending fs) (hpointers : store.pointers = update fs.mQueues.pointers p v)
    (hfiled : store.Filed NamedQueue.mName) (hmade : fs.mQueues.made ≤ store.made)
    (hfresh : store.made ≤ p → v = none)
    (hfile : ∀ f ∈ files, f.mBuffer ≠ p → f ∈ fs.files)
    (hnew : ∀ f ∈ files, f.mBuffer = p → ∃ queue count,
      v = some (queue, count) ∧ queue.mName = f.name)
    (hqueue : ∀ queue count, v = some (queue, count) → Attended files pending' p queue count)
    (hother : ∀ b ≠ p, filesOf files b + named pending' b = filesOf fs.files b + named pending b ∧
      ∀ mode, filesFor files mode b = filesFor fs.files mode b)
    (hfew : files.length < 0x10000000) :
    Tended pending' { mQueues := store, files } := by
  refine ⟨hfiled, fun q hq => ?_, fun f hf => ?_, fun b q c hq => ?_, hfew⟩ <;>
    dsimp only at * <;> rw [hpointers] at *
  · by_cases hqp : q = p
    · rw [hqp, update_self]
      exact hfresh (hqp ▸ hq)
    · rw [update_of_ne hqp]
      exact h.fresh q (hmade.trans hq)
  · by_cases hfp : f.mBuffer = p
    · rw [hfp, update_self]
      exact hnew f hf hfp
    · rw [update_of_ne hfp]
      exact h.file f (hfile f hf hfp)
  rcases update_eq_some hq with ⟨rfl, hv⟩ | ⟨hb, hq⟩
  · exact hqueue q c hv
  · have hat := h.queue b q c hq
    exact ⟨by rw [(hother b hb).1, hat.count_eq], hat.pos,
      by rw [(hother b hb).2, hat.readers], by rw [(hother b hb).2, hat.writers]⟩

/-- One pair is replaced by one of the same name. -/
theorem Tended.put {count' : Nat} {queue' : NamedQueue} (h : Tended pending fs)
    (hold : fs.mQueues.pointers p = some (queue, count))
    (hname : queue'.mName = queue.mName)
    (hfile : ∀ f ∈ files, f ∈ fs.files ∨ f.mBuffer = p ∧ f.name = queue.mName)
    (hqueue : Attended files pending' p queue' count') (hother : ∀ b ≠ p,
      filesOf files b + named pending' b = filesOf fs.files b + named pending b ∧
      ∀ mode, filesFor files mode b = filesFor fs.files mode b)
    (hfew : files.length < 0x10000000) :
    Tended pending' { mQueues := fs.mQueues.put p queue' count', files } := by
  refine h.change rfl (h.filed.put hold hname) le_rfl
    (fun hle => absurd rfl (ne_of_entry hold (h.fresh p hle)))
    (fun f hf hp => (hfile f hf).resolve_right fun hnew => hp hnew.1)
    (fun f hf hp => ⟨queue', count', rfl, ?_⟩) (by rintro _ _ ⟨⟩; exact hqueue) hother hfew
  rcases hfile f hf with hmem | hnew
  · obtain ⟨q, c, hq, hname'⟩ := h.file f hmem
    rw [hp, hold] at hq
    cases hq
    rw [hname, hname']
  · rw [hname, hnew.2]

end Change

-- ==== opening

/-- After the look-up, its queue is ahead by one. -/
theorem Tended.getOrMakeNew (h : Tended none fs) (name : CString) :
    ∃ buffer fs' queue count, fs.getOrMakeNew name = .ok (some (buffer, fs')) ∧
      Tended (some buffer) fs' ∧ fs'.files = fs.files ∧
      fs'.mQueues.pointers buffer = some (queue, count) ∧ queue.mName = name := by
  unfold MessageQueueFS.getOrMakeNew
  cases hfind : fs.mQueues.mHash.find name with
  | some p =>
    obtain ⟨queue, count, hp, hname⟩ := (h.filed name p).1 hfind
    have hat := h.queue p queue count hp
    have hle : filesOf fs.files p ≤ fs.files.length := countP_le_length
    have hfew := h.few
    have hcount : count = filesOf fs.files p := hat.count_eq
    rw [getOrNull_of_find hfind hp, add32_of_lt (by omega)]
    refine ⟨p, { fs with mQueues := fs.mQueues.put p queue (count + 1) }, queue,
      count + 1, rfl, ?_, rfl, update_self .., hname⟩
    refine h.put hp rfl (fun f hf => .inl hf) ?_ ?_ h.few
    · exact ⟨by rw [named_self, hcount], Nat.succ_pos _, hat.readers, hat.writers⟩
    · intro b hb
      exact ⟨by rw [named_of_ne hb.symm, named_none], fun _ => rfl⟩
  | none =>
    have hfresh := h.fresh fs.mQueues.made le_rfl
    have hnofile : ∀ f ∈ fs.files, f.mBuffer ≠ fs.mQueues.made := by
      intro f hf heq
      obtain ⟨q, c, hq, _⟩ := h.file f hf
      rw [heq, hfresh] at hq
      cases hq
    rw [getOrNull_of_absent hfind, bind_ok]
    simp only [makeOrNull, hfind]
    refine ⟨fs.mQueues.made, _, { mName := name }, 1, rfl, ?_, rfl, update_self .., rfl⟩
    refine h.change rfl (h.filed.make hfind hfresh rfl) (Nat.le_succ _)
      (fun hle => absurd hle (Nat.not_succ_le_self _)) (fun f hf _ => hf)
      (fun f hf heq => absurd heq (hnofile f hf)) ?_ ?_ h.few
    · rintro _ _ ⟨⟩
      have hnone : ∀ mode, filesFor fs.files mode fs.mQueues.made = 0 := by
        intro mode
        refine countP_eq_zero.2 ?_
        intro f hf hand
        exact hnofile f hf (of_decide_eq_true hand).1
      refine ⟨?_, Nat.one_pos, (hnone .reading).symm, (hnone .writing).symm⟩
      rw [filesOf_eq, hnone, hnone, named_self]
    · intro b hb
      exact ⟨by rw [named_of_ne hb.symm, named_none], fun _ => rfl⟩

/-- The file accounts for the look-up. -/
theorem Tended.newFile {buffer : Nat} {name : CString} (h : Tended (some buffer) fs)
    (hbuffer : fs.mQueues.pointers buffer = some (queue, count))
    (hname : queue.mName = name) (mode : QueueMode) :
    Sat (fs.newFile name buffer mode) (Tended none) (· = .heapExhausted) := by
  unfold MessageQueueFS.newFile
  split
  next hfew =>
    have hat := h.queue buffer queue count hbuffer
    refine Sat.ok ?_
    rw [modify_eq_put _ hbuffer]
    refine h.put hbuffer rfl ?_ ?_ ?_ hfew
    · intro f hf
      rcases mem_cons.1 hf with hf | hf
      · exact .inr ⟨by rw [hf], by rw [hf, hname]⟩
      · exact .inl hf
    · have hcount := hat.count_eq
      have hreaders := hat.readers
      have hwriters := hat.writers
      refine ⟨?_, hat.pos, ?_, ?_⟩
      · rw [filesOf_cons, hcount, named_none]
        rfl
      · rw [filesFor_cons, ← hreaders]
        cases mode
        · simp [NamedQueue.openFile, openFile, openReader]
        · simp [NamedQueue.openFile, openFile, openWriter]
      rw [filesFor_cons, ← hwriters]
      cases mode
      · simp [NamedQueue.openFile, openFile, openReader]
      · simp [NamedQueue.openFile, openFile, openWriter]
    · intro b hb
      refine ⟨by rw [filesOf_cons, named_none, add_zero], ?_⟩
      intro mode'
      rw [filesFor_cons, if_neg (fun hand => hb hand.1.symm), add_zero]
  · exact Sat.error rfl

/-- Opening a file keeps the counts, for a mode that says what for. For
another one, it gets through all the same. -/
theorem Tended.doOpen (h : Tended none fs) (name : CString) (mode : UInt32) :
    Sat (fs.doOpen name mode)
      (fun fs' => (QueueFsAction.open name mode).saysWhatFor = true → Tended none fs')
      (· = .heapExhausted) := by
  unfold MessageQueueFS.doOpen
  split
  · exact Sat.ok fun _ => h
  split
  · exact Sat.ok fun _ => h
  next happend =>
  obtain ⟨buffer, fs', queue, count, hget, htended, hfiles, hbuffer, hname⟩ := h.getOrMakeNew name
  refine Sat.step hget ?_
  show Sat (if hasMode mode FILE_OPEN_READ then _ else _) _ _
  split
  · exact (htended.newFile hbuffer hname .reading).mono fun _ h' _ => h'
  next hread =>
  split
  · exact (htended.newFile hbuffer hname .writing).mono fun _ h' _ => h'
  next hwrite =>
  refine Sat.ok fun hmode => ?_
  unfold QueueFsAction.saysWhatFor at hmode
  simp [hread, hwrite, happend] at hmode

-- ==== closing

/-- A queue with a file that is being closed. -/
theorem Tended.closing (h : Tended none fs) (hi : fs.files[i]? = some file) :
    ∃ queue count, fs.mQueues.pointers file.mBuffer = some (queue, count) ∧
      Tended (some file.mBuffer)
        { mQueues := fs.mQueues.put file.mBuffer (queue.closeFile file.mode) count
          files := fs.files.eraseIdx i } := by
  have hperm := perm_eraseIdx hi
  have hmem : file ∈ fs.files := hperm.subset mem_cons_self
  have hof : ∀ b, filesOf fs.files b =
      filesOf (fs.files.eraseIdx i) b + named (some file.mBuffer) b := by
    intro b
    rw [← filesOf_cons]
    exact (hperm.countP_eq _).symm
  have hfor : ∀ mode b, filesFor fs.files mode b = filesFor (fs.files.eraseIdx i) mode b +
        if file.mBuffer = b ∧ file.mode = mode then 1 else 0 := by
    intro mode b
    rw [← filesFor_cons]
    exact (hperm.countP_eq _).symm
  obtain ⟨queue, count, hqueue, _⟩ := h.file file hmem
  have hat := h.queue _ _ _ hqueue
  refine ⟨queue, count, hqueue, h.put hqueue rfl ?_ ?_ ?_ ?_⟩
  · intro f hf
    exact .inl (eraseIdx_subset hf)
  · have hreaders := hat.readers
    have hwriters := hat.writers
    rw [hfor] at hreaders hwriters
    refine ⟨by rw [hat.count_eq, hof, named_none, add_zero], hat.pos, ?_, ?_⟩
    · cases hmode : file.mode with
      | reading =>
        rw [hmode, if_pos ⟨rfl, rfl⟩] at hreaders
        show (if 0 < queue.mNumReaders then _ else _) = _
        rw [hreaders, if_pos (Nat.succ_pos _), Nat.add_sub_cancel]
      | writing =>
        rw [hmode, if_neg (by simp)] at hreaders
        exact hreaders
    cases hmode : file.mode with
    | reading =>
      rw [hmode, if_neg (by simp)] at hwriters
      exact hwriters
    | writing =>
      rw [hmode, if_pos ⟨rfl, rfl⟩] at hwriters
      show (if 0 < queue.mNumWriters then _ else _) = _
      rw [hwriters, if_pos (Nat.succ_pos _), Nat.add_sub_cancel]
  · intro b hb
    refine ⟨by rw [hof b, named_none, add_zero], ?_⟩
    intro mode
    rw [hfor mode b, if_neg (fun hand => hb hand.1.symm), add_zero]
  · have hlen : (fs.files.eraseIdx i).length ≤ fs.files.length :=
      (eraseIdx_sublist _ _).length_le
    exact lt_of_le_of_lt hlen h.few

/-- Giving up the reference that is ahead. The queue goes if nobody reads or
writes it. -/
theorem Tended.release {p : Nat} (h : Tended (some p) fs)
    (hp : fs.mQueues.pointers p = some (queue, count)) :
    ∃ erased store, fs.mQueues.release queue.mName = .ok (erased, store) ∧
      Tended none { fs with mQueues := store } ∧
      (queue.mNumReaders = 0 → queue.mNumWriters = 0 → erased = true) := by
  have hat := h.queue p queue count hp
  have hcount : count = filesOf fs.files p + 1 := by rw [hat.count_eq, named_self]
  have hle : filesOf fs.files p ≤ fs.files.length := countP_le_length
  have hfew := h.few
  rw [release_of_find (h.filed.find hp) hp hat.pos (by omega)]
  by_cases hlast : count = 1
  · have hnone : filesOf fs.files p = 0 := by omega
    rw [if_pos hlast]
    refine ⟨true, _, rfl, ?_, fun _ _ => rfl⟩
    refine h.change rfl (h.filed.erase hp) le_rfl (fun _ => rfl) (fun f hf _ => hf)
      (fun f hf heq => ?_) nofun
      (fun b hb => ⟨by rw [named_of_ne hb.symm, named_none], fun _ => rfl⟩) h.few
    exact absurd (decide_eq_true heq) (countP_eq_zero.1 hnone f hf)
  rw [if_neg hlast]
  refine ⟨false, _, rfl, ?_, ?_⟩
  · refine h.put hp rfl (fun f hf => .inl hf) ?_ ?_ h.few
    · exact ⟨by rw [hcount, named_none, Nat.add_sub_cancel, add_zero],
        by omega, hat.readers, hat.writers⟩
    · intro b hb
      exact ⟨by rw [named_of_ne hb.symm, named_none], fun _ => rfl⟩
  · intro hreaders hwriters
    have hsum := filesOf_eq fs.files p
    rw [← hat.readers, ← hat.writers, hreaders, hwriters] at hsum
    omega

/-- Closing one of the open files goes through. -/
theorem Tended.doClose (h : Tended none fs) (hi : fs.files[i]? = some file) :
    ∃ fs', { fs with files := fs.files.eraseIdx i }.doClose file = .ok fs' ∧ Tended none fs' := by
  obtain ⟨queue, count, hqueue, hclosing⟩ := h.closing hi
  have hpointer : (fs.mQueues.put file.mBuffer (queue.closeFile file.mode)
      count).pointers file.mBuffer = some (queue.closeFile file.mode, count) :=
    update_self ..
  obtain ⟨erased, store, hrelease, htended, herased⟩ := hclosing.release hpointer
  refine ⟨_, ?_, htended⟩
  unfold MessageQueueFS.doClose
  dsimp only
  rw [modify_eq_put _ hqueue, hpointer]
  show (Except.bind ((fs.mQueues.put file.mBuffer (queue.closeFile file.mode)
    count).release (queue.closeFile file.mode).mName) _) = _
  have hrelease : (fs.mQueues.put file.mBuffer (queue.closeFile file.mode)
    count).release (queue.closeFile file.mode).mName = .ok (erased, store) := hrelease
  rw [hrelease]
  show (if (queue.closeFile file.mode).mNumReaders = 0 ∧
    (queue.closeFile file.mode).mNumWriters = 0 ∧ erased = false then _ else _) = _
  rw [if_neg]
  rintro ⟨hreaders, hwriters, hfalse⟩
  rw [herased hreaders hwriters] at hfalse
  cases hfalse

-- ==== over whole runs

/-- No step finds a leak, and one that says what for makes none. -/
theorem Tended.step (h : Tended none fs) (a : QueueFsAction) :
    Sat (queueFs.step a fs) (fun fs' => a.saysWhatFor = true → Tended none fs')
      (· ≠ .queueLeaked) := by
  cases a with
  | «open» name mode =>
    have hopen := h.doOpen name mode
    show Sat (fs.doOpen name mode) _ _
    cases hresult : fs.doOpen name mode with
    | ok fs' => exact hopen.result hresult
    | error e =>
      have he : e = .heapExhausted := hopen.failure hresult
      rw [he]
      exact Sat.error (by decide)
  | close i =>
    dsimp only [queueFs]
    cases hi : fs.files[i]? with
    | none => exact Sat.error (by decide)
    | some file =>
      obtain ⟨fs', hclose, htended⟩ := h.doClose hi
      show Sat ({ fs with files := fs.files.eraseIdx i }.doClose file) _ _
      rw [hclose]
      exact Sat.ok fun _ => htended

theorem tended_of_reach
    (h : queueFs.Reach (fun _ a => a.saysWhatFor = true) fs) : Tended none fs := by
  refine Machine.Reach.invariant (I := Tended none) ?_ ?_ h
  · intro fs hboot
    rw [show fs = {} from hboot]
    exact tended_boot
  · intro fs fs' a htended ha hstep
    exact (htended.step a).result hstep ha

/-- The files by a name are those of the queue of that name. -/
theorem Tended.openFiles_eq (h : Tended none fs) (name : CString) :
    fs.mQueues.count name = fs.openFiles name := by
  unfold count openFiles
  cases hfind : fs.mQueues.mHash.find name with
  | none =>
    symm
    refine countP_eq_zero.2 ?_
    intro f hf hname
    obtain ⟨queue, count, hqueue, hqname⟩ := h.file f hf
    have hfound := (h.filed name f.mBuffer).2
      ⟨queue, count, hqueue, hqname.trans (of_decide_eq_true hname)⟩
    cases hfind.symm.trans hfound
  | some p =>
    obtain ⟨queue, count, hp, hname⟩ := (h.filed name p).1 hfind
    rw [Option.bind_some, hp]
    rw [(h.queue p queue count hp).count_eq, named_none, add_zero]
    refine countP_congr ?_
    intro f hf
    obtain ⟨queue', count', hqueue', hqname⟩ := h.file f hf
    have hfound := (h.filed f.name f.mBuffer).2 ⟨queue', count', hqueue', hqname⟩
    simp only [decide_eq_true_eq]
    constructor
    · intro hbuffer
      rw [hbuffer, hp] at hqueue'
      injection hqueue' with hqueue'
      injection hqueue' with hqueue' _
      rw [← hqname, ← hqueue', hname]
    · intro hfname
      rw [hfname, hfind] at hfound
      injection hfound with hfound
      exact hfound.symm

theorem Tended.owned (h : Tended none fs) : Owned fs where
  counted := h.openFiles_eq
  kept := by
    intro buffer
    constructor
    · intro hsome
      obtain ⟨⟨queue, count⟩, hqueue⟩ := Option.isSome_iff_exists.1 hsome
      have hat := h.queue buffer queue count hqueue
      have hpos : 0 < filesOf fs.files buffer := by
        have hcount := hat.count_eq
        rw [named_none, add_zero] at hcount
        rw [← hcount]
        exact hat.pos
      obtain ⟨f, hf, hbuffer⟩ := countP_pos_iff.1 hpos
      exact ⟨f, hf, of_decide_eq_true hbuffer⟩
    · rintro ⟨f, hf, hbuffer⟩
      obtain ⟨queue, count, hqueue, _⟩ := h.file f hf
      rw [← hbuffer, hqueue]
      rfl
  notLeaked := fun a hstep => (h.step a).failure hstep rfl

/-- **Named queues have owners.** As long as every file is opened for
something, the store's counts are the numbers of open files, a queue
exists as long as one of its files is open, and `doClose` never panics. -/
theorem owned_of_saysWhatFor (h : queueFs.Reach (fun _ a => a.saysWhatFor = true) fs) : Owned fs :=
  (tended_of_reach h).owned

/-- Two files of one queue, the first of them closed. -/
theorem owned_of_saysWhatFor_shared : ∃ fs,
    queueFs.run [.open [97] 1, .open [97] 2, .open [98] 19, .close 0] {} = .ok fs ∧
      fs.openFiles [97] = 1 ∧ Owned fs := by
  obtain ⟨fs, hrun, hopen⟩ := Machine.exists_run (M := queueFs)
    (P := fun fs => fs.openFiles [97] = 1)
    [.open [97] 1, .open [97] 2, .open [98] 19, .close 0] {}
    (by decide +kernel)
  refine ⟨fs, hrun, hopen, owned_of_saysWhatFor ?_⟩
  refine Machine.Reach.run (.boot rfl) (Machine.guarded_of_forall ?_ _) hrun
  intro a ha _
  revert a
  decide

/-- A file is opened for nothing, and again for reading. When that file is
closed, nobody has the queue open and it is still there. -/
theorem queueFs_not_owned : ¬ ∀ fs, queueFs.Reach Machine.anyStep fs → Owned fs := by
  intro hall
  obtain ⟨fs, hrun, hleaked⟩ := Machine.endsWith_iff.1
    (show queueFs.endsWith [.open [97] 0, .open [97] 1] {}
      (fun fs => (queueFs.step (.close 0) fs).casesOn (fun e => decide (e = .queueLeaked))
        fun _ => false) = true by decide +kernel)
  refine (hall fs (Machine.reach_run rfl hrun)).notLeaked (.close 0) ?_
  cases hstep : queueFs.step (.close 0) fs with
  | ok fs' =>
    rw [hstep] at hleaked
    cases hleaked
  | error e =>
    rw [hstep] at hleaked
    rw [of_decide_eq_true hleaked]

-- ==== one queue of many

/-- The queue of a name is the one of `Queueing`, or it is yet to be made. -/
def Depicts (fs : MessageQueueFS) (name : CString) (s : Queueing) : Prop :=
  (fs.mQueues.mHash.find name = none ∧ s.clients = 0 ∧ s.buffer = {}) ∨
    ∃ b q, fs.mQueues.mHash.find name = some b ∧ fs.mQueues.pointers b = some (q, s.clients) ∧
      q.mName = name ∧ q.toMessageQueueBuffer = s.buffer

/-- The flag that a file is opened with. -/
def flag : QueueMode → UInt32
  | .reading => FILE_OPEN_READ
  | .writing => FILE_OPEN_WRITE

section Depicts

variable {name : CString} {s : Queueing}

/-- Opening a file by name does to its queue what it does to a single one. -/
theorem Depicts.doOpen (h : fs.Depicts name s) (hroom : fs.files.length + 1 < 0x10000000)
    (hclients : s.clients + 1 < 0x100000000) (p : Nat) (mode : QueueMode) :
    ∃ fs', fs.doOpen name (flag mode) = .ok fs' ∧ fs'.Depicts name (s.doOpen p mode) := by
  have hdone : (s.doOpen p mode).clients = s.clients + 1 ∧
      (s.doOpen p mode).buffer = s.buffer.openFile mode := by
    cases mode <;> exact ⟨rfl, rfl⟩
  have hopen : ∀ {b store q}, fs.getOrMakeNew name = .ok (some (b, { fs with mQueues := store })) →
      store.mHash.find name = some b → store.pointers b = some (q, s.clients + 1) →
      q.mName = name → q.toMessageQueueBuffer = s.buffer →
      ∃ fs', fs.doOpen name (flag mode) = .ok fs' ∧ fs'.Depicts name (s.doOpen p mode) := by
    intro b store q hget hfind hpointer hname hbuffer
    refine ⟨{ mQueues := store.modify b (·.openFile mode), files := ⟨mode, b, name⟩ :: fs.files },
      ?_, .inr ⟨b, q.openFile mode, hfind, ?_, hname, ?_⟩⟩
    · unfold MessageQueueFS.doOpen
      rw [hget]
      cases mode <;> exact if_pos hroom
    · rw [modify_eq_put _ hpointer, hdone.1]
      exact update_self _ _ _
    · rw [hdone.2, ← hbuffer]
      rfl
  rcases h with ⟨hnone, hzero, hbuffer⟩ | ⟨b, q, hfind, hpointer, hname, hbuffer⟩
  · have hget : fs.getOrMakeNew name = .ok (some (fs.mQueues.made, { fs with mQueues :=
        { mHash := fs.mQueues.mHash.insert name fs.mQueues.made
          pointers := update fs.mQueues.pointers fs.mQueues.made (some ({ mName := name }, 1))
          made := fs.mQueues.made + 1 } })) := by
      unfold MessageQueueFS.getOrMakeNew getOrNull makeOrNull
      rw [hnone]
      rfl
    refine hopen (q := { mName := name }) hget ?_ ?_ rfl hbuffer.symm
    · rw [Hash.find_insert, if_pos rfl]
    · rw [hzero]
      exact update_self _ _ _
  · have hget : fs.getOrMakeNew name = .ok (some (b, { fs with
        mQueues := fs.mQueues.put b q (s.clients + 1) })) := by
      unfold MessageQueueFS.getOrMakeNew
      rw [getOrNull_of_find hfind hpointer, add32_of_lt hclients]
      rfl
    exact hopen hget hfind (update_self _ _ _) hname hbuffer

/-- So does closing one, down to the panic. -/
theorem Depicts.doClose (h : fs.Depicts name s)
    (hfile : fs.mQueues.mHash.find name = some file.mBuffer) (hpos : 0 < s.clients)
    (hclients : s.clients < 0x100000000) :
    (∀ s', s.doClose file.mode = .ok s' → ∃ fs', fs.doClose file = .ok fs' ∧ fs'.Depicts name s') ∧
      ∀ e, s.doClose file.mode = .error e → fs.doClose file = .error e := by
  obtain ⟨b, q, hfind, hpointer, rfl, hbuffer⟩ : ∃ b q, fs.mQueues.mHash.find name = some b ∧
      fs.mQueues.pointers b = some (q, s.clients) ∧ q.mName = name ∧
      q.toMessageQueueBuffer = s.buffer := by
    refine h.resolve_left fun hnone => ?_
    cases hnone.1.symm.trans hfile
  obtain rfl := Option.some.inj (hfind.symm.trans hfile)
  set store := fs.mQueues.put file.mBuffer (q.closeFile file.mode) s.clients with hstore
  have hput : store.pointers file.mBuffer = some (q.closeFile file.mode, s.clients) :=
    update_self _ _ _
  have hkey : store.mHash.find (q.closeFile file.mode).mName = some file.mBuffer := hfind
  unfold MessageQueueFS.doClose Queueing.doClose
  dsimp only
  rw [modify_eq_put _ hpointer, ← hstore, hput]
  dsimp only
  rw [release_of_find hkey hput hpos hclients, ← hbuffer]
  by_cases hlast : s.clients = 1
  · rw [if_pos hlast, if_pos hlast]
    refine ⟨?_, nofun⟩
    rintro _ ⟨⟩
    refine ⟨_, if_neg (fun h => by cases h.2.2), .inl ⟨?_, rfl, rfl⟩⟩
    exact (Hash.find_erase _ _ _).trans (if_pos rfl)
  rw [if_neg hlast, if_neg hlast]
  by_cases hnone : (q.toMessageQueueBuffer.closeFile file.mode).mNumReaders = 0 ∧
      (q.toMessageQueueBuffer.closeFile file.mode).mNumWriters = 0
  · rw [if_pos hnone]
    refine ⟨nofun, ?_⟩
    rintro _ ⟨⟩
    exact if_pos ⟨hnone.1, hnone.2, rfl⟩
  rw [if_neg hnone]
  refine ⟨?_, nofun⟩
  rintro _ ⟨⟩
  refine ⟨_, if_neg fun h => hnone ⟨h.1, h.2.1⟩, .inr ⟨_, q.closeFile file.mode, hfind, ?_⟩⟩
  exact ⟨update_self _ _ _, rfl, rfl⟩

end Depicts

end MessageQueueFS

end Puppy.Synch
