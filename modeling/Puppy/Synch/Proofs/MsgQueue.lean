/-
A message queue is a queue of messages.

What reads have returned, followed by what is in the buffer, is what
writes have put in (`stream`), in every run. As to waiting, a message and
a free slot each wake everybody up who could use it. The end of the last
writer wakes nobody up, and there the guard is needed.
-/
import Puppy.Lib.Except
import Puppy.Synch.MsgQueue

namespace Puppy.Synch

open Lib MessageQueueBuffer Places Machine List

variable {call : QueueCall} {allowBlock : Bool}

-- ==== one message

namespace MessageQueueBuffer

variable {b b' : MessageQueueBuffer} {msg : Message}

theorem tryRead_some (h : b.tryRead = some (msg, b')) : ∃ ring, b.ring.tryGet = some (msg, ring) ∧
      b' = { b with ring := ring } := by
  unfold tryRead at h
  cases hget : b.ring.tryGet with
  | none =>
    rw [hget] at h
    cases h
  | some x =>
    obtain ⟨msg', ring⟩ := x
    rw [hget] at h
    injection h with h
    injection h with hmsg hb
    exact ⟨ring, by rw [hmsg], hb.symm⟩

theorem tryWrite_some (h : b.tryWrite msg = some b') :
    ∃ ring, b.ring.tryPut msg = some ring ∧ b' = { b with ring := ring } := by
  unfold tryWrite at h
  cases hput : b.ring.tryPut msg with
  | none =>
    rw [hput] at h
    cases h
  | some ring =>
    rw [hput] at h
    injection h with h
    exact ⟨ring, rfl, h.symm⟩

/-- How many files there are of a kind. -/
def num (b : MessageQueueBuffer) : QueueMode → Nat
  | .reading => b.mNumReaders
  | .writing => b.mNumWriters

variable {mode other : QueueMode}

@[simp]
theorem ring_openFile : (b.openFile mode).ring = b.ring := by
  cases mode <;> rfl

@[simp]
theorem ring_closeFile : (b.closeFile mode).ring = b.ring := by
  cases mode <;> rfl

theorem num_openFile : (b.openFile mode).num other
    = if other = mode then b.num mode + 1 else b.num other := by
  cases mode <;> cases other <;> rfl

theorem num_closeFile : (b.closeFile mode).num other
    = if other = mode then b.num mode - 1 else b.num other := by
  have hdec : ∀ n : Nat, (if 0 < n then n - 1 else n) = n - 1 := by
    intro n
    split <;> omega
  cases mode <;> cases other
  · exact hdec _
  · rfl
  · rfl
  · exact hdec _

end MessageQueueBuffer

-- ==== descriptors

section Descriptors

variable {files : List (List Nat)} {users users' : List Nat} {i q : Nat}

/-- Whoever has a descriptor keeps it when another file changes hands. -/
theorem mem_flatten_set (hi : files[i]? = some users)
    (hkeep : q ∈ users → q ∈ users') (hq : q ∈ files.flatten) :
    q ∈ (files.set i users').flatten := by
  obtain ⟨l, hl, hql⟩ := mem_flatten.1 hq
  obtain ⟨j, hj⟩ := mem_iff_getElem?.1 hl
  rw [mem_flatten]
  by_cases hji : j = i
  · rw [hji, hi] at hj
    injection hj with hj
    have hlen := (List.getElem?_eq_some_iff.1 hi).1
    exact ⟨users', List.mem_of_getElem? (List.getElem?_set_self hlen), hkeep (hj ▸ hql)⟩
  · refine ⟨l, mem_of_getElem? (i := j) ?_, hql⟩
    rw [getElem?_set_ne (Ne.symm hji)]
    exact hj

theorem mem_flatten_eraseIdx (hi : files[i]? = some users)
    (hkeep : q ∉ users) (hq : q ∈ files.flatten) :
    q ∈ (files.eraseIdx i).flatten := by
  obtain ⟨l, hl, hql⟩ := mem_flatten.1 hq
  obtain ⟨j, hj⟩ := mem_iff_getElem?.1 hl
  have hji : j ≠ i := by
    intro hji
    rw [hji, hi] at hj
    injection hj with hj
    exact hkeep (hj ▸ hql)
  exact mem_flatten.2 ⟨l, mem_eraseIdx_iff_getElem?.2 ⟨j, hji, hj⟩, hql⟩

end Descriptors

namespace Queueing

variable {s s' : Queueing} {p q i : Nat} {mode other : QueueMode}
  {files : List (List Nat)} {places : Places QueueCall} {msg : Message}
  {users : List Nat} {a : QueueAction}

theorem files_setFiles : (s.setFiles files mode).files other
      = if other = mode then files else s.files other := by
  cases mode <;> cases other <;> rfl

/-- Files are put in another's place, and nothing else changes. -/
theorem setFiles_fields : (s.setFiles files mode).buffer = s.buffer ∧
      (s.setFiles files mode).clients = s.clients ∧
      (s.setFiles files mode).places = s.places ∧
      (s.setFiles files mode).accepted = s.accepted ∧
      (s.setFiles files mode).delivered = s.delivered := by
  cases mode <;> exact ⟨rfl, rfl, rfl, rfl, rfl⟩

/-- How many files there are. -/
def numFiles (s : Queueing) : Nat :=
  (s.files .reading).length + (s.files .writing).length

theorem numFiles_setFiles : (s.setFiles files mode).numFiles + (s.files mode).length
      = s.numFiles + files.length := by
  cases mode
  · show files.length + s.writers.length + s.readers.length
      = s.readers.length + s.writers.length + files.length
    omega
  · show s.readers.length + files.length + s.writers.length
      = s.readers.length + s.writers.length + files.length
    omega

-- ==== delivery

/-- Whoever is in a call has a descriptor for it. -/
def Inside (s : Queueing) (places : Places QueueCall) : Prop :=
  ∀ p call, (places p).call = some call → p ∈ (s.files (needs call)).flatten

theorem Inside.outside (h : Inside s places) : Inside s (places.put p .outside) := by
  intro q call hq
  rcases call_put hq with ⟨_, ⟨⟩⟩ | ⟨_, hcall⟩
  · exact h q call hcall

theorem Inside.wakeall {waits : QueueCall → Bool} (h : Inside s places) :
    Inside s (places.wakeall waits) := by
  intro q call hq
  exact h q call (call_wakeall.symm.trans hq)

theorem Inside.setFiles (h : Inside s s.places)
    (hkeep : ∀ q call, (s.places q).call = some call → needs call = mode →
      q ∈ files.flatten) : Inside (s.setFiles files mode) s.places := by
  intro q call hq
  rw [files_setFiles]
  split
  next heq => exact hkeep q call hq heq
  · exact h q call hq

structure Streaming (s : Queueing) : Prop where
  sound : s.buffer.ring.Sound
  stream : s.delivered ++ s.buffer.ring.contents = s.accepted
  num : ∀ mode, s.buffer.num mode = (s.files mode).length
  clients : s.clients = s.numFiles
  inside : Inside s s.places

section

variable (h : Streaming s)
include h

theorem Streaming.giveUp : Streaming (s.giveUp p) :=
  ⟨h.sound, h.stream, h.num, h.clients, h.inside.outside⟩

/-- A process waits. -/
theorem Streaming.block (hp : p ∈ (s.files (needs call)).flatten) :
    Streaming { s with places := s.places.put p (.blocked call) } := by
  refine ⟨h.sound, h.stream, h.num, h.clients, ?_⟩
  intro q c hq
  rcases call_put hq with ⟨hqp, hcall⟩ | ⟨_, hcall⟩
  · injection hcall with hcall
    rw [hqp, ← hcall]
    exact hp
  · exact h.inside q c hcall

theorem Streaming.read (hp : p ∈ s.readers.flatten) : Streaming (s.read p allowBlock) := by
  unfold Queueing.read
  split
  · split
    · exact h.block hp
    · exact h.giveUp
  split
  · exact h.giveUp
  next msg buffer hread =>
  obtain ⟨ring, hget, hb⟩ := tryRead_some hread
  obtain ⟨hsound, hcontents, _, _⟩ := RingBuffer.tryGet_some h.sound hget
  rw [hb]
  refine ⟨hsound, ?_, h.num, h.clients, h.inside.outside.wakeall⟩
  rw [append_assoc, singleton_append, ← hcontents]
  exact h.stream

theorem Streaming.write (hp : p ∈ s.writers.flatten) : Streaming (s.write p msg allowBlock) := by
  unfold Queueing.write
  split
  · split
    · exact h.block hp
    · exact h.giveUp
  split
  · exact h.giveUp
  next buffer hwrite =>
  obtain ⟨ring, hput, hb⟩ := tryWrite_some hwrite
  obtain ⟨hsound, hcontents, _, _⟩ := RingBuffer.tryPut_some h.sound hput
  rw [hb]
  refine ⟨hsound, ?_, h.num, h.clients, h.inside.outside.wakeall⟩
  rw [hcontents, ← append_assoc, h.stream]

theorem Streaming.proceed (hp : p ∈ (s.files (needs call)).flatten) :
    Streaming (s.proceed p call) := by
  cases call with
  | read allowBlock => exact h.read hp
  | write msg allowBlock => exact h.write hp

-- ==== files

/-- Descriptors come and go, the files stay. -/
theorem Streaming.setFiles (hlen : files.length = (s.files mode).length)
    (hkeep : ∀ q call, (s.places q).call = some call → needs call = mode →
      q ∈ files.flatten) : Streaming (s.setFiles files mode) := by
  obtain ⟨hbuffer, hclients, hplaces, haccepted, hdelivered⟩ := @setFiles_fields s mode files
  have hnum := @numFiles_setFiles s mode files
  refine ⟨?_, ?_, ?_, ?_, ?_⟩
  · rw [hbuffer]
    exact h.sound
  · rw [hbuffer, haccepted, hdelivered]
    exact h.stream
  · intro other
    rw [hbuffer, files_setFiles, h.num]
    split
    next heq => rw [heq, hlen]
    · rfl
  · rw [hclients, h.clients]
    omega
  · rw [hplaces]
    exact h.inside.setFiles hkeep

theorem Streaming.doOpen : Streaming (s.doOpen p mode) := by
  obtain ⟨hbuffer, hclients, hplaces, haccepted, hdelivered⟩ :=
    @setFiles_fields s mode ([p] :: s.files mode)
  have hnum := @numFiles_setFiles s mode ([p] :: s.files mode)
  rw [length_cons] at hnum
  unfold Queueing.doOpen
  refine ⟨?_, ?_, ?_, ?_, ?_⟩
  · rw [ring_openFile, hbuffer]
    exact h.sound
  · rw [ring_openFile, hbuffer, haccepted, hdelivered]
    exact h.stream
  · intro other
    show MessageQueueBuffer.num _ other
      = ((s.setFiles ([p] :: s.files mode) mode).files other).length
    rw [MessageQueueBuffer.num_openFile, files_setFiles, hbuffer, h.num, h.num]
    split <;> rfl
  · show _ + 1 = (s.setFiles ([p] :: s.files mode) mode).numFiles
    rw [hclients, h.clients]
    omega
  rw [hplaces]
  refine h.inside.setFiles ?_
  intro q call hq heq
  rw [flatten_cons, ← heq]
  exact mem_append_right _ (h.inside q call hq)

end

/-- A queue that has just been made. -/
theorem initial_ring : ({} : MessageQueueBuffer).ring.Sound ∧
    ([] : List Message) ++ ({} : MessageQueueBuffer).ring.contents = [] :=
  ⟨RingBuffer.sound_empty (by decide), (nil_append _).trans (RingBuffer.contents_eq_nil rfl)⟩

/-- A file goes, with everybody who was using it. The queue goes with the
last file. -/
theorem Streaming.doClose (h : Streaming s) (hlen : files.length + 1 = (s.files mode).length)
    (hkeep : ∀ q call, (s.places q).call = some call → needs call = mode → q ∈ files.flatten)
    (hclose : (s.setFiles files mode).doClose mode = .ok s') :
    Streaming s' := by
  obtain ⟨hbuffer, hclients, hplaces, haccepted, hdelivered⟩ := @setFiles_fields s mode files
  have hnum := @numFiles_setFiles s mode files
  have hinside := h.inside.setFiles hkeep
  have htotal := h.clients
  unfold Queueing.doClose at hclose
  rw [hclients, hplaces] at hclose
  split at hclose
  next hlast =>
    injection hclose with hclose
    have hnone : (s.setFiles files mode).numFiles = 0 := by omega
    rw [← hclose]
    refine ⟨initial_ring.1, initial_ring.2, ?_, hnone.symm, hinside⟩
    have hboth : (s.setFiles files mode).readers.length
        + (s.setFiles files mode).writers.length = 0 := hnone
    intro other
    cases other
    · show 0 = (s.setFiles files mode).readers.length
      omega
    · show 0 = (s.setFiles files mode).writers.length
      omega
  next hlast =>
  obtain ⟨_, ⟨⟩⟩ := reject_eq_ok.1 hclose
  refine ⟨?_, ?_, ?_, ?_, ?_⟩
  · rw [ring_closeFile, hbuffer]
    exact h.sound
  · rw [ring_closeFile, hbuffer, haccepted, hdelivered]
    exact h.stream
  · intro other
    show MessageQueueBuffer.num _ other = ((s.setFiles files mode).files other).length
    rw [MessageQueueBuffer.num_closeFile, files_setFiles, hbuffer, h.num, h.num]
    split
    · omega
    · rfl
  · show s.clients - 1 = (s.setFiles files mode).numFiles
    omega
  · exact hinside

/-- The queue is erased when its last file is closed, so nothing leaks. -/
theorem Streaming.doClose_ok (h : Streaming s) (hlen : files.length + 1 = (s.files mode).length) :
    ∃ s', (s.setFiles files mode).doClose mode = .ok s' := by
  obtain ⟨hbuffer, hclients, _, _, _⟩ := @setFiles_fields s mode files
  have hnum := @numFiles_setFiles s mode files
  have htotal := h.clients
  have hcount : ∀ other, ((s.setFiles files mode).buffer.closeFile mode).num other
        = ((s.setFiles files mode).files other).length := by
    intro other
    rw [num_closeFile, files_setFiles, hbuffer, h.num, h.num]
    split
    · omega
    · rfl
  unfold Queueing.doClose
  dsimp only
  split
  · exact ⟨_, rfl⟩
  next hlast =>
  split
  next hnone =>
    have hreaders := (hcount .reading).symm.trans hnone.1
    have hwriters := (hcount .writing).symm.trans hnone.2
    have hzero : (s.setFiles files mode).numFiles = 0 := by
      unfold numFiles
      omega
    rw [hclients] at hlast
    exact absurd (by omega) hlast
  · exact ⟨_, rfl⟩

/-- Whoever is in a call still has a descriptor when another process has
closed one. -/
theorem Streaming.kept (h : Streaming s) (hi : (s.files mode)[i]? = some users)
    (hout : s.places p = .outside) :
    ∀ q call, (s.places q).call = some call → needs call = mode →
      q ∈ (if users.erase p = [] then (s.files mode).eraseIdx i
        else (s.files mode).set i (users.erase p)).flatten := by
  intro q call hq heq
  have hmem := h.inside q call hq
  rw [heq] at hmem
  have hqp : q ≠ p := by
    intro hqp
    rw [hqp, hout] at hq
    cases hq
  have hkeep : q ∈ users → q ∈ users.erase p := fun hmem => (mem_erase_of_ne hqp).2 hmem
  split
  next hlast =>
    refine mem_flatten_eraseIdx hi ?_ hmem
    intro hmem
    have hnone := hkeep hmem
    rw [hlast] at hnone
    cases hnone
  · exact mem_flatten_set hi hkeep hmem

theorem Streaming.close (h : Streaming s)
    (hi : (s.files mode)[i]? = some users) (hout : s.places p = .outside)
    (hclose : s.close p mode i users = .ok s') : Streaming s' := by
  have hkept := h.kept hi hout
  unfold Queueing.close at hclose
  split at hclose
  next hlast =>
    rw [if_pos hlast] at hkept
    refine h.doClose ?_ hkept hclose
    have hlt := (List.getElem?_eq_some_iff.1 hi).1
    rw [List.length_eraseIdx_of_lt hlt]
    omega
  next hmore =>
  rw [if_neg hmore] at hkept
  exact of_ok hclose (h.setFiles (length_set ..) hkept)

-- ==== steps and runs

/-- No message is lost or doubled in a step. -/
theorem Streaming.step (h : Streaming s) (hstep : step a s = .ok s') : Streaming s' := by
  cases a with
  | openFile p mode =>
    simp only [Queueing.step] at hstep
    obtain ⟨_, ⟨⟩⟩ := check_eq_ok.1 hstep
    exact h.doOpen
  | share p q mode i =>
    simp only [Queueing.step] at hstep
    split at hstep
    · cases hstep
    next users hi =>
    obtain ⟨_, ⟨⟩⟩ := check_eq_ok.1 hstep
    refine h.setFiles (length_set ..) ?_
    intro r call hr heq
    have hmem := h.inside r call hr
    rw [heq] at hmem
    exact mem_flatten_set hi (mem_cons_of_mem _) hmem
  | close p mode i =>
    simp only [Queueing.step] at hstep
    split at hstep
    · cases hstep
    next users hi =>
    obtain ⟨hcan, hstep⟩ := check_eq_ok.1 hstep
    exact h.close hi hcan.1 hstep
  | read p n allowBlock =>
    simp only [Queueing.step] at hstep
    obtain ⟨hcan, hstep⟩ := check_eq_ok.1 hstep
    split at hstep
    · exact of_ok hstep h
    · exact of_ok hstep (h.read hcan.2)
  | write p src timestamp allowBlock =>
    simp only [Queueing.step] at hstep
    obtain ⟨hcan, hstep⟩ := check_eq_ok.1 hstep
    split at hstep
    · exact of_ok hstep h
    · exact of_ok hstep (h.write hcan.2)
  | resume p =>
    simp only [Queueing.step] at hstep
    split at hstep
    next call t hp =>
      exact of_ok hstep (h.proceed (h.inside p call (by rw [hp]; rfl)))
    · cases hstep
  | abandon p =>
    simp only [Queueing.step] at hstep
    split at hstep
    · exact of_ok hstep h.giveUp
    · cases hstep

/-- Nor in a run. -/
theorem streaming_of_reach {ok : Queueing → QueueAction → Prop}
    (h : queueing.Reach ok s) : Streaming s := by
  refine Reach.invariant ?_ ?_ h
  · rintro s rfl
    refine ⟨initial_ring.1, initial_ring.2, ?_, rfl, ?_⟩
    · intro mode
      cases mode <;> rfl
    · intro p call hp
      cases hp
  · intro s s' a hs _ hstep
    exact hs.step hstep

/-- Closing never panics. -/
theorem Streaming.close_ok (h : Streaming s) (hi : (s.files mode)[i]? = some users) :
    ∃ s', s.close p mode i users = .ok s' := by
  unfold Queueing.close
  split
  · refine h.doClose_ok ?_
    have hlt := (List.getElem?_eq_some_iff.1 hi).1
    rw [List.length_eraseIdx_of_lt hlt]
    omega
  · exact ⟨_, rfl⟩

/-- The check for leaks in `doClose` never fails. -/
theorem never_leaked (h : queueing.Reach anyStep s) (p : Nat) (mode : QueueMode) (i : Nat) :
    queueing.step (.close p mode i) s ≠ .error .queueLeaked := by
  have hstream := streaming_of_reach h
  show step (.close p mode i) s ≠ _
  simp only [Queueing.step]
  split
  · nofun
  next users hi =>
  split
  · obtain ⟨s', hs'⟩ := hstream.close_ok (p := p) hi
    intro hstep
    cases hs'.symm.trans hstep
  · nofun

/-- A reader and a writer, whose file another process has too. A message is
sent, the writer's file is closed twice, and then the last one. -/
theorem never_leaked_last : ∃ s, queueing.Reach anyStep s ∧
    (s.clients = 1 ∧ s.buffer.mNumReaders = 1 ∧ s.accepted.length = 1) ∧
    queueing.step (.close 1 .reading 0) s ≠ .error .queueLeaked := by
  obtain ⟨s, hreach, hlast⟩ := exists_reach (M := queueing)
    (P := fun s => s.clients = 1 ∧ s.buffer.mNumReaders = 1 ∧ s.accepted.length = 1) rfl
    [.openFile 1 .reading, .openFile 2 .writing, .share 2 3 .writing 0, .write 2 [7] 0 true,
      .close 2 .writing 0, .close 3 .writing 0] (by decide)
  exact ⟨s, hreach, hlast, never_leaked hreach 1 .reading 0⟩

/-- Messages are delivered in the order in which they were accepted, and
the buffer's own account of them is right. -/
theorem messages_delivered {s : Queueing} (h : queueing.Reach anyStep s) :
    s.delivered <+: s.accepted ∧ Consistent s := by
  have hstream := streaming_of_reach h
  exact ⟨⟨_, hstream.stream⟩, ⟨zero_le, hstream.sound.free_le⟩,
    hstream.sound.read_lt, hstream.sound.write_eq⟩

/-- Two messages are written and one of them is read. -/
theorem messages_delivered_two : ∃ s, queueing.Reach anyStep s ∧ s.delivered = [⟨2, 0, 1, [7]⟩] ∧
    s.accepted = [⟨2, 0, 1, [7]⟩, ⟨2, 0, 1, [8]⟩] ∧
    (s.delivered <+: s.accepted ∧ Consistent s) := by
  obtain ⟨s, hreach, hdelivered, haccepted⟩ := exists_reach
    (M := queueing) (P := fun s => s.delivered = [⟨2, 0, 1, [7]⟩] ∧
      s.accepted = [⟨2, 0, 1, [7]⟩, ⟨2, 0, 1, [8]⟩]) rfl
    [.openFile 1 .reading, .openFile 2 .writing, .read 1 gTotalSize true,
      .write 2 [7] 0 true, .write 2 [8] 0 false, .resume 1]
    (by decide +kernel)
  exact ⟨s, hreach, hdelivered, haccepted, messages_delivered hreach⟩

-- ==== waiting

/-- There is nothing to read just when every slot is free. -/
theorem Streaming.empty_iff (h : Streaming s) : s.buffer.ring.contents = [] ↔
      s.buffer.mFreeSize = s.buffer.mTotalSize := by
  have hle := h.sound.free_le
  rw [← length_eq_zero_iff, RingBuffer.contents_length]
  show s.buffer.mTotalSize - s.buffer.mFreeSize = 0 ↔ _
  have hle : s.buffer.mFreeSize ≤ s.buffer.mTotalSize := hle
  omega

section

variable (hu : Unblocked s)
include hu

theorem Unblocked.giveUp : Unblocked (s.giveUp p) := by
  constructor
  · intro q b hq
    exact hu.readers q b (put_outside_eq_blocked hq)
  · intro q msg b hq
    exact hu.writers q msg b (put_outside_eq_blocked hq)

theorem Unblocked.block (hread : ∀ b, call = .read b → s.buffer.ring.contents = [] ∧ s.writers ≠ [])
    (hwrite : ∀ msg b, call = .write msg b → s.buffer.mFreeSize = 0) :
    Unblocked { s with places := s.places.put p (.blocked call) } := by
  constructor
  · intro q b hq
    rcases put_eq_blocked hq with ⟨_, hcall⟩ | ⟨_, hcall⟩
    · injection hcall with hcall
      exact hread b hcall
    · exact hu.readers q b hcall
  intro q msg b hq
  rcases put_eq_blocked hq with ⟨_, hcall⟩ | ⟨_, hcall⟩
  · injection hcall with hcall
    exact hwrite msg b hcall
  · exact hu.writers q msg b hcall

/-- A message that is taken out wakes up every writer, and there is no
reader to wait while there is one. -/
theorem Unblocked.read (h : Streaming s) : Unblocked (s.read p allowBlock) := by
  have hnum : s.buffer.mNumWriters = s.writers.length := h.num .writing
  unfold Queueing.read
  split
  next hwait =>
    split
    · refine hu.block ?_ ?_
      · intro b _
        refine ⟨h.empty_iff.2 hwait.1, ?_⟩
        rw [hnum] at hwait
        exact fun hnil => hwait.2 (length_eq_zero_iff.2 hnil)
      · intro msg b hcall
        cases hcall
    · exact hu.giveUp
  split
  · exact hu.giveUp
  next msg buffer hread =>
  obtain ⟨ring, hget, hb⟩ := tryRead_some hread
  obtain ⟨_, hcontents, _, _⟩ := RingBuffer.tryGet_some h.sound hget
  constructor
  · intro q b hq
    obtain ⟨hq, _⟩ := wakeall_eq_blocked.1 hq
    have hempty := (hu.readers q b (put_outside_eq_blocked hq)).1
    cases hcontents.symm.trans hempty
  · intro q m b hq
    obtain ⟨_, hw⟩ := wakeall_eq_blocked.1 hq
    cases hw

theorem Unblocked.write : Unblocked (s.write p msg allowBlock) := by
  unfold Queueing.write
  split
  next hfull =>
    split
    · refine hu.block ?_ (fun _ _ _ => hfull)
      intro b hcall
      cases hcall
    · exact hu.giveUp
  next hroom =>
  split
  · exact hu.giveUp
  next buffer hwrite =>
  constructor
  · intro q b hq
    obtain ⟨_, hw⟩ := wakeall_eq_blocked.1 hq
    cases hw
  intro q m b hq
  obtain ⟨hq, _⟩ := wakeall_eq_blocked.1 hq
  exact absurd (hu.writers q m b (put_outside_eq_blocked hq)) hroom

theorem Unblocked.proceed (h : Streaming s) : Unblocked (s.proceed p call) := by
  cases call with
  | read allowBlock => exact hu.read h
  | write msg allowBlock => exact hu.write

/-- Files change, and there are still writers for those who wait. -/
theorem Unblocked.of_same (hplaces : s'.places = s.places) (hring : s'.buffer.ring = s.buffer.ring)
    (hwriters : ∀ q b, s.places q = .blocked (.read b) → s'.writers ≠ []) :
    Unblocked s' := by
  constructor
  · intro q b hq
    rw [hplaces] at hq
    rw [hring]
    exact ⟨(hu.readers q b hq).1, hwriters q b hq⟩
  intro q msg b hq
  rw [hplaces] at hq
  show s'.buffer.ring.free = 0
  rw [hring]
  exact hu.writers q msg b hq

/-- As many files as before. -/
theorem Unblocked.setFiles (hlen : (s.files mode).length ≤ files.length) :
    Unblocked (s.setFiles files mode) := by
  obtain ⟨hbuffer, _, hplaces, _, _⟩ := @setFiles_fields s mode files
  refine hu.of_same hplaces (by rw [hbuffer]) ?_
  intro q b hq
  have hne := (hu.readers q b hq).2
  cases mode with
  | reading => exact hne
  | writing =>
    intro hnil
    have hnil : files = [] := hnil
    have hlen : s.writers.length ≤ files.length := hlen
    rw [hnil] at hlen
    exact hne (length_eq_zero_iff.1 (Nat.le_zero.1 hlen))

theorem Unblocked.doOpen : Unblocked (s.doOpen p mode) := by
  have hset : Unblocked (s.setFiles ([p] :: s.files mode) mode) :=
    hu.setFiles (Nat.le_succ (s.files mode).length)
  exact hset.of_same rfl ring_openFile
    fun q b hq => (hset.readers q b hq).2

end

/-- With no files left, nobody is in a call. -/
theorem Streaming.unblocked_of_none (h : Streaming s) (hnone : s.clients = 0) : Unblocked s := by
  have hzero : s.readers.length + s.writers.length = 0 := h.clients.symm.trans hnone
  have hout : ∀ q call, (s.places q).call ≠ some call := by
    intro q call hq
    have hmem := h.inside q call hq
    have hnil : s.files (needs call) = [] := by
      apply length_eq_zero_iff.1
      cases needs call
      · show s.readers.length = 0
        omega
      · show s.writers.length = 0
        omega
    rw [hnil] at hmem
    cases hmem
  constructor
  · intro q b hq
    exact absurd (by rw [hq]; rfl) (hout q (.read b))
  · intro q msg b hq
    exact absurd (by rw [hq]; rfl) (hout q (.write msg b))

theorem Unblocked.doClose (hu : Unblocked s) (h' : Streaming s')
    (hwriters : mode = .writing → files = [] → ∀ q b, s.places q ≠ .blocked (.read b))
    (hclose : (s.setFiles files mode).doClose mode = .ok s') :
    Unblocked s' := by
  obtain ⟨hbuffer, _, hplaces, _, _⟩ := @setFiles_fields s mode files
  unfold Queueing.doClose at hclose
  split at hclose
  · injection hclose with hclose
    exact h'.unblocked_of_none (by rw [← hclose])
  obtain ⟨_, ⟨⟩⟩ := reject_eq_ok.1 hclose
  refine hu.of_same hplaces ?_ ?_
  · rw [ring_closeFile, hbuffer]
  intro q b hq
  cases mode with
  | reading => exact (hu.readers q b hq).2
  | writing => exact fun hnil => hwriters rfl hnil q b hq

theorem Unblocked.close (hu : Unblocked s) (h : Streaming s) (hi : (s.files mode)[i]? = some users)
    (hout : s.places p = .outside) (hp : p ∈ users)
    (hkeeps : KeepsWriter s (.close p mode i))
    (hclose : s.close p mode i users = .ok s') : Unblocked s' := by
  have h' := h.close hi hout hclose
  unfold Queueing.close at hclose
  split at hclose
  next hlast =>
    refine hu.doClose h' ?_ hclose
    intro hmode hnil
    rw [hmode] at hkeeps hi hnil
    apply hkeeps
    -- the one descriptor of the one file
    have husers : users = [p] := by
      obtain ⟨a, rfl⟩ : ∃ a, users = [a] := by
        apply length_eq_one_iff.1
        have hlen := length_erase_of_mem hp
        have hpos := length_pos_of_mem hp
        rw [hlast, length_nil] at hlen
        omega
      rw [List.mem_singleton.1 hp]
    have hlt := (List.getElem?_eq_some_iff.1 hi).1
    have hone : s.writers.length = 1 := by
      have hlen := length_eraseIdx_of_lt hlt
      rw [hnil, length_nil] at hlen
      have hlt : i < s.writers.length := hlt
      have hlen : 0 = s.writers.length - 1 := hlen
      omega
    obtain ⟨file, hfile⟩ := length_eq_one_iff.1 hone
    have hmem : users ∈ s.writers := mem_of_getElem? hi
    rw [hfile, mem_singleton] at hmem
    rw [hfile, ← hmem, husers]
  · exact of_ok hclose (hu.setFiles (le_of_eq (length_set ..).symm))

/-- Nobody is left blocked without a reason. -/
theorem Unblocked.step (hu : Unblocked s) (h : Streaming s) (hkeeps : KeepsWriter s a)
    (hstep : step a s = .ok s') : Unblocked s' := by
  cases a with
  | openFile p mode =>
    simp only [Queueing.step] at hstep
    obtain ⟨_, ⟨⟩⟩ := check_eq_ok.1 hstep
    exact hu.doOpen
  | share p q mode i =>
    simp only [Queueing.step] at hstep
    split at hstep
    · cases hstep
    next users hi =>
    obtain ⟨_, ⟨⟩⟩ := check_eq_ok.1 hstep
    exact hu.setFiles (le_of_eq (length_set ..).symm)
  | close p mode i =>
    simp only [Queueing.step] at hstep
    split at hstep
    · cases hstep
    next users hi =>
    obtain ⟨hcan, hstep⟩ := check_eq_ok.1 hstep
    exact hu.close h hi hcan.1 hcan.2 hkeeps hstep
  | read p n allowBlock =>
    simp only [Queueing.step] at hstep
    obtain ⟨_, hstep⟩ := check_eq_ok.1 hstep
    split at hstep
    · exact of_ok hstep hu
    · exact of_ok hstep (hu.read h)
  | write p src timestamp allowBlock =>
    simp only [Queueing.step] at hstep
    obtain ⟨_, hstep⟩ := check_eq_ok.1 hstep
    split at hstep
    · exact of_ok hstep hu
    · exact of_ok hstep hu.write
  | resume p =>
    simp only [Queueing.step] at hstep
    split at hstep
    next call t hp =>
      exact of_ok hstep (hu.proceed h)
    · cases hstep
  | abandon p =>
    simp only [Queueing.step] at hstep
    split at hstep
    · exact of_ok hstep hu.giveUp
    · cases hstep

/-- Nobody waits in vain, as long as the last writer stays while somebody
waits for a message. -/
theorem unblocked_of_keepsWriter {s : Queueing}
    (h : queueing.Reach KeepsWriter s) : Unblocked s := by
  refine (Reach.invariant (I := fun s => Streaming s ∧ Unblocked s) ?_ ?_ h).2
  · intro s hs
    have hs : s = {} := hs
    have hboot : queueing.Reach anyStep s := .boot hs
    have hstream := streaming_of_reach hboot
    exact ⟨hstream, hstream.unblocked_of_none (by rw [hs])⟩
  · intro s s' a hs hkeeps hstep
    exact ⟨hs.1.step hstep, hs.2.step hs.1 hkeeps hstep⟩

/-- A reader waits for the one writer that there is. -/
theorem unblocked_of_keepsWriter_two : ∃ s, queueing.Reach KeepsWriter s ∧
    s.places 1 = .blocked (.read true) ∧ s.writers = [[2]] ∧
    Unblocked s := by
  obtain ⟨s, hreach, hblocked, hwriters⟩ := exists_guarded (M := queueing) (G := KeepsWriter)
    (P := fun s => s.places 1 = .blocked (.read true) ∧ s.writers = [[2]]) rfl
    [.openFile 1 .reading, .openFile 2 .writing, .read 1 gTotalSize true]
    ⟨trivial, trivial, trivial, trivial⟩ (by decide +kernel)
  exact ⟨s, hreach, hblocked, hwriters, unblocked_of_keepsWriter hreach⟩

/-- The last writer closes its file, and the reader goes on waiting. -/
theorem reader_waits_in_vain : ∃ s, queueing.Reach anyStep s ∧
    s.writers = [] ∧ s.places 1 = .blocked (.read true) :=
  exists_reach rfl [.openFile 1 .reading, .openFile 2 .writing, .read 1 gTotalSize true,
      .close 2 .writing 0] (by decide +kernel)

end Queueing

end Puppy.Synch
