/-
A pipe is a queue of bytes.

What readers have taken out, followed by what is in the buffer, is what
writers have put in (`stream`). A process that waits does so for a reason:
whatever takes the reason away wakes it up in the same step, be it a byte,
room for one, or the closing of the other end (`Unblocked`).

A process in a call has a descriptor for its end, since it cannot close it
meanwhile. So nothing is read after the read end is closed.
-/
import Puppy.Synch.Pipe

namespace Puppy.Synch

open Lib Places RingBuffer List

-- ==== the loops

namespace PipeBuffer

variable {b b' : PipeBuffer} {data : List UInt8}

/-- Bytes have been taken out and put in, and nothing else has changed. -/
structure Passed (b : PipeBuffer) (taken added : List UInt8)
    (b' : PipeBuffer) : Prop where
  sound : b'.ring.Sound
  total : b'.ring.total = b.ring.total
  contents : b.ring.contents ++ added = taken ++ b'.ring.contents
  readOpen : b'.mReadFileOpen = b.mReadFileOpen
  writeOpen : b'.mWriteFileOpen = b.mWriteFileOpen

theorem passed_refl (hs : b.ring.Sound) : Passed b [] [] b :=
  ⟨hs, rfl, append_nil _, rfl, rfl⟩

theorem readLoop_passed {n : Nat} (hs : b.ring.Sound)
    (h : b.readLoop n = (data, b')) : Passed b data [] b' := by
  induction n generalizing b data b' with
  | zero =>
    cases h
    exact passed_refl hs
  | succ n ih =>
    unfold readLoop tryGetchar at h
    cases hget : b.ring.tryGet with
    | none =>
      rw [hget] at h
      cases h
      exact passed_refl hs
    | some x =>
      obtain ⟨c, ring⟩ := x
      rw [hget] at h
      obtain ⟨hs₁, hcontents, htotal, _⟩ := tryGet_some hs hget
      cases hrest : readLoop n { b with ring := ring } with
      | mk rest b₁ =>
        dsimp only [Option.map_some] at h
        rw [hrest] at h
        injection h with hdata hb
        have hd := @ih { b with ring := ring } b₁ rest hs₁ hrest
        rw [← hdata, ← hb]
        refine ⟨hd.sound, hd.total.trans htotal, ?_, hd.readOpen, hd.writeOpen⟩
        have hrest := hd.contents
        rw [append_nil] at hrest ⊢
        rw [hcontents, cons_append, hrest]

theorem writeLoop_passed {count : Nat} (hs : b.ring.Sound) (h : b.writeLoop data = (count, b')) :
    Passed b [] (data.take count) b' := by
  induction data generalizing b count b' with
  | nil =>
    cases h
    rw [take_nil]
    exact passed_refl hs
  | cons c data ih =>
    unfold writeLoop tryPutchar at h
    cases hput : b.ring.tryPut c with
    | none =>
      rw [hput] at h
      cases h
      rw [take_zero]
      exact passed_refl hs
    | some ring =>
      rw [hput] at h
      obtain ⟨hs₁, hcontents, htotal, _⟩ := tryPut_some hs hput
      cases hrest : writeLoop data { b with ring := ring } with
      | mk rest b₁ =>
        dsimp only [Option.map_some] at h
        rw [hrest] at h
        injection h with hcount hb
        have hf := @ih { b with ring := ring } b₁ rest hs₁ hrest
        rw [← hcount, ← hb, take_succ_cons]
        refine ⟨hf.sound, hf.total.trans htotal, ?_, hf.readOpen, hf.writeOpen⟩
        have hrest := hf.contents
        rw [hcontents, append_assoc, singleton_append] at hrest
        exact hrest

end PipeBuffer

-- ==== the invariant

namespace Piping

variable {s s' : Piping} {p q : Nat} {call : PipeCall} {users : List Nat} {side : PipeEnd}

structure Flowing (s : Piping) : Prop extends Unblocked s where
  sound : s.buffer.ring.Sound
  total : s.buffer.ring.total = gBufferSize
  readOpen : s.buffer.mReadFileOpen = true ↔ s.readers ≠ []
  writeOpen : s.buffer.mWriteFileOpen = true ↔ s.writers ≠ []
  inside : ∀ p call, (s.places p).call = some call → p ∈ s.users (needs call)
  stream : s.readers ≠ [] → s.received ++ s.buffer.ring.contents = s.sent
  ahead : s.received <+: s.sent

/-- There is nothing to read just when all the space is free. -/
theorem Flowing.empty_iff (h : Flowing s) :
    s.buffer.ring.contents = [] ↔ s.buffer.mFreeSpace = gBufferSize := by
  have hle := h.sound.free_le
  rw [← length_eq_zero_iff, contents_length, h.total]
  rw [h.total] at hle
  show gBufferSize - s.buffer.mFreeSpace = 0 ↔ _
  have hle : s.buffer.mFreeSpace ≤ gBufferSize := hle
  omega

/-- The space that is left. -/
theorem Flowing.length (h : Flowing s) :
    s.buffer.ring.contents.length + s.buffer.mFreeSpace = gBufferSize := by
  have hle := h.sound.free_le
  rw [h.total] at hle
  rw [contents_length, h.total]
  show gBufferSize - s.buffer.mFreeSpace + s.buffer.mFreeSpace = _
  have hle : s.buffer.mFreeSpace ≤ gBufferSize := hle
  omega

/-- A process leaves its call. -/
theorem inside_outside {places : Places PipeCall}
    (h : ∀ q call, (places q).call = some call → q ∈ s.users (needs call)) :
    ∀ q call, (places.put p .outside q).call = some call → q ∈ s.users (needs call) := by
  intro q call hq
  rcases call_put hq with ⟨_, ⟨⟩⟩ | ⟨_, hcall⟩
  · exact h q call hcall

theorem Flowing.leave (h : Flowing s) : Flowing { s with places := s.places.put p .outside } := by
  refine ⟨⟨?_, ?_⟩, h.sound, h.total, h.readOpen, h.writeOpen,
    inside_outside h.inside, h.stream, h.ahead⟩
  · intro q n hq
    exact h.readers q n (put_outside_eq_blocked hq)
  · intro q d hq
    exact h.writers q d (put_outside_eq_blocked hq)

/-- A process waits. -/
theorem Flowing.block (h : Flowing s) (hp : p ∈ s.users (needs call))
    (hread : ∀ n, call = .read n → s.buffer.ring.contents = [] ∧ s.writers ≠ [])
    (hwrite : ∀ data, call = .write data → s.buffer.mFreeSpace = 0 ∧ s.readers ≠ []) :
    Flowing { s with places := s.places.put p (.blocked call) } := by
  refine ⟨⟨?_, ?_⟩, h.sound, h.total, h.readOpen, h.writeOpen, ?_, h.stream, h.ahead⟩
  · intro q n hq
    rcases put_eq_blocked hq with ⟨_, hcall⟩ | ⟨_, hcall⟩
    · injection hcall with hcall
      exact hread n hcall
    · exact h.readers q n hcall
  · intro q data hq
    rcases put_eq_blocked hq with ⟨_, hcall⟩ | ⟨_, hcall⟩
    · injection hcall with hcall
      exact hwrite data hcall
    · exact h.writers q data hcall
  intro q c hq
  rcases call_put hq with ⟨hqp, hcall⟩ | ⟨_, hcall⟩
  · injection hcall with hcall
    rw [hqp, ← hcall]
    exact hp
  · exact h.inside q c hcall

theorem Flowing.read {n : Nat} (h : Flowing s) (hp : p ∈ s.readers) : Flowing (s.read p n) := by
  unfold Piping.read
  split
  next hwait =>
    refine h.block hp (fun _ _ => ⟨h.empty_iff.2 hwait.1, h.writeOpen.1 hwait.2⟩) ?_
    intro data hcall
    cases hcall
  next hgo =>
  cases hloop : s.buffer.readLoop n with
  | mk data buffer =>
    have hpass := PipeBuffer.readLoop_passed h.sound hloop
    have hcontents := hpass.contents
    rw [append_nil] at hcontents
    have hstream : s.received ++ data ++ buffer.ring.contents = s.sent := by
      rw [append_assoc, ← hcontents]
      exact h.stream (ne_nil_of_mem hp)
    refine ⟨⟨?_, ?_⟩, hpass.sound, hpass.total.trans h.total, ?_, ?_, ?_,
      fun _ => hstream, ⟨_, hstream⟩⟩
    · intro q m hq
      obtain ⟨hq, _⟩ := signal_eq_blocked hq
      obtain ⟨hempty, hwriter⟩ := h.readers q m (put_outside_eq_blocked hq)
      exact absurd ⟨h.empty_iff.1 hempty, h.writeOpen.2 hwriter⟩ hgo
    · intro q d hq
      obtain ⟨hq, hnone⟩ := signal_eq_blocked hq
      -- nothing was taken, or the writer would have been woken up
      have hdata : data = [] := by
        rw [← length_eq_zero_iff]
        by_contra hne
        exact Bool.noConfusion (hnone (Nat.pos_of_ne_zero hne))
      obtain ⟨hfull, hreader⟩ := h.writers q d (put_outside_eq_blocked hq)
      have hlen := h.length
      have hle := hpass.sound.free_le
      have hlen' := contents_length buffer.ring
      rw [hpass.total, h.total] at hle hlen'
      rw [hcontents, hdata, nil_append, hlen', hfull] at hlen
      refine ⟨?_, hreader⟩
      show buffer.ring.free = 0
      omega
    · rw [hpass.readOpen]
      exact h.readOpen
    · rw [hpass.writeOpen]
      exact h.writeOpen
    · intro q c hq
      have hq := call_signal.symm.trans hq
      exact inside_outside h.inside q c hq

theorem Flowing.write {data : List UInt8} (h : Flowing s)
    (hp : p ∈ s.writers) : Flowing (s.write p data) := by
  unfold Piping.write
  by_cases hfull : s.buffer.mFreeSpace = 0
  · rw [if_pos hfull]
    split
    next hopen =>
      refine h.block hp ?_ (fun _ _ => ⟨hfull, h.readOpen.1 hopen⟩)
      intro n hcall
      cases hcall
    · exact h.leave
  rw [if_neg hfull]
  cases hloop : s.buffer.writeLoop data with
  | mk count buffer =>
    have hpass := PipeBuffer.writeLoop_passed h.sound hloop
    have hcontents := hpass.contents
    rw [nil_append] at hcontents
    refine ⟨⟨?_, ?_⟩, hpass.sound, hpass.total.trans h.total, ?_, ?_, ?_, ?_, ?_⟩
    · intro q n hq
      obtain ⟨hq, hnone⟩ := signal_eq_blocked hq
      have hcount : count = 0 := by
        by_contra hne
        exact Bool.noConfusion (hnone (Nat.pos_of_ne_zero hne))
      obtain ⟨hempty, hwriter⟩ := h.readers q n (put_outside_eq_blocked hq)
      refine ⟨?_, hwriter⟩
      rw [← hcontents, hcount, hempty, take_zero, nil_append]
    · intro q d hq
      obtain ⟨hq, _⟩ := signal_eq_blocked hq
      exact absurd (h.writers q d (put_outside_eq_blocked hq)).1 hfull
    · rw [hpass.readOpen]
      exact h.readOpen
    · rw [hpass.writeOpen]
      exact h.writeOpen
    · intro q c hq
      have hq := call_signal.symm.trans hq
      exact inside_outside h.inside q c hq
    · intro hopen
      show s.received ++ buffer.ring.contents = if s.readers = [] then _ else _
      rw [if_neg hopen, ← hcontents, ← append_assoc, h.stream hopen]
    · show s.received <+: if s.readers = [] then _ else _
      split
      · exact h.ahead
      · exact h.ahead.trans (prefix_append _ _)

theorem Flowing.proceed (h : Flowing s) (hp : p ∈ s.users (needs call)) :
    Flowing (s.proceed p call) := by
  cases call with
  | read n => exact h.read hp
  | write data => exact h.write hp

-- ==== descriptors

/-- The other end's users stay as they are. -/
theorem users_setUsers {other : PipeEnd} : (s.setUsers users side).users other
      = if other = side then users else s.users other := by
  cases side <;> cases other <;> rfl

theorem Flowing.setUsers (h : Flowing s) (hne : users ≠ [] ∧ s.users side ≠ [])
    (hkeep : ∀ q call, (s.places q).call = some call → needs call = side →
      q ∈ users) : Flowing (s.setUsers users side) := by
  have hinside : ∀ q call, (s.places q).call = some call →
      q ∈ (s.setUsers users side).users (needs call) := by
    intro q call hq
    rw [users_setUsers]
    split
    next heq => exact hkeep q call hq heq
    · exact h.inside q call hq
  cases side with
  | reading =>
    exact ⟨⟨h.readers, fun q d hq => ⟨(h.writers q d hq).1, hne.1⟩⟩, h.sound, h.total,
      ⟨fun _ => hne.1, fun _ => h.readOpen.2 hne.2⟩, h.writeOpen, hinside,
      fun _ => h.stream hne.2, h.ahead⟩
  | writing =>
    exact ⟨⟨fun q n hq => ⟨(h.readers q n hq).1, hne.1⟩, h.writers⟩, h.sound, h.total, h.readOpen,
      ⟨fun _ => hne.1, fun _ => h.writeOpen.2 hne.2⟩, hinside, h.stream, h.ahead⟩

/-- The file is closed with its last descriptor, and nobody is in a call
that needs it. -/
theorem Flowing.closeFile (h : Flowing s)
    (hout : ∀ q call, (s.places q).call = some call → needs call ≠ side) :
    Flowing ((s.setUsers [] side).closeFile side) := by
  have hinside : ∀ q call, (s.places q).call = some call →
      q ∈ (s.setUsers [] side).users (needs call) := by
    intro q call hq
    rw [users_setUsers, if_neg (hout q call hq)]
    exact h.inside q call hq
  cases side with
  | reading =>
    refine ⟨⟨?_, ?_⟩, h.sound, h.total,
      ⟨fun hopen => Bool.noConfusion hopen, fun hne => absurd rfl hne⟩,
      h.writeOpen, ?_, ?_, h.ahead⟩
    · intro q n hq
      obtain ⟨hq, _⟩ := wakeall_eq_blocked.1 hq
      exact h.readers q n hq
    · intro q d hq
      obtain ⟨_, hw⟩ := wakeall_eq_blocked.1 hq
      cases hw
    · intro q c hq
      exact hinside q c (call_wakeall.symm.trans hq)
    · exact fun hne => absurd rfl hne
  | writing =>
    refine ⟨⟨?_, ?_⟩, h.sound, h.total, h.readOpen,
      ⟨fun hopen => Bool.noConfusion hopen, fun hne => absurd rfl hne⟩, ?_,
      h.stream, h.ahead⟩
    · intro q n hq
      obtain ⟨_, hw⟩ := wakeall_eq_blocked.1 hq
      cases hw
    · intro q d hq
      obtain ⟨hq, _⟩ := wakeall_eq_blocked.1 hq
      exact h.writers q d hq
    · intro q c hq
      exact hinside q c (call_wakeall.symm.trans hq)

theorem Flowing.close (h : Flowing s) (hout : s.places p = .outside) (hp : p ∈ s.users side) :
    Flowing (s.close p side) := by
  -- whoever is in a call that needs the end is somebody else
  have hkeep : ∀ q call, (s.places q).call = some call → needs call = side →
      q ∈ (s.users side).erase p := by
    intro q call hq heq
    have hqp : q ≠ p := by
      intro hqp
      rw [hqp, hout] at hq
      cases hq
    rw [mem_erase_of_ne hqp, ← heq]
    exact h.inside q call hq
  unfold Piping.close
  dsimp only
  split
  next hlast =>
    rw [hlast]
    refine h.closeFile ?_
    intro q call hq heq
    have hmem := hkeep q call hq heq
    rw [hlast] at hmem
    cases hmem
  next hmore => exact h.setUsers ⟨hmore, ne_nil_of_mem hp⟩ hkeep

-- ==== steps and runs

theorem Flowing.step {a : PipeAction} (h : Flowing s) (hstep : step a s = .ok s') : Flowing s' := by
  cases a with
  | call p call =>
    simp only [Piping.step] at hstep
    split at hstep
    next hcan =>
      cases hstep
      exact h.proceed hcan.2
    · cases hstep
  | resume p =>
    simp only [Piping.step] at hstep
    split at hstep
    next call t hp =>
      cases hstep
      exact h.proceed (h.inside p call (by rw [hp]; rfl))
    · cases hstep
  | abandon p =>
    simp only [Piping.step] at hstep
    split at hstep
    next call t hp =>
      cases hstep
      exact h.leave
    · cases hstep
  | share p q side =>
    simp only [Piping.step] at hstep
    split at hstep
    next hcan =>
      cases hstep
      refine h.setUsers ⟨cons_ne_nil _ _, ne_nil_of_mem hcan.2⟩ ?_
      intro r call hr heq
      rw [← heq]
      exact mem_cons_of_mem _ (h.inside r call hr)
    · cases hstep
  | close p side =>
    simp only [Piping.step] at hstep
    split at hstep
    next hcan =>
      cases hstep
      exact h.close hcan.1 hcan.2
    · cases hstep

theorem flowing_of_reach (h : (piping p).Reach Machine.anyStep s) : Flowing s := by
  refine Machine.Reach.invariant ?_ ?_ h
  · rintro s rfl
    have hempty : (empty gBufferSize fun _ => (0 : UInt8)).contents = [] := contents_eq_nil rfl
    exact ⟨⟨fun q n hq => (by cases hq), fun q d hq => (by cases hq)⟩,
      sound_empty (by decide), rfl, by simp, by simp,
      fun q c hq => (by cases hq),
      fun _ => (nil_append _).trans hempty, nil_prefix⟩
  · intro s s' a hs _ hstep
    exact hs.step hstep

/-- What is read is a prefix of what was written, the space in use is
within bounds, and nobody waits in vain. -/
theorem pipe_streams {p : Nat} {s : Piping} (h : (piping p).Reach Machine.anyStep s) :
    s.received <+: s.sent ∧ (0 ≤ s.buffer.mFreeSpace ∧ s.buffer.mFreeSpace ≤ gBufferSize) ∧
      Unblocked s := by
  have hflow := flowing_of_reach h
  have hlen := hflow.length
  exact ⟨hflow.ahead, ⟨zero_le, by omega⟩, hflow.toUnblocked⟩

/-- A reader waits for a writer, gets its bytes, and waits no more when
the writer has closed its end. -/
theorem pipe_streams_two : ∃ s, (piping 1).Reach Machine.anyStep s ∧
    s.received = [7, 8] ∧ s.sent = [7, 8, 9] ∧ (s.received <+: s.sent ∧
      (0 ≤ s.buffer.mFreeSpace ∧ s.buffer.mFreeSpace ≤ gBufferSize) ∧
      Unblocked s) := by
  obtain ⟨s, hreach, hreceived, hsent⟩ := Machine.exists_reach
    (M := piping 1) (P := fun s => s.received = [7, 8] ∧ s.sent = [7, 8, 9])
    rfl [.share 1 2 .reading, .close 1 .reading, .call 2 (.read 2),
      .call 1 (.write [7, 8, 9]), .resume 2, .close 1 .writing]
    (by decide +kernel)
  exact ⟨s, hreach, hreceived, hsent, pipe_streams hreach⟩

end Piping

end Puppy.Synch
