/-
Identifiers that a process makes up.

Neither table checks the index it is given. `Handletable::is` and `clear`
read and write the byte `mValid[idx / 8]` for whatever number the process
has passed, and `ProcessTable::get` returns what is found behind the table.
So every call is outside its table for the numbers past the end, and that
is the only way to get there (`withHandle_rejects` and the lemmas on pids).

Inside the tables most calls do answer with an error. Those that do not are
`fclose`, which says that it has closed a file that was not open, `kill`,
which reads through a null pointer before it looks, and `collect`, which
halts the machine.
-/
import Puppy.Proc.Proofs.Numbers
import Puppy.Proc.Proofs.Tree
import Puppy.Proc.Stacks
import Puppy.Sys.Handlers

namespace Puppy.Sys

open Fs Proc Lib Files Handletable

-- ==== descriptors

section Descriptors

variable {s : Files} {pid fid : Nat} {t : FileProcess}
  {k : FileHandle → Except Panic (Response × Files)}

/-- Nothing else is out of bounds than the descriptor. -/
abbrev InBounds {σ : Type} (result : Except Panic σ) : Prop :=
  Sat result (fun _ => True) (· ≠ .outOfBounds)

theorem InBounds.ne {σ : Type} {result : Except Panic σ}
    (h : InBounds result) : result ≠ .error .outOfBounds :=
  fun heq => h.failure heq rfl

theorem is_past (h : Handletable FileHandle gNumFds) (hfid : ¬ fid < gNumFds) :
    h.is fid = .error .outOfBounds := if_neg hfid

theorem is_inside (h : Handletable FileHandle gNumFds) (hfid : fid < gNumFds) :
    h.is fid = .ok (h.slots fid) := if_pos hfid

section

variable (ht : s.procs pid = some t)
include ht

/-- Past the table, nothing is known. -/
theorem withHandle_past (hfid : ¬ fid < gNumFds) :
    withHandle s pid fid k = .error .outOfBounds := by
  unfold withHandle
  rw [proc_eq ht, bind_ok, is_past t.fds hfid]
  rfl

theorem withHandle_none (hfid : fid < gNumFds) (hslot : t.fds.slots fid = none) :
    withHandle s pid fid k = .ok (.err .noSuchFile, s) := by
  unfold withHandle
  rw [proc_eq ht, bind_ok, is_inside t.fds hfid, bind_ok, hslot]

theorem withHandle_some {file : FileHandle} (hfid : fid < gNumFds)
    (hslot : t.fds.slots fid = some file) :
    withHandle s pid fid k = k file := by
  unfold withHandle
  rw [proc_eq ht, bind_ok, is_inside t.fds hfid, bind_ok, hslot]

/-- The calls that begin by looking the handle up. -/
theorem withHandle_rejects (hk : fid < gNumFds → ∀ file, InBounds (k file)) :
    Rejects (withHandle s pid fid k) (NoFile t fid) ↔ fid < gNumFds := by
  constructor
  · intro h
    by_contra hfid
    exact h.1 (withHandle_past ht hfid)
  intro hfid
  cases hslot : t.fds.slots fid with
  | none =>
    rw [withHandle_none ht hfid hslot]
    exact ⟨nofun, fun _ => ⟨_, _, rfl⟩⟩
  | some file =>
    rw [withHandle_some ht hfid hslot]
    refine ⟨(hk hfid file).ne, fun hmissing => ?_⟩
    rcases hmissing with hpast | hnone
    · exact absurd hfid (Nat.not_lt.2 hpast)
    · cases hslot.symm.trans hnone

end

theorem deref_inBounds (o : ObjectId) : InBounds (s.deref o) := by
  unfold deref
  split
  · trivial
  · exact nofun

theorem proc_inBounds : InBounds (s.proc pid) := by
  unfold proc
  split
  · trivial
  · exact nofun

theorem isDirectory_inBounds (file : FileHandle) : InBounds (isDirectory s file) := by
  cases file with
  | tty => trivial
  | opened o => exact Sat.bind (deref_inBounds o) (fun _ _ _ => trivial)

/-- A call on one kind of file is harmless inside the table. -/
theorem onKind_rejects (ht : s.procs pid = some t) (directory : Bool) (answer : Response) :
    Rejects (onKind s pid fid directory answer) (NoFile t fid) ↔ fid < gNumFds := by
  refine withHandle_rejects ht (fun _ file => ?_)
  refine Sat.bind (isDirectory_inBounds file) (fun found _ _ => ?_)
  split <;> trivial

theorem close_inBounds (o : ObjectId) : InBounds (s.close o) := by
  refine Sat.bind (deref_inBounds o) (fun object _ _ => ?_)
  split <;> trivial

theorem clear_inBounds (h : Handletable FileHandle gNumFds)
    (hfid : fid < gNumFds) : InBounds (h.clear fid) := by
  unfold clear
  rw [if_pos hfid]
  trivial

theorem filesFclose_inBounds (hfid : fid < gNumFds) : InBounds (s.fclose pid fid) := by
  refine Sat.bind proc_inBounds (fun t _ _ => ?_)
  rw [is_inside t.fds hfid, bind_ok]
  cases t.fds.slots fid with
  | none => exact Sat.bind (clear_inBounds _ hfid) (fun _ _ _ => trivial)
  | some file =>
    cases file with
    | tty => trivial
    | opened o =>
      refine Sat.bind (close_inBounds o) (fun _ _ _ => ?_)
      exact Sat.bind (clear_inBounds _ hfid) (fun _ _ _ => trivial)

/-- For `fclose` there has to be a file, too. -/
theorem fclose_rejects (ht : s.procs pid = some t) : Rejects (fclose s pid fid) (NoFile t fid)
      ↔ fid < gNumFds ∧ t.fds.slots fid ≠ none := by
  by_cases hfid : fid < gNumFds
  · have hbounds : InBounds (fclose s pid fid) := by
      unfold fclose
      rw [proc_eq ht, bind_ok, is_inside t.fds hfid, bind_ok]
      exact Sat.bind (filesFclose_inBounds hfid) (fun _ _ _ => trivial)
    constructor
    · intro h
      refine ⟨hfid, fun hnone => ?_⟩
      -- a slot that is free already: the answer is no error
      obtain ⟨code, s', heq⟩ := h.2 (.inr hnone)
      unfold fclose at heq
      rw [proc_eq ht, bind_ok, is_inside t.fds hfid, bind_ok, hnone] at heq
      obtain ⟨s₁, _, heq⟩ := ok_bind heq
      cases heq
    · intro h
      refine ⟨hbounds.ne, fun hmissing => ?_⟩
      rcases hmissing with hpast | hnone
      · exact absurd hfid (Nat.not_lt.2 hpast)
      · exact absurd hnone h.2
  · refine ⟨fun h => absurd ?_ h.1, fun h => absurd h.1 hfid⟩
    unfold fclose
    rw [proc_eq ht, bind_ok, is_past t.fds hfid]
    rfl

theorem duplicate_inBounds (file : FileHandle) (idx0 : Nat) :
    InBounds (s.duplicate pid file idx0) := by
  refine Sat.bind (R := fun _ => True) ?_ (fun s₁ _ _ => ?_)
  · cases file.object with
    | none => trivial
    | some o => exact Sat.bind (deref_inBounds o) (fun _ _ _ => trivial)
  · refine Sat.bind proc_inBounds (fun t _ _ => ?_)
    split <;> trivial

/-- And `fdup` is like the others. -/
theorem fdup_rejects (ht : s.procs pid = some t) (minNewFid : Nat) :
    Rejects (fdup s pid fid minNewFid) (NoFile t fid) ↔ fid < gNumFds := by
  refine withHandle_rejects ht (fun hfid file => ?_)
  refine Sat.bind proc_inBounds (fun t' _ _ => ?_)
  refine Sat.bind (R := fun _ => True) ?_ (fun _ _ _ => trivial)
  refine Sat.bind proc_inBounds (fun t'' _ _ => ?_)
  rw [is_inside t''.fds hfid, bind_ok]
  cases t''.fds.slots fid with
  | none => trivial
  | some file => exact duplicate_inBounds file minNewFid

/-- All calls on descriptors. -/
theorem fileCall_rejects (ht : s.procs pid = some t) (call : FileCall) :
    Rejects (call.handle s pid fid) (NoFile t (call.index fid))
      ↔ call.Harmless t (call.index fid) := by
  cases call with
  | fclose => exact fclose_rejects ht
  | fread sz => exact onKind_rejects ht false (.ok sz)
  | fwrite sz => exact onKind_rejects ht false (.ok sz)
  | fstat done =>
    refine withHandle_rejects ht (fun _ file => ?_)
    exact Sat.bind (isDirectory_inBounds file) (fun _ _ _ => trivial)
  | fseek done => exact onKind_rejects ht false (answered done)
  | ftell done => exact onKind_rejects ht false (answered done)
  | fioctl ret => exact onKind_rejects ht false (.ok ret)
  | freaddir more => exact onKind_rejects ht true (answered more)
  | fdup minNewFid => exact fdup_rejects ht minNewFid

end Descriptors

-- ==== duplicates

section Duplicates

variable {s : Files} {pid fid minNewFid : Nat} {t : FileProcess} {file : FileHandle}

/-- What `fdup` of an open file does, with the file counted. -/
theorem fdup_eq (minNewFid : Nat) (ht : s.procs pid = some t) (hfid : fid < gNumFds)
    (hslot : t.fds.slots fid = some file)
    (hobject : ∀ o, file.object = some o → s.objects o ≠ none) :
    ∃ s₁ : Files, fdup s pid fid minNewFid = .ok (match t.fds.freeSlot minNewFid with
        | some newfid => (.ok newfid, s₁.setProc pid { t with fds := t.fds.put newfid file })
        | none => (.err .noSuchFile, s₁)) := by
  obtain ⟨s₁, hincref, hprocs⟩ : ∃ s₁, s.increfOf file.object = .ok s₁ ∧ s₁.procs = s.procs := by
    cases hx : file.object with
    | none => exact ⟨s, rfl, rfl⟩
    | some o =>
      obtain ⟨object, ho⟩ := Option.ne_none_iff_exists'.1 (hobject o hx)
      unfold increfOf incref deref
      dsimp only
      rw [ho, bind_ok]
      exact ⟨_, rfl, rfl⟩
  refine ⟨s₁, ?_⟩
  have ht₁ : s₁.procs pid = some t := by rw [hprocs, ht]
  unfold fdup Files.fdup Files.duplicate Handletable.set
  rw [withHandle_some ht hfid hslot, proc_eq ht, bind_ok, bind_ok,
    is_inside t.fds hfid, bind_ok, hslot]
  dsimp only
  rw [hincref, bind_ok, proc_eq ht₁, bind_ok]
  cases t.fds.freeSlot minNewFid <;> rfl

/-- `fdup` takes the lowest slot that suits, unless it has to go on from the
start of the table. -/
theorem dupsLowest_iff (ht : s.procs pid = some t)
    (hobject : ∀ file o, t.fds.slots fid = some file → file.object = some o → s.objects o ≠ none) :
    DupsLowest s pid t fid minNewFid ↔ fid < gNumFds ∧
      (t.fds.slots fid = none ∨ (∃ i, Suits t minNewFid i) ∨
        ∀ i < gNumFds, t.fds.slots i ≠ none) := by
  by_cases hfid : fid < gNumFds
  swap
  · have hpast : fdup s pid fid minNewFid = .error .outOfBounds := withHandle_past ht hfid
    unfold DupsLowest
    rw [hpast]
    constructor
    · rintro (⟨_, _, _, _, heq, _⟩ | ⟨_, _, heq, _⟩) <;> cases heq
    · exact fun h => absurd h.1 hfid
  cases hslot : t.fds.slots fid with
  | none =>
    exact ⟨fun _ => ⟨hfid, .inl rfl⟩, fun _ =>
      .inr ⟨_, s, withHandle_none ht hfid hslot, .inl (.inr hslot)⟩⟩
  | some file =>
    obtain ⟨s₁, hdup⟩ := fdup_eq minNewFid ht hfid hslot (hobject file · hslot)
    cases hfound : t.fds.freeSlot minNewFid with
    | none =>
      rw [hfound] at hdup
      have hfull : ∀ i < gNumFds, t.fds.slots i ≠ none := by
        intro i hi hnone
        have hsome := freeSlot_none hfound i hi
        rw [hnone] at hsome
        cases hsome
      exact ⟨fun _ => ⟨hfid, .inr (.inr hfull)⟩, fun _ => .inr
        ⟨_, s₁, hdup, .inr fun i hi => hfull i hi.2.1 hi.2.2⟩⟩
    | some newfid =>
      rw [hfound] at hdup
      obtain ⟨hlt, hfree⟩ := freeSlot_some (by decide) hfound
      constructor
      · rintro (⟨_, n, _, _, _, _, _, hleast, _⟩ | ⟨_, _, heq, _⟩)
        · exact ⟨hfid, .inr (.inl ⟨n, hleast.1⟩)⟩
        · rw [hdup] at heq
          cases heq
      rintro ⟨-, hnone | ⟨i, hle, hi, hnone⟩ | hfull⟩
      · cases hnone
      · refine .inl ⟨file, newfid, _, _, hdup, hfid, hslot, ⟨⟨?_, hlt,
          hfree⟩, fun k hk => ?_⟩, Function.update_self .., slots_put⟩
        · exact (freeSlot_le hfound hle hi hnone).1
        · exact (freeSlot_le hfound hk.1 hk.2.1 hk.2.2).2
      · exact absurd hfree (hfull newfid hlt)

/-- A process with a terminal in its first two slots. -/
def onTerminal : FileProcess where
  fds := (empty.put 0 .tty).put 1 .tty

/-- The second of them, asked for at 1 or above, is at 2 as well. -/
theorem dupsLowest_two : DupsLowest (initial.setProc 0 onTerminal) 0 onTerminal 1 1 := by
  refine (dupsLowest_iff rfl (fun file o hslot ho => ?_)).2
    ⟨by decide, .inr (.inl ⟨2, by decide, by decide, rfl⟩)⟩
  have hfile : some FileHandle.tty = some file := hslot
  cases hfile
  cases ho

/-- Behind the last slot it begins again: asked for 64 or above, `fdup` answers
with 2. And the descriptor 64 is looked up behind the table. -/
theorem fdup_wraps : (∃ s, fdup (initial.setProc 0 onTerminal) 0 1 64 = .ok (.ok 2, s)) ∧
    ¬ DupsLowest (initial.setProc 0 onTerminal) 0 onTerminal 1 64 ∧
    ¬ DupsLowest (initial.setProc 0 onTerminal) 0 onTerminal 64 0 := by
  refine ⟨⟨_, rfl⟩, ?_, ?_⟩
  · rintro (⟨_, n, _, _, _, _, _, hleast, _⟩ | ⟨_, _, heq, _⟩)
    · exact absurd (lt_of_le_of_lt hleast.1.1 hleast.1.2.1) (by decide)
    · cases heq
  · rintro (⟨_, _, _, _, heq, _⟩ | ⟨_, _, heq, _⟩) <;> cases heq

end Duplicates

-- ==== pids

section Pids

variable {s : State} {self : Ptr} {k : Process} {pid : Nat}

theorem get_past {table : ProcessTable} (hpid : ¬ pid < gNumProcesses) :
    table.get pid = .error .outOfBounds := if_pos (Nat.not_lt.1 hpid)

theorem get_inside {table : ProcessTable} (hpid : pid < gNumProcesses) :
    table.get pid = .ok (table.mTable pid) := if_neg (Nat.not_le.2 hpid)

/-- The caller's own pid is in the table. -/
theorem get_self (hs : Numbered s) (hk : s.procs self = some k) :
    s.gProcessTable.get k.pid = .ok (some self) := by
  rw [get_inside (hs.bound self k hk).1, (hs.named k.pid self).2 ⟨k, hk, rfl⟩]

theorem stateDeref_inBounds (p : Ptr) : InBounds (s.deref p) :=
  (State.deref_sat (by decide)).mono (fun _ _ => trivial)

theorem collectDead_inBounds (p : Ptr) : InBounds (s.collectDead self p) := by
  refine Sat.bind (stateDeref_inBounds self) (fun k _ _ => ?_)
  split
  · refine Sat.bind (stateDeref_inBounds p) (fun t _ _ => ?_)
    refine Sat.bind (stateDeref_inBounds p) (fun u _ _ => ?_)
    split
    · exact nofun
    · exact wakeall_errors (by decide)
  · exact nofun

/-- `collect` answers with no error. Outside the table, and for processes
that are not the caller's children, it does not answer. -/
theorem collect_rejects (hs : Numbered s) (hk : s.procs self = some k) :
    Rejects (collect s self pid) (NoChild s k (toUInt16 pid))
      ↔ toUInt16 pid < gNumProcesses ∧ ¬ NoChild s k (toUInt16 pid) := by
  constructor
  · intro h
    refine ⟨?_, fun hmissing => ?_⟩
    · by_contra hpid
      refine h.1 ?_
      unfold collect State.collect
      rw [get_past hpid]
      rfl
    · obtain ⟨code, s', heq⟩ := h.2 hmissing
      obtain ⟨s₁, _, heq⟩ := ok_bind heq
      cases heq
  intro h
  refine ⟨?_, fun hmissing => absurd hmissing h.2⟩
  obtain ⟨p, t, hp, ht, hppid⟩ := not_not.1 h.2
  have hbounds : InBounds (s.collect self (toUInt16 pid)) := by
    unfold State.collect
    rw [get_inside h.1, bind_ok, hp]
    dsimp only
    rw [State.deref_step ht, hppid, get_self hs hk, bind_ok, if_neg (not_not.2 rfl)]
    split
    · exact Sat.bind (deschedule_errors (by decide) (by decide)) (fun _ _ _ => trivial)
    · exact collectDead_inBounds p
  have hall : InBounds (collect s self pid) := Sat.bind hbounds (fun _ _ _ => trivial)
  exact hall.ne

theorem reparentAll_inBounds (p : Ptr) : InBounds (s.reparentAll p) := by
  refine Sat.bind (stateDeref_inBounds p) (fun t _ _ => ?_)
  refine Sat.bind (R := fun _ => True) ?_ (fun s₁ _ _ => ?_)
  · unfold State.reparentLoop
    split
    · trivial
    · exact nofun
    refine Sat.foldlM_mem trivial (fun child _ s _ => ?_)
    refine Sat.bind (stateDeref_inBounds child) (fun _ _ _ => ?_)
    refine Sat.bind (stateDeref_inBounds _) (fun _ _ _ => ?_)
    refine Sat.bind (stateDeref_inBounds _) (fun _ _ _ => ?_)
    exact wakeall_errors (by decide)
  · exact Sat.bind (stateDeref_inBounds p) (fun _ _ _ => trivial)

/-- A process that exits looks its parent up, and that is in the table. -/
theorem exit_inBounds {es : Nat} {closed : List QueueId} (hs : Numbered s) :
    InBounds (s.exit self es closed) := by
  refine Sat.bind (stateDeref_inBounds self) (fun t _ _ => ?_)
  split
  · exact nofun
  refine Sat.bind (reparentAll_inBounds self) (fun s₁ hhanded _ => ?_)
  have hclosing : InBounds (closed.foldlM State.wakeall s₁) :=
    Sat.foldlM_mem trivial (fun _ _ _ _ => wakeall_errors (by decide))
  refine Sat.bind hclosing (fun s₂ hclosed _ => ?_)
  have hs₁ := numbered_editing.reparentAll (fun _ _ _ => ⟨rfl, rfl⟩) hhanded hs
  have hs₂ := numbered_editing.closeAll hclosed hs₁
  refine Sat.bind (State.deref_sat (by decide)) (fun u _ hu => ?_)
  refine Sat.bind (wakeall_errors (by decide)) (fun s₃ _ _ => ?_)
  rw [get_inside (hs₂.bound self u hu).2, bind_ok]
  cases s₃.gProcessTable.mTable u.ppid with
  | none => exact nofun
  | some parent =>
    refine Sat.bind (stateDeref_inBounds parent) (fun p _ _ => ?_)
    split
    · refine Sat.bind (reschedule_errors (by decide)) (fun _ _ _ => ?_)
      trivial
    · trivial

/-- `kill` of a process that is not there gets no answer either. -/
theorem kill_rejects {es : Nat} {closed : List Nat} (hs : Numbered s) (hk : s.procs self = some k) :
    Rejects (killHandler s self pid es (closed.map QueueId.object)) (NoProcess s (toUInt16 pid))
      ↔ toUInt16 pid < gNumProcesses ∧ ¬ NoProcess s (toUInt16 pid) := by
  constructor
  · intro h
    refine ⟨?_, fun hmissing => ?_⟩
    · by_contra hpid
      refine h.1 ?_
      unfold killHandler kill
      rw [State.deref_step hk, get_past hpid]
      rfl
    obtain ⟨code, s', heq⟩ := h.2 hmissing
    obtain ⟨⟨done, s₁⟩, hkill, _⟩ := ok_bind heq
    unfold kill at hkill
    rw [State.deref_step hk] at hkill
    obtain ⟨found, hfound, hkill⟩ := ok_bind hkill
    rw [← ProcessTable.get_ok hfound, hmissing] at hkill
    cases hkill
  intro h
  refine ⟨?_, fun hmissing => absurd hmissing h.2⟩
  obtain ⟨p, hp⟩ := Option.ne_none_iff_exists'.1 h.2
  have hbounds : InBounds (kill s self pid es (closed.map QueueId.object)) := by
    unfold kill
    rw [State.deref_step hk, get_inside h.1, bind_ok, hp]
    refine Sat.bind (stateDeref_inBounds p) (fun t _ _ => ?_)
    split
    · refine Sat.bind (exit_inBounds hs) (fun _ _ _ => ?_)
      trivial
    · split <;> trivial
  have hall : InBounds (killHandler s self pid es (closed.map QueueId.object)) :=
    Sat.bind hbounds (fun _ _ _ => trivial)
  exact hall.ne

/-- The kernel pages are those of the processes in the table. -/
def Depicts (u : Stacks) (s : State) : Prop :=
  ∀ pid, (u.tasks pid).map StackTask.system =
    (s.gProcessTable.mTable pid >>= s.procs).map Process.system

/-- `kill` of another process, here and where its stack is written to: the
answer is the same, and so is its absence. -/
theorem kill_agrees {u : Stacks} {es : Nat} {closed : List QueueId}
    (hreach : system.Reach Machine.anyStep s) (hu : Depicts u s) (hk : s.procs self = some k)
    (hpid : toUInt16 pid < gNumProcesses) (hother : toUInt16 pid ≠ k.pid) :
    (kill s self pid es closed).map Prod.fst = (u.kill k.pid (toUInt16 pid)).map Prod.fst := by
  have hs := numbered_of_reach hreach
  obtain ⟨current, hcurrent, hsystem⟩ : ∃ c, u.tasks k.pid = some c ∧ c.system = k.system := by
    have hself := hu k.pid
    rw [(hs.named k.pid self).2 ⟨k, hk, rfl⟩] at hself
    exact Option.map_eq_some_iff.1 (hself.trans (congrArg _ hk))
  have htask := hu (toUInt16 pid)
  unfold kill Stacks.kill
  rw [State.deref_step hk, get_inside hpid, bind_ok, hcurrent]
  cases hp : s.gProcessTable.mTable (toUInt16 pid) with
  | none =>
    rw [hp] at htask
    rw [Option.map_eq_none_iff.1 htask]
    rfl
  | some p =>
    obtain ⟨t, ht, hnum⟩ := (hs.named _ _).1 hp
    rw [hp] at htask
    obtain ⟨task, htask, hsame⟩ := Option.map_eq_some_iff.1 (htask.trans (congrArg _ ht))
    have hne : p ≠ self := by
      rintro rfl
      rw [hk] at ht
      exact hother (hnum.symm.trans (congrArg _ (Option.some.inj ht).symm))
    rw [htask]
    dsimp only
    rw [State.deref_step ht, if_neg hne, if_neg hother, hsame, hsystem]
    split <;> rfl

/-- `prioritize` is in order, inside the table. -/
theorem prioritize_rejects {setmax : PrioritizeTarget}
    {prio_in : Option ExecPriority} (hk : s.procs self = some k) :
    Rejects (prioritize s self pid setmax prio_in) (NoProcess s (toUInt16 pid))
      ↔ toUInt16 pid < gNumProcesses := by
  constructor
  · intro h
    by_contra hpid
    refine h.1 ?_
    unfold prioritize State.prioritize
    rw [State.deref_step hk, get_past hpid]
    rfl
  intro hpid
  unfold prioritize State.prioritize
  rw [State.deref_step hk, get_inside hpid, bind_ok]
  cases hp : s.gProcessTable.mTable (toUInt16 pid) with
  | none => exact ⟨nofun, fun _ => ⟨_, _, rfl⟩⟩
  | some p =>
    refine ⟨?_, fun hmissing => ?_⟩
    · refine InBounds.ne (Sat.bind (R := fun _ => True) ?_ (fun _ _ _ => trivial))
      refine Sat.bind (stateDeref_inBounds p) (fun t _ _ => ?_)
      split_ifs <;> trivial
    · unfold NoProcess at hmissing
      cases hp.symm.trans hmissing

/-- All calls on pids. -/
theorem processCall_rejects (hs : Numbered s) (hk : s.procs self = some k) (call : ProcessCall) :
    Rejects (call.handle s self pid) (call.Missing s k (toUInt16 pid))
      ↔ call.Harmless s k (toUInt16 pid) := by
  cases call with
  | collect => exact collect_rejects hs hk
  | kill es closed => exact kill_rejects hs hk
  | prioritize setmax prio_in => exact prioritize_rejects hk

end Pids

-- ==== the numbers that are rejected

/-- A number that a process makes up is rejected exactly where it is an index
into the table and, for three of the calls, the index of something. -/
theorem rejects_iff_harmless (n : Nat) : (∀ (s : Files) (pid : Nat) (t : FileProcess)
      (call : FileCall), s.procs pid = some t →
      (Rejects (call.handle s pid n) (NoFile t (call.index n)) ↔ call.Harmless t (call.index n))) ∧
    ∀ (s : State) (self : Ptr) (k : Process) (call : ProcessCall),
      system.Reach Machine.anyStep s → s.procs self = some k →
      (Rejects (call.handle s self n) (call.Missing s k (toUInt16 n))
        ↔ call.Harmless s k (toUInt16 n)) := by
  refine ⟨fun s pid t call ht => fileCall_rejects ht call, ?_⟩
  intro s self k call hreach hk
  exact processCall_rejects (numbered_of_reach hreach) hk call

/-- The process at 5 runs, and the kernel tasks are there. -/
theorem booted_running : ∃ s k, system.run booted State.initial = .ok s ∧
    system.Reach Machine.anyStep s ∧ s.current = some 5 ∧ s.procs 5 = some k ∧
    NoProcess s 77 := by
  obtain ⟨s, hrun, hcurrent, hprocs, hnone⟩ := Machine.exists_run
    (M := system) (P := fun s => s.current = some 5 ∧ (s.procs 5).isSome = true ∧
      s.gProcessTable.mTable 77 = none) booted State.initial
    (by decide)
  obtain ⟨k, hk⟩ := Option.isSome_iff_exists.1 hprocs
  exact ⟨s, k, hrun, Machine.reach_run rfl hrun, hcurrent, hk, hnone⟩

/-- A read from a descriptor that is not open, and the priority of a process
that does not exist. -/
theorem rejects_iff_harmless_two : (∃ t, initial.procs 0 = some t ∧ NoFile t 7 ∧
      Rejects ((FileCall.fread 1).handle initial 0 7) (NoFile t 7)) ∧
    ∃ s, system.run booted State.initial = .ok s ∧ NoProcess s 77 ∧
      Rejects ((ProcessCall.prioritize .current none).handle s 5 77) (NoProcess s 77) := by
  refine ⟨⟨{}, rfl, .inr rfl, ?_⟩, ?_⟩
  · refine ((rejects_iff_harmless 7).1 initial 0 _ (.fread 1) rfl).2 ?_
    show 7 < gNumFds
    decide
  obtain ⟨s, k, hrun, hreach, hcurrent, hk, hnone⟩ := booted_running
  refine ⟨s, hrun, hnone, ?_⟩
  refine ((rejects_iff_harmless 77).2 s 5 k (.prioritize .current none) hreach hk).2 ?_
  show toUInt16 77 < gNumProcesses
  decide

/-- Descriptor 64 is read behind the table, a file that is not open is closed
with success, and collecting a process that does not exist is a PANIC. -/
theorem not_rejected : (∃ t, initial.procs 0 = some t ∧
      (FileCall.fread 1).handle initial 0 64 = .error .outOfBounds ∧
      ¬ Rejects ((FileCall.fread 1).handle initial 0 64) (NoFile t 64) ∧
      NoFile t 7 ∧
      ¬ Rejects (FileCall.fclose.handle initial 0 7) (NoFile t 7)) ∧
    ∃ s k, system.run booted State.initial = .ok s ∧
      s.current = some 5 ∧ s.procs 5 = some k ∧ NoProcess s 77 ∧
      ProcessCall.collect.handle s 5 77 = .error .collectNone ∧
      ¬ Rejects (ProcessCall.collect.handle s 5 77) (NoChild s k 77) := by
  constructor
  · have hproc : initial.procs 0 = some {} := rfl
    have hpast : (FileCall.fread 1).handle initial 0 64
        = .error .outOfBounds := withHandle_past hproc (by decide)
    refine ⟨_, hproc, hpast, fun h => h.1 hpast, .inr rfl, fun h => ?_⟩
    exact ((fclose_rejects hproc).1 h).2 rfl
  obtain ⟨s, k, hrun, _, hcurrent, hk, hnone⟩ := booted_running
  have hpanic : ProcessCall.collect.handle s 5 77 = .error .collectNone := by
    show collect s 5 77 = _
    unfold collect State.collect
    rw [get_inside (show toUInt16 77 < gNumProcesses by decide), bind_ok]
    rw [show toUInt16 77 = 77 from rfl, hnone]
    rfl
  refine ⟨s, k, hrun, hcurrent, hk, hnone, hpanic, fun h => ?_⟩
  obtain ⟨code, s', heq⟩ := h.2 (by
    rintro ⟨p, t, hp, _⟩
    rw [hnone] at hp
    cases hp)
  cases hpanic.symm.trans heq

end Puppy.Sys
