/-
Escape sequences of a terminal (src/tty/file.cpp, `TTYFile::write`).

A file of a terminal passes the bytes it is given on to the terminal, but
for the escape sequences among them. Where it is in one is kept from call
to call. Only the bytes that end a sequence it knows take it back to OFF.
So after any other end, and after an ESC that no `[` follows, digits and
semicolons, or a `[`, are taken for parts of a sequence when they are not.

What a sequence makes the terminal do is left out.
-/
import Mathlib.Tactic

namespace Puppy.Tty

open List

-- ==== the state

/-- `escape_sequence_status_t`. -/
inductive EscapeStatus where
  | off
  | esc
  | csi
  deriving DecidableEq

def gNumEscapeInputs : Nat := 6

/-- What a `TTYFile` has for escape sequences, and what it has written to
the terminal. -/
structure TTYFile where
  mEscapeStatus : EscapeStatus := .off
  mEscapeSequenceInput : List Int := .replicate gNumEscapeInputs 0
  mCurrentEscapeSequenceInput : Nat := 0
  written : List UInt8 := []

def isDigit (c : UInt8) : Bool := 48 ≤ c && c ≤ 57

/-- The bytes that end a sequence it knows: A, B, C, D, H, J, K and m. -/
def gFinals : List UInt8 := [65, 66, 67, 68, 72, 74, 75, 109]

/-- A, B, C and D move the cursor, by one if nothing else is said. -/
def orOne (c : UInt8) (n : Int) : Int := if c ≤ 68 ∧ n = 0 then 1 else n

namespace TTYFile

/-- The byte is passed on. -/
def pass (f : TTYFile) (c : UInt8) : TTYFile :=
  { f with written := f.written ++ [c] }

/-- The body of the loop of `write`. -/
def step (f : TTYFile) (c : UInt8) : TTYFile :=
  if c = 27 then
    { f with
      mEscapeStatus := .esc
      mEscapeSequenceInput := .replicate gNumEscapeInputs 0
      mCurrentEscapeSequenceInput := 0 }
  else if c = 91 then
    if f.mEscapeStatus = .esc then { f with mEscapeStatus := .csi }
    else f.pass c
  else if f.mEscapeStatus = .csi then
    if isDigit c then
      { f with
        mEscapeSequenceInput := f.mEscapeSequenceInput.modify
          f.mCurrentEscapeSequenceInput (10 * · + (c.toNat - 48)) }
    else if c = 59 then
      if f.mCurrentEscapeSequenceInput = gNumEscapeInputs - 1 then f
      else
        { f with
          mCurrentEscapeSequenceInput := f.mCurrentEscapeSequenceInput + 1 }
    else if c ∈ gFinals then
      { f with
        mEscapeStatus := .off
        mEscapeSequenceInput := f.mEscapeSequenceInput.modify
          f.mCurrentEscapeSequenceInput (orOne c) }
    else f.pass c
  else f.pass c

def write (f : TTYFile) (buffer : List UInt8) : TTYFile := buffer.foldl step f

/-- Calls of `write`, one after the other, on a new file. -/
def run (calls : List (List UInt8)) : TTYFile := calls.foldl write {}

end TTYFile

-- ==== sequences

/-- The stream has just come to the end of a sequence. -/
inductive Ended : List UInt8 → Prop
  | sequence (before params : List UInt8) (final : UInt8) :
      (∀ p ∈ params, isDigit p = true ∨ p = 59) → 0x40 ≤ final →
      final ≤ 0x7E → Ended (before ++ 27 :: 91 :: params ++ [final])
  | pair (before : List UInt8) (c : UInt8) : c ≠ 91 → Ended (before ++ [27, c])

/-- After the end of a sequence the file is out of it, and passes on what
comes before the next ESC. -/
def EndsWell (stream : List UInt8) : Prop :=
  ∀ calls : List (List UInt8), calls.flatten <+: stream → Ended calls.flatten →
      (TTYFile.run calls).mEscapeStatus = .off ∧
        ∀ later : List (List UInt8), (calls ++ later).flatten <+: stream → 27 ∉ later.flatten →
            (TTYFile.run (calls ++ later)).written = (TTYFile.run calls).written ++ later.flatten

/-- Every sequence of the stream is one that begins with ESC and `[` and
ends with a byte the file knows. -/
def Known (stream : List UInt8) : Prop :=
  ∀ seen, seen <+: stream → Ended seen →
    ∃ before params final, seen = before ++ 27 :: 91 :: params ++ [final] ∧
      (∀ p ∈ params, isDigit p = true ∨ p = 59) ∧ final ∈ gFinals

namespace TTYFile

variable {f : TTYFile} {before params text : List UInt8}

theorem run_eq (calls : List (List UInt8)) : run calls = calls.flatten.foldl step {} := by
  rw [foldl_flatten]
  rfl

theorem param_cases {c : UInt8} (h : isDigit c = true ∨ c = 59) : c ≠ 27 ∧ c ≠ 91 := by
  constructor <;> rintro rfl <;> revert h <;> decide

theorem final_cases {c : UInt8} (h : 0x40 ≤ c) : c ≠ 27 ∧ isDigit c = false ∧ c ≠ 59 := by
  rw [UInt8.le_iff_toNat_le] at h
  have hne : ∀ d : UInt8, d.toNat < 0x40 → c ≠ d := by
    rintro d hd rfl
    exact Nat.not_le.2 hd h
  refine ⟨hne 27 (by decide), ?_, hne 59 (by decide)⟩
  simp [isDigit, UInt8.le_iff_toNat_le] at h ⊢
  omega

theorem foldl_params (hf : f.mEscapeStatus = .csi) (h : ∀ p ∈ params, isDigit p = true ∨ p = 59) :
    (params.foldl step f).mEscapeStatus = .csi := by
  refine foldlRecOn (motive := fun f => f.mEscapeStatus = .csi) params step hf ?_
  intro f hf p hp
  obtain ⟨hesc, hopen⟩ := param_cases (h p hp)
  simp only [step, hesc, hopen, hf, if_false, if_true]
  rcases h p hp with hdigit | rfl
  · simp [hdigit]
  · split_ifs <;> simp_all

/-- Only a final byte that is known ends a sequence. -/
theorem foldl_sequence {final : UInt8}
    (h : ∀ p ∈ params, isDigit p = true ∨ p = 59) (hlow : 0x40 ≤ final) :
    ((before ++ 27 :: 91 :: params ++ [final]).foldl step f).mEscapeStatus =
      if final ∈ gFinals then .off else .csi := by
  obtain ⟨hesc, hdigit, hsemi⟩ := final_cases hlow
  have hparams := foldl_params (f := ((before.foldl step f).step 27).step 91) (by simp [step]) h
  rw [foldl_append, foldl_append]
  simp only [foldl_cons, foldl_nil]
  generalize params.foldl step _ = g at hparams
  simp only [step, hesc, hdigit, hsemi, hparams, if_false, if_true]
  split_ifs <;> simp_all [pass, gFinals]

theorem foldl_pair {c : UInt8} (h : c ≠ 91) :
    ((before ++ [27, c]).foldl step f).mEscapeStatus = .esc := by
  by_cases hc : c = 27 <;> simp [step, h, hc, pass]

theorem foldl_text (hf : f.mEscapeStatus = .off) (h : 27 ∉ text) :
    text.foldl step f = { f with written := f.written ++ text } := by
  induction text generalizing f with
  | nil => simp
  | cons c text ih =>
    simp only [mem_cons, not_or] at h
    have hone : f.step c = f.pass c := by simp [step, Ne.symm h.1, hf]
    rw [foldl_cons, hone, ih (by exact hf) h.2]
    simp [pass]

theorem current_lt (calls : List (List UInt8)) :
    (run calls).mCurrentEscapeSequenceInput < gNumEscapeInputs := by
  rw [run_eq]
  refine foldlRecOn (motive := fun f => f.mCurrentEscapeSequenceInput < gNumEscapeInputs)
    _ step ?_ ?_
  · decide
  intro f hf c _
  unfold step gNumEscapeInputs at *
  split_ifs <;> simp_all [pass]
  omega

end TTYFile

/-- Sequences end where they should exactly in the streams whose sequences
are all known. No stream makes the file store more inputs than it has room
for. -/
theorem endsWell_iff_known (stream : List UInt8) : (EndsWell stream ↔ Known stream) ∧ ∀ calls,
      (TTYFile.run calls).mCurrentEscapeSequenceInput < gNumEscapeInputs := by
  refine ⟨⟨?_, ?_⟩, TTYFile.current_lt⟩
  · intro h seen hseen hended
    obtain ⟨hoff, _⟩ := h [seen] (by simpa using hseen) (by simpa using hended)
    rw [TTYFile.run_eq] at hoff
    cases hended with
    | sequence before params final hparams hlow hhigh =>
      refine ⟨before, params, final, rfl, hparams, ?_⟩
      by_contra hfinal
      rw [flatten_singleton, TTYFile.foldl_sequence hparams hlow, if_neg hfinal] at hoff
      cases hoff
    | pair before c hc =>
      rw [flatten_singleton, TTYFile.foldl_pair hc] at hoff
      cases hoff
  · intro h calls hcalls hended
    obtain ⟨before, params, final, heq, hparams, hfinal⟩ := h _ hcalls hended
    have hlow : ∀ c ∈ gFinals, 0x40 ≤ c := by simp [gFinals]
    have hoff : (TTYFile.run calls).mEscapeStatus = .off := by
      rw [TTYFile.run_eq, heq, TTYFile.foldl_sequence hparams (hlow final hfinal), if_pos hfinal]
    refine ⟨hoff, ?_⟩
    intro later _ htext
    rw [TTYFile.run_eq, flatten_append, foldl_append, ← TTYFile.run_eq,
      TTYFile.foldl_text hoff htext]

/-- ESC `[` 5 n asks for a report. The file does not know it, prints the n
and then takes the digits of what is printed next for inputs. -/
theorem report_swallows_digits : ¬ EndsWell [27, 91, 53, 110, 52, 50] ∧
    (TTYFile.run [[27, 91, 53, 110], [52, 50]]).written = [110] := by
  refine ⟨fun h => ?_, by decide⟩
  have hended : Ended [27, 91, 53, 110] :=
    .sequence [] [53] 110 (by simp [isDigit]) (by decide) (by decide)
  have hoff := (h [[27, 91, 53, 110]] (by decide) hended).1
  revert hoff
  decide

end Puppy.Tty
