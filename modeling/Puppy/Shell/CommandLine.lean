/-
Splitting a command line (slibs/shell/src/expand.cpp).

`parseCommandLine` reads a line one character at a time, with a stack of
states: what an escape or a quote returns to is what was there before it.
A string can be written in many ways. Here it is made of pieces, each one a
character as it is, a character after a backslash, or anything between
quotes; what is in two pieces with no space between them is one string.
However strings are written, with any number of spaces between them, they
are what the parser returns.

The characters of a line are those before its final NUL.
-/
import Mathlib.Tactic

namespace Puppy.Shell

-- ==== the parser

/-- `parser_state_t`. -/
inductive ParserState where
  | ordinary
  | quote
  | escape

/-- The variables of `parseCommandLine`. The top of the stack is in front. -/
structure Parsing where
  result : List (List Char) := []
  buffer : List Char := []
  pstate : List ParserState := [.ordinary]

namespace Parsing

/-- `APPEND_NON_EMPTY`. -/
def appendNonEmpty (s : Parsing) : Parsing :=
  if s.buffer = [] then s
  else { s with result := s.result ++ [s.buffer], buffer := [] }

/-- `APPEND_TO_BUF`. -/
def appendToBuf (s : Parsing) (c : Char) : Parsing :=
  { s with buffer := s.buffer ++ [c] }

/-- `NEW_STATE`. -/
def newState (s : Parsing) (p : ParserState) : Parsing :=
  { s with pstate := p :: s.pstate }

/-- `BACK_STATE`. -/
def backState (s : Parsing) : Parsing := { s with pstate := s.pstate.tail }

/-- The body of the loop. -/
def step (s : Parsing) (c : Char) : Parsing :=
  match s.pstate with
  | .ordinary :: _ =>
    if c = '\\' then s.newState .escape
    else if c = '"' then s.newState .quote
    else if c = ' ' then s.appendNonEmpty
    else s.appendToBuf c
  | .quote :: _ =>
    if c = '"' then s.backState
    else if c = '\\' then s.newState .escape
    else s.appendToBuf c
  | .escape :: _ => (s.appendToBuf c).backState
  | [] => s

end Parsing

/-- `parseCommandLine`: `argc`, and the array with its null at the end. -/
def parseCommandLine (cmdline : List Char) : Nat × List (Option (List Char)) :=
  let result := (cmdline.foldl Parsing.step {}).appendNonEmpty.result
  (result.length, result.map some ++ [none])

-- ==== writing strings

/-- A part of a string, as it is written. -/
inductive Piece where
  | plain (c : Char) (h : c ≠ '\\' ∧ c ≠ '"' ∧ c ≠ ' ')
  | escaped (c : Char)
  | quoted (text : List Char)

namespace Piece

def text : Piece → List Char
  | plain c _ | escaped c => [c]
  | quoted text => text

/-- Between quotes, a quote or a backslash comes after a backslash. -/
def shield (c : Char) : List Char :=
  if c = '"' ∨ c = '\\' then ['\\', c] else [c]

def render : Piece → List Char
  | plain c _ => [c]
  | escaped c => ['\\', c]
  | quoted text => '"' :: text.flatMap shield ++ ['"']

end Piece

/-- A string that is not empty, and how it is written. -/
structure Word where
  pieces : List Piece
  nonempty : pieces.flatMap Piece.text ≠ []

def Word.text (w : Word) : List Char := w.pieces.flatMap Piece.text

def Word.render (w : Word) : List Char := w.pieces.flatMap Piece.render

/-- Words, and after each but the last so many spaces and one more. -/
def line : List (Word × Nat) → List Char
  | [] => []
  | [w] => w.1.render
  | w :: next :: rest => w.1.render ++ .replicate (w.2 + 1) ' ' ++ line (next :: rest)

-- ==== reading them back

namespace Parsing

variable {result : List (List Char)} {buffer : List Char}

theorem foldl_quoted {pstate : List ParserState} (text : List Char) :
    (text.flatMap Piece.shield).foldl step ⟨result, buffer, .quote :: pstate⟩
      = ⟨result, buffer ++ text, .quote :: pstate⟩ := by
  induction text generalizing buffer with
  | nil => simp
  | cons c text ih =>
    have hone : (Piece.shield c).foldl step ⟨result, buffer, .quote :: pstate⟩
        = ⟨result, buffer ++ [c], .quote :: pstate⟩ := by
      unfold Piece.shield
      split <;> simp_all [step, newState, appendToBuf, backState]
    rw [List.flatMap_cons, List.foldl_append, hone, ih]
    simp

theorem foldl_piece (piece : Piece) : piece.render.foldl step ⟨result, buffer, [.ordinary]⟩
      = ⟨result, buffer ++ piece.text, [.ordinary]⟩ := by
  cases piece with
  | plain c h => simp [Piece.render, Piece.text, step, h, appendToBuf]
  | escaped c => simp [Piece.render, Piece.text, step, newState, appendToBuf, backState]
  | quoted text => simp [Piece.render, Piece.text, step, newState, foldl_quoted, backState]

theorem foldl_pieces (pieces : List Piece) :
    (pieces.flatMap Piece.render).foldl step ⟨result, buffer, [.ordinary]⟩
      = ⟨result, buffer ++ pieces.flatMap Piece.text, [.ordinary]⟩ := by
  induction pieces generalizing buffer with
  | nil => simp
  | cons piece pieces ih => simp [foldl_piece, ih]

/-- The first space ends the string. -/
theorem foldl_spaces (hbuffer : buffer ≠ []) (spaces : Nat) :
    (List.replicate (spaces + 1) ' ').foldl step ⟨result, buffer, [.ordinary]⟩
      = ⟨result ++ [buffer], [], [.ordinary]⟩ := by
  induction spaces with
  | zero => simp [step, appendNonEmpty, hbuffer]
  | succ spaces ih =>
    rw [List.replicate_succ', List.foldl_append, ih]
    simp [step, appendNonEmpty]

theorem foldl_line (words : List (Word × Nat)) :
    ((line words).foldl step ⟨result, [], [.ordinary]⟩).appendNonEmpty.result
      = result ++ words.map fun w => w.1.text := by
  fun_induction line words generalizing result with
  | case1 => simp [appendNonEmpty]
  | case2 w => simp [Word.render, Word.text, foldl_pieces, appendNonEmpty, w.1.nonempty]
  | case3 w next rest ih =>
    simp [Word.render, Word.text, foldl_pieces, foldl_spaces w.1.nonempty, ih]

/-- What can be in the stack. -/
def shapes : List (List ParserState) :=
  [[.ordinary], [.quote, .ordinary], [.escape, .ordinary], [.escape, .quote, .ordinary]]

theorem step_shapes {s : Parsing} (hs : s.pstate ∈ shapes) (c : Char) :
    (s.step c).pstate ∈ shapes := by
  have happend : s.appendNonEmpty.pstate = s.pstate := by
    unfold appendNonEmpty
    split <;> rfl
  simp only [shapes, List.mem_cons, List.not_mem_nil, or_false] at hs
  rcases hs with hs | hs | hs | hs <;> simp only [step, hs]
  · split_ifs <;> simp [newState, appendToBuf, happend, hs, shapes]
  · split_ifs <;> simp [newState, backState, appendToBuf, hs, shapes]
  · simp [backState, appendToBuf, hs, shapes]
  · simp [backState, appendToBuf, hs, shapes]

theorem foldl_shapes (cmdline : List Char) : (cmdline.foldl step {}).pstate ∈ shapes := by
  refine List.foldlRecOn (motive := fun s => s.pstate ∈ shapes) cmdline step ?_ ?_
  · exact List.mem_cons_self
  · exact fun s hs c _ => step_shapes hs c

end Parsing

/-- Strings that are written down and put on a line come back, in order,
with their number and a null after them, and the parser always has a state
to return to. -/
theorem parseCommandLine_line (words : List (Word × Nat)) : parseCommandLine (line words) =
        (words.length, (words.map fun w => some w.1.text) ++ [none]) ∧
      ∀ n, (((line words).take n).foldl Parsing.step {}).pstate ≠ [] := by
  constructor
  · simp [parseCommandLine, Parsing.foldl_line]
  · intro n hn
    have hmem := Parsing.foldl_shapes ((line words).take n)
    simp [hn, Parsing.shapes] at hmem

end Puppy.Shell
