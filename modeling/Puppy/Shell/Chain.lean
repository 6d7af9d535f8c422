/-
Chains of commands (apps/shell/src/exec.cpp, builtin.cpp, exit.cpp, and
`waitpid` in newlib/syscalls/interface.cpp).

`a && b` is a command `a` that has `b` as the one to run if it succeeds.
`exec` gets to that only from the end of its body, where an external
program has exited. A command that a built-in has handled returns before,
and what was to run after it is never looked at. A built-in that declines
is followed by the program of the same name, if there is one, and then it
is the program that decides. And a program that cannot be started has -1 for
a pid. To wait for that one is to take the status of any child that is dead
by then, and if there is none, the exit code stays the 0 it was.

What the shell prints is left out, and so are redirections and pipes,
which do not change which commands run.
-/
import Mathlib.Tactic

namespace Puppy.Shell

-- ==== the shell

/-- `Command`. There is a first word, the program. -/
inductive Command where
  | mk (program : String) (args : List String) (mBackground : Bool) (mRunIfSuccess : Option Command)

/-- What the shell runs on. -/
structure Host (σ : Type) where
  /-- `getBuiltinMap`: a built-in says whether it has handled the command. -/
  builtin : String → Option (List String → σ → Bool × σ)
  /-- The empty path is `none`. -/
  getProgramPath : String → σ → Option String
  /-- The pid of the child; `none` is -1. -/
  spawn : String → List String → Bool → σ → Option Nat × σ
  /-- What is stored as the exit code, if anything is. -/
  waitpid : Option Nat → σ → Option UInt32 × σ

variable {σ : Type}

namespace Host

variable (host : Host σ)

def tryExecBuiltin (program : String) (args : List String) (s : σ) : Bool × σ :=
  if program = "" ∨ program.front = '#' then (true, s)
  else
    match host.builtin program with
    | none => (false, s)
    | some f => f args s

/-- `handleExitStatus`: `WIFEXITED`, and `WEXITSTATUS` is 0. -/
def handleExitStatus (exitcode : UInt32) : Bool :=
  exitcode &&& 0xFF == 0 && (exitcode >>> 8) &&& 0xFF == 0

/-- What becomes of a command that is not built in. -/
inductive Launch where
  /-- There is no such program. -/
  | notFound
  | background
  /-- A child that has been waited for, and what was stored for it. -/
  | waited (chld : Option Nat) (stored : Option UInt32)

/-- What `exec` does with a command that is not built in. -/
def launch (program : String) (args : List String) (mBackground : Bool) (s : σ) : Launch × σ :=
  match host.getProgramPath program s with
  | none => (.notFound, s)
  | some path =>
    let (chld, s) := host.spawn path args mBackground s
    if mBackground then (.background, s)
    else
      let (stored, s) := host.waitpid chld s
      (.waited chld stored, s)

/-- `exec` takes the command for a success. The exit code is 0 to begin
with. -/
def Launch.ok : Launch → Bool
  | .waited _ stored => handleExitStatus (stored.getD 0)
  | _ => false

/-- `Command::exec`: how many commands it has executed. -/
def exec : Command → σ → Nat × σ
  | .mk program args mBackground mRunIfSuccess, s =>
    match host.tryExecBuiltin program args s with
    | (true, s) => (1, s)
    | (false, s) =>
      match host.launch program args mBackground s, mRunIfSuccess with
      | (launched, s), some next =>
        if launched.ok then ((exec next s).1 + 1, (exec next s).2) else (1, s)
      | (_, s), none => (1, s)

-- ==== chains

/-- A word and the rest of the words of a command. -/
abbrev Words := String × List String

/-- `c1 && c2 && ...` in the foreground, as the parser builds it. -/
def chain (first : Words) : List Words → Command
  | [] => .mk first.1 first.2 false none
  | next :: rest => .mk first.1 first.2 false (some (chain next rest))

/-- A program has run, and exited with status 0. -/
def Launch.succeeded : Launch → Bool
  | .waited (some _) (some exitcode) => handleExitStatus exitcode
  | _ => false

/-- One command: whether it succeeds, and what it leaves. A built-in that
has declined has not, whatever the program of the same name does. -/
def attempt (c : Words) (s : σ) : Bool × σ :=
  match host.tryExecBuiltin c.1 c.2 s with
  | (true, s) => (true, s)
  | (false, s) =>
    ((host.builtin c.1).isNone && (host.launch c.1 c.2 false s).1.succeeded,
      (host.launch c.1 c.2 false s).2)

/-- The commands up to the first that does not succeed. -/
def prefixLaw : List Words → σ → Nat × σ
  | [], s => (0, s)
  | c :: rest, s =>
    match host.attempt c s with
    | (true, s) => ((prefixLaw rest s).1 + 1, (prefixLaw rest s).2)
    | (false, s) => (1, s)

/-- No command that another one follows is handled by a built-in, or
declined by one and then done by a program, or could not be started while
what `waitpid` finds is a 0, or nothing. Only commands that are reached
count. -/
def External : Words → List Words → σ → Prop
  | _, [], _ => True
  | c, next :: rest, s =>
    match host.tryExecBuiltin c.1 c.2 s with
    | (true, _) => False
    | (false, s) =>
      (host.launch c.1 c.2 false s).1.ok = true →
        host.builtin c.1 = none ∧ (host.launch c.1 c.2 false s).1.succeeded = true ∧
          External next rest (host.launch c.1 c.2 false s).2

variable {host}

/-- Whoever succeeds is taken for a success. -/
theorem Launch.ok_of_succeeded {l : Launch} (h : l.succeeded = true) : l.ok = true := by
  unfold succeeded at h
  split at h
  · exact h
  · cases h

theorem exec_pos (c : Command) (s : σ) : 0 < (host.exec c s).1 := by
  cases c
  unfold exec
  split
  · simp
  · split
    · split <;> simp
    · simp

theorem prefixLaw_pos (c : Words) (rest : List Words) (s : σ) :
    0 < (host.prefixLaw (c :: rest) s).1 := by
  unfold prefixLaw
  split <;> simp

end Host

end Puppy.Shell
