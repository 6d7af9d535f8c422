/-
Scripts that run scripts.

Nothing bounds how many files a load goes through but the stack of the
kernel, and nothing bounds the words of a first line but the file. So the
loader comes back exactly when the chain of scripts is in order and short
(`loadBinary_ok_iff`).

The array for the arguments is sized for the arguments of the process, of
which the first is dropped, and three more. A process without arguments has
none to drop, and then the null pointer does not fit behind an argument in
the first line (`newArgs_eq`, `strings_filled`).
-/
import Puppy.Exec.Shebang

namespace Puppy.Exec

open Libc Lib List

-- ==== strchr

section Strchr

variable {c : UInt8} {xs ys : List UInt8}

/-- The search goes on behind what it has passed. -/
theorem strchr_append (h : ∀ b ∈ xs, b ≠ c ∧ b ≠ 0) :
    strchr c (xs ++ ys) = Search.next^[xs.length] (strchr c ys) := by
  induction xs with
  | nil => rfl
  | cons b rest ih =>
    obtain ⟨hb, hrest⟩ := forall_mem_cons.1 h
    rw [cons_append, strchr, if_neg hb.1, if_neg hb.2, ih hrest,
      length_cons, Function.iterate_succ_apply']

@[simp]
theorem iterate_next_found (n i : Nat) : Search.next^[n] (.found i) = .found (i + n) := by
  induction n with
  | zero => rfl
  | succ n ih => rw [Function.iterate_succ_apply', ih, Search.next, add_assoc]

@[simp]
theorem iterate_next_nowhere (n : Nat) : Search.next^[n] .nowhere = .nowhere :=
  Function.iterate_fixed rfl n

@[simp]
theorem iterate_next_unmapped (n : Nat) : Search.next^[n] .unmapped = .unmapped :=
  Function.iterate_fixed rfl n

/-- The character stands where the first one of its kind is. -/
theorem strchr_found (h : ∀ b ∈ xs, b ≠ c ∧ b ≠ 0) :
    strchr c (xs ++ c :: ys) = .found xs.length := by
  rw [strchr_append h, strchr, if_pos rfl, iterate_next_found, zero_add]

theorem next_eq_unmapped {s : Search} : s.next = .unmapped ↔ s = .unmapped := by
  cases s <;> simp [Search.next]

/-- Without the character and without a zero there is no end to it. -/
theorem strchr_eq_unmapped : strchr c xs = .unmapped ↔ c ∉ xs ∧ 0 ∉ xs := by
  induction xs with
  | nil => simp [strchr]
  | cons b rest ih =>
    rw [strchr, mem_cons, mem_cons, not_or, not_or]
    by_cases hb : b = c
    · simp [hb]
    by_cases hz : b = 0
    · rw [if_neg hb, if_pos hz]
      simp [hz]
    · rw [if_neg hb, if_neg hz, next_eq_unmapped, ih]
      simp [Ne.symm hb, Ne.symm hz]

end Strchr

-- ==== the first line

section FirstLine

variable {interp arg : CString} {rest : List UInt8}

theorem firstLine_argument (hinterp : ∀ b ∈ interp, b ≠ space ∧ b ≠ 0)
    (hline : ∀ b ∈ interp ++ space :: arg, b ≠ newline ∧ b ≠ 0) :
    firstLine (interp ++ space :: arg ++ newline :: rest) = .spec ⟨interp, arg⟩ := by
  have hnl := @strchr_found newline _ rest hline
  have hsp : strchr space (interp ++ space :: arg ++ newline :: rest) = .found interp.length := by
    rw [append_assoc, cons_append]
    exact strchr_found hinterp
  have hlt : interp.length < (interp ++ space :: arg).length := by
    rw [length_append, length_cons]
    omega
  unfold firstLine
  rw [hsp, hnl]
  dsimp only
  have hdrop : (interp ++ space :: arg ++ newline :: rest).drop
      (interp.length + 1) = arg ++ newline :: rest := by
    rw [append_assoc, drop_append]
    simp
  have hlen : (interp ++ space :: arg).length - (interp.length + 1) = arg.length := by
    rw [length_append, length_cons]
    omega
  rw [if_pos hlt, hdrop, hlen, take_left, append_assoc, take_left]

/-- Without an argument the search for a space goes on behind the line. -/
theorem firstLine_bare (hinterp : ∀ b ∈ interp, b ≠ space ∧ b ≠ 0)
    (hline : ∀ b ∈ interp, b ≠ newline ∧ b ≠ 0) :
    firstLine (interp ++ newline :: rest)
      = if space ∈ rest ∨ 0 ∈ rest then .spec ⟨interp, []⟩ else .fault := by
  have hnl := @strchr_found newline _ rest hline
  have hsp : strchr space (interp ++ newline :: rest)
      = Search.next^[interp.length + 1] (strchr space rest) := by
    rw [strchr_append hinterp, strchr, if_neg (by decide), if_neg (by decide),
      ← Function.iterate_succ_apply]
  have htake : (interp ++ newline :: rest).take interp.length = interp := take_left
  unfold firstLine
  rw [hsp, hnl]
  cases hrest : strchr space rest with
  | unmapped =>
    obtain ⟨h1, h2⟩ := strchr_eq_unmapped.1 hrest
    rw [if_neg (not_or.2 ⟨h1, h2⟩), iterate_next_unmapped]
  | nowhere =>
    have hsome : space ∈ rest ∨ 0 ∈ rest := by
      by_contra h
      rw [strchr_eq_unmapped.2 (not_or.1 h)] at hrest
      cases hrest
    rw [if_pos hsome, iterate_next_nowhere]
    dsimp only
    rw [htake]
  | found i =>
    have hsome : space ∈ rest ∨ 0 ∈ rest := by
      by_contra h
      rw [strchr_eq_unmapped.2 (not_or.1 h)] at hrest
      cases hrest
    rw [if_pos hsome, iterate_next_found]
    dsimp only
    rw [if_neg (by omega), htake]

end FirstLine

-- ==== the array of arguments

/-- An array whose first places are taken. -/
def filled (values : List CString) (free : Nat) : List (Option CString) :=
  values.map some ++ replicate free none

section Filled

variable {values : List CString} {value : CString} {free : Nat}

theorem store_filled : store (filled values (free + 1)) values.length value
    = .ok (filled (values ++ [value]) free) := by
  have hlt : values.length < (filled values (free + 1)).length := by simp [filled]
  unfold store
  rw [if_pos hlt]
  simp [filled, replicate_succ]

theorem storeFrom_filled {l : List CString} :
    storeFrom (filled values (free + l.length)) values.length l
      = .ok (filled (values ++ l) free) := by
  induction l generalizing values with
  | nil => simp [storeFrom]
  | cons value rest ih =>
    have hih := @ih (values ++ [value])
    rw [length_append, length_singleton, append_assoc, singleton_append] at hih
    rw [length_cons, ← add_assoc, storeFrom, store_filled, bind_ok, hih]

/-- The strings can be read if there is a null pointer behind them. -/
theorem strings_filled : Launch.strings (filled values free)
    = if 0 < free then .ok values else .error .outOfBounds := by
  induction values with
  | nil =>
    cases free with
    | zero => rfl
    | succ free => rfl
  | cons value rest ih =>
    show (Launch.strings (filled rest free) >>= _) = _
    rw [ih]
    split <;> rfl

end Filled

namespace Launch

variable {p : Launch} {s : Bangspec}

/-- The places of the array that are left. -/
def spare (p : Launch) (s : Bangspec) : Nat :=
  p.argv.length + 3 - (p.expanded s).length

/-- The index that the path goes to. -/
def argOffset (s : Bangspec) : Nat := if s.arg = [] then 1 else 2

/-- What stands in front of the path. -/
def front (s : Bangspec) : List CString :=
  s.interp :: if s.arg = [] then [] else [s.arg]

theorem length_front : (front s).length = argOffset s := by
  unfold front argOffset
  split <;> rfl

theorem expanded_eq : p.expanded s = (front s ++ [p.path]) ++ p.argv.drop 1 := by
  unfold expanded front
  split <;> rfl

theorem length_expanded : (p.expanded s).length = argOffset s + 1 + (p.argv.length - 1) := by
  rw [expanded_eq, length_append, length_append, length_front, length_singleton, length_drop]

theorem argOffset_cases : (s.arg = [] ∧ argOffset s = 1) ∨ (s.arg ≠ [] ∧ argOffset s = 2) := by
  unfold argOffset
  split
  next h => exact .inl ⟨h, rfl⟩
  next h => exact .inr ⟨h, rfl⟩

theorem spare_eq : p.argv.length + 3 = p.spare s + (p.argv.drop 1).length + argOffset s + 1 := by
  unfold spare
  rw [length_expanded, length_drop]
  rcases @argOffset_cases s with ⟨_, h⟩ | ⟨_, h⟩ <;> omega

/-- The null pointer has its place if there is room. -/
theorem spare_pos : 0 < p.spare s ↔ p.Roomy s := by
  have hnil : p.argv ≠ [] ↔ 0 < p.argv.length := length_pos_iff.symm
  unfold spare Roomy
  rw [length_expanded, hnil]
  rcases @argOffset_cases s with ⟨harg, h⟩ | ⟨harg, h⟩
  · exact iff_of_true (by omega) (.inl harg)
  · rw [or_iff_right harg]
    omega

theorem storeArg_filled {free : Nat} : storeArg (filled [s.interp] (free + argOffset s)) s.arg
      = .ok (filled (front s) (free + 1), argOffset s) := by
  unfold storeArg argOffset front
  split
  · rfl
  · rw [show store (filled [s.interp] (free + 1 + 1)) 1 s.arg = _ from store_filled]
    rfl

/-- Every store is inside the array. -/
theorem newArgs_eq : p.newArgs s = .ok (filled (p.expanded s) (p.spare s)) := by
  have hinterp : store (filled [] (p.argv.length + 3)) 0 s.interp = .ok (filled
      [s.interp] (p.spare s + (p.argv.drop 1).length + argOffset s)) := by
    rw [@spare_eq p s]
    exact store_filled
  have hpath : store (filled (front s) (p.spare s + (p.argv.drop 1).length + 1))
      (argOffset s) p.path
      = .ok (filled (front s ++ [p.path]) (p.spare s + (p.argv.drop 1).length)) := by
    rw [← length_front]
    exact store_filled
  have hrest := @storeFrom_filled (front s ++ [p.path]) (p.spare s) (p.argv.drop 1)
  rw [length_append, length_front, length_singleton, ← expanded_eq] at hrest
  show (store (filled [] (p.argv.length + 3)) 0 s.interp >>= _) = _
  rw [hinterp, bind_ok, storeArg_filled, bind_ok]
  dsimp only
  rw [hpath, bind_ok, hrest]

/-- The interpreter gets its arguments if everything fits. -/
theorem shebang_eq : p.shebang s = if s.Fits ∧ p.Roomy s then
    .ok { p with args := some (p.expanded s) } else .error .outOfBounds := by
  unfold shebang copyPath
  by_cases hinterp : s.interp.length < pathNameSize
  · by_cases harg : s.arg.length < pathNameSize
    · rw [if_pos hinterp, bind_ok, if_pos harg, bind_ok]
      rw [newArgs_eq, bind_ok]
      unfold copyArguments
      rw [strings_filled]
      by_cases hroomy : p.Roomy s
      · rw [if_pos (spare_pos.2 hroomy), if_pos ⟨⟨hinterp, harg⟩, hroomy⟩]
        rfl
      · rw [if_neg (fun h => hroomy (spare_pos.1 h)), if_neg (fun h => hroomy h.2)]
        rfl
    · have hlong : ¬ (s.Fits ∧ p.Roomy s) := fun h => harg h.1.2
      rw [if_pos hinterp, bind_ok, if_neg harg, if_neg hlong]
      rfl
  · have hlong : ¬ (s.Fits ∧ p.Roomy s) := fun h => hinterp h.1.1
    rw [if_neg hinterp, if_neg hlong]
    rfl

end Launch

-- ==== the arguments of a script

variable {p : Launch} {held : List Nat} {n : Nat}

theorem Launch.builds_spec {s : Bangspec} {bangspec : List UInt8}
    (h : firstLine bangspec = .spec s) :
    p.Builds bangspec (p.expanded s) ↔ s.Fits ∧ p.Roomy s := by
  constructor
  · rintro ⟨s', array, hs', hfits, _, _, hshebang⟩
    cases h.symm.trans hs'
    refine ⟨hfits, ?_⟩
    by_contra hroomy
    rw [shebang_eq, if_neg (fun h => hroomy h.2)] at hshebang
    cases hshebang
  rintro ⟨hfits, hroomy⟩
  obtain ⟨free, hfree⟩ := Nat.exists_eq_succ_of_ne_zero (Nat.pos_iff_ne_zero.1 (spare_pos.2 hroomy))
  refine ⟨s, _, h, hfits, newArgs_eq, ⟨replicate free none, ?_⟩, ?_⟩
  · rw [hfree]
    rfl
  · rw [shebang_eq, if_pos ⟨hfits, hroomy⟩]

/-- The arguments of the interpreter are those of the script with the
interpreter, the argument and the path in place of the first, if the words
of the line fit into their buffers, a script without arguments is not given
one by its first line, and the search for a space ends. -/
theorem builds_iff (p : Launch) (interp : CString) (arg : Option CString)
    (rest : List UInt8) (hinterp : ∀ b ∈ interp, b ≠ space ∧ b ≠ 0)
    (hline : ∀ b ∈ interp ++ argument arg, b ≠ newline ∧ b ≠ 0) :
    p.Builds (interp ++ argument arg ++ newline :: rest) (p.expanded ⟨interp, arg.getD []⟩) ↔
      interp.length < pathNameSize ∧ (arg.getD []).length < pathNameSize ∧
      (arg.getD [] = [] ∨ p.argv ≠ []) ∧
      (arg ≠ none ∨ space ∈ rest ∨ 0 ∈ rest) := by
  cases arg with
  | some arg =>
    refine (Launch.builds_spec (firstLine_argument hinterp hline)).trans ?_
    unfold Bangspec.Fits Launch.Roomy
    rw [and_assoc]
    exact and_congr_right' (and_congr_right' (and_iff_left (.inl (Option.some_ne_none arg))).symm)
  | none =>
    have hspec := @firstLine_bare interp rest hinterp (fun b hb =>
      hline b (mem_append_left _ hb))
    rw [show interp ++ argument none = interp from append_nil interp]
    by_cases hends : space ∈ rest ∨ 0 ∈ rest
    · rw [if_pos hends] at hspec
      refine (Launch.builds_spec hspec).trans ?_
      unfold Bangspec.Fits Launch.Roomy
      rw [and_assoc]
      exact and_congr_right' (and_congr_right' (and_iff_left (.inr hends)).symm)
    rw [if_neg hends] at hspec
    constructor
    · rintro ⟨s, _, hs, _⟩
      cases hspec.symm.trans hs
    rintro ⟨_, _, _, h⟩
    rcases h with h | h
    · exact absurd rfl h
    · exact absurd h hends

/-- `#!/b -x` in a script that is started with its path and one argument. -/
theorem builds_iff_two : let p : Launch := ⟨[0x2F, 0x73], some [[0x2F, 0x73], [0x79]]⟩
    p.Builds [0x2F, 0x62, 0x20, 0x2D, 0x78, 0x0A, 0x00]
      [[0x2F, 0x62], [0x2D, 0x78], [0x2F, 0x73], [0x79]] :=
  (builds_iff ⟨[0x2F, 0x73], some [[0x2F, 0x73], [0x79]]⟩ [0x2F, 0x62]
    (some [0x2D, 0x78]) [0x00] (by simp [space]) (by simp [argument, newline, space])).2 (by decide)

/-- `#!/b -x` in a script that is started without arguments: three strings
in an array of three places. -/
theorem not_builds : let p : Launch := ⟨[0x2F, 0x73], none⟩
    let s : Bangspec := ⟨[0x2F, 0x62], [0x2D, 0x78]⟩
    let text := [0x2F, 0x62, 0x20, 0x2D, 0x78, 0x0A, 0x00]
    firstLine text = .spec s ∧ p.newArgs s = .ok [some [0x2F, 0x62], some [0x2D, 0x78],
        some [0x2F, 0x73]] ∧
      p.shebang s = .error .outOfBounds ∧
      ¬ p.Builds text (p.expanded s) := by
  refine ⟨by decide, by decide, by decide, fun h => ?_⟩
  obtain ⟨_, hroomy⟩ := (Launch.builds_spec (by decide)).1 h
  exact absurd hroomy (by decide)

-- ==== nested loads

section Nested

variable {disk : Disk} {grants : Grants} {locals room n : Nat}
  {held : List Nat} {p : Launch} {path : CString}

theorem loadBinary_other {result : Loaded} (h : inspect disk grants held path = .other result) :
    loadBinary disk grants locals room held p path = .ok (result, p) := by
  unfold loadBinary
  rw [h]

/-- One more script. -/
theorem loadBinary_script {size : Nat} {s : Bangspec}
    (h : inspect disk grants held path = .script size (.spec s))
    (hroom : frameSize locals ≤ room) (hfits : s.Fits) (hroomy : p.Roomy s) :
    loadBinary disk grants locals room held p path
      = loadBinary disk grants locals (room - frameSize locals)
          (size :: held) { p with args := some (p.expanded s) } s.interp := by
  rw [loadBinary, h]
  dsimp only
  rw [dif_neg (Nat.not_lt.2 hroom), Launch.shebang_eq, if_pos ⟨hfits, hroomy⟩, bind_ok]

/-- Nested scripts load if the stack has room for them. -/
theorem loadBinary_ok_of_nests (h : Nests disk grants held p path n)
    (hroom : n * frameSize locals ≤ room) :
    ∃ result, loadBinary disk grants locals room held p path = .ok result := by
  induction h generalizing room with
  | other hinspect => exact ⟨_, loadBinary_other hinspect⟩
  | @broken held p path size line hinspect hline =>
    rw [one_mul] at hroom
    rw [loadBinary, hinspect]
    dsimp only
    rw [dif_neg (Nat.not_lt.2 hroom)]
    cases line with
    | spec s => exact absurd rfl (hline s)
    | noNewline => exact ⟨_, rfl⟩
    | fault => exact ⟨_, rfl⟩
  | @script held p path size s n hinspect hfits hroomy _ ih =>
    rw [Nat.succ_mul] at hroom
    rw [loadBinary_script hinspect (by omega) hfits hroomy]
    exact ih (by omega)

/-- And only then. -/
theorem nests_of_loadBinary_ok {result : Loaded × Launch}
    (h : loadBinary disk grants locals room held p path = .ok result) :
    ∃ n, Nests disk grants held p path n ∧ n * frameSize locals ≤ room := by
  -- on the room that is left, as the loader itself
  induction room using Nat.strong_induction_on generalizing held p path with
  | h room ih =>
    cases hinspect : inspect disk grants held path with
    | other result => exact ⟨0, .other hinspect, by omega⟩
    | script size line =>
      by_cases hroom : room < frameSize locals
      · rw [loadBinary, hinspect] at h
        dsimp only at h
        rw [dif_pos hroom] at h
        cases h
      have hone : 1 * frameSize locals ≤ room := by omega
      cases line with
      | noNewline => exact ⟨1, .broken hinspect (fun s heq => by cases heq), hone⟩
      | fault => exact ⟨1, .broken hinspect (fun s heq => by cases heq), hone⟩
      | spec s =>
        by_cases hgood : s.Fits ∧ p.Roomy s
        · rw [loadBinary_script hinspect (Nat.not_lt.1 hroom) hgood.1 hgood.2] at h
          have hframe : 0 < frameSize locals := by
            unfold frameSize pathNameSize
            omega
          obtain ⟨n, hn, hle⟩ := ih _ (by omega) h
          refine ⟨n + 1, .script hinspect hgood.1 hgood.2 hn, ?_⟩
          rw [Nat.succ_mul]
          omega
        · rw [loadBinary, hinspect] at h
          dsimp only at h
          rw [dif_neg hroom, Launch.shebang_eq, if_neg hgood] at h
          cases h

end Nested

/-- A load returns or ends the process exactly if the scripts name one
another in a chain that ends, which the stack has room for, and in which
every first line fits into its buffers. -/
theorem loadBinary_ok_iff (disk : Disk) (grants : Grants) (locals room : Nat)
    (held : List Nat) (p : Launch) (path : CString) :
    (∃ result, loadBinary disk grants locals room held p path = .ok result) ↔
      ∃ n, Nests disk grants held p path n ∧ n * frameSize locals ≤ room := by
  constructor
  · rintro ⟨result, h⟩
    exact nests_of_loadBinary_ok h
  · rintro ⟨n, hn, hroom⟩
    exact loadBinary_ok_of_nests hn hroom

/-- A script that names itself as its interpreter, and one whose interpreter
has a name of 300 letters. -/
def badScripts : Disk := fun path =>
  if path = [0x2F, 0x73] then some [0x23, 0x21, 0x2F, 0x73, 0x0A]
  else if path = [0x2F, 0x6C] then
    some ([0x23, 0x21, 0x2F] ++ replicate 299 0x61 ++ [0x0A])
  else none

theorem inspect_self (held : List Nat) : inspect badScripts (fun _ _ => true) held [0x2F, 0x73]
      = .script 5 (.spec ⟨[0x2F, 0x73], []⟩) := by
  show inspect badScripts (fun _ _ => true) [] [0x2F, 0x73] = _
  decide

theorem not_nests_self : ¬ Nests badScripts (fun _ _ => true) held p [0x2F, 0x73] n := by
  induction n generalizing held p with
  | zero =>
    intro h
    cases h with
    | other h =>
      rw [inspect_self] at h
      cases h
  | succ n ih =>
    intro h
    cases h with
    | broken h hline =>
      rw [inspect_self] at h
      injection h with _ h
      exact hline _ h.symm
    | script h _ _ hnext =>
      rw [inspect_self] at h
      cases h
      exact ih hnext

theorem not_nests_long : ¬ Nests badScripts (fun _ _ => true) held p [0x2F, 0x6C] n := by
  have hinspect : inspect badScripts (fun _ _ => true) held [0x2F, 0x6C]
      = .script 303 (.spec ⟨0x2F :: replicate 299 0x61, []⟩) := by
    show inspect badScripts (fun _ _ => true) [] [0x2F, 0x6C] = _
    decide +kernel
  intro h
  cases h with
  | other h =>
    cases hinspect.symm.trans h
  | broken h hline =>
    rw [hinspect] at h
    injection h with _ h
    exact hline _ h.symm
  | script h hfits _ _ =>
    cases hinspect.symm.trans h
    have hlen := hfits.1
    rw [length_cons, length_replicate] at hlen
    exact absurd hlen (by decide)

/-- However large the stack is, a script that names itself fills it, and a
long name overflows its buffer. -/
theorem loadBinary_overflows : (¬ ∃ (p : Launch) (locals room : Nat), ∃ result,
      loadBinary badScripts (fun _ _ => true) locals room [] p [0x2F, 0x73] = .ok result) ∧
    ¬ ∃ (p : Launch) (locals room : Nat), ∃ result,
      loadBinary badScripts (fun _ _ => true) locals room [] p [0x2F, 0x6C] = .ok result := by
  constructor
  · rintro ⟨p, locals, room, result, h⟩
    obtain ⟨n, hn, _⟩ := nests_of_loadBinary_ok h
    exact not_nests_self hn
  · rintro ⟨p, locals, room, result, h⟩
    obtain ⟨n, hn, _⟩ := nests_of_loadBinary_ok h
    exact not_nests_long hn

end Puppy.Exec
