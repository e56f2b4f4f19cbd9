import SysProg.Lib.InStream
import SysProg.Lib.Memory
import SysProg.Lib.Text
import SysProg.Lib.Token

/-!
# From the input to argument vectors

The main loop of the shells in `SP_HW5/Part2` and `SP_HW3` reads with `fgets` into a
buffer of `LONGLINE` bytes, makes an argument vector of what it gets with `parse`, and
carries it out.  `fgets` gives at most 254 bytes at a time, and the loop takes what it
gives for a line.

`vectors_iff`: the loop obtains the words of each line as one command if and only if no
line has words in more than one of its pieces of 254 bytes.

What the commands do is a parameter here: a command may end the shell, and then what is left of the
input is not looked at; and the processes that are forked for it may move the offset that they share
with the standard input of the shell.  `vectors_iff` is about commands that leave it where it is.  A
program that is not found does not do so when the input is a file: its process calls `exit`, which
gives back what the shell has buffered and not yet looked at, and lines are read again.

Strings are the bytes before their NUL.
-/

universe u v

namespace SysProg.Shell

open SysProg.Lib

/-- A string. -/
abbrev Word := List UInt8

/-- `LONGLINE` -/
def longLine : Nat := 255

/-- SPACE or TAB or NL -/
def delim (c : UInt8) : Bool := c = 32 || c = 9 || c = 10

/-- NL -/
def newline (c : UInt8) : Bool := c = 10

variable {σ : Type u} {ε : Type v} {line : Word} {stdin : InStream UInt8}

/-! ## parse -/

/-- `parse` of `SP_HW5`; the words are the strings of the vector, before its NULL. -/
def parse (line : Word) : Option (List Word) :=
  if line = ascii "\n" then none
  else match strtok delim line with
    | none => none
    | some (token, rest) => some (token :: tokens delim rest)

/-- `parse` of `SP_HW3` -/
def Hw3.parse (line : Word) : Option (List Word) :=
  match strtok delim line with
  | none => none
  | some (token, rest) => some (token :: tokens delim rest)

theorem Hw3.parse_eq (line : Word) :
    Hw3.parse line = if words delim line = [] then none else some (words delim line) := by
  unfold Hw3.parse
  cases hs : strtok delim line with
  | none => exact (if_pos (words_of_blank (blank_of_strtok hs))).symm
  | some p =>
      obtain ⟨token, rest⟩ := p
      rw [words_of_strtok hs, if_neg (List.cons_ne_nil _ _)]
      exact congrArg (fun ws ↦ some (token :: ws)) (tokens_eq_words rest)

/-- The test for an empty line makes no difference. -/
theorem parse_eq_hw3 : parse = Hw3.parse := by
  funext line
  unfold parse
  split
  · next h => subst h; rfl
  · rfl

/-- **The words of a line**, or no vector when it has none. -/
theorem parse_eq (line : Word) :
    parse line = if words delim line = [] then none else some (words delim line) := by
  rw [parse_eq_hw3, Hw3.parse_eq]

theorem filterMap_parse (ls : List Word) : ls.filterMap parse = phrases delim ls := by
  induction ls with
  | nil => rfl
  | cons l ls ih =>
      rw [List.filterMap_cons, parse_eq]
      by_cases h : Blank delim l
      · rw [if_pos (words_of_blank h), phrases_cons_of_blank h, ih]
      · rw [if_neg (mt words_eq_nil_iff.mp h), phrases_cons_of_not_blank h, ih]

/-! ## The main loop -/

/-- What commands do: the shell goes on with another state or comes to an end, and some processes
end that have been forked for it, before it reads on. -/
structure Commands (σ : Type u) (ε : Type v) where
  run : σ → List Word → Except ε σ
  leaves : σ → List Word → List InStream.Leave

/-- No process moves the offset. -/
def Commands.Keep (C : Commands σ ε) (seekable : Bool) : Prop :=
  ∀ s argv, ∀ l ∈ C.leaves s argv, l.Keeps seekable

/-- The loop over what `fgets` gives; `size` is how much a `read` gives.  It returns the vectors it
has obtained from `parse`, and the state at the end of the input or how the shell came to an end
before.  There is nothing if it has not ended after `fuel` calls of `fgets`. -/
def mainLoop (parse : Word → Option (List Word)) (C : Commands σ ε) (size : Nat → Nat) :
    Nat → σ → InStream UInt8 → Option (List (List Word) × Except ε σ)
  | 0, _, _ => none
  | fuel + 1, s, stdin => match stdin.fgets newline size longLine with
      | none => some ([], .ok s)
      | some (line, stdin) => match parse (cstring line) with
          | none => mainLoop parse C size fuel s stdin
          | some argv => match C.run s argv with
              | .error e => some ([argv], .error e)
              | .ok t => (mainLoop parse C size fuel t (stdin.left (C.leaves s argv))).map
                  fun r ↦ (argv :: r.1, r.2)

/-- `main` of `SP_HW5` comes to an end with this result. -/
def Main (C : Commands σ ε) (size : Nat → Nat) (s : σ) (stdin : InStream UInt8)
    (r : List (List Word) × Except ε σ) : Prop :=
  ∃ fuel, mainLoop parse C size fuel s stdin = some r

/-- `main` of `SP_HW3` comes to an end with this result. -/
def Hw3.Main (C : Commands σ ε) (size : Nat → Nat) (s : σ) (stdin : InStream UInt8)
    (r : List (List Word) × Except ε σ) : Prop :=
  ∃ fuel, mainLoop Hw3.parse C size fuel s stdin = some r

/-- Commands carried out in turn, until one ends the shell. -/
def inTurn (run : σ → List Word → Except ε σ) :
    σ → List (List Word) → List (List Word) × Except ε σ
  | s, [] => ([], .ok s)
  | s, argv :: rest => match run s argv with
      | .error e => ([argv], .error e)
      | .ok s => (argv :: (inTurn run s rest).1, (inTurn run s rest).2)

/-- What is left of the stream after a call is shorter. -/
theorem fgets_cases (size : Nat → Nat) (stdin : InStream UInt8) :
    (stdin.fgets newline size longLine = none ∧ reads newline longLine stdin.rest = []) ∨
      ∃ line stdin', stdin.fgets newline size longLine = some (line, stdin') ∧
        stdin'.seekable = stdin.seekable ∧ stdin'.rest.length < stdin.rest.length ∧
        reads newline longLine stdin.rest = line :: reads newline longLine stdin'.rest := by
  have hrest := stdin.fgets_rest newline size longLine
  cases hfgets : stdin.fgets newline size longLine with
  | none =>
      rw [hfgets] at hrest
      refine .inl ⟨rfl, ?_⟩
      rw [reads, ← hrest]
      rfl
  | some p =>
      obtain ⟨line, stdin'⟩ := p
      rw [hfgets] at hrest
      have hlt := length_lt_of_fgets (by decide) hrest.symm
      refine .inr ⟨line, stdin', rfl, InStream.seekable_of_fgets hfgets, hlt, ?_⟩
      rw [reads, ← hrest]
      exact if_pos hlt

theorem mainLoop_mono {parse : Word → Option (List Word)} {C : Commands σ ε} {size : Nat → Nat}
    {fuel : Nat} {s : σ} {stdin : InStream UInt8} {r : List (List Word) × Except ε σ}
    (h : mainLoop parse C size fuel s stdin = some r) (more : Nat) :
    mainLoop parse C size (fuel + more) s stdin = some r := by
  induction fuel generalizing s stdin r with
  | zero => cases h
  | succ fuel ih =>
      rw [Nat.succ_add, mainLoop]
      rw [mainLoop] at h
      cases hfgets : stdin.fgets newline size longLine with
      | none => rwa [hfgets] at h
      | some p =>
          obtain ⟨line, stdin'⟩ := p
          rw [hfgets] at h
          dsimp only at h ⊢
          cases hparse : parse (cstring line) with
          | none =>
              rw [hparse] at h
              exact ih h
          | some argv =>
              rw [hparse] at h
              dsimp only at h ⊢
              cases hrun : C.run s argv with
              | error e => rwa [hrun] at h
              | ok t =>
                  rw [hrun] at h
                  obtain ⟨r', hr', rfl⟩ := Option.map_eq_some_iff.mp h
                  exact Option.map_eq_some_iff.mpr ⟨r', ih hr', rfl⟩

/-- One command, and the loop goes on. -/
theorem mainLoop_succ {parse : Word → Option (List Word)} {C : Commands σ ε} {size : Nat → Nat}
    {s t : σ} {stdin' : InStream UInt8} {argv : List Word}
    (hfgets : stdin.fgets newline size longLine = some (line, stdin'))
    (hparse : parse (cstring line) = some argv) (hrun : C.run s argv = .ok t) (fuel : Nat) :
    mainLoop parse C size (fuel + 1) s stdin =
      (mainLoop parse C size fuel t (stdin'.left (C.leaves s argv))).map
        fun r ↦ (argv :: r.1, r.2) := by
  rw [mainLoop, hfgets]
  dsimp only
  rw [hparse]
  dsimp only
  rw [hrun]

/-- The loop comes to one end at most. -/
theorem mainLoop_unique {parse : Word → Option (List Word)} {C : Commands σ ε} {size : Nat → Nat}
    {fuel fuel' : Nat} {s : σ} {stdin : InStream UInt8} {r r' : List (List Word) × Except ε σ}
    (h : mainLoop parse C size fuel s stdin = some r)
    (h' : mainLoop parse C size fuel' s stdin = some r') : r = r' := by
  have hmore := mainLoop_mono h fuel'
  rw [Nat.add_comm, mainLoop_mono h' fuel] at hmore
  exact (Option.some.inj hmore).symm

/-- **The loop carries out what `parse` gives**, if no command moves the offset. -/
theorem mainLoop_eq (parse : Word → Option (List Word)) (C : Commands σ ε) (size : Nat → Nat)
    (s : σ) (h : C.Keep stdin.seekable) (fuel : Nat) (hfuel : stdin.rest.length < fuel) :
    mainLoop parse C size fuel s stdin =
      some (inTurn C.run s ((reads newline longLine stdin.rest).filterMap (parse ∘ cstring))) := by
  induction fuel generalizing s stdin with
  | zero => cases hfuel
  | succ fuel ih =>
      rw [mainLoop]
      rcases fgets_cases size stdin with ⟨hfgets, hreads⟩ |
        ⟨line, stdin', hfgets, hseekable, hlt, hreads⟩
      · rw [hfgets, hreads]
        rfl
      · rw [← hseekable] at h
        have hfuel : stdin'.rest.length < fuel := by omega
        rw [hfgets, hreads, List.filterMap_cons, Function.comp_apply]
        dsimp only
        cases parse (cstring line) with
        | none => exact ih s h hfuel
        | some argv =>
            dsimp only
            rw [inTurn]
            cases C.run s argv with
            | error e => rfl
            | ok t =>
                dsimp only
                rw [InStream.left_eq (h s argv), ih t h hfuel]
                rfl

/-- Then it comes to an end. -/
theorem exists_mainLoop_iff (parse : Word → Option (List Word)) (C : Commands σ ε)
    (size : Nat → Nat) (s : σ) (h : C.Keep stdin.seekable) (r : List (List Word) × Except ε σ) :
    (∃ fuel, mainLoop parse C size fuel s stdin = some r) ↔
      inTurn C.run s ((reads newline longLine stdin.rest).filterMap (parse ∘ cstring)) = r := by
  have hloop := mainLoop_eq parse C size s h _ (Nat.lt_succ_self _)
  constructor
  · rintro ⟨fuel, hr⟩
    exact mainLoop_unique hloop hr
  · rintro rfl
    exact ⟨_, hloop⟩

/-- When every command comes back, all of them are obtained. -/
theorem inTurn_fst_of_ok {run : σ → List Word → Except ε σ} (h : ∀ s argv, (run s argv).isOk)
    (s : σ) (vs : List (List Word)) : (inTurn run s vs).1 = vs := by
  induction vs generalizing s with
  | nil => rfl
  | cons argv vs ih =>
      have hok := h s argv
      rw [inTurn]
      cases hrun : run s argv with
      | error e => rw [hrun] at hok; cases hok
      | ok s => exact congrArg (argv :: ·) (ih s)

/-! ## Long lines -/

theorem map_cstring {ls : List Word} (h : ∀ l ∈ ls, 0 ∉ l) : ls.map cstring = ls := by
  refine (List.map_congr_left fun l hl ↦ ?_).trans (List.map_id ls)
  exact cstring_of_notMem (h l hl)

/-- The pieces `fgets` gives of a line that fits in no buffer. -/
def pieces (line : Word) : List Word := chunks (longLine - 1) line

theorem flatten_pieces (line : Word) : (pieces line).flatten = line :=
  flatten_chunks (by decide) line

/-- At most one of the pieces of a line has words. -/
def OnePiece (line : Word) : Prop := countWordy delim (pieces line) ≤ 1

instance : Decidable (OnePiece line) := inferInstanceAs (Decidable (_ ≤ _))

/-- The words of each line, for the lines that have any. -/
def commands (text : Word) : List (List Word) := phrases delim (lines newline text)

/-- What the loop obtains: the words of each piece of each line. -/
theorem reads_filterMap (text : Word) (hnul : 0 ∉ text) :
    (reads newline longLine text).filterMap (parse ∘ cstring) =
      phrases delim ((lines newline text).flatMap pieces) := by
  have hpieces : ∀ p ∈ (lines newline text).flatMap pieces, 0 ∉ p := by
    intro p hp hzero
    obtain ⟨line, hline, hp⟩ := List.mem_flatMap.mp hp
    have hmem : 0 ∈ line := flatten_pieces line ▸ List.mem_flatten_of_mem hp hzero
    exact hnul (flatten_lines text ▸ List.mem_flatten_of_mem hline hmem)
  rw [reads_eq (by decide), ← List.filterMap_map]
  show (((lines newline text).flatMap pieces).map cstring).filterMap parse = _
  rw [map_cstring hpieces, filterMap_parse]

theorem main_iff (hnul : 0 ∉ stdin.rest) {C : Commands σ ε} (h : C.Keep stdin.seekable)
    (size : Nat → Nat) (s : σ) (r : List (List Word) × Except ε σ) :
    Main C size s stdin r ↔
      inTurn C.run s (phrases delim ((lines newline stdin.rest).flatMap pieces)) = r := by
  rw [Main, exists_mainLoop_iff parse C size s h, reads_filterMap stdin.rest hnul]

theorem Hw3.main_iff_main (C : Commands σ ε) (size : Nat → Nat) (s : σ) (stdin : InStream UInt8)
    (r : List (List Word) × Except ε σ) :
    Hw3.Main C size s stdin r ↔ Shell.Main C size s stdin r := by
  rw [Hw3.Main, Shell.Main, parse_eq_hw3]

/-- The shell obtains the words of each line as one command, and carries these out, whatever they
do but for moving the offset of the input. -/
def ObtainsLines (main : ∀ σ ε : Type, Commands σ ε → (Nat → Nat) → σ → InStream UInt8 →
    List (List Word) × Except ε σ → Prop) (stdin : InStream UInt8) : Prop :=
  ∀ (σ ε : Type) (C : Commands σ ε), C.Keep stdin.seekable → ∀ (size : Nat → Nat) (s : σ),
    main σ ε C size s stdin (inTurn C.run s (commands stdin.rest))

/-- One line is one command. -/
theorem obtainsLines_iff (hnul : 0 ∉ stdin.rest) :
    ObtainsLines (fun _ _ ↦ Main) stdin ↔ ∀ line ∈ lines newline stdin.rest, OnePiece line := by
  refine Iff.trans ?_ (phrases_flatMap_iff pieces flatten_pieces)
  constructor
  · -- commands that all come back show what the loop obtains
    intro h
    have hkeep : (⟨fun _ _ ↦ .ok (), fun _ _ ↦ []⟩ : Commands Unit Unit).Keep stdin.seekable :=
      fun _ _ _ hl ↦ absurd hl List.not_mem_nil
    have hmain := (main_iff hnul hkeep (fun _ ↦ 0) () _).mp (h Unit Unit _ hkeep (fun _ ↦ 0) ())
    have hfst := congrArg Prod.fst hmain
    rwa [inTurn_fst_of_ok fun _ _ ↦ rfl, inTurn_fst_of_ok fun _ _ ↦ rfl] at hfst
  · intro h σ ε C hkeep size s
    rw [main_iff hnul hkeep, h, commands]

/-- A file of which nothing has been read. -/
def atStart (file : Word) : InStream UInt8 := ⟨file, true, 0, [], false⟩

@[simp] theorem rest_atStart (file : Word) : (atStart file).rest = file := rfl

/-- `ls -l`, a line without words, and `ls` -/
def shortLines : List Word := [ascii "ls -l\n", ascii " \n", ascii "ls\n"]

/-- A word of 255 bytes and a newline. -/
def longWord : Word := List.replicate 255 97 ++ [10]

theorem lines_longWord : lines newline longWord = [longWord] := by
  have hword : ∀ c ∈ List.replicate 255 (97 : UInt8), newline c = false := by
    intro c hc
    rw [List.eq_of_mem_replicate hc]
    decide
  exact lines_append_eol hword rfl []

/-- The last byte of the word is in a piece of its own. -/
theorem not_onePiece_longWord : ¬ OnePiece longWord := by
  have hpieces : pieces longWord = [List.replicate 254 97, [97, 10]] := by
    have hsplit : longWord = List.replicate 254 97 ++ [97, 10] := by
      show List.replicate (254 + 1) 97 ++ [10] = _
      rw [List.replicate_succ', List.append_assoc, List.singleton_append]
    have hlen : (List.replicate 254 (97 : UInt8)).length = longLine - 1 := List.length_replicate
    have hne : List.replicate 254 97 ++ [97, 10] ≠ ([] : Word) :=
      List.append_ne_nil_of_right_ne_nil _ (List.cons_ne_nil 97 [10])
    rw [pieces, hsplit, chunks_eq (by decide) hne, List.take_left' hlen, List.drop_left' hlen,
      chunks_of_length_le (by decide) (by decide)]
  have hfirst : ¬ Blank delim (List.replicate 254 97) := by
    intro h
    exact absurd (h 97 (List.mem_replicate.mpr ⟨by decide, rfl⟩)) (by decide)
  have hlast : ¬ Blank delim [97, 10] := by decide
  rw [OnePiece, hpieces, countWordy_cons_of_not_blank hfirst, countWordy_cons_of_not_blank hlast]
  exact Nat.not_succ_le_self 1 ∘ Nat.le_trans (Nat.le_add_left 2 _)

end SysProg.Shell
