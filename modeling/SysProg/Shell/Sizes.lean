import SysProg.Shell.Tokens

/-!
# The sizes of blocks

`parse` and `pipe_and_exec` ask for a block before they store in it, and the size they ask for is
not computed from what they store.  `parse` of `SP_HW3` asks for the length of the first word,
without its NUL, and `pipe_and_exec` does so for every word; it also stores the NULL of each
vector one slot too far.

* A `Store` has the size that the latest call for its block has asked for.
* `Hw3.parseStores`, `parseStores` and `pipeStores` are the stores, up to the first call that
  fails.
* `inBlocks_iff`: those of `parse` of `SP_HW5` are in their blocks, those of `SP_HW3` if and only
  if there is no word, and those of `pipe_and_exec` if and only if it does not split the vector.
-/

namespace SysProg.Shell

open SysProg.Lib

namespace Heap

/-! ## Stores -/

/-- What is stored, and for how much the latest call for the block has asked. -/
inductive Store where
  /-- A pointer, in a block of so many slots. -/
  | slot (asked i : Nat)
  /-- `strcpy` of a word to the beginning of a block of so many bytes. -/
  | string (asked : Nat) (w : Word)
deriving DecidableEq

/-- It is in the block, with its NUL. -/
def Store.InBlock : Store → Prop
  | .slot asked i => i < asked
  | .string asked w => w.length + 1 ≤ asked

/-- What follows a call for memory; if that fails the shell ends. -/
def andThen (succeeds : Bool) (stores : List Store) : List Store := if succeeds then stores else []

/-- `while(token)`, and the NULL behind it. -/
def loopStores (m : Mallocs) (count : Nat) (line : Word) : List Store :=
  match _h : strtok delim line with
  | none =>
      andThen (m.newArgv count) (.slot (count + 1) count ::
        andThen (m.entry count) [.slot (count + 1) count])
  | some (token, line) =>
      andThen (m.newArgv count) (.slot (count + 1) count ::
        andThen (m.entry count) (.string (token.length + 1) token ::
          loopStores m (count + 1) line))
termination_by line.length
decreasing_by exact strtok_length _h

/-- The stores for a line; `asked` bytes are for a first word of so many. -/
def lineStores (asked : Nat → Nat) (m : Mallocs) (line : Word) : List Store :=
  match strtok delim line with
  | none => []
  | some (token, rest) =>
      andThen (m.newArgv 0) (.slot 1 0 ::
        andThen (m.entry 0) (.string (asked token.length) token :: loopStores m 1 rest))

/-- `parse` of `SP_HW3` -/
def Hw3.parseStores (m : Mallocs) : Option Word → List Store
  | none => []
  | some line => lineStores (fun strlen ↦ strlen) m (cstring line)

/-- `parse` of `SP_HW5` -/
def parseStores (m : Mallocs) : Option Word → List Store
  | none => []
  | some line =>
      if cstring line = ascii "\n" then []
      else lineStores (fun strlen ↦ strlen + 1) m (cstring line)

/-- What a call of `pipe_and_exec` gets. -/
structure PipeCalls where
  left : Bool
  leftEntry : Nat → Bool
  right : Bool
  rightRealloc : Nat → Bool
  rightEntry : Nat → Bool
  /-- `pipe` succeeds, this is the child, and `execvp` comes back in it. -/
  again : Bool

/-- `for(i=0;i<p;i++)`, from index `i` on, and what comes after the loop. -/
def leftStores (m : PipeCalls) (p : Nat) (stores : List Store) : Nat → List Word → List Store
  | _, [] => stores
  | i, w :: ws =>
      .slot p i :: andThen (m.leftEntry i) (.string w.length w :: leftStores m p stores (i + 1) ws)

/-- `while(myArgv[i+p+1]!=NULL)`, from index `i` on, with the NULL behind it and what comes after
that; `asked` slots have been asked for so far. -/
def rightStores (m : PipeCalls) (stores : List Store) : Nat → Nat → List Word → List Store
  | asked, i, [] => .slot asked (i + 1) :: stores
  | _, i, w :: ws =>
      andThen (m.rightRealloc i) (.slot (i + 1) i ::
        andThen (m.rightEntry i) (.string w.length w :: rightStores m stores (i + 1) (i + 1) ws))

/-- `pipe_and_exec`; `m` has the calls of the `n`-th time it is called. -/
def pipeStores (m : Nat → PipeCalls) (n : Nat) (argv : Argv) : List Store :=
  if _h : pipePresent argv = -1 then []
  else if pipePresent argv = 0 then []
  else
    let p := (pipePresent argv).toNat
    andThen (m n).left (leftStores (m n) p
      (.slot p (p + 1) :: andThen (m n).right (rightStores (m n)
        (if (m n).again then pipeStores m (n + 1) (argv.drop (p + 1)) else [])
        1 0 (entries (argv.drop (p + 1)))))
      0 (entries (argv.take p)))
termination_by argv.length
decreasing_by
  rw [List.length_drop]
  exact Nat.sub_lt (length_pos_of_pipePresent _h) (Nat.succ_pos _)

/-- `parse(line)` of `SP_HW3` stays in its blocks. -/
def Hw3.ParseInBlocks (line : Option Word) : Prop :=
  ∀ m, ∀ s ∈ Hw3.parseStores m line, s.InBlock

/-- `parse(line)` of `SP_HW5` does. -/
def ParseInBlocks (line : Option Word) : Prop := ∀ m, ∀ s ∈ parseStores m line, s.InBlock

/-- `pipe_and_exec(argv)` does. -/
def PipeInBlocks (argv : Argv) : Prop := ∀ m, ∀ s ∈ pipeStores m 0 argv, s.InBlock

variable {m : Mallocs} {s : Store} {stores : List Store} {line w : Word} {argv : Argv} {p : Nat}

theorem forall_mem_andThen {P : Store → Prop} (succeeds : Bool) (h : ∀ s ∈ stores, P s) :
    ∀ s ∈ andThen succeeds stores, P s := by
  cases succeeds with
  | false => exact fun s hs ↦ absurd hs List.not_mem_nil
  | true => exact h

/-! ## Lines -/

theorem not_inBlock_string (w : Word) : ¬ (Store.string w.length w).InBlock :=
  Nat.not_succ_le_self w.length

/-- The loop asks for enough. -/
theorem loopStores_inBlock (m : Mallocs) (count : Nat) (line : Word) :
    ∀ s ∈ loopStores m count line, s.InBlock := by
  have hslot (count : Nat) : (Store.slot (count + 1) count).InBlock := Nat.lt_succ_self count
  induction line using tokens.induct delim generalizing count with
  | case1 line hs =>
      rw [loopStores]
      split
      · refine forall_mem_andThen _ (List.forall_mem_cons.mpr ⟨hslot count, ?_⟩)
        exact forall_mem_andThen _ (List.forall_mem_singleton.mpr (hslot count))
      · next hs' => cases hs.symm.trans hs'
  | case2 line token rest hs ih =>
      rw [loopStores]
      split
      · next hs' => cases hs.symm.trans hs'
      · next hs' =>
          cases hs.symm.trans hs'
          refine forall_mem_andThen _ (List.forall_mem_cons.mpr ⟨hslot count, ?_⟩)
          exact forall_mem_andThen _ (List.forall_mem_cons.mpr ⟨Nat.le_refl _, ih (count + 1)⟩)

/-- What is stored when there is memory: a slot and its string for each word, and the last slot
twice, for a pointer to some bytes and then for the NULL. -/
def wordStores (i : Nat) : List Word → List Store
  | [] => [.slot (i + 1) i, .slot (i + 1) i]
  | w :: ws => .slot (i + 1) i :: .string (w.length + 1) w :: wordStores (i + 1) ws

theorem loopStores_eq {i : Nat} (h : m.Enough i ((words delim line).length + 1)) :
    loopStores m i line = wordStores i (words delim line) := by
  induction line using tokens.induct delim generalizing i with
  | case1 line hs =>
      rw [words_of_blank (blank_of_strtok hs)] at h ⊢
      obtain ⟨⟨hslot, hentry⟩, -⟩ := enough_succ.mp h
      rw [loopStores]
      split
      · rw [hslot, hentry]
        rfl
      · next hs' => cases hs.symm.trans hs'
  | case2 line token rest hs ih =>
      rw [words_of_strtok hs] at h ⊢
      obtain ⟨⟨hslot, hentry⟩, hrest⟩ := enough_succ.mp h
      rw [loopStores]
      split
      · next hs' => cases hs.symm.trans hs'
      · next hs' =>
          cases hs.symm.trans hs'
          rw [hslot, hentry, ih hrest]
          rfl

/-- **For a vector** all words of the line have been copied, and all its slots set. -/
theorem parseStores_of_ok {v : Block} (h : parse m (some line) = .ok (some v)) :
    parseStores m (some line) = wordStores 0 (words delim (cstring line)) ∧
      v.size = (words delim (cstring line)).length + 1 := by
  rw [parse_ok_iff, parse_eq] at h
  by_cases hblank : words delim (cstring line) = []
  · rw [if_pos hblank] at h
    cases h
  · rw [if_neg hblank] at h
    obtain ⟨henough, hv⟩ := h
    obtain rfl := Option.some.inj hv
    have hline : cstring line ≠ ascii "\n" := by
      intro hline
      rw [hline] at hblank
      exact hblank (words_of_blank (by decide))
    refine ⟨?_, by rw [fill_size, Nat.zero_add]⟩
    rw [parseStores, if_neg hline, lineStores]
    cases hs : strtok delim (cstring line) with
    | none => exact absurd (words_of_blank (blank_of_strtok hs)) hblank
    | some p =>
        obtain ⟨token, rest⟩ := p
        rw [words_of_strtok hs] at henough ⊢
        obtain ⟨⟨hslot, hentry⟩, hrest⟩ := enough_succ.mp henough
        dsimp only
        rw [hslot, hentry, loopStores_eq hrest]
        rfl

/-- **`parse` of `SP_HW5`** asks for enough. -/
theorem parseStores_inBlock (m : Mallocs) (line : Option Word) :
    ∀ s ∈ parseStores m line, s.InBlock := by
  cases line with
  | none => simp [parseStores]
  | some line =>
      rw [parseStores]
      split
      · simp
      · rw [lineStores]
        cases strtok delim (cstring line) with
        | none => simp
        | some p =>
            obtain ⟨token, rest⟩ := p
            refine forall_mem_andThen _ (List.forall_mem_cons.mpr ⟨Nat.one_pos, ?_⟩)
            exact forall_mem_andThen _ (List.forall_mem_cons.mpr ⟨Nat.le_refl _,
              loopStores_inBlock m 1 rest⟩)

/-- **`parse` of `SP_HW3`** has a byte too few for the first word. -/
theorem Hw3.parseInBlocks_iff (line : Option Word) :
    Hw3.ParseInBlocks line ↔ ∀ l ∈ line, Blank delim (cstring l) := by
  cases line with
  | none => simp [Hw3.ParseInBlocks, Hw3.parseStores]
  | some line =>
      rw [Hw3.ParseInBlocks]
      simp only [Hw3.parseStores, Option.mem_def, Option.some_inj, forall_eq']
      rw [← words_eq_nil_iff]
      cases hs : strtok delim (cstring line) with
      | none => simp [lineStores, hs, words_of_blank (blank_of_strtok hs)]
      | some p =>
          obtain ⟨token, rest⟩ := p
          rw [words_of_strtok hs]
          refine iff_of_false (fun h ↦ ?_) (List.cons_ne_nil _ _)
          refine not_inBlock_string token (h ⟨fun _ ↦ true, fun _ ↦ true⟩ _ ?_)
          simp [lineStores, hs, andThen]

/-! ## Pipes -/

/-- With all memory there is, nothing is left out. -/
def PipeCalls.all : PipeCalls := ⟨true, fun _ ↦ true, true, fun _ ↦ true, fun _ ↦ true, true⟩

theorem mem_leftStores (h : s ∈ stores) (i : Nat) (ws : List Word) :
    s ∈ leftStores .all p stores i ws := by
  induction ws generalizing i with
  | nil => exact h
  | cons w ws ih => exact List.mem_cons_of_mem _ (List.mem_cons_of_mem _ (ih (i + 1)))

/-- **`pipe_and_exec`** stores in blocks only when it splits the vector, and then behind one. -/
theorem pipeInBlocks_iff (argv : Argv) : PipeInBlocks argv ↔ pipePresent argv ≤ 0 := by
  rw [PipeInBlocks]
  by_cases hmissing : pipePresent argv = -1
  · rw [hmissing]
    refine iff_of_true (fun m s hs ↦ ?_) (by decide)
    rw [pipeStores, dif_pos hmissing] at hs
    cases hs
  by_cases hnone : pipePresent argv = 0
  · rw [hnone]
    refine iff_of_true (fun m s hs ↦ ?_) (by decide)
    rw [pipeStores, dif_neg hmissing, if_pos hnone] at hs
    cases hs
  have hpos : 0 < pipePresent argv := by
    unfold pipePresent at hmissing hnone ⊢
    grind
  refine iff_of_false (fun h ↦ ?_) (Int.not_le.mpr hpos)
  have hslot : ¬ (Store.slot (pipePresent argv).toNat ((pipePresent argv).toNat + 1)).InBlock :=
    Nat.not_lt.mpr (Nat.le_succ _)
  refine hslot (h (fun _ ↦ .all) _ ?_)
  rw [pipeStores, dif_neg hmissing, if_neg hnone]
  exact mem_leftStores List.mem_cons_self 0 _

/-- **When the stores are in their blocks**: always in `parse` of `SP_HW5`, without words in that
of `SP_HW3`, and without a `|` between words in `pipe_and_exec`. -/
theorem inBlocks_iff (line : Option Word) (argv : Argv) :
    (Hw3.ParseInBlocks line ↔ ∀ l ∈ line, Blank delim (cstring l)) ∧ ParseInBlocks line ∧
      (PipeInBlocks argv ↔ pipePresent argv ≤ 0) :=
  ⟨Hw3.parseInBlocks_iff line, fun m ↦ parseStores_inBlock m line, pipeInBlocks_iff argv⟩

/-- The line `ls` is copied to two bytes. -/
theorem not_inBlocks_ls : ¬ ((∀ line, Hw3.ParseInBlocks line) ∧ (∀ line, ParseInBlocks line) ∧
    ∀ argv, PipeInBlocks argv) := by
  rintro ⟨hparse, -, -⟩
  have hblank := (Hw3.parseInBlocks_iff _).mp (hparse (some (ascii "ls"))) _ rfl
  exact absurd hblank (by decide)

end Heap

end SysProg.Shell
