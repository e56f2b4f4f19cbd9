import SysProg.Shell.Redirect

/-!
# Pipelines

`pipe_and_exec` of `SP_HW5/Part2` splits its argument vector at the first `|`.  The
process itself is to execute what is on the left of it; it forks a child for what is on
the right, where there may be more pipes.

The child hands the whole right side to `execvp` and only then calls `pipe_and_exec` for
it.  When the program is found `execvp` does not come back, so the first program on the
right gets all later words as arguments, `|` included, and no other stage is started.
Both copies also leave the slot after their last word unset, and put the NULL behind it,
which is past the end of their block.

What is in the slot, and what the NULL overwrites, is up to the heap (`Copy`, `World`): the slot may
hold NULL, a string or no address at all, on which `execvp` fails; the NULL may empty a word, as it
does with the first of three words where the block has room for three, and `execvp` then fails as
well; and `malloc` may find the heap in disorder and abort.  When the `execvp` of the right side
comes back, the recursion executes the other stages.  Nothing else is taken to be hit.

`pipeline_iff`: every stage gets its own words, if and only if there is no `|`, or at each of them
the left copy is right and either the right one is, and it is the last, or its `execvp` fails
because of the heap while the words behind it are left as they are (`StagesRun`).

`pipe` and `fork` succeed.
-/

namespace SysProg.Shell

open SysProg.Lib

/-- `"|"` -/
def bar : Word := ascii "|"

/-- What is in a slot that is not set. -/
inductive Slot where
  | null
  | word (w : Word)
  | /-- No address of a string. -/ wild
deriving DecidableEq

/-- The string that a slot has. -/
def Slot.word? : Slot → Option Word
  | .word w => some w
  | .null | .wild => none

/-- A copy of words when it is handed over. -/
structure Copy where
  /-- The words whose first bytes have been overwritten by a NULL behind the end of a block. -/
  emptied : Nat → Bool
  /-- The slot after the last word. -/
  unset : Slot

/-- Words, some of which have been emptied. -/
def emptyWords (hit : Nat → Bool) (ws : List Word) : List Word :=
  ws.mapIdx fun i w ↦ if hit i then [] else w

/-- The vector of a copy: the words, the slot that is not set, and NULL. -/
def Copy.vector (c : Copy) (ws : List Word) : Argv :=
  (emptyWords c.emptied ws).map some ++ [c.unset.word?, none]

/-- A slot of the copy is no address of a string. -/
def Copy.wild (c : Copy) : Bool := c.unset = .wild

/-- What the code does not determine. -/
structure World where
  /-- The programs that `execvp` finds. -/
  program : Word → Bool
  /-- There is no program without a name. -/
  program_nil : program [] = false
  /-- `left_argv` at the `n`-th pipe. -/
  left : Nat → Copy
  /-- `right_argv`. -/
  right : Nat → Copy
  /-- The words behind the pipe, in the process's own vector, that have been emptied. -/
  own : Nat → Nat → Bool
  /-- `malloc` aborts. -/
  aborts : Nat → Bool

/-- A call of `execvp` by a process, with the streams it has then.  The processes are
numbered as they are forked.  When the program is found it replaces the process. -/
structure Exec where
  process : Nat
  argv : Argv
  stdin : Stream
  stdout : Stream
  found : Bool

/-- `execvp(argv[0],argv)`, which fails on NULL, and when the vector has a `wild` slot. -/
def execvp (W : World) (process : Nat) (stdin stdout : Stream) (argv : Argv) (wild : Bool) : Exec :=
  ⟨process, argv, stdin, stdout, !wild && argv.head?.join.elim false W.program⟩

/-- The loop of `pipe_present`: the first slot with NULL or `|`. -/
def pipeIndex (argv : Argv) : Nat := argv.findIdx fun slot ↦ slot.isNone || slot = some bar

/-- `pipe_present`: the index of `|`, `-1` if it is first or last, `0` if there is none. -/
def pipePresent (argv : Argv) : Int :=
  let index := pipeIndex argv
  if index = 0 ∨ (argv[index]?.join ≠ none ∧ argv[index + 1]?.join = none) then -1
  else if argv[index]?.join = none then 0
  else index

/-- `left_argv` for a `|` at `p`. -/
def leftArgv (c : Copy) (argv : Argv) (p : Nat) : Argv := c.vector (entries (argv.take p))

/-- `right_argv` -/
def rightArgv (c : Copy) (argv : Argv) (p : Nat) : Argv := c.vector (entries (argv.drop (p + 1)))

/-- A vector, some words of which have been emptied. -/
def emptySlots (hit : Nat → Bool) (argv : Argv) : Argv :=
  argv.mapIdx fun i slot ↦ if hit i then slot.map fun _ ↦ [] else slot

@[simp] theorem length_emptySlots (hit : Nat → Bool) (argv : Argv) :
    (emptySlots hit argv).length = argv.length := List.length_mapIdx

theorem length_pos_of_pipePresent {argv : Argv} (h : pipePresent argv ≠ -1) : 0 < argv.length := by
  cases argv with
  | nil => exact absurd rfl h
  | cons slot argv => exact Nat.succ_pos _

/-- `pipe_and_exec` in the process `n`: the calls of `execvp` that it and the processes it
forks make.  A process whose calls all come back exits with `errno`. -/
def pipeAndExec (W : World) (n : Nat) (stdin stdout : Stream) (argv : Argv) : List Exec :=
  if _h : pipePresent argv = -1 then []
  else if pipePresent argv = 0 then [execvp W n stdin stdout argv false]
  else if W.aborts n then []
  else
    let p := (pipePresent argv).toNat
    let left := execvp W n stdin (.pipe n) (leftArgv (W.left n) argv p) (W.left n).wild
    let right := execvp W (n + 1) (.pipe n) stdout (rightArgv (W.right n) argv p) (W.right n).wild
    left :: right ::
      if right.found then []
      else pipeAndExec W (n + 1) (.pipe n) stdout (emptySlots (W.own n) (argv.drop (p + 1)))
termination_by argv.length
decreasing_by
  rw [length_emptySlots, List.length_drop]
  exact Nat.sub_lt (length_pos_of_pipePresent _h) (Nat.succ_pos _)

/-- A program that runs, with its arguments. -/
structure Program where
  args : List Word
  stdin : Stream
  stdout : Stream

/-- The programs that are executed. -/
def executed (calls : List Exec) : List Program :=
  (calls.filter Exec.found).map fun c ↦ ⟨entries c.argv, c.stdin, c.stdout⟩

/-! ## Stages -/

/-- The stages of a pipeline, none of them empty. -/
structure Stages where
  stages : List (List Word)
  ne_nil : stages ≠ []
  stage_ne_nil : ∀ stage ∈ stages, stage ≠ []
  bar_notMem : ∀ stage ∈ stages, bar ∉ stage

/-- The words of the command line. -/
def Stages.words (P : Stages) : List Word := [bar].intercalate P.stages

/-- What the stages should be run as: each with its own words, and its output the input of
the next one. -/
def pipeline (n : Nat) (stdin stdout : Stream) : List (List Word) → List Program
  | [] => []
  | [stage] => [⟨stage, stdin, stdout⟩]
  | stage :: stages => ⟨stage, stdin, .pipe n⟩ :: pipeline (n + 1) (.pipe n) stdout stages

variable {W : World} {n : Nat} {stdin stdout : Stream} {ws rest : List Word} {v : Argv} {w : Word}
  {hit : Nat → Bool} {c : Copy}

/-! ## Emptied words -/

@[simp] theorem length_emptyWords (hit : Nat → Bool) (ws : List Word) :
    (emptyWords hit ws).length = ws.length := List.length_mapIdx

/-- A word is emptied or left as it is. -/
def Emptied (w w' : Word) : Prop := w' = w ∨ w' = []

theorem forall₂_emptyWords (hit : Nat → Bool) (ws : List Word) :
    List.Forall₂ Emptied ws (emptyWords hit ws) := by
  refine List.forall₂_iff_get.mpr ⟨(length_emptyWords hit ws).symm, fun i hi _ ↦ ?_⟩
  simp only [emptyWords, List.get_eq_getElem, List.getElem_mapIdx]
  split
  · exact .inr rfl
  · exact .inl rfl

theorem Emptied.trans {w w' w'' : Word} (h : Emptied w w') (h' : Emptied w' w'') :
    Emptied w w'' := by
  rcases h' with rfl | rfl
  · exact h
  · exact .inr rfl

theorem Emptied.trans_list {us vs ws : List Word} (h : List.Forall₂ Emptied us vs)
    (h' : List.Forall₂ Emptied vs ws) : List.Forall₂ Emptied us ws := by
  induction h generalizing ws with
  | nil => exact h'
  | cons hw _ ih =>
      cases h' with
      | cons hw' h' => exact .cons (hw.trans hw') (ih h')

/-- Words that are themselves in the end have not been emptied on the way. -/
theorem Emptied.antisymm {us vs : List Word} (h : List.Forall₂ Emptied us vs)
    (h' : List.Forall₂ Emptied vs us) : vs = us := by
  induction h with
  | nil => rfl
  | cons hw _ ih =>
      cases h' with
      | cons hw' h' =>
          refine congrArg₂ List.cons ?_ (ih h')
          rcases hw with rfl | rfl
          · rfl
          · rcases hw' with rfl | rfl <;> rfl

theorem emptyWords_of_intact (h : ∀ i, hit i = false) (ws : List Word) :
    emptyWords hit ws = ws := by
  refine List.ext_getElem (length_emptyWords hit ws) fun i _ _ ↦ ?_
  simp [emptyWords, h i]

theorem emptyWords_cons (hit : Nat → Bool) (w : Word) (ws : List Word) :
    emptyWords hit (w :: ws) =
      (if hit 0 then [] else w) :: emptyWords (fun i ↦ hit (i + 1)) ws := List.mapIdx_cons

theorem holds_emptySlots (hv : Holds v ws) : Holds (emptySlots hit v) (emptyWords hit ws) := by
  induction ws generalizing v hit with
  | nil =>
      obtain ⟨tail, rfl⟩ := hv.exists_nil
      rw [emptySlots, List.mapIdx_cons, Option.map_none, ite_self]
      exact holds_nil_none _
  | cons w ws ih =>
      obtain ⟨v, rfl, hws⟩ := hv.exists_cons
      rw [emptySlots, List.mapIdx_cons, emptyWords_cons]
      split
      · exact (ih hws).cons []
      · exact (ih hws).cons w

theorem emptySlots_nullTerm (hit : Nat → Bool) (ws : List Word) :
    emptySlots hit (nullTerm ws) = nullTerm (emptyWords hit ws) := by
  induction ws generalizing hit with
  | nil =>
      show [if hit 0 then _ else _] = [none]
      split <;> rfl
  | cons w ws ih =>
      rw [nullTerm_cons, emptySlots, List.mapIdx_cons, emptyWords_cons, nullTerm_cons]
      refine congrArg₂ List.cons ?_ (ih fun i ↦ hit (i + 1))
      split <;> rfl

/-! ## The vectors -/

theorem pipeIndex_of_notMem (h : bar ∉ ws) : pipeIndex (ws.map some ++ v) =
    pipeIndex v + ws.length := by
  induction ws with
  | nil => rfl
  | cons w ws ih =>
      obtain ⟨hw, hws⟩ := not_or.mp (mt List.mem_cons.mpr h)
      have hslot : ((some w).isNone || decide (some w = some bar)) = false := by
        simpa using Ne.symm hw
      rw [pipeIndex, List.map_cons, List.cons_append, List.findIdx_cons, hslot]
      exact congrArg (· + 1) (ih hws)

theorem pipeIndex_eq (h : bar ∉ ws) (hslot : v.head? = some none ∨ v.head? = some (some bar)) :
    pipeIndex (ws.map some ++ v) = ws.length := by
  rw [pipeIndex_of_notMem h]
  cases v with
  | nil => rcases hslot with hslot | hslot <;> cases hslot
  | cons slot v => rcases hslot with hslot | hslot <;> cases hslot <;> exact Nat.zero_add _

/-- No pipe. -/
theorem pipePresent_of_notMem (hv : Holds v ws) (h : bar ∉ ws) (hne : ws ≠ []) :
    pipePresent v = 0 := by
  obtain ⟨tail, rfl⟩ := hv
  have hpos : ws.length ≠ 0 := mt List.length_eq_zero_iff.mp hne
  simp [pipePresent, pipeIndex_eq h, hpos]

/-- A pipe in the middle. -/
theorem pipePresent_of_mem (hv : Holds v (ws ++ bar :: rest)) (h : bar ∉ ws) (hne : ws ≠ [])
    (hrest : rest ≠ []) : pipePresent v = ws.length := by
  obtain ⟨w, rest, rfl⟩ := List.exists_cons_of_ne_nil hrest
  obtain ⟨tail, rfl⟩ := hv
  have hpos : ws.length ≠ 0 := mt List.length_eq_zero_iff.mp hne
  simp [pipePresent, pipeIndex_eq h, hpos]

/-- The words on the left of the pipe. -/
theorem leftArgv_eq (c : Copy) (ws rest : List Word) :
    leftArgv c (nullTerm (ws ++ bar :: rest)) ws.length = c.vector ws := by
  rw [leftArgv, nullTerm_append, List.take_left' (List.length_map some), entries_map]

/-- What is behind a word. -/
theorem holds_drop (hv : Holds v (ws ++ w :: rest)) : Holds (v.drop (ws.length + 1)) rest := by
  obtain ⟨tail, rfl⟩ := hv
  refine ⟨tail, ?_⟩
  rw [List.map_append, List.append_assoc, ← List.drop_drop, List.drop_left' (List.length_map some)]
  rfl

theorem drop_nullTerm (ws rest : List Word) :
    (nullTerm (ws ++ w :: rest)).drop (ws.length + 1) = nullTerm rest := by
  rw [nullTerm_append, nullTerm_cons, ← List.drop_drop, List.drop_left' (List.length_map some)]
  rfl

/-- The words on the right of the pipe, other pipes among them. -/
theorem rightArgv_eq (c : Copy) (ws rest : List Word) :
    rightArgv c (nullTerm (ws ++ bar :: rest)) ws.length = c.vector rest := by
  rw [rightArgv, drop_nullTerm, entries_nullTerm]

/-- A slot that is not set is one more argument, if it has a string. -/
theorem entries_vector (c : Copy) (ws : List Word) :
    entries (c.vector ws) = emptyWords c.emptied ws ++ c.unset.word?.toList := by
  rw [Copy.vector]
  induction emptyWords c.emptied ws with
  | nil => cases c.unset <;> rfl
  | cons w ws ih => exact congrArg (w :: ·) ih

/-! ## The calls -/

theorem pipeAndExec_of_notMem (h : bar ∉ ws) (hne : ws ≠ []) :
    pipeAndExec W n stdin stdout (nullTerm ws) =
      [execvp W n stdin stdout (nullTerm ws) false] := by
  rw [pipeAndExec, pipePresent_of_notMem (holds_nullTerm ws) h hne, dif_neg (by decide), if_pos rfl]

/-- The talking parent's call, with the words on the left. -/
def talkExec (W : World) (n : Nat) (stdin : Stream) (ws : List Word) : Exec :=
  execvp W n stdin (.pipe n) ((W.left n).vector ws) (W.left n).wild

/-- The listening child's call, with all the words on the right. -/
def listenExec (W : World) (n : Nat) (stdout : Stream) (ws : List Word) : Exec :=
  execvp W (n + 1) (.pipe n) stdout ((W.right n).vector ws) (W.right n).wild

/-- **One pipe**: the left side, the whole right side, and the rest of the pipes only when that
program is not found. -/
theorem pipeAndExec_of_mem (h : bar ∉ ws) (hne : ws ≠ []) (hrest : rest ≠ []) :
    pipeAndExec W n stdin stdout (nullTerm (ws ++ bar :: rest)) =
      if W.aborts n then []
      else talkExec W n stdin ws :: listenExec W n stdout rest ::
        if (listenExec W n stdout rest).found then []
        else pipeAndExec W (n + 1) (.pipe n) stdout (nullTerm (emptyWords (W.own n) rest)) := by
  have hpos : (ws.length : Int) ≠ 0 := by
    rw [Int.natCast_ne_zero]
    exact mt List.length_eq_zero_iff.mp hne
  rw [pipeAndExec, pipePresent_of_mem (holds_nullTerm _) h hne hrest, dif_neg (by omega),
    if_neg hpos, Int.toNat_natCast]
  dsimp only
  rw [leftArgv_eq, rightArgv_eq, drop_nullTerm, emptySlots_nullTerm]
  rfl

/-- A pipe with nothing on one side. -/
theorem pipePresent_of_missing (hv : Holds v (ws ++ bar :: rest)) (h : bar ∉ ws)
    (hmissing : ws = [] ∨ rest = []) : pipePresent v = -1 := by
  obtain ⟨tail, rfl⟩ := hv
  rcases hmissing with rfl | rfl
  · rfl
  · simp [pipePresent, pipeIndex_eq h]

theorem pipePresent_of_nil (hv : Holds v []) : pipePresent v = -1 := by
  obtain ⟨tail, rfl⟩ := hv.exists_nil
  rfl

/-- **What `pipe_and_exec` finds**: nothing to execute, one command, or a pipe in the middle. -/
theorem pipePresent_cases (hv : Holds v ws) :
    pipePresent v = -1 ∨ (pipePresent v = 0 ∧ bar ∉ ws) ∨
      ∃ left w rest, ws = left ++ bar :: w :: rest ∧ bar ∉ left ∧ left ≠ [] ∧
        pipePresent v = left.length := by
  by_cases hmem : bar ∈ ws
  · obtain ⟨left, rest, rfl, hbar⟩ := List.eq_append_cons_of_mem hmem
    by_cases hne : left = []
    · exact .inl (pipePresent_of_missing hv hbar (.inl hne))
    cases rest with
    | nil => exact .inl (pipePresent_of_missing hv hbar (.inr rfl))
    | cons w rest =>
        exact .inr (.inr ⟨left, w, rest, rfl, hbar, hne,
          pipePresent_of_mem hv hbar hne (List.cons_ne_nil w rest)⟩)
  · by_cases hne : ws = []
    · subst hne
      exact .inl (pipePresent_of_nil hv)
    · exact .inr (.inl ⟨pipePresent_of_notMem hv hmem hne, hmem⟩)

/-! ## What is executed -/

/-- The program of one call, if it is found. -/
theorem executed_cons (e : Exec) (es : List Exec) : executed (e :: es) =
    if e.found then ⟨entries e.argv, e.stdin, e.stdout⟩ :: executed es else executed es := by
  rw [executed, List.filter_cons]
  split <;> rfl

theorem length_executed_cons_le (e : Exec) (es : List Exec) :
    (executed (e :: es)).length ≤ (executed es).length + 1 := by
  rw [executed_cons]
  split
  · exact Nat.le_refl _
  · exact Nat.le_succ _

/-- A word that is emptied is no `|`. -/
theorem Emptied.count_le {us vs : List Word} (h : List.Forall₂ Emptied us vs) :
    vs.count bar ≤ us.count bar := by
  induction h with
  | nil => exact Nat.le_refl 0
  | cons hw _ ih =>
      have hne : ([] : Word) ≠ bar := by decide
      rw [List.count_cons, List.count_cons]
      rcases hw with rfl | rfl
      · omega
      · rw [if_neg (by simpa using hne)]
        omega

/-- The words behind a `|` are fewer. -/
theorem length_behind_lt (left rest : List Word) :
    rest.length < (left ++ bar :: rest).length := by
  rw [List.length_append, List.length_cons]
  omega

/-- Behind the talking parent there are no more than words between the other pipes, if what the
recursion executes is not more. -/
theorem length_executed_behind_le (hrest : (executed (pipeAndExec W (n + 1) (.pipe n) stdout
      (nullTerm (emptyWords (W.own n) rest)))).length ≤
        (emptyWords (W.own n) rest).count bar + 1) :
    (executed (listenExec W n stdout rest ::
      if (listenExec W n stdout rest).found then []
      else pipeAndExec W (n + 1) (.pipe n) stdout
        (nullTerm (emptyWords (W.own n) rest)))).length ≤ rest.count bar + 1 := by
  split
  · exact (length_executed_cons_le _ []).trans (Nat.le_add_left _ _)
  · next hnot =>
      rw [executed_cons, if_neg hnot]
      exact hrest.trans (Nat.succ_le_succ (Emptied.count_le (forall₂_emptyWords _ _)))

/-- There are no more programs than words between the pipes. -/
theorem length_executed_le (W : World) (n : Nat) (stdin stdout : Stream) (ws : List Word) :
    (executed (pipeAndExec W n stdin stdout (nullTerm ws))).length ≤ ws.count bar + 1 := by
  induction hlen : ws.length using Nat.strongRecOn generalizing ws n stdin with
  | ind k ih =>
      rcases pipePresent_cases (holds_nullTerm ws) with hp | ⟨hp, hbar⟩ |
        ⟨left, w, rest, rfl, hbar, hne, -⟩
      · rw [pipeAndExec, dif_pos hp]
        exact Nat.zero_le _
      · rw [pipeAndExec, hp, dif_neg (by decide), if_pos rfl]
        exact (length_executed_cons_le _ []).trans (Nat.le_add_left _ _)
      · rw [pipeAndExec_of_mem hbar hne (List.cons_ne_nil w rest)]
        split
        · exact Nat.zero_le _
        · have hcount : (left ++ bar :: w :: rest).count bar = (w :: rest).count bar + 1 := by
            rw [List.count_append, List.count_eq_zero.mpr hbar, List.count_cons_self, Nat.zero_add]
          have hlt : (emptyWords (W.own n) (w :: rest)).length < k := by
            rw [length_emptyWords, ← hlen]
            exact length_behind_lt left (w :: rest)
          rw [hcount]
          exact (length_executed_cons_le (talkExec W n stdin left) _).trans
            (Nat.succ_le_succ (length_executed_behind_le (ih _ hlt (n + 1) (.pipe n) _ rfl)))

/-- The call of a copy whose words are what they should be. -/
theorem found_vector (hw : ∀ w ∈ ws.head?, W.program w) (hne : ws ≠ []) (process : Nat)
    (stdin stdout : Stream) : (execvp W process stdin stdout (c.vector ws) c.wild).found =
      (!c.wild && !c.emptied 0) := by
  obtain ⟨w, ws, rfl⟩ := List.exists_cons_of_ne_nil hne
  rw [execvp, Copy.vector, emptyWords_cons]
  cases hit : c.emptied 0 with
  | true =>
      rw [if_pos rfl]
      exact congrArg (!c.wild && ·) W.program_nil
  | false =>
      rw [if_neg Bool.false_ne_true]
      exact congrArg (!c.wild && ·) (hw w rfl)

/-! ## Which pipelines work -/

/-- Every stage begins with a program that exists. -/
def Stages.Exist (W : World) (P : Stages) : Prop :=
  ∀ stage ∈ P.stages, ∀ w ∈ stage.head?, W.program w

/-- The copy has the words as they are, and no others. -/
def Copy.Exact (c : Copy) (ws : List Word) : Prop :=
  c.unset = .null ∧ emptyWords c.emptied ws = ws

instance : Decidable (c.Exact ws) := inferInstanceAs (Decidable (_ ∧ _))

/-- The `execvp` of the copy fails, though there is a program. -/
def Copy.Lost (c : Copy) : Prop := c.unset = .wild ∨ c.emptied 0 = true

instance : Decidable c.Lost := inferInstanceAs (Decidable (_ ∨ _))

/-- **When the stages run**: at each pipe the left copy is right, and either the right one is, and
there are no more pipes, or it is lost while the words behind the pipe are left as they are. -/
def StagesRun (W : World) : Nat → List (List Word) → Prop
  | n, stage :: stage' :: stages =>
      W.aborts n = false ∧ (W.left n).Exact stage ∧
        (((W.right n).Lost ∧
            emptyWords (W.own n) ([bar].intercalate (stage' :: stages)) =
              [bar].intercalate (stage' :: stages) ∧ StagesRun W (n + 1) (stage' :: stages)) ∨
          (stages = [] ∧ (W.right n).Exact stage'))
  | _, _ => True

/-- The first word of a pipeline is that of its first stage. -/
theorem exists_intercalate {stage : List Word} (hne : stage ≠ []) (stages : List (List Word)) :
    [bar].intercalate (stage :: stages) ≠ [] ∧
      ([bar].intercalate (stage :: stages)).head? = stage.head? := by
  obtain ⟨w, ws, rfl⟩ := List.exists_cons_of_ne_nil hne
  rw [List.intercalate_cons_cons_left]
  exact ⟨List.cons_ne_nil _ _, rfl⟩

theorem length_pipeline (n : Nat) (stdin stdout : Stream) (stages : List (List Word)) :
    (pipeline n stdin stdout stages).length = stages.length := by
  induction stages generalizing n stdin with
  | nil => rfl
  | cons stage stages ih =>
      cases stages with
      | nil => rfl
      | cons stage' stages => exact congrArg (· + 1) (ih (n + 1) (.pipe n))

theorem count_intercalate {stage : List Word} {stages : List (List Word)}
    (hbar : ∀ ws ∈ stage :: stages, bar ∉ ws) :
    ([bar].intercalate (stage :: stages)).count bar = stages.length := by
  induction stages generalizing stage with
  | nil =>
      rw [List.intercalate_singleton]
      exact List.count_eq_zero.mpr (hbar stage List.mem_cons_self)
  | cons next stages ih =>
      obtain ⟨hbar₁, hbar⟩ := List.forall_mem_cons.mp hbar
      rw [List.intercalate_cons_cons, List.append_assoc, List.singleton_append, List.count_append,
        List.count_eq_zero.mpr hbar₁, List.count_cons_self, ih hbar, Nat.zero_add, List.length_cons]

/-- What has been made of a list that has been put together. -/
theorem exists_of_forall₂_append {R : Word → Word → Prop} {us vs ws : List Word} {w : Word}
    (h : List.Forall₂ R (us ++ w :: vs) ws) : ∃ us' w' vs', ws = us' ++ w' :: vs' ∧
      List.Forall₂ R us us' ∧ R w w' ∧ List.Forall₂ R vs vs' := by
  induction us generalizing ws with
  | nil =>
      cases h with
      | cons hw h => exact ⟨[], _, _, rfl, .nil, hw, h⟩
  | cons u us ih =>
      cases h with
      | cons hu h =>
          obtain ⟨us', w', vs', rfl, hus, hw, hvs⟩ := ih h
          exact ⟨_ :: us', w', vs', rfl, .cons hu hus, hw, hvs⟩

theorem Emptied.bar_notMem {us vs : List Word} (h : List.Forall₂ Emptied us vs) (hbar : bar ∉ us) :
    bar ∉ vs := by
  rw [← List.count_eq_zero] at hbar ⊢
  exact Nat.le_zero.mp (hbar ▸ Emptied.count_le h)

theorem Emptied.ne_nil {us vs : List Word} (h : List.Forall₂ Emptied us vs) (hne : us ≠ []) :
    vs ≠ [] := by
  rintro rfl
  cases h
  exact hne rfl

/-- A copy that is right, and whose program is there, runs. -/
theorem Copy.Exact.executed_cons (hc : c.Exact ws) (hw : ∀ w ∈ ws.head?, W.program w)
    (hne : ws ≠ []) (process : Nat) (stdin stdout : Stream) (es : List Exec) :
    executed (execvp W process stdin stdout (c.vector ws) c.wild :: es) =
      ⟨ws, stdin, stdout⟩ :: executed es := by
  have hwild : c.wild = false := by rw [Copy.wild, hc.1]; rfl
  have hfirst : c.emptied 0 = false := by
    obtain ⟨w, ws, rfl⟩ := List.exists_cons_of_ne_nil hne
    have hwords := hc.2
    rw [emptyWords_cons] at hwords
    cases hit : c.emptied 0 with
    | false => rfl
    | true =>
        rw [hit, if_pos rfl] at hwords
        have hprogram := hw w rfl
        rw [← (List.cons.inj hwords).1, W.program_nil] at hprogram
        cases hprogram
  rw [Shell.executed_cons, if_pos (by rw [found_vector hw hne, hwild, hfirst]; rfl)]
  refine congrArg (· :: executed es) (congrArg (Program.mk · stdin stdout) ?_)
  show entries (c.vector ws) = ws
  rw [entries_vector, hc.2, hc.1]
  exact List.append_nil ws

/-- A program that gets the right words has got an exact copy of them. -/
theorem Copy.exact_of_entries {us : List Word} (h : List.Forall₂ Emptied us ws)
    (hentries : entries (c.vector ws) = us) (hwild : c.wild = false) : ws = us ∧ c.Exact us := by
  rw [entries_vector] at hentries
  have hlength := congrArg List.length hentries
  rw [List.length_append, length_emptyWords, ← h.length_eq, Nat.add_eq_left] at hlength
  have hword : c.unset.word? = none := Option.toList_eq_nil_iff.mp (List.eq_nil_of_length_eq_zero
    hlength)
  rw [hword, Option.toList_none, List.append_nil] at hentries
  obtain rfl : ws = us := Emptied.antisymm h (hentries ▸ forall₂_emptyWords c.emptied ws)
  refine ⟨rfl, ?_, hentries⟩
  cases hunset : c.unset with
  | null => rfl
  | word w =>
      rw [hunset] at hword
      cases hword
  | wild =>
      rw [Copy.wild, hunset] at hwild
      cases hwild

/-- A call that is not made in vain finds a vector of strings. -/
theorem wild_of_found {wild : Bool} (h : (execvp W n stdin stdout v wild).found) :
    wild = false := by
  cases wild with
  | false => rfl
  | true => cases h

theorem Copy.lost_iff (hw : ∀ w ∈ ws.head?, W.program w) (hne : ws ≠ []) (process : Nat)
    (stdin stdout : Stream) :
    c.Lost ↔ ¬ (execvp W process stdin stdout (c.vector ws) c.wild).found := by
  rw [found_vector hw hne, Copy.Lost, Copy.wild]
  cases c.emptied 0 <;> simp

/-- **Without a pipe** a stage runs. -/
theorem executed_of_notMem {stage : List Word} (h : bar ∉ stage) (hne : stage ≠ [])
    (hw : ∀ w ∈ stage.head?, W.program w) :
    executed (pipeAndExec W n stdin stdout (nullTerm stage)) = [⟨stage, stdin, stdout⟩] := by
  rw [pipeAndExec_of_notMem h hne, executed_cons]
  obtain ⟨w, ws, rfl⟩ := List.exists_cons_of_ne_nil hne
  have hfound : (execvp W n stdin stdout (nullTerm (w :: ws)) false).found := hw w rfl
  rw [if_pos hfound]
  show [Program.mk (entries (nullTerm (w :: ws))) stdin stdout] = _
  rw [entries_nullTerm]

/-- A pipeline whose copies are right or lost runs. -/
theorem executed_of_runs {stage : List Word} {stages : List (List Word)}
    (hne : ∀ ws ∈ stage :: stages, ws ≠ []) (hbar : ∀ ws ∈ stage :: stages, bar ∉ ws)
    (hw : ∀ ws ∈ stage :: stages, ∀ w ∈ ws.head?, W.program w)
    (h : StagesRun W n (stage :: stages)) :
    executed (pipeAndExec W n stdin stdout (nullTerm ([bar].intercalate (stage :: stages)))) =
      pipeline n stdin stdout (stage :: stages) := by
  induction stages generalizing stage n stdin with
  | nil =>
      rw [List.intercalate_singleton]
      exact executed_of_notMem (hbar stage List.mem_cons_self) (hne stage List.mem_cons_self)
        (hw stage List.mem_cons_self)
  | cons next stages ih =>
      obtain ⟨hne₁, hne⟩ := List.forall_mem_cons.mp hne
      obtain ⟨hbar₁, hbar⟩ := List.forall_mem_cons.mp hbar
      obtain ⟨hw₁, hw⟩ := List.forall_mem_cons.mp hw
      obtain ⟨haborts, hleft, hright⟩ := h
      obtain ⟨hrest, hhead⟩ := exists_intercalate (hne next List.mem_cons_self) stages
      have hw₂ : ∀ w ∈ ([bar].intercalate (next :: stages)).head?, W.program w :=
        hhead.symm ▸ hw next List.mem_cons_self
      rw [List.intercalate_cons_cons, List.append_assoc, List.singleton_append,
        pipeAndExec_of_mem hbar₁ hne₁ hrest, haborts, if_neg Bool.false_ne_true, talkExec,
        hleft.executed_cons hw₁ hne₁]
      refine congrArg (Program.mk stage stdin (.pipe n) :: ·) ?_
      rcases hright with ⟨hlost, hown, hruns⟩ | ⟨rfl, hright⟩
      · have hnot : ¬ (listenExec W n stdout ([bar].intercalate (next :: stages))).found :=
          (Copy.lost_iff hw₂ hrest _ _ _).mp hlost
        rw [if_neg hnot, executed_cons, if_neg hnot, hown]
        exact ih hne hbar hw hruns
      · rw [List.intercalate_singleton] at hw₂ hrest ⊢
        rw [listenExec, hright.executed_cons hw₂ hrest]
        split
        · rfl
        · next hnot =>
            -- an exact copy of a program that is there is found
            refine absurd ?_ hnot
            have hone := hright.executed_cons hw₂ hrest (n + 1) (.pipe n) stdout []
            rw [executed_cons] at hone
            by_contra hfound
            rw [if_neg hfound] at hone
            cases hone

/-- A listening child that runs the rest of a pipeline runs one stage. -/
theorem exact_of_listen {stage : List Word} {stages : List (List Word)}
    (hemptied : List.Forall₂ Emptied ([bar].intercalate (stage :: stages)) ws)
    (hfound : (listenExec W n stdout ws).found)
    (h : executed [listenExec W n stdout ws] =
      pipeline (n + 1) (.pipe n) stdout (stage :: stages)) :
    stages = [] ∧ ws = stage ∧ (W.right n).Exact stage := by
  rw [executed_cons, if_pos hfound] at h
  have hone := congrArg List.length h
  rw [length_pipeline, List.length_cons] at hone
  obtain rfl : stages = [] := List.eq_nil_of_length_eq_zero (Nat.succ.inj hone).symm
  rw [List.intercalate_singleton] at hemptied
  exact ⟨rfl, Copy.exact_of_entries hemptied (congrArg Program.args (List.cons.inj h).1)
    (wild_of_found hfound)⟩

/-- What runs as it should has been left as it was, and its copies are right or lost. -/
theorem runs_of_executed {stage : List Word} {stages : List (List Word)}
    (hne : ∀ ws ∈ stage :: stages, ws ≠ []) (hbar : ∀ ws ∈ stage :: stages, bar ∉ ws)
    (hw : ∀ ws ∈ stage :: stages, ∀ w ∈ ws.head?, W.program w)
    (hemptied : List.Forall₂ Emptied ([bar].intercalate (stage :: stages)) ws)
    (h : executed (pipeAndExec W n stdin stdout (nullTerm ws)) =
      pipeline n stdin stdout (stage :: stages)) :
    ws = [bar].intercalate (stage :: stages) ∧ StagesRun W n (stage :: stages) := by
  induction stages generalizing stage n stdin ws with
  | nil =>
      rw [List.intercalate_singleton] at hemptied ⊢
      have hnot := Emptied.bar_notMem hemptied (hbar stage List.mem_cons_self)
      have hnil := Emptied.ne_nil hemptied (hne stage List.mem_cons_self)
      rw [pipeAndExec_of_notMem hnot hnil, executed_cons] at h
      refine ⟨?_, trivial⟩
      split at h
      · have hargs := congrArg Program.args (List.cons.inj h).1
        exact (entries_nullTerm ws).symm.trans hargs
      · cases h
  | cons next stages ih =>
      have hlength := congrArg List.length h
      rw [length_pipeline, List.length_cons, List.length_cons] at hlength
      obtain ⟨hne₁, hne₂⟩ := List.forall_mem_cons.mp hne
      obtain ⟨hbar₁, hbar₂⟩ := List.forall_mem_cons.mp hbar
      obtain ⟨-, hw₂⟩ := List.forall_mem_cons.mp hw
      obtain ⟨hrest, hhead⟩ := exists_intercalate (hne₂ next List.mem_cons_self) stages
      have hcount := count_intercalate hbar₂
      rw [List.intercalate_cons_cons, List.append_assoc, List.singleton_append] at hemptied ⊢
      obtain ⟨left, w, right, rfl, hleft, hpipe, hright⟩ := exists_of_forall₂_append hemptied
      have hrightCount := hcount ▸ Emptied.count_le hright
      have hleftBar := Emptied.bar_notMem hleft hbar₁
      rcases hpipe with rfl | rfl
      · have hrightNe := Emptied.ne_nil hright hrest
        rw [pipeAndExec_of_mem hleftBar (Emptied.ne_nil hleft hne₁) hrightNe] at h
        cases haborts : W.aborts n with
        | true =>
            rw [haborts, if_pos rfl] at h
            cases h
        | false =>
            rw [haborts, if_neg Bool.false_ne_true, executed_cons] at h
            -- the programs behind the first are too few without it
            have hfew := (length_executed_behind_le (length_executed_le W (n + 1) (.pipe n) stdout
              (emptyWords (W.own n) right))).trans (Nat.succ_le_succ hrightCount)
            split at h
            · next hfound =>
                obtain ⟨hfirst, hothers⟩ := List.cons.inj h
                obtain ⟨rfl, hexact⟩ := Copy.exact_of_entries hleft
                  (congrArg Program.args hfirst) (wild_of_found hfound)
                split at hothers
                · next hlisten =>
                    obtain ⟨rfl, rfl, hexact'⟩ := exact_of_listen hright hlisten hothers
                    rw [List.intercalate_singleton]
                    exact ⟨rfl, haborts, hexact, .inr ⟨rfl, hexact'⟩⟩
                · next hlisten =>
                    rw [executed_cons, if_neg hlisten] at hothers
                    obtain ⟨hown, hruns⟩ := ih hne₂ hbar₂ hw₂
                      (Emptied.trans_list hright (forall₂_emptyWords _ _)) hothers
                    obtain rfl := Emptied.antisymm hright
                      (hown ▸ forall₂_emptyWords (W.own n) right)
                    have hlost := (Copy.lost_iff (hhead.symm ▸ hw₂ next List.mem_cons_self) hrest
                      (n + 1) (.pipe n) stdout).mpr hlisten
                    exact ⟨rfl, haborts, hexact, .inl ⟨hlost, hown, hruns⟩⟩
            · rw [h, length_pipeline] at hfew
              exact absurd hfew (Nat.not_succ_le_self _)
      · -- a pipe that has been emptied is missing
        have hle := length_executed_le W n stdin stdout (left ++ [] :: right)
        have hnil : ([] : Word) ≠ bar := by decide
        rw [h, length_pipeline, List.count_append, List.count_eq_zero.mpr hleftBar,
          List.count_cons_of_ne hnil] at hle
        simp only [List.length_cons] at hle
        omega

/-- **Which pipelines work**: those without a pipe, and those whose copies are right, or lost. -/
theorem pipeline_iff (W : World) (P : Stages) (h : P.Exist W) :
    executed (pipeAndExec W 0 .shell .shell (nullTerm P.words)) =
        pipeline 0 .shell .shell P.stages ↔ StagesRun W 0 P.stages := by
  obtain ⟨stages, hstages, hne, hbar⟩ := P
  obtain ⟨stage, stages, rfl⟩ := List.exists_cons_of_ne_nil hstages
  constructor
  · intro heq
    exact (runs_of_executed hne hbar h (List.forall₂_same.mpr fun _ _ ↦ .inl rfl) heq).2
  · exact executed_of_runs hne hbar h

/-- A copy that nothing has happened to. -/
def Copy.intact : Copy := ⟨fun _ ↦ false, .null⟩

/-- Every program exists, and the stores behind the ends of the blocks hit nothing. -/
def World.zero : World where
  program w := !w.isEmpty
  program_nil := rfl
  left _ := .intact
  right _ := .intact
  own _ _ := false
  aborts _ := false

/-- `ls | wc` -/
def twoStages : Stages where
  stages := [[ascii "ls"], [ascii "wc"]]
  ne_nil := by decide
  stage_ne_nil := by decide
  bar_notMem := by decide

/-- `ls | sort | wc` -/
def threeStages : Stages where
  stages := [[ascii "ls"], [ascii "sort"], [ascii "wc"]]
  ne_nil := by decide
  stage_ne_nil := by decide
  bar_notMem := by decide

/-- The block for the three words behind the first pipe has room for these: the slot behind them is
the size of the next block, and the NULL is stored over the first word. -/
def World.threeWords : World where
  __ := World.zero
  right n := if n = 0 then ⟨fun i ↦ i = 0, .wild⟩ else .intact

/-- So `ls | sort | wc` works. -/
theorem pipeline_threeStages : executed (pipeAndExec .threeWords 0 .shell .shell
    (nullTerm threeStages.words)) = pipeline 0 .shell .shell threeStages.stages := by
  have hexist : threeStages.Exist .threeWords := by
    unfold Stages.Exist
    decide
  have hexact : Copy.intact.Exact [ascii "ls"] ∧ Copy.intact.Exact [ascii "sort"] ∧
      Copy.intact.Exact [ascii "wc"] := by decide
  obtain ⟨hls, hsort, hwc⟩ := hexact
  exact (pipeline_iff .threeWords threeStages hexist).mpr
    ⟨rfl, hls, .inl ⟨.inl rfl, emptyWords_of_intact (fun _ ↦ rfl) _, rfl, hsort,
      .inr ⟨rfl, hwc⟩⟩⟩

/-- `ls | sort -r | wc` -/
def sortReverse : Stages where
  stages := [[ascii "ls"], [ascii "sort", ascii "-r"], [ascii "wc"]]
  ne_nil := by decide
  stage_ne_nil := by decide
  bar_notMem := by decide

/-- In `ls | sort -r | wc`, `sort` gets the arguments `|` and `wc` too, and `wc` does not run. -/
theorem executed_sortReverse : sortReverse.Exist .zero ∧
    executed (pipeAndExec .zero 0 .shell .shell (nullTerm sortReverse.words)) =
        [⟨[ascii "ls"], .shell, .pipe 0⟩,
          ⟨[ascii "sort", ascii "-r", bar, ascii "wc"], .pipe 0, .shell⟩] ∧
      executed (pipeAndExec .zero 0 .shell .shell (nullTerm sortReverse.words)) ≠
        pipeline 0 .shell .shell sortReverse.stages := by
  have hexist : sortReverse.Exist .zero := by
    unfold Stages.Exist
    decide
  have hrun : executed (pipeAndExec .zero 0 .shell .shell (nullTerm sortReverse.words)) =
      [⟨[ascii "ls"], .shell, .pipe 0⟩,
        ⟨[ascii "sort", ascii "-r", bar, ascii "wc"], .pipe 0, .shell⟩] := by
    have hwords : sortReverse.words =
        [ascii "ls"] ++ bar :: [ascii "sort", ascii "-r", bar, ascii "wc"] := by decide
    have hcalls := @pipeAndExec_of_mem .zero 0 .shell .shell [ascii "ls"]
      [ascii "sort", ascii "-r", bar, ascii "wc"] (by decide) (by decide) (by decide)
    have hlisten : (listenExec .zero 0 .shell
        [ascii "sort", ascii "-r", bar, ascii "wc"]).found = true := by decide
    rw [hwords, hcalls, hlisten]
    rfl
  refine ⟨hexist, hrun, fun heq ↦ ?_⟩
  have hlength := congrArg List.length (hrun.symm.trans heq)
  rw [length_pipeline] at hlength
  cases hlength

end SysProg.Shell
