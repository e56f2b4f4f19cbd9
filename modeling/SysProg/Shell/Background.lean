import SysProg.Shell.Pipeline

/-!
# Background commands

`run_command` of both shells asks `is_background` whether to wait for the child.  Neither
looks at the last word only: any `&` will do, in `SP_HW3` from the second word on.

In `SP_HW5` the comment at the call says that the `&` is removed as a side effect, but it
is not: the program gets it as an argument.  The child of `SP_HW3` cuts its vector at the
first `&`, with all that follows.

`background_iff`: for a command without redirections and pipes, the shell of `SP_HW5` does
the right thing if and only if there is no `&`, and that of `SP_HW3` if and only if there
is none before the last word.
-/

namespace SysProg.Shell

open SysProg.Lib

/-- `"&"` -/
def ampersand : Word := ascii "&"

/-- What `run_command` does: whether the shell waits for the child, and the calls of `execvp`
that the child and its children make. -/
structure Run where
  waits : Bool
  calls : List Exec

/-- The loop of `is_background`, from its first index on. -/
def hasAmpersand : Argv → Bool
  | some w :: argv => w = ampersand || hasAmpersand argv
  | _ => false

/-- `is_background` of `SP_HW5` looks at every word. -/
def isBackground (argv : Argv) : Bool :=
  if argv.head?.join = none then false else hasAmpersand argv

/-- `is_background` of `SP_HW3` begins at the second word. -/
def Hw3.isBackground (argv : Argv) : Bool :=
  if argv.head?.join = none then false else hasAmpersand argv.tail

/-- `run_command` of `SP_HW5`.  A redirection that fails ends the child. -/
def runCommand (fs : Files) (W : World) (argv : Argv) : Run where
  waits := ! isBackground argv
  calls := match (redirectIn fs (.forked argv)).bind (redirectOut fs) with
    | .error _ => []
    | .ok c => pipeAndExec W 0 c.stdin c.stdout c.argv

/-- The loop of the child of `SP_HW3`, which stores NULL at the first `&`. -/
def Hw3.cut : Argv → Argv
  | some w :: argv => if w = ampersand then none :: argv else some w :: Hw3.cut argv
  | argv => argv

/-- `run_command` of `SP_HW3` -/
def Hw3.runCommand (W : World) (argv : Argv) : Run where
  waits := ! Hw3.isBackground argv
  calls := [execvp W 0 .shell .shell (if Hw3.isBackground argv then Hw3.cut argv else argv) false]

/-- A command without redirections and pipes, whose first word is not `&`. -/
structure Simple where
  words : List Word
  ne_nil : words ≠ []
  head_ne : words.head? ≠ some ampersand
  lt_notMem : ascii "<" ∉ words
  gt_notMem : ascii ">" ∉ words
  bar_notMem : bar ∉ words

/-- The words without a last `&`. -/
def dropAmpersand (ws : List Word) : List Word :=
  if ws.getLast? = some ampersand then ws.dropLast else ws

/-- The shell does not wait exactly when the last word is `&`, and the program gets the other
words. -/
def Run.Correct (r : Run) (ws : List Word) : Prop :=
  (r.waits = false ↔ ws.getLast? = some ampersand) ∧
    r.calls.map (fun c ↦ entries c.argv) = [dropAmpersand ws]

variable {ws : List Word} {v : Argv} {W : World} {fs : Files}

/-! ## The search -/

theorem hasAmpersand_iff (h : Holds v ws) : hasAmpersand v ↔ ampersand ∈ ws := by
  induction ws generalizing v with
  | nil =>
      obtain ⟨v', rfl⟩ := h.exists_nil
      exact iff_of_false Bool.false_ne_true List.not_mem_nil
  | cons w ws ih =>
      obtain ⟨v', rfl, hv'⟩ := h.exists_cons
      rw [hasAmpersand, Bool.or_eq_true, decide_eq_true_iff, ih hv', List.mem_cons, eq_comm]

theorem isBackground_iff (h : Holds v ws) : isBackground v ↔ ampersand ∈ ws := by
  rw [← hasAmpersand_iff h]
  cases ws with
  | nil =>
      obtain ⟨v', rfl⟩ := h.exists_nil
      rfl
  | cons w ws =>
      obtain ⟨v', rfl, -⟩ := h.exists_cons
      rfl

theorem Hw3.isBackground_iff (h : Holds v ws) : Hw3.isBackground v ↔ ampersand ∈ ws.tail := by
  cases ws with
  | nil =>
      obtain ⟨v', rfl⟩ := h.exists_nil
      exact iff_of_false Bool.false_ne_true List.not_mem_nil
  | cons w ws =>
      obtain ⟨v', rfl, hv'⟩ := h.exists_cons
      exact hasAmpersand_iff hv'

/-- What is left of the words when the child has cut them. -/
theorem Hw3.entries_cut (h : Holds v ws) : entries (Hw3.cut v) = ws.takeWhile (· ≠ ampersand) := by
  induction ws generalizing v with
  | nil =>
      obtain ⟨v', rfl⟩ := h.exists_nil
      rfl
  | cons w ws ih =>
      obtain ⟨v', rfl, hv'⟩ := h.exists_cons
      rw [Hw3.cut]
      by_cases hw : w = ampersand
      · rw [if_pos hw, List.takeWhile_cons_of_neg (by simpa using hw)]
        rfl
      · rw [if_neg hw, List.takeWhile_cons_of_pos (by simpa using hw), entries, ih hv']

/-! ## The two shells -/

namespace Simple

variable (S : Simple)

/-- The first word does not count in either shell. -/
theorem mem_tail_iff : ampersand ∈ S.words.tail ↔ ampersand ∈ S.words := by
  obtain ⟨w, ws, hws⟩ := List.exists_cons_of_ne_nil S.ne_nil
  have hhead := S.head_ne
  rw [hws] at hhead ⊢
  have hw : ampersand ≠ w := fun h ↦ hhead (congrArg some h.symm)
  rw [List.tail_cons, List.mem_cons, or_iff_right hw]

/-- Without redirections and pipes, the child of `SP_HW5` hands over its words as they are. -/
theorem calls_eq : (runCommand fs W (nullTerm S.words)).calls =
    [execvp W 0 .shell .shell (nullTerm S.words) false] := by
  have hok := @redirections_of_notMem S.words fs S.lt_notMem S.gt_notMem
  rw [redirections] at hok
  rw [runCommand, hok]
  exact pipeAndExec_of_notMem S.bar_notMem S.ne_nil

theorem dropAmpersand_ne (h : S.words.getLast? = some ampersand) :
    dropAmpersand S.words ≠ S.words := by
  rw [dropAmpersand, if_pos h]
  intro heq
  have hlength := congrArg List.length heq
  rw [List.length_dropLast] at hlength
  have hpos := List.length_pos_of_ne_nil S.ne_nil
  omega

/-- `SP_HW5` takes any `&` for a last one, and removes none. -/
theorem correct_iff : (runCommand fs W (nullTerm S.words)).Correct S.words ↔
    ampersand ∉ S.words := by
  have hwaits : (runCommand fs W (nullTerm S.words)).waits = false ↔ ampersand ∈ S.words := by
    rw [← isBackground_iff (holds_nullTerm S.words)]
    exact iff_of_eq (Bool.not_eq_false' _)
  unfold Run.Correct
  rw [hwaits, S.calls_eq, List.map_singleton, execvp, entries_nullTerm, List.singleton_inj]
  constructor
  · rintro ⟨hiff, heq⟩ hmem
    exact S.dropAmpersand_ne (hiff.mp hmem) heq.symm
  · intro hnot
    have hlast : S.words.getLast? ≠ some ampersand := fun h ↦ hnot (List.mem_of_getLast? h)
    exact ⟨iff_of_false hnot hlast, (if_neg hlast).symm⟩

theorem mem_dropAmpersand (h : ampersand ∈ S.words.dropLast) :
    ampersand ∈ dropAmpersand S.words := by
  rw [dropAmpersand]
  split
  · exact h
  · exact (List.dropLast_sublist _).subset h

/-- With the `&` in the last place only, the words before the first `&` are those before it. -/
theorem takeWhile_eq (h : ampersand ∉ S.words.dropLast)
    (hlast : S.words.getLast? = some ampersand) :
    S.words.takeWhile (· ≠ ampersand) = S.words.dropLast := by
  have hsplit : S.words = S.words.dropLast ++ [ampersand] := by
    rw [List.getLast?_eq_some_getLast S.ne_nil, Option.some_inj] at hlast
    rw [← hlast, List.dropLast_concat_getLast]
  have hpos : ∀ w ∈ S.words.dropLast, decide (w ≠ ampersand) := by
    intro w hw
    exact decide_eq_true fun heq ↦ h (heq ▸ hw)
  conv_lhs => rw [hsplit]
  rw [List.takeWhile_append_of_pos hpos, List.takeWhile_cons_of_neg (by simp), List.append_nil]

theorem mem_iff_of_notMem_dropLast (h : ampersand ∉ S.words.dropLast) :
    ampersand ∈ S.words ↔ S.words.getLast? = some ampersand := by
  refine ⟨fun hmem ↦ ?_, List.mem_of_getLast?⟩
  rw [← List.dropLast_concat_getLast S.ne_nil, List.mem_append, or_iff_right h,
    List.mem_singleton] at hmem
  rw [List.getLast?_eq_some_getLast S.ne_nil, hmem]

/-- `SP_HW3` takes the first `&` for the last one. -/
theorem hw3_correct_iff : (Hw3.runCommand W (nullTerm S.words)).Correct S.words ↔
    ampersand ∉ S.words.dropLast := by
  have hback : Hw3.isBackground (nullTerm S.words) ↔ ampersand ∈ S.words := by
    rw [Hw3.isBackground_iff (holds_nullTerm S.words), S.mem_tail_iff]
  have hcut := Hw3.entries_cut (holds_nullTerm S.words)
  have hwaits : (Hw3.runCommand W (nullTerm S.words)).waits = false ↔ ampersand ∈ S.words :=
    (iff_of_eq (Bool.not_eq_false' _)).trans hback
  unfold Run.Correct
  rw [hwaits, Hw3.runCommand, List.map_singleton, execvp, List.singleton_inj]
  constructor
  · rintro ⟨-, heq⟩ hmem
    rw [if_pos (hback.mpr ((List.dropLast_sublist _).subset hmem)), hcut] at heq
    have hkept := S.mem_dropAmpersand hmem
    rw [← heq] at hkept
    have hne := List.mem_takeWhile_imp (p := fun w ↦ decide (w ≠ ampersand)) hkept
    exact absurd rfl (of_decide_eq_true hne)
  · intro hnot
    have hlast := S.mem_iff_of_notMem_dropLast hnot
    refine ⟨hlast, ?_⟩
    by_cases hmem : ampersand ∈ S.words
    · rw [if_pos (hback.mpr hmem), hcut, dropAmpersand, if_pos (hlast.mp hmem),
        S.takeWhile_eq hnot (hlast.mp hmem)]
    · rw [if_neg (mt hback.mp hmem), entries_nullTerm, dropAmpersand, if_neg (mt hlast.mpr hmem)]

end Simple

/-- **When background commands are right**: in `SP_HW5` without any `&`, in `SP_HW3` without one
before the last word. -/
theorem background_iff (fs : Files) (W : World) (S : Simple) :
    ((runCommand fs W (nullTerm S.words)).Correct S.words ↔ ampersand ∉ S.words) ∧
      ((Hw3.runCommand W (nullTerm S.words)).Correct S.words ↔ ampersand ∉ S.words.dropLast) :=
  ⟨S.correct_iff, S.hw3_correct_iff⟩

/-- `sleep 5 &` -/
def sleepBackground : Simple where
  words := [ascii "sleep", ascii "5", ampersand]
  ne_nil := by decide
  head_ne := by decide
  lt_notMem := by decide
  gt_notMem := by decide
  bar_notMem := by decide

/-- `echo a & b` -/
def echoBoth : Simple where
  words := [ascii "echo", ascii "a", ampersand, ascii "b"]
  ne_nil := by decide
  head_ne := by decide
  lt_notMem := by decide
  gt_notMem := by decide
  bar_notMem := by decide

/-- In `SP_HW5` the program of `sleep 5 &` gets the `&`; in `SP_HW3` the shell does not wait for
`echo a & b`, whose program does not get the `b`. -/
theorem not_correct_sleepBackground :
    ¬ (runCommand .all .zero (nullTerm sleepBackground.words)).Correct sleepBackground.words ∧
      ¬ (Hw3.runCommand .zero (nullTerm echoBoth.words)).Correct echoBoth.words := by
  rw [Simple.correct_iff, Simple.hw3_correct_iff]
  exact ⟨by decide, by decide⟩

end SysProg.Shell
