import SysProg.Lib.NullTerm
import SysProg.Shell.Parse

/-!
# Redirections

The child that `run_command` of `SP_HW5/Part2` forks first looks for `<` in its argument
vector (`redirect_in`), opens the file named by the next word, attaches it to standard
input and removes both from the vector; then the same with `>` (`redirect_out`).

The loop that removes the two words runs on to the end of the vector.  So every word that
follows a redirection is lost with it, and `redirect_out` only finds a `>` that stands
before the `<`.  `redirected_iff`: the other words are left in order and both files are
attached if and only if nothing follows the `<` and its file, and nothing but these
follows the `>` and its file.
-/

namespace SysProg.Shell

open SysProg.Lib

/-- An argument vector: the slots of the array, the first NULL ends it. -/
abbrev Argv := List (Option Word)

/-- Where a standard stream leads. -/
inductive Stream where
  | /-- Where that of the shell leads. -/ shell
  | file (name : Word)
  | /-- The pipe with this number. -/ pipe (n : Nat)
deriving DecidableEq

/-- Which files can be opened: with `O_RDONLY`, and with `O_CREAT|O_WRONLY|O_SYNC`. -/
structure Files where
  canRead : Word → Bool
  canWrite : Word → Bool

/-- A child of the shell before it executes a program. -/
structure Child where
  argv : Argv
  stdin : Stream
  stdout : Stream
  /-- The files it has opened. -/
  opened : List Word

/-- The search of both redirections.  `open` fails on NULL, and when it fails the child
prints the text and exits with status `1`. -/
def redirect (op : Word) (canOpen : Word → Bool) : Argv → Except Word (Option Word × Argv)
  | [] => .ok (none, [])
  | none :: argv => .ok (none, none :: argv)
  | some w :: argv =>
      if w = op then
        match argv.head?.join with
        | none => .error (ascii "open\n")
        | some file =>
            if canOpen file then .ok (some file, clear (some w :: argv))
            else .error (ascii "open\n")
      else (redirect op canOpen argv).map fun r ↦ (r.1, some w :: r.2)

/-- `redirect_in` -/
def redirectIn (fs : Files) (c : Child) : Except Word Child :=
  (redirect (ascii "<") fs.canRead c.argv).map fun r ↦
    { c with
      argv := r.2
      stdin := r.1.elim c.stdin .file
      opened := c.opened ++ r.1.toList }

/-- `redirect_out` -/
def redirectOut (fs : Files) (c : Child) : Except Word Child :=
  (redirect (ascii ">") fs.canWrite c.argv).map fun r ↦
    { c with
      argv := r.2
      stdout := r.1.elim c.stdout .file
      opened := c.opened ++ r.1.toList }

/-- The child as `fork` makes it. -/
def Child.forked (argv : Argv) : Child := ⟨argv, .shell, .shell, []⟩

variable {op : Word} {canOpen : Word → Bool} {v : Argv} {ws rest : List Word} {f : Word}

/-! ## One redirection -/

/-- Without the operator nothing changes. -/
theorem redirect_of_notMem (h : Holds v ws) (hop : op ∉ ws) :
    redirect op canOpen v = .ok (none, v) := by
  induction ws generalizing v with
  | nil =>
      obtain ⟨v', rfl⟩ := h.exists_nil
      rfl
  | cons w ws ih =>
      obtain ⟨v', rfl, hv'⟩ := h.exists_cons
      obtain ⟨hw, hws⟩ := not_or.mp (mt List.mem_cons.mpr hop)
      rw [redirect, if_neg (Ne.symm hw), ih hv' hws]
      rfl

/-- Everything from the operator on is removed. -/
theorem redirect_of_mem (h : Holds v (ws ++ op :: f :: rest)) (hop : op ∉ ws)
    (hopen : canOpen f) : ∃ v', redirect op canOpen v = .ok (some f, v') ∧ Holds v' ws := by
  induction ws generalizing v with
  | nil =>
      obtain ⟨v₁, rfl, h₁⟩ := Holds.exists_cons h
      obtain ⟨v₂, rfl, -⟩ := h₁.exists_cons
      refine ⟨_, ?_, holds_clear op (some f :: v₂)⟩
      rw [redirect, if_pos rfl]
      exact if_pos hopen
  | cons w ws ih =>
      obtain ⟨v₁, rfl, h₁⟩ := Holds.exists_cons h
      obtain ⟨hw, hws⟩ := not_or.mp (mt List.mem_cons.mpr hop)
      obtain ⟨v', hv', hholds⟩ := ih h₁ hws
      refine ⟨some w :: v', ?_, hholds.cons w⟩
      rw [redirect, if_neg (Ne.symm hw), hv']
      rfl

/-! ## Command lines with redirections -/

/-- What can follow the command word. -/
inductive Item where
  | arg (w : Word)
  | input (f : Word)
  | output (f : Word)
deriving DecidableEq

namespace Item

/-- The words of an item. -/
def tokens : Item → List Word
  | arg w => [w]
  | input f => [ascii "<", f]
  | output f => [ascii ">", f]

/-- An argument or `|`. -/
def arg? : Item → Option Word
  | arg w => some w
  | _ => none

/-- The file after `<`. -/
def input? : Item → Option Word
  | input f => some f
  | _ => none

/-- The file after `>`. -/
def output? : Item → Option Word
  | output f => some f
  | _ => none

/-- The argument or the file name. -/
def word : Item → Word
  | arg w | input w | output w => w

/-- The argument or the file name is no operator. -/
def Plain (i : Item) : Prop := i.word ≠ ascii "<" ∧ i.word ≠ ascii ">"

instance (i : Item) : Decidable i.Plain := inferInstanceAs (Decidable (_ ∧ _))

/-- Nothing may come after an input, and only an input after an output. -/
def MayPrecede : Item → Item → Prop
  | arg _, _ => True
  | input _, _ => False
  | output _, i => i.input?.isSome

instance : DecidableRel MayPrecede
  | arg _, _ => isTrue trivial
  | input _, _ => isFalse id
  | output _, i => inferInstanceAs (Decidable (i.input?.isSome = true))

end Item

/-- A command with arguments and at most one redirection each way. -/
structure CommandLine where
  command : Word
  items : List Item
  command_plain : (Item.arg command).Plain
  plain : ∀ i ∈ items, i.Plain
  input_le_one : (items.filterMap Item.input?).length ≤ 1
  output_le_one : (items.filterMap Item.output?).length ≤ 1

namespace CommandLine

/-- What `parse` gives of the line. -/
def tokens (L : CommandLine) : List Word := L.command :: L.items.flatMap Item.tokens

/-- The words that are not part of a redirection. -/
def args (L : CommandLine) : List Word := L.command :: L.items.filterMap Item.arg?

def inputs (L : CommandLine) : List Word := L.items.filterMap Item.input?

def outputs (L : CommandLine) : List Word := L.items.filterMap Item.output?

end CommandLine

/-- A stream that is attached to the file, if there is one. -/
def attached (file : Option Word) : Stream := file.elim .shell .file

/-- The child before `pipe_and_exec`. -/
def redirections (fs : Files) (ws : List Word) : Except Word Child :=
  (redirectIn fs (.forked (nullTerm ws))).bind (redirectOut fs)

/-- Without operators the words are handed over as they are. -/
theorem redirections_of_notMem {fs : Files} (hlt : ascii "<" ∉ ws) (hgt : ascii ">" ∉ ws) :
    redirections fs ws = .ok (.forked (nullTerm ws)) := by
  have hin : redirectIn fs (.forked (nullTerm ws)) = .ok (.forked (nullTerm ws)) := by
    rw [redirectIn, Child.forked, redirect_of_notMem (holds_nullTerm _) hlt]
    rfl
  have hout : redirectOut fs (.forked (nullTerm ws)) = .ok (.forked (nullTerm ws)) := by
    rw [redirectOut, Child.forked, redirect_of_notMem (holds_nullTerm _) hgt]
    rfl
  rw [redirections, hin]
  exact hout

/-- Both redirections are carried out, and the other words are left. -/
def Redirected (fs : Files) (L : CommandLine) : Prop :=
  ∃ c, redirections fs L.tokens = .ok c ∧ entries c.argv = L.args ∧
    c.stdin = attached L.inputs.head? ∧ c.stdout = attached L.outputs.head? ∧
      c.opened = L.inputs ++ L.outputs

/-! ## What is left of a line -/

/-- An item with the operator `op` and the file that `file?` tells, or without the operator. -/
structure Marks (op : Word) (file? : Item → Option Word) (i : Item) : Prop where
  tokens_of_some : ∀ f, file? i = some f → i.tokens = [op, f]
  notMem_of_none : file? i = none → op ∉ i.tokens

theorem Item.Plain.input {i : Item} (h : i.Plain) : Marks (ascii "<") Item.input? i where
  tokens_of_some f hf := by
    cases i with
    | input g => cases hf; rfl
    | arg | output => cases hf
  notMem_of_none hnone := by
    cases i with
    | arg w => simpa [tokens, word] using h.1.symm
    | input f => cases hnone
    | output f =>
        have hne : ascii "<" ≠ ascii ">" := by decide
        simpa [tokens, word, hne] using h.1.symm

theorem Item.Plain.output {i : Item} (h : i.Plain) : Marks (ascii ">") Item.output? i where
  tokens_of_some f hf := by
    cases i with
    | output g => cases hf; rfl
    | arg | input => cases hf
  notMem_of_none hnone := by
    cases i with
    | arg w => simpa [tokens, word] using h.2.symm
    | output f => cases hnone
    | input f =>
        have hne : ascii ">" ≠ ascii "<" := by decide
        simpa [tokens, word, hne] using h.2.symm

/-- The items before the first that names a file. -/
def before (file? : Item → Option Word) (items : List Item) : List Item :=
  items.takeWhile fun i ↦ (file? i).isNone

variable {file? : Item → Option Word} {items : List Item}

/-- The first operator in the words, if there is one. -/
theorem tokens_cases (h : ∀ i ∈ items, Marks op file? i) :
    op ∉ (before file? items).flatMap Item.tokens ∧
      ((items.filterMap file? = [] ∧ before file? items = items) ∨
        ∃ f fs rest, items.filterMap file? = f :: fs ∧ items.flatMap Item.tokens =
          (before file? items).flatMap Item.tokens ++ op :: f :: rest) := by
  induction items with
  | nil => exact ⟨List.not_mem_nil, .inl ⟨rfl, rfl⟩⟩
  | cons i items ih =>
      obtain ⟨hi, hitems⟩ := List.forall_mem_cons.mp h
      cases hf : file? i with
      | some f =>
          have hbefore : before file? (i :: items) = [] :=
            List.takeWhile_cons_of_neg (by rw [hf]; exact Bool.false_ne_true)
          rw [hbefore, List.filterMap_cons_some hf, List.flatMap_cons, hi.tokens_of_some f hf]
          exact ⟨List.not_mem_nil, .inr ⟨f, _, _, rfl, rfl⟩⟩
      | none =>
          have hbefore : before file? (i :: items) = i :: before file? items :=
            List.takeWhile_cons_of_pos (by rw [hf]; rfl)
          obtain ⟨hnot, hcases⟩ := ih hitems
          rw [hbefore, List.filterMap_cons_none hf, List.flatMap_cons, List.flatMap_cons]
          refine ⟨?_, ?_⟩
          · rw [List.mem_append]
            exact fun hmem ↦ hmem.elim (hi.notMem_of_none hf) hnot
          · rcases hcases with ⟨hnil, heq⟩ | ⟨f, fs, rest, hfs, heq⟩
            · exact .inl ⟨hnil, by rw [heq]⟩
            · exact .inr ⟨f, fs, rest, hfs, by rw [heq, List.append_assoc]⟩

/-- **What one redirection does to a line**: it attaches the first file, and leaves what
comes before its operator. -/
theorem redirect_items {w : Word} (hv : Holds v (w :: items.flatMap Item.tokens)) (hw : w ≠ op)
    (h : ∀ i ∈ items, Marks op file? i) (hopen : ∀ f ∈ items.filterMap file?, canOpen f) :
    ∃ v', redirect op canOpen v = .ok ((items.filterMap file?).head?, v') ∧
      Holds v' (w :: (before file? items).flatMap Item.tokens) := by
  obtain ⟨hnot, hcases⟩ := tokens_cases h
  have hop : op ∉ w :: (before file? items).flatMap Item.tokens :=
    mt List.mem_cons.mp (not_or.mpr ⟨hw.symm, hnot⟩)
  rcases hcases with ⟨hnil, heq⟩ | ⟨f, fs, rest, hfs, heq⟩
  · rw [heq] at hop ⊢
    rw [hnil]
    exact ⟨v, redirect_of_notMem hv hop, hv⟩
  · rw [heq, ← List.cons_append] at hv
    rw [hfs] at hopen ⊢
    exact redirect_of_mem hv hop (hopen f List.mem_cons_self)

/-! ## When nothing is lost -/

/-- What is left after both redirections. -/
def kept (items : List Item) : List Item := before Item.output? (before Item.input? items)

/-- The second redirection still finds its file, and no argument is removed. -/
def Kept (items : List Item) : Prop :=
  (kept items).flatMap Item.tokens = items.filterMap Item.arg? ∧
    ((before Item.input? items).filterMap Item.output?).head? =
      (items.filterMap Item.output?).head?

/-- With at most one file in the line, the items after its own have none. -/
theorem forall_none_of_length_le (file? : Item → Option Word) {i : Item} {f : Word}
    (hi : file? i = some f) (h : ((i :: items).filterMap file?).length ≤ 1) :
    ∀ j ∈ items, file? j = none := by
  rw [List.filterMap_cons_some hi, List.length_cons] at h
  have hzero : (items.filterMap file?).length = 0 := by omega
  exact List.filterMap_eq_nil_iff.mp (List.length_eq_zero_iff.mp hzero)

/-- There are three kinds of items. -/
theorem Item.input_of_none {i : Item} (harg : i.arg? = none) (hout : i.output? = none) :
    ∃ f, i = .input f := by
  cases i with
  | arg w => cases harg
  | input f => exact ⟨f, rfl⟩
  | output f => cases hout

/-- Behind the only input there is no other. -/
theorem eq_nil_of_inputs (hnone : ∀ j ∈ items, j.input? = none)
    (h : ∀ j ∈ items, ∃ f, j = .input f) : items = [] := by
  refine List.eq_nil_iff_forall_not_mem.mpr fun j hj ↦ ?_
  obtain ⟨f, rfl⟩ := h j hj
  cases hnone _ hj

/-- Only one item can be an input. -/
theorem pairwise_of_inputs (hin : (items.filterMap Item.input?).length ≤ 1)
    (h : ∀ j ∈ items, ∃ f, j = .input f) : items.Pairwise Item.MayPrecede := by
  cases items with
  | nil => exact .nil
  | cons j items =>
      obtain ⟨hj, hitems⟩ := List.forall_mem_cons.mp h
      obtain ⟨f, rfl⟩ := hj
      have hnone := forall_none_of_length_le Item.input? (f := f) rfl hin
      obtain rfl : items = [] := eq_nil_of_inputs hnone hitems
      exact List.pairwise_singleton _ _

/-- **What gets lost**: nothing if and only if nothing follows an input, and only an input
an output. -/
theorem kept_iff (hin : (items.filterMap Item.input?).length ≤ 1)
    (hout : (items.filterMap Item.output?).length ≤ 1) :
    Kept items ↔ items.Pairwise Item.MayPrecede := by
  induction items with
  | nil => exact iff_of_true ⟨rfl, rfl⟩ .nil
  | cons i items ih =>
      rw [List.pairwise_cons]
      cases i with
      | arg w =>
          -- an argument is kept in any case
          refine Iff.trans ?_ (and_iff_right fun _ _ ↦ trivial).symm
          refine Iff.trans (and_congr_left' ?_) (ih hin hout)
          exact List.cons_inj_right w
      | input f =>
          -- the first redirection leaves nothing of what follows
          have hnone := forall_none_of_length_le Item.input? rfl hin
          constructor
          · rintro ⟨hargs, houts⟩
            have harg : ∀ j ∈ items, j.arg? = none := List.filterMap_eq_nil_iff.mp hargs.symm
            have houtput : ∀ j ∈ items, j.output? = none :=
              List.filterMap_eq_nil_iff.mp (List.head?_eq_none_iff.mp houts.symm)
            obtain rfl : items = [] := eq_nil_of_inputs hnone fun j hj ↦
              Item.input_of_none (harg j hj) (houtput j hj)
            exact ⟨fun j hj ↦ absurd hj List.not_mem_nil, .nil⟩
          · rintro ⟨hno, -⟩
            have hnil : items = [] := List.eq_nil_iff_forall_not_mem.mpr hno
            subst hnil
            exact ⟨rfl, rfl⟩
      | output g =>
          -- the second redirection leaves nothing of what follows, and the first has taken an input
          have hnone := forall_none_of_length_le Item.output? rfl hout
          constructor
          · rintro ⟨hargs, -⟩
            have harg : ∀ j ∈ items, j.arg? = none := List.filterMap_eq_nil_iff.mp hargs.symm
            refine ⟨fun j hj ↦ ?_, ?_⟩
            · obtain ⟨f, rfl⟩ := Item.input_of_none (harg j hj) (hnone j hj)
              rfl
            · exact pairwise_of_inputs hin fun j hj ↦ Item.input_of_none (harg j hj) (hnone j hj)
          · rintro ⟨hinput, -⟩
            have harg : ∀ j ∈ items, j.arg? = none := by
              intro j hj
              have hj := hinput j hj
              cases j with
              | input f => rfl
              | arg | output => cases hj
            exact ⟨(List.filterMap_eq_nil_iff.mpr harg).symm, rfl⟩

/-! ## Both redirections -/

theorem mem_before {i : Item} (h : i ∈ before file? items) : i ∈ items :=
  (List.takeWhile_prefix _).subset h

/-- The output that is still in the vector when `redirect_out` looks for it. -/
def CommandLine.found (L : CommandLine) : Option Word :=
  ((before Item.input? L.items).filterMap Item.output?).head?

/-- **What the child has done** before it executes programs. -/
theorem redirections_eq (fs : Files) (L : CommandLine) (hin : ∀ f ∈ L.inputs, fs.canRead f)
    (hout : ∀ f ∈ L.outputs, fs.canWrite f) :
    ∃ v, redirections fs L.tokens = .ok ⟨v, attached L.inputs.head?, attached L.found,
        L.inputs.head?.toList ++ L.found.toList⟩ ∧
      Holds v (L.command :: (kept L.items).flatMap Item.tokens) := by
  have hmarks : ∀ i ∈ L.items, Marks (ascii "<") Item.input? i := fun i hi ↦ (L.plain i hi).input
  have hmarks' : ∀ i ∈ before Item.input? L.items, Marks (ascii ">") Item.output? i :=
    fun i hi ↦ (L.plain i (mem_before hi)).output
  have hout' : ∀ f ∈ (before Item.input? L.items).filterMap Item.output?, fs.canWrite f := by
    intro f hf
    obtain ⟨i, hi, hif⟩ := List.mem_filterMap.mp hf
    exact hout f (List.mem_filterMap.mpr ⟨i, mem_before hi, hif⟩)
  obtain ⟨v₁, hv₁, hholds₁⟩ := redirect_items (holds_nullTerm L.tokens) L.command_plain.1 hmarks hin
  obtain ⟨v₂, hv₂, hholds₂⟩ := redirect_items hholds₁ L.command_plain.2 hmarks' hout'
  refine ⟨v₂, ?_, hholds₂⟩
  rw [redirections, redirectIn, Child.forked, hv₁]
  show redirectOut fs ⟨v₁, _, _, _⟩ = _
  rw [redirectOut, hv₂]
  rfl

theorem attached_inj {f g : Option Word} (h : attached f = attached g) : f = g := by
  cases f with
  | none => cases g with
    | none => rfl
    | some g => cases h
  | some f => cases g with
    | none => cases h
    | some g => cases h; rfl

theorem toList_head?_of_length_le {l : List Word} (h : l.length ≤ 1) : l.head?.toList = l := by
  cases l with
  | nil => rfl
  | cons w l =>
      obtain rfl : l = [] := List.length_eq_zero_iff.mp (Nat.le_zero.mp (Nat.le_of_succ_le_succ h))
      rfl

/-- **When redirections work**: with files that can be opened, both are attached and the other
words are left in order if and only if nothing follows the input and only an input follows the
output. -/
theorem redirected_iff (fs : Files) (L : CommandLine) (hin : ∀ f ∈ L.inputs, fs.canRead f)
    (hout : ∀ f ∈ L.outputs, fs.canWrite f) :
    Redirected fs L ↔ L.items.Pairwise Item.MayPrecede := by
  rw [← kept_iff L.input_le_one L.output_le_one]
  obtain ⟨v, heq, hholds⟩ := redirections_eq fs L hin hout
  constructor
  · rintro ⟨c, hc, hargs, -, hstdout, -⟩
    cases heq.symm.trans hc
    refine ⟨?_, attached_inj hstdout⟩
    rw [hholds.entries_eq] at hargs
    exact (List.cons_inj_right L.command).mp hargs
  · rintro ⟨hargs, hfound⟩
    refine ⟨_, heq, ?_, rfl, congrArg attached hfound, ?_⟩
    · rw [hholds.entries_eq, hargs]
      rfl
    · have hins : L.inputs.head?.toList = L.inputs := toList_head?_of_length_le L.input_le_one
      have houts : L.outputs.head?.toList = L.outputs := toList_head?_of_length_le L.output_le_one
      have hfound : L.found = L.outputs.head? := hfound
      show L.inputs.head?.toList ++ L.found.toList = _
      rw [hfound, hins, houts]

/-- `cat a > g < f` -/
def catLine : CommandLine where
  command := ascii "cat"
  items := [.arg (ascii "a"), .output (ascii "g"), .input (ascii "f")]
  command_plain := by decide
  plain := by decide
  input_le_one := by decide
  output_le_one := by decide

/-- Every file can be opened. -/
def Files.all : Files := ⟨fun _ ↦ true, fun _ ↦ true⟩

theorem redirected_catLine : Redirected .all catLine :=
  (redirected_iff .all catLine (fun _ _ ↦ rfl) fun _ _ ↦ rfl).mpr (by decide)

/-- `sort < f > g` -/
def sortLine : CommandLine where
  command := ascii "sort"
  items := [.input (ascii "f"), .output (ascii "g")]
  command_plain := by decide
  plain := by decide
  input_le_one := by decide
  output_le_one := by decide

/-- The output of `sort < f > g` goes where that of the shell goes. -/
theorem not_redirected_sortLine : ¬ Redirected .all sortLine := by
  rintro ⟨c, hc, -, -, hstdout, -⟩
  have hshell : (redirections .all sortLine.tokens).map Child.stdout = .ok .shell := rfl
  rw [hc] at hshell
  have hfile : c.stdout = .file (ascii "g") := hstdout
  cases hfile.symm.trans (Except.ok.inj hshell)

end SysProg.Shell
