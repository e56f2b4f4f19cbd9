import SysProg.DictFile.Fields

/-!
# The end of the dictionary

`convert` asks `feof` before it reads a headword, and that is only true when a read has met the
end of the file.  The loop over a definition that ends with the file has met it; a blank line ends
the definition before.

* `run` is the program with its status, and `DictText` a dictionary with the end of its file.
* `run_snd_eq`: it ends with `DIE`, if the last entry is followed by a blank line.
* `finishes_iff`: it ends cleanly, with every entry written once, if and only if there is no such
  line, and no word or definition fills its field.
-/

namespace SysProg.DictFile

open SysProg.Lib
open SysProg.ShmDict (wordSize textSize)
open SysProg.NetDict (Dictrec)

/-! ## The program, with its status -/

/-- `mainLoop`, and the status it ends with: `DIE("fgets\n")` is 1. -/
def run (mem : List UInt8) : List (List UInt8) → List UInt8 × Nat
  | [] => ([], 1)
  | line :: lines =>
      match _hread : readText (atEnd (copyWord mem line) 0 0) lines with
      | (mem, none) => (put (atEnd mem wordSize newline), 0)
      | (mem, some rest) =>
          let (out, status) := run (clear (atEnd mem wordSize newline)) rest
          (put (atEnd mem wordSize newline) ++ out, status)
termination_by lines => lines.length
decreasing_by
  exact (length_readText _hread).trans (Nat.lt_succ_self _)

/-! ## Dictionaries -/

/-- What comes after the last line of an entry. -/
inductive Ending where
  /-- Its newline, and a blank line. -/
  | blankLine
  /-- Its newline, and the end of the file. -/
  | newline
  /-- The end of the file. -/
  | endOfFile
deriving DecidableEq

/-- The lines of the definition, as they stand in the file. -/
def Entry.body (e : Entry) : Ending → List (List UInt8)
  | .endOfFile => unended e.text e.text_ne_nil
  | .blankLine | .newline => e.text.map ended

/-- An entry and what comes after it. -/
structure Item where
  entry : Entry
  ending : Ending

namespace Item

variable (i : Item)

def definition : List UInt8 := (i.entry.body i.ending).flatten

/-- The bytes of the file. -/
def bytes : List UInt8 :=
  ended i.entry.word ++ (i.definition ++ if i.ending = .blankLine then [DictFile.newline] else [])

/-- What is to be written: the lines, and a newline. -/
def output : List UInt8 := ended i.entry.word ++ (i.definition ++ [DictFile.newline])

def paragraph : Paragraph := ⟨ended i.entry.word, i.entry.body i.ending⟩

end Item

/-- The entries of a dictionary that is not empty, and the end of its file. -/
structure DictText where
  entries : List Entry
  lastEntry : Entry
  ending : Ending

/-- There is a blank line after every entry but the last. -/
def DictText.items (d : DictText) : List Item :=
  d.entries.map (⟨·, .blankLine⟩) ++ [⟨d.lastEntry, d.ending⟩]

/-- The file. -/
def DictText.bytes (d : DictText) : List UInt8 := d.items.flatMap Item.bytes

/-- **`convert` finishes cleanly**: every entry is written once, and the status is 0. -/
def Finishes (behind : List UInt8) (d : DictText) : Prop :=
  run (Dictrec.blank.bytes ++ behind) (reads (· = newline) bigLine d.bytes) =
    (d.items.flatMap Item.output, 0)

variable {behind mem s l : List UInt8} {ls : List (List UInt8)} {e : Entry} {d : DictText}

/-! ## What is read -/

/-- No line of a definition is blank. -/
theorem isBlank_body (e : Entry) (ending : Ending) :
    ∀ l ∈ e.body ending, (! isBlank l) = true := by
  have htext : ∀ l ∈ e.text, l ≠ [] ∧ DictFile.newline ∉ l :=
    fun l hl ↦ ⟨e.not_blank l hl, e.newline_notMem_text l hl⟩
  cases ending with
  | blankLine | newline => exact isBlank_map_ended htext
  | endOfFile => exact isBlank_unended htext e.text_ne_nil

theorem length_flatten_body_lt (e : Entry) (ending : Ending) :
    (e.body ending).flatten.length < textSize := by
  refine Nat.lt_of_le_of_lt ?_ e.length_text_lt
  cases ending with
  | blankLine | newline => exact Nat.le_refl _
  | endOfFile =>
      rw [flatMap_ended_eq e.text_ne_nil, List.length_append]
      exact Nat.le_add_right _ _

/-- A line that ends with the file. -/
theorem reads_unended (hne : l ≠ []) (hl : newline ∉ l) (hlen : l.length < bigLine) :
    reads (· = newline) bigLine l = [l] := by
  have heol : ∀ x ∈ l, decide (x = newline) = false :=
    fun x hx ↦ decide_eq_false fun heq ↦ hl (heq ▸ hx)
  have hlines : lines (· = newline) l = [l] := by
    rw [lines_of_forall heol, consLine_of_ne_nil hne]
  rw [reads_eq_lines (by decide) (by rw [hlines]; simpa using hlen), hlines]

theorem reads_nil : reads (· = newline) bigLine [] = [] := by rw [reads, fgets]

/-- The lines of a definition are read one by one. -/
theorem reads_body (e : Entry) {ending : Ending} (hs : ending = .endOfFile → s = []) :
    reads (· = newline) bigLine ((e.body ending).flatten ++ s) =
      e.body ending ++ reads (· = newline) bigLine s := by
  cases ending with
  | blankLine | newline => exact reads_text e.newline_notMem_text e.length_text_lt s
  | endOfFile =>
      obtain rfl := hs rfl
      have hmem := List.getLast_mem e.text_ne_nil
      have hlen := length_flatten_body_lt e .endOfFile
      rw [Entry.body, flatten_unended, List.length_append] at hlen
      have hlast : (e.text.getLast e.text_ne_nil).length < bigLine :=
        Nat.lt_of_lt_of_le (by omega) (by decide : textSize ≤ bigLine)
      have hread := reads_text
        (fun l hl ↦ e.newline_notMem_text l (List.mem_of_mem_dropLast hl)) (by omega)
        (e.text.getLast e.text_ne_nil)
      rw [reads_unended (e.not_blank _ hmem) (e.newline_notMem_text _ hmem) hlast] at hread
      rw [Entry.body, flatten_unended, List.append_nil, reads_nil, List.append_nil]
      exact hread

/-- An entry, and what comes after it. -/
theorem reads_item (i : Item) (hs : i.ending ≠ .blankLine → s = []) :
    reads (· = newline) bigLine (i.bytes ++ s) =
      ended i.entry.word :: (i.entry.body i.ending ++
        reads (· = newline) bigLine ((if i.ending = .blankLine then [newline] else []) ++ s)) := by
  have hfit : (ended i.entry.word).length < bigLine := by
    rw [ended, List.length_append, List.length_singleton]
    exact (Nat.succ_le_of_lt i.entry.length_word_lt).trans_lt (by decide)
  rw [Item.bytes, Item.definition, List.append_assoc, List.append_assoc,
    reads_ended i.entry.newline_notMem_word hfit, reads_body]
  intro hend
  rw [hend] at hs ⊢
  exact hs (by decide)

/-! ## The status -/

/-- A definition that ends with the file. -/
theorem run_last (hbody : ∀ l ∈ ls, (! isBlank l) = true) (mem l : List UInt8) :
    (run mem (l :: ls)).2 = 0 := by
  have hread := readText_eq (atEnd (copyWord mem l) 0 0) ls
  rw [List.dropWhile_eq_nil_iff.mpr hbody] at hread
  rw [run, hread]
  rfl

/-- And one that ends with a blank line. -/
theorem run_cons (hbody : ∀ l ∈ ls, (! isBlank l) = true) (mem l : List UInt8)
    (rest : List (List UInt8)) :
    ∃ mem', (run mem (l :: (ls ++ [newline] :: rest))).2 = (run mem' rest).2 := by
  have hread := readText_eq (atEnd (copyWord mem l) 0 0) (ls ++ [newline] :: rest)
  rw [List.dropWhile_append_of_pos hbody, List.dropWhile_cons_of_neg (by decide)] at hread
  rw [run, hread]
  exact ⟨_, rfl⟩

/-! ## The whole file -/

theorem reads_single (e : Entry) (ending : Ending) :
    reads (· = newline) bigLine (DictText.mk [] e ending).bytes =
      ended e.word :: (e.body ending ++ if ending = .blankLine then [[newline]] else []) := by
  have hread := reads_item (s := []) ⟨e, ending⟩ fun _ ↦ rfl
  rw [List.append_nil, List.append_nil] at hread
  have hblank : reads (· = newline) bigLine [newline] = [[newline]] :=
    (reads_blank []).trans (by rw [reads_nil])
  refine (congrArg _ (List.flatMap_singleton _ _)).trans (hread.trans ?_)
  split
  · rw [hblank]
  · rw [reads_nil]

theorem reads_cons (e : Entry) (es : List Entry) (last : Entry) (ending : Ending) :
    reads (· = newline) bigLine (DictText.mk (e :: es) last ending).bytes =
      ended e.word :: (e.body .blankLine ++
        [newline] :: reads (· = newline) bigLine (DictText.mk es last ending).bytes) := by
  rw [← reads_blank]
  exact reads_item ⟨e, .blankLine⟩ fun h ↦ absurd rfl h

/-- **The status**: a blank line after the last entry leads to `DIE`. -/
theorem run_snd_eq (mem : List UInt8) (d : DictText) :
    (run mem (reads (· = newline) bigLine d.bytes)).2 = if d.ending = .blankLine then 1 else 0 := by
  obtain ⟨es, last, ending⟩ := d
  induction es generalizing mem with
  | nil =>
      rw [reads_single]
      by_cases hend : ending = .blankLine
      · obtain ⟨mem', hrun⟩ := run_cons (isBlank_body last ending) mem (ended last.word) []
        rw [if_pos hend, if_pos hend, hrun, run]
      · rw [if_neg hend, if_neg hend, List.append_nil, run_last (isBlank_body last ending)]
  | cons e es ih =>
      obtain ⟨mem', hrun⟩ := run_cons (isBlank_body e .blankLine) mem (ended e.word)
        (reads (· = newline) bigLine (DictText.mk es last ending).bytes)
      rw [reads_cons, hrun]
      exact ih mem'

theorem paragraphs_cons (hbody : ∀ l ∈ ls, (! isBlank l) = true) (l : List UInt8)
    (rest : List (List UInt8)) :
    paragraphs (l :: (ls ++ [newline] :: rest)) = ⟨l, ls⟩ :: paragraphs rest := by
  rw [paragraphs, List.takeWhile_append_of_pos hbody, List.dropWhile_append_of_pos hbody,
    List.takeWhile_cons_of_neg (by decide), List.dropWhile_cons_of_neg (by decide),
    List.append_nil]
  rfl

theorem paragraphs_last (hbody : ∀ l ∈ ls, (! isBlank l) = true) (l : List UInt8) :
    paragraphs (l :: ls) = [⟨l, ls⟩] := by
  rw [paragraphs, List.takeWhile_eq_self_iff.mpr hbody, List.dropWhile_eq_nil_iff.mpr hbody,
    List.drop_nil, paragraphs]

/-- The paragraphs are the entries. -/
theorem paragraphs_eq (d : DictText) :
    paragraphs (reads (· = newline) bigLine d.bytes) = d.items.map Item.paragraph := by
  obtain ⟨es, last, ending⟩ := d
  induction es with
  | nil =>
      rw [reads_single]
      by_cases hend : ending = .blankLine
      · rw [if_pos hend, paragraphs_cons (isBlank_body last ending), paragraphs]
        rfl
      · rw [if_neg hend, List.append_nil, paragraphs_last (isBlank_body last ending)]
        rfl
  | cons e es ih =>
      rw [reads_cons, paragraphs_cons (isBlank_body e .blankLine), ih]
      rfl

/-! ## The output -/

theorem run_fst (mem : List UInt8) (ls : List (List UInt8)) : (run mem ls).1 = mainLoop mem ls := by
  induction mem, ls using mainLoop.induct with
  | case1 mem => rw [run, mainLoop]
  | case2 mem line ls mem' h => rw [run, mainLoop, h]
  | case3 mem line ls mem' rest h ih =>
      rw [run, mainLoop, h]
      exact congrArg (put _ ++ ·) ih

namespace Item

variable {i : Item}

theorem length_word_le (i : Item) : i.paragraph.word.length ≤ wordSize := by
  refine (length_cstring_le _).trans ?_
  rw [paragraph, ended, List.length_append, List.length_singleton]
  exact i.entry.length_word_lt

theorem length_definition_lt (i : Item) : i.paragraph.definition.length < textSize := by
  refine Nat.lt_of_le_of_lt ?_ (length_flatten_body_lt i.entry i.ending)
  rw [← List.flatMap_id]
  exact length_flatMap_le fun l _ ↦ length_cstring_le l

/-- What is written for an entry without NULs. -/
theorem shown_eq (hzero : 0 ∉ i.output) (behind : List UInt8) :
    i.paragraph.shown behind =
      let read := i.definition ++ [newline] ++
        if i.definition.length + 1 < textSize then [] else cstring behind
      (ended i.entry.word ++ if (ended i.entry.word).length < wordSize then [] else read) ++
        read := by
  have hword : i.paragraph.word = ended i.entry.word :=
    cstring_of_notMem fun h ↦ hzero (List.mem_append_left _ h)
  have hdef : i.paragraph.definition = i.definition := by
    have hlines : ∀ l ∈ i.entry.body i.ending, cstring l = l := by
      refine fun l hl ↦ cstring_of_notMem fun h ↦ hzero ?_
      exact List.mem_append_right _ (List.mem_append_left _ (List.mem_flatten_of_mem hl h))
    rw [definition, ← List.flatMap_id]
    exact List.flatMap_congr hlines
  rw [Paragraph.shown, Paragraph.length_text, Paragraph.text, hword, hdef]

theorem length_output_le (hzero : 0 ∉ i.output) (behind : List UInt8) :
    i.output.length ≤ (i.paragraph.shown behind).length := by
  rw [shown_eq hzero, output]
  simp only [List.length_append]
  omega

/-- It is no more than what is to be written, if both fields have room for a NUL, or there is one
behind the text. -/
theorem length_shown_le_iff (hzero : 0 ∉ i.output) (behind : List UInt8) :
    (i.paragraph.shown behind).length ≤ i.output.length ↔
      (ended i.entry.word).length < wordSize ∧
        (cstring behind = [] ∨ i.definition.length + 1 < textSize) := by
  rw [shown_eq hzero, output]
  by_cases hword : (ended i.entry.word).length < wordSize
  · by_cases hdef : i.definition.length + 1 < textSize
    · exact iff_of_true (by simp [hword, hdef]) ⟨hword, .inr hdef⟩
    · simp [hword, hdef]
  · refine iff_of_false ?_ fun h ↦ hword h.1
    simp [hword]

theorem shown_eq_output (hzero : 0 ∉ i.output)
    (hword : (ended i.entry.word).length < wordSize)
    (hdef : cstring behind = [] ∨ i.definition.length + 1 < textSize) :
    i.paragraph.shown behind = i.output := by
  rw [shown_eq hzero, output]
  rcases hdef with hdef | hdef <;> simp [hword, hdef]

end Item

/-- **`convert` finishes cleanly**, if and only if the last entry is not followed by a blank line,
there is no NUL in the file, and a NUL has room in the word and, if there is none behind it, in
the text. -/
theorem finishes_iff (behind : List UInt8) (d : DictText) : Finishes behind d ↔
    d.ending ≠ .blankLine ∧ ∀ i ∈ d.items, 0 ∉ i.output ∧
      (ended i.entry.word).length < wordSize ∧
      (cstring behind = [] ∨ i.definition.length + 1 < textSize) := by
  have hout : (run (Dictrec.blank.bytes ++ behind) (reads (· = newline) bigLine d.bytes)).1 =
      d.items.flatMap fun i ↦ i.paragraph.shown behind := by
    have hfit : ∀ p ∈ paragraphs (reads (· = newline) bigLine d.bytes),
        p.word.length ≤ wordSize ∧ p.definition.length < textSize := by
      rw [paragraphs_eq]
      exact List.forall_mem_map.mpr fun i _ ↦ ⟨i.length_word_le, i.length_definition_lt⟩
    rw [run_fst, blank_append, mainLoop_eq hfit, paragraphs_eq, List.flatMap_map]
  rw [Finishes, Prod.ext_iff, hout, run_snd_eq]
  constructor
  · rintro ⟨houtput, hstatus⟩
    have hzero : ∀ i ∈ d.items, 0 ∉ i.output := by
      intro i hi hmem
      refine zero_notMem_mainLoop (Dictrec.blank.bytes ++ behind)
        (reads (· = newline) bigLine d.bytes) ?_
      rw [← run_fst, hout, houtput]
      exact List.mem_flatMap.mpr ⟨i, hi, hmem⟩
    refine ⟨fun hend ↦ ?_, fun i hi ↦ ⟨hzero i hi, ?_⟩⟩
    · rw [if_pos hend] at hstatus
      exact absurd hstatus Nat.one_ne_zero
    · refine (Item.length_shown_le_iff (hzero i hi) behind).mp ?_
      exact length_le_of_flatMap (fun i hi ↦ Item.length_output_le (hzero i hi) behind)
        (congrArg List.length houtput).le i hi
  · rintro ⟨hend, hitems⟩
    refine ⟨List.flatMap_congr fun i hi ↦ ?_, if_neg hend⟩
    obtain ⟨hzero, hword, hdef⟩ := hitems i hi
    exact Item.shown_eq_output hzero hword hdef

/-- The dictionary of `entryA`, with a blank line after it: all of it is written, and then
`fgets` fails. -/
theorem not_finishes_entryA : ¬ ∀ (behind : List UInt8) (d : DictText), Finishes behind d := by
  intro h
  have hstatus := run_snd_eq (Dictrec.blank.bytes ++ []) ⟨[], entryA, .blankLine⟩
  rw [h [] ⟨[], entryA, .blankLine⟩] at hstatus
  exact absurd hstatus (by decide)

end SysProg.DictFile
