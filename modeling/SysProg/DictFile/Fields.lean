import SysProg.DictFile.Convert

/-!
# The fields of `blank`

`convert` copies with `strncpy` and `strncat`, and gives them the sizes of the fields.  `strncat`
takes such a size for what it may append, not for what there is room for; and a word that fills
its field has no NUL, so that `strlen` of it goes on into the text.

* A `Paragraph` is what `convert` takes for an entry: a line, and the lines up to a blank one.
* `stores` are the bytes that are stored through the fields of `blank`, and `Paragraph.shown` is
  what is written for a paragraph that does not run over the text.
* `mainLoop_eq`: all of the output, as long as no definition does.
* `respects_iff`: the fields are respected, if and only if every headword leaves room for a NUL,
  and every definition for a newline.
-/

namespace SysProg.DictFile

open SysProg.Lib
open SysProg.ShmDict (wordSize textSize)
open SysProg.NetDict (Dictrec)

/-! ## Paragraphs -/

/-- `line[0]=='\n'` -/
def isBlank (line : List UInt8) : Bool := line.head? = some newline

/-- A line, and those after it up to a blank one. -/
structure Paragraph where
  head : List UInt8
  body : List (List UInt8)
deriving DecidableEq

namespace Paragraph

/-- The headword as a string, with its newline. -/
def word (p : Paragraph) : List UInt8 := cstring p.head

/-- The definition, with the newlines of its lines. -/
def definition (p : Paragraph) : List UInt8 := p.body.flatMap cstring

/-- What is to be in the text field. -/
def text (p : Paragraph) : List UInt8 := p.definition ++ [newline]

/-- What is to be written: each field once, as much as it holds.  Behind a full text `strlen`
goes on. -/
def cut (behind : List UInt8) (p : Paragraph) : List UInt8 :=
  p.word.take wordSize ++
    (p.text.take textSize ++ if p.text.length < textSize then [] else cstring behind)

/-- What is written, if the text is no longer than its field. -/
def shown (behind : List UInt8) (p : Paragraph) : List UInt8 :=
  let read := p.text ++ if p.text.length < textSize then [] else cstring behind
  (p.word ++ if p.word.length < wordSize then [] else read) ++ read

theorem length_text (p : Paragraph) : p.text.length = p.definition.length + 1 :=
  List.length_append

theorem zero_notMem_word (p : Paragraph) : 0 ∉ p.word := zero_notMem_cstring p.head

theorem zero_notMem_definition (p : Paragraph) : 0 ∉ p.definition := by
  intro hzero
  obtain ⟨l, -, hl⟩ := List.mem_flatMap.mp hzero
  exact zero_notMem_cstring l hl

theorem zero_notMem_text (p : Paragraph) : 0 ∉ p.text :=
  zero_notMem_ended p.zero_notMem_definition

theorem shown_eq_cut {behind : List UInt8} {p : Paragraph} (hword : p.word.length < wordSize)
    (hdef : p.definition.length < textSize) : p.shown behind = p.cut behind := by
  have htext : p.text.length ≤ textSize := p.length_text.trans_le hdef
  rw [shown, cut, List.take_of_length_le hword.le, List.take_of_length_le htext, if_pos hword,
    List.append_nil]

end Paragraph

/-- The paragraphs of a file, by its lines. -/
def paragraphs : List (List UInt8) → List Paragraph
  | [] => []
  | line :: lines =>
      ⟨line, lines.takeWhile (! isBlank ·)⟩ ::
        paragraphs ((lines.dropWhile (! isBlank ·)).drop 1)
termination_by lines => lines.length
decreasing_by
  have hle := (List.dropWhile_suffix (! isBlank ·) (l := lines)).length_le
  rw [List.length_drop, List.length_cons]
  omega

/-! ## Stores -/

inductive Field where
  | word
  | text
deriving DecidableEq

def Field.size : Field → Nat
  | .word => wordSize
  | .text => textSize

/-- Bytes that are stored through a field. -/
structure Store where
  field : Field
  first : Nat
  count : Nat
deriving DecidableEq

/-- They are in the field. -/
def Store.InField (s : Store) : Prop := s.first + s.count ≤ s.field.size

/-- `strncat(blank.text, line, TEXT)` and the store behind it, line after line. -/
def textStores (mem : List UInt8) : List (List UInt8) → List Store
  | [] => []
  | line :: lines =>
      if isBlank line then []
      else
        ⟨.text, strlen mem wordSize, min (cstring line).length textSize + 1⟩ ::
          ⟨.text, strlen (catText mem line) wordSize, 1⟩ ::
          textStores (atEnd (catText mem line) wordSize 0) lines

/-- The newline behind the definition, and the two `memset`s. -/
def endStores (mem : List UInt8) : List Store :=
  [⟨.text, strlen mem wordSize, 1⟩, ⟨.text, 0, textSize⟩, ⟨.word, 0, wordSize⟩]

/-- The stores of `mainLoop`. -/
def stores (mem : List UInt8) : List (List UInt8) → List Store
  | [] => []
  | line :: lines =>
      ⟨.word, 0, wordSize⟩ :: ⟨.word, strlen (copyWord mem line) 0, 1⟩ ::
        (textStores (atEnd (copyWord mem line) 0 0) lines ++
          match _hread : readText (atEnd (copyWord mem line) 0 0) lines with
          | (mem, none) => endStores mem
          | (mem, some rest) => endStores mem ++ stores (clear (atEnd mem wordSize newline)) rest)
termination_by lines => lines.length
decreasing_by
  exact (length_readText _hread).trans (Nat.lt_succ_self _)

/-- **The fields are respected**: what is stored is in them, and what is too long for them is
cut off; no byte of an entry is written twice, or with another one. -/
structure Respects (behind file : List UInt8) : Prop where
  inField : ∀ s ∈ stores (Dictrec.blank.bytes ++ behind) (reads (· = newline) bigLine file),
    s.InField
  output : convert behind file =
    (paragraphs (lines (· = newline) file)).flatMap (Paragraph.cut behind)

/-- Some lines, the last one without its newline. -/
def unended (ls : List (List UInt8)) (hne : ls ≠ []) : List (List UInt8) :=
  ls.dropLast.map ended ++ [ls.getLast hne]

variable {behind mem file line w t : List UInt8} {ls : List (List UInt8)}

theorem flatten_unended (hne : ls ≠ []) :
    (unended ls hne).flatten = ls.dropLast.flatMap ended ++ ls.getLast hne := by
  rw [unended, List.flatten_append, List.flatten_singleton, List.flatMap_def]

/-- What is missing is a newline. -/
theorem flatMap_ended_eq (hne : ls ≠ []) :
    ls.flatMap ended = (unended ls hne).flatten ++ [newline] := by
  conv_lhs => rw [← List.dropLast_append_getLast hne]
  rw [flatten_unended, List.flatMap_append, List.flatMap_singleton, ended, List.append_assoc]

/-- What holds of the lines with their newlines, and of the last one. -/
theorem forall_mem_unended {P : List UInt8 → Prop} (hne : ls ≠ [])
    (h : ∀ l ∈ ls.map ended, P l) (hlast : P (ls.getLast hne)) : ∀ l ∈ unended ls hne, P l := by
  refine List.forall_mem_append.mpr ⟨fun l hl ↦ h l ?_, List.forall_mem_singleton.mpr hlast⟩
  rw [List.map_dropLast] at hl
  exact List.mem_of_mem_dropLast hl

/-! ## Reading a definition -/

theorem isBlank_ended {l : List UInt8} (hne : l ≠ []) (hl : newline ∉ l) :
    isBlank (ended l) = false := by
  obtain ⟨c, l, rfl⟩ := List.exists_cons_of_ne_nil hne
  exact decide_eq_false fun heq ↦ hl (List.mem_cons.mpr (.inl (Option.some.inj heq).symm))

theorem isBlank_of_notMem {l : List UInt8} (hl : newline ∉ l) : isBlank l = false :=
  decide_eq_false fun heq ↦ hl (List.mem_of_head? heq)

/-- No line of text is blank, with a newline or without one. -/
theorem isBlank_map_ended (h : ∀ l ∈ ls, l ≠ [] ∧ newline ∉ l) :
    ∀ l ∈ ls.map ended, (! isBlank l) = true := by
  intro l hl
  obtain ⟨l', hl', rfl⟩ := List.mem_map.mp hl
  rw [isBlank_ended (h l' hl').1 (h l' hl').2]
  rfl

theorem isBlank_unended (h : ∀ l ∈ ls, l ≠ [] ∧ newline ∉ l) (hne : ls ≠ []) :
    ∀ l ∈ unended ls hne, (! isBlank l) = true := by
  refine forall_mem_unended hne (isBlank_map_ended h) ?_
  rw [isBlank_of_notMem (h _ (List.getLast_mem hne)).2]
  rfl

theorem readText_eq (mem : List UInt8) (ls : List (List UInt8)) : readText mem ls =
    ((ls.takeWhile (! isBlank ·)).foldl (fun mem line ↦ atEnd (catText mem line) wordSize 0) mem,
      (ls.dropWhile (! isBlank ·)).tail?) := by
  induction ls generalizing mem with
  | nil => rfl
  | cons line ls ih =>
      rw [readText]
      by_cases hblank : line.head? = some newline
      · have hisBlank : isBlank line = true := decide_eq_true hblank
        rw [if_pos hblank, List.takeWhile_cons_of_neg (by simp [hisBlank]),
          List.dropWhile_cons_of_neg (by simp [hisBlank])]
        rfl
      · have hisBlank : isBlank line = false := decide_eq_false hblank
        rw [if_neg hblank, List.takeWhile_cons_of_pos (by simp [hisBlank]),
          List.dropWhile_cons_of_pos (by simp [hisBlank]), ih]
        rfl

theorem catText_cstring (mem line : List UInt8) :
    catText mem (cstring line) = catText mem line := by
  rw [catText, catText, cstring_of_notMem (zero_notMem_cstring line)]

/-- The strings of the lines are appended, as long as they fit. -/
theorem foldl_holding (hw : w.length ≤ wordSize) (ht : 0 ∉ t)
    (hlen : t.length + (ls.flatMap cstring).length < textSize) :
    ls.foldl (fun mem line ↦ atEnd (catText mem line) wordSize 0) (holding behind w t) =
      holding behind w (t ++ ls.flatMap cstring) := by
  induction ls generalizing t with
  | nil => rw [List.flatMap_nil, List.append_nil, List.foldl_nil]
  | cons line ls ih =>
      rw [List.flatMap_cons, List.length_append, ← Nat.add_assoc] at hlen
      have hline : 0 ∉ cstring line := zero_notMem_cstring line
      rw [List.foldl_cons, atEnd_zero, ← catText_cstring, catText_holding hw ht hline (by omega),
        ih (by simp [ht, hline]) (by rwa [List.length_append]), List.flatMap_cons,
        List.append_assoc]

/-- The stores of the definition are in the text, if and only if it leaves room for a NUL. -/
theorem textStores_inField_iff (hw : w.length ≤ wordSize) (ht : 0 ∉ t) (hlen : t.length < textSize)
    (ls : List (List UInt8)) :
    (∀ s ∈ textStores (holding behind w t) ls, s.InField) ↔
      t.length + ((ls.takeWhile (! isBlank ·)).flatMap cstring).length < textSize := by
  induction ls generalizing t with
  | nil => simpa [textStores] using hlen
  | cons line ls ih =>
      rw [textStores]
      cases hblank : isBlank line with
      | true =>
          rw [if_pos rfl, List.takeWhile_cons_of_neg (by simp [hblank])]
          simpa using hlen
      | false =>
          have hline : 0 ∉ cstring line := zero_notMem_cstring line
          rw [if_neg Bool.false_ne_true, List.takeWhile_cons_of_pos (by simp [hblank]),
            List.flatMap_cons, List.length_append, ← Nat.add_assoc, List.forall_mem_cons,
            List.forall_mem_cons, strlen_text hw ht hlen, ← catText_cstring, atEnd_zero]
          by_cases hfit : t.length + (cstring line).length < textSize
          · have hnotMem : 0 ∉ t ++ cstring line := by simp [ht, hline]
            have hlength : (t ++ cstring line).length < textSize := by rwa [List.length_append]
            rw [catText_holding hw ht hline hfit, ih hnotMem hlength, List.length_append,
              strlen_text hw hnotMem hlength, List.length_append]
            have hmin : min (cstring line).length textSize = (cstring line).length :=
              Nat.min_eq_left (by omega)
            rw [hmin]
            constructor
            · rintro ⟨-, -, h⟩
              exact h
            · intro h
              exact ⟨hfit, hfit, h⟩
          · refine iff_of_false (fun h ↦ hfit ?_) (by omega)
            have hstore : t.length + (min (cstring line).length textSize + 1) ≤ textSize := h.1
            omega

/-! ## A paragraph -/

theorem cstring_field {n : Nat} {s : List UInt8} (hs : 0 ∉ s) (hlen : s.length ≤ n)
    (rest : List UInt8) :
    cstring (field n s ++ rest) = s ++ if s.length < n then [] else cstring rest := by
  rcases Nat.lt_or_eq_of_le hlen with hlt | heq
  · rw [cstring_field_append hs hlt, if_pos hlt, List.append_nil]
  · rw [if_neg (Nat.not_lt.mpr heq.ge), field_eq (k := 0) heq, List.replicate_zero,
      List.append_nil, cstring_append hs]

theorem cstring_holding_nil (hw : 0 ∉ w) (hlen : w.length ≤ wordSize) :
    cstring (holding behind w []) = w := by
  rw [holding, cstring_field hw hlen, cstring_field_append (by simp) (by decide)]
  split <;> exact List.append_nil w

theorem copyWord_blank (behind line : List UInt8) :
    copyWord (holding behind [] []) line = holding behind ((cstring line).take wordSize) [] := by
  have hzero : 0 ∉ (cstring line).take wordSize :=
    fun h ↦ zero_notMem_cstring line (List.mem_of_mem_take h)
  have hcopy : copyWord (holding behind [] []) ((cstring line).take wordSize) =
      copyWord (holding behind [] []) line := by
    rw [copyWord, copyWord, cstring_of_notMem hzero, List.take_take, Nat.min_self]
  rw [← hcopy, copyWord_holding hzero (List.length_take_le _ _)]

namespace Paragraph

variable {p : Paragraph}

theorem readText_eq (hword : p.word.length ≤ wordSize) (hdef : p.definition.length < textSize)
    (hbody : p.body = ls.takeWhile (! isBlank ·)) (behind : List UInt8) :
    readText (atEnd (copyWord (holding behind [] []) p.head) 0 0) ls =
      (holding behind p.word p.definition, (ls.dropWhile (! isBlank ·)).tail?) := by
  have hlen : ([] : List UInt8).length + (p.body.flatMap cstring).length < textSize := by
    rw [List.length_nil, Nat.zero_add]
    exact hdef
  rw [atEnd_zero, copyWord_blank, DictFile.readText_eq, ← hbody]
  change (p.body.foldl _ (holding behind (p.word.take wordSize) []), _) = _
  rw [List.take_of_length_le hword, foldl_holding hword List.not_mem_nil hlen]
  rfl

/-- What is written for the paragraph. -/
theorem put_eq (hword : p.word.length ≤ wordSize) (hdef : p.definition.length < textSize)
    (behind : List UInt8) :
    put (atEnd (holding behind p.word p.definition) wordSize newline) = p.shown behind := by
  have htext : p.text.length ≤ textSize := p.length_text.trans_le hdef
  rw [atEnd_holding hword p.zero_notMem_definition hdef, DictFile.put_eq, drop_holding hword]
  change cstring (holding behind p.word p.text) ++ cstring (field textSize p.text ++ behind) = _
  rw [holding, cstring_field p.zero_notMem_word hword,
    cstring_field p.zero_notMem_text htext]
  rfl

theorem clear_eq (hword : p.word.length ≤ wordSize) (hdef : p.definition.length < textSize)
    (behind : List UInt8) :
    clear (atEnd (holding behind p.word p.definition) wordSize newline) =
      holding behind [] [] := by
  rw [atEnd_holding hword p.zero_notMem_definition hdef]
  exact clear_holding hword (p.length_text.trans_le hdef)

/-- One turn of the loop: the paragraph is written, and nothing of it is left in memory. -/
theorem mainLoop_eq (hword : p.word.length ≤ wordSize) (hdef : p.definition.length < textSize)
    (hbody : p.body = ls.takeWhile (! isBlank ·)) (behind : List UInt8) :
    mainLoop (holding behind [] []) (p.head :: ls) =
      p.shown behind ++ mainLoop (holding behind [] []) ((ls.dropWhile (! isBlank ·)).drop 1) := by
  have hread := readText_eq hword hdef hbody behind
  cases hrest : ls.dropWhile (! isBlank ·) with
  | nil =>
      rw [hrest] at hread
      rw [mainLoop, hread]
      change put _ = p.shown behind ++ mainLoop _ []
      rw [put_eq hword hdef, mainLoop, List.append_nil]
  | cons line rest =>
      rw [hrest] at hread
      rw [mainLoop, hread]
      change put _ ++ mainLoop (clear _) rest = _
      rw [put_eq hword hdef, clear_eq hword hdef]
      rfl

/-- Where the store behind the word goes. -/
theorem strlen_copyWord (behind : List UInt8) (p : Paragraph) :
    strlen (copyWord (holding behind [] []) p.head) 0 = min wordSize p.word.length := by
  have hzero : 0 ∉ p.word.take wordSize := fun h ↦ p.zero_notMem_word (List.mem_of_mem_take h)
  rw [strlen, List.drop_zero, copyWord_blank]
  change (cstring (holding behind (p.word.take wordSize) [])).length = _
  rw [cstring_holding_nil hzero (List.length_take_le _ _), List.length_take]

theorem textStores_inField_iff (hword : p.word.length ≤ wordSize)
    (hbody : p.body = ls.takeWhile (! isBlank ·)) (behind : List UInt8) :
    (∀ s ∈ textStores (atEnd (copyWord (holding behind [] []) p.head) 0 0) ls, s.InField) ↔
      p.definition.length < textSize := by
  rw [atEnd_zero, copyWord_blank]
  change (∀ s ∈ textStores (holding behind (p.word.take wordSize) []) ls, s.InField) ↔ _
  rw [List.take_of_length_le hword,
    DictFile.textStores_inField_iff hword List.not_mem_nil (by decide), ← hbody, List.length_nil,
    Nat.zero_add]
  rfl

theorem endStores_inField (hword : p.word.length ≤ wordSize)
    (hdef : p.definition.length < textSize) (behind : List UInt8) :
    ∀ s ∈ endStores (holding behind p.word p.definition), s.InField := by
  rw [endStores, strlen_text hword p.zero_notMem_definition hdef]
  simpa [Store.InField, Field.size, Nat.succ_le_iff] using hdef

/-- The stores of a turn are in their fields, if and only if a NUL has room in both. -/
theorem stores_inField_iff (hbody : p.body = ls.takeWhile (! isBlank ·)) (behind : List UInt8) :
    (∀ s ∈ stores (holding behind [] []) (p.head :: ls), s.InField) ↔
      (p.word.length < wordSize ∧ p.definition.length < textSize) ∧
        ∀ s ∈ stores (holding behind [] []) ((ls.dropWhile (! isBlank ·)).drop 1), s.InField := by
  rw [stores, List.forall_mem_cons, List.forall_mem_cons, List.forall_mem_append, strlen_copyWord]
  by_cases hword : p.word.length < wordSize
  · have hcopy : (⟨.word, 0, wordSize⟩ : Store).InField := Nat.le_of_eq (Nat.zero_add _)
    have hzero : (⟨.word, min wordSize p.word.length, 1⟩ : Store).InField :=
      (Nat.min_eq_right hword.le).symm ▸ hword
    rw [textStores_inField_iff hword.le hbody]
    by_cases hdef : p.definition.length < textSize
    · have hend := endStores_inField hword.le hdef behind
      have hread := readText_eq hword.le hdef hbody behind
      cases hrest : ls.dropWhile (! isBlank ·) with
      | nil =>
          rw [hrest] at hread
          rw [hread]
          change _ ∧ _ ∧ _ ∧ (∀ s ∈ endStores _, s.InField) ↔ _
          exact iff_of_true ⟨hcopy, hzero, hdef, hend⟩ ⟨⟨hword, hdef⟩, by simp [stores]⟩
      | cons line rest =>
          rw [hrest] at hread
          rw [hread]
          change _ ∧ _ ∧ _ ∧ (∀ s ∈ endStores _ ++ stores (clear _) rest, s.InField) ↔ _
          rw [clear_eq hword.le hdef, List.forall_mem_append]
          exact ⟨fun h ↦ ⟨⟨hword, hdef⟩, h.2.2.2.2⟩, fun h ↦ ⟨hcopy, hzero, hdef, hend, h.2⟩⟩
    · exact iff_of_false (fun h ↦ hdef h.2.2.1) (fun h ↦ hdef h.1.2)
  · refine iff_of_false (fun h ↦ hword ?_) (fun h ↦ hword h.1.1)
    have hstore : min wordSize p.word.length + 1 ≤ wordSize := h.2.1
    omega

end Paragraph

/-! ## The file -/

/-- **What is written** as long as no definition runs over the text. -/
theorem mainLoop_eq
    (h : ∀ p ∈ paragraphs ls, p.word.length ≤ wordSize ∧ p.definition.length < textSize)
    (behind : List UInt8) :
    mainLoop (holding behind [] []) ls = (paragraphs ls).flatMap (Paragraph.shown behind) := by
  induction ls using paragraphs.induct with
  | case1 => rw [mainLoop, paragraphs, List.flatMap_nil]
  | case2 line ls ih =>
      rw [paragraphs] at h ⊢
      obtain ⟨⟨hword, hdef⟩, h⟩ := List.forall_mem_cons.mp h
      rw [List.flatMap_cons, ← ih h]
      exact Paragraph.mainLoop_eq hword hdef rfl behind

/-- All stores are in their fields, if and only if no headword and no definition is too long. -/
theorem stores_inField_iff (behind : List UInt8) (ls : List (List UInt8)) :
    (∀ s ∈ stores (holding behind [] []) ls, s.InField) ↔
      ∀ p ∈ paragraphs ls, p.word.length < wordSize ∧ p.definition.length < textSize := by
  induction ls using paragraphs.induct with
  | case1 => simp [stores, paragraphs]
  | case2 line ls ih =>
      rw [paragraphs, List.forall_mem_cons, ← ih]
      exact Paragraph.stores_inField_iff (p := ⟨line, _⟩) rfl behind

/-- **`convert` respects the fields**, if and only if every headword leaves room for a NUL behind
its newline, and every definition does so, too. -/
theorem respects_iff (behind file : List UInt8)
    (hlines : ∀ l ∈ lines (· = newline) file, l.length < bigLine) :
    Respects behind file ↔ ∀ p ∈ paragraphs (lines (· = newline) file),
      p.word.length < wordSize ∧ p.definition.length < textSize := by
  have hreads := reads_eq_lines (by decide) hlines
  rw [← stores_inField_iff behind, ← hreads, ← blank_append]
  refine ⟨Respects.inField, fun h ↦ ⟨h, ?_⟩⟩
  rw [blank_append, hreads, stores_inField_iff] at h
  have hfit : ∀ p ∈ paragraphs (lines (· = newline) file),
      p.word.length ≤ wordSize ∧ p.definition.length < textSize :=
    fun p hp ↦ ⟨(h p hp).1.le, (h p hp).2⟩
  rw [convert, blank_append, hreads, mainLoop_eq hfit]
  exact List.flatMap_congr fun p hp ↦ Paragraph.shown_eq_cut (h p hp).1 (h p hp).2

/-- A word, and its definition: both fit. -/
theorem respects_entryA : Respects [] entryA.source ↔
    ∀ p ∈ paragraphs (lines (· = newline) entryA.source),
      p.word.length < wordSize ∧ p.definition.length < textSize :=
  respects_iff [] entryA.source (by decide)

/-- A word of 31 letters. -/
def longWord : List UInt8 := List.replicate 31 97

/-- Its newline takes the place of the NUL, which is stored in the text. -/
theorem not_respects_longWord : ¬ ∀ behind file : List UInt8,
    (∀ l ∈ lines (· = newline) file, l.length < bigLine) → Respects behind file := by
  intro h
  have hlines : lines (· = newline) (ended longWord) = [ended longWord] := by decide
  have hrespects := h [] (ended longWord) (by rw [hlines]; decide)
  have hstores := hrespects.inField
  rw [blank_append, reads_eq_lines (by decide) (by rw [hlines]; decide), hlines,
    stores_inField_iff] at hstores
  rw [paragraphs] at hstores
  exact absurd (hstores _ List.mem_cons_self).1 (by decide)

end SysProg.DictFile
