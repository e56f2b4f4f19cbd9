import SysProg.Lib.Lines
import SysProg.NetDict.Framing

/-!
# From the dictionary text to its records

`convert.c` of `SP_HW5/Part3` is to turn the text of a dictionary into a file of
fixed-length records, which `lookup5.c` maps and searches as an array.  It assembles each
record in the static `blank`, and writes its two fields with `fwrite` and `strlen` of them.

* `convert` is the program, on the bytes of `blank` and of the memory behind it, and
  `Layout` the files its header describes.
* `zero_notMem_convert`: no NUL is ever written, and so there is no padding.
* `converted_iff`: the output is the records of the entries only if there are none.
* `convert_eq` is what comes out for words and definitions that fit their fields with a
  newline more: the lines of the file, with the blank ones moved to the end of the entry.
-/

namespace SysProg.DictFile

open SysProg.Lib
open SysProg.ShmDict (wordSize textSize)
open SysProg.NetDict (Dictrec records records_append)

/-! ## The program -/

/-- NL -/
def newline : UInt8 := 10

/-- `BIGLINE` -/
def bigLine : Nat := 512

/-- A string in a field of `n` bytes, padded with NULs. -/
def field (n : Nat) (s : List UInt8) : List UInt8 := s ++ List.replicate (n - s.length) 0

theorem length_field {n : Nat} {s : List UInt8} (h : s.length ≤ n) : (field n s).length = n := by
  rw [field, List.length_append, List.length_replicate, Nat.add_sub_cancel' h]

/-- `strlen` of the string at the offset `off`. -/
def strlen (mem : List UInt8) (off : Nat) : Nat := (cstring (mem.drop off)).length

/-- `strncpy(blank.word, line, WORD)` -/
def copyWord (mem line : List UInt8) : List UInt8 :=
  overwrite mem 0 (field wordSize ((cstring line).take wordSize))

/-- `strncat(blank.text, line, TEXT)` -/
def catText (mem line : List UInt8) : List UInt8 :=
  overwrite mem (wordSize + strlen mem wordSize) ((cstring line).take textSize ++ [0])

/-- `field[strlen(field)] = c` for the field at `off`. -/
def atEnd (mem : List UInt8) (off : Nat) (c : UInt8) : List UInt8 :=
  overwrite mem (off + strlen mem off) [c]

/-- The two `memset`s. -/
def clear (mem : List UInt8) : List UInt8 :=
  overwrite (overwrite mem wordSize (List.replicate textSize 0)) 0 (List.replicate wordSize 0)

/-- The loop that reads a definition, up to the blank line or the end of the file: what is
in memory then, and the lines that come after the blank one. -/
def readText (mem : List UInt8) : List (List UInt8) → List UInt8 × Option (List (List UInt8))
  | [] => (mem, none)
  | line :: lines =>
      if line.head? = some newline then (mem, some lines)
      else readText (atEnd (catText mem line) wordSize 0) lines

/-- The two `fwrite`s. -/
def put (mem : List UInt8) : List UInt8 :=
  mem.take (strlen mem 0) ++ (mem.drop wordSize).take (strlen mem wordSize)

theorem length_readText {mem mem' : List UInt8} {lines rest : List (List UInt8)}
    (h : readText mem lines = (mem', some rest)) : rest.length < lines.length := by
  induction lines generalizing mem with
  | nil => cases h
  | cons line lines ih =>
      rw [readText] at h
      split at h
      · cases h
        exact Nat.lt_succ_self _
      · exact (ih h).trans (Nat.lt_succ_self _)

/-- The loop over the file, which is read line by line: the bytes that are written.  After
a blank line `feof` is false, and the program ends with `DIE("fgets\n")` if nothing comes
after it. -/
def mainLoop (mem : List UInt8) : List (List UInt8) → List UInt8
  | [] => []
  | line :: lines =>
      match _hread : readText (atEnd (copyWord mem line) 0 0) lines with
      | (mem, none) => put (atEnd mem wordSize newline)
      | (mem, some rest) =>
          put (atEnd mem wordSize newline) ++ mainLoop (clear (atEnd mem wordSize newline)) rest
termination_by lines => lines.length
decreasing_by
  exact (length_readText _hread).trans (Nat.lt_succ_self _)

/-- `convert` of a file; `behind` is the memory behind the static `blank`. -/
def convert (behind file : List UInt8) : List UInt8 :=
  mainLoop (Dictrec.blank.bytes ++ behind) (reads (· = newline) bigLine file)

/-! ## The files and their records -/

/-- A line of a file. -/
def ended (l : List UInt8) : List UInt8 := l ++ [newline]

/-- A headword and its definition, both shorter than their fields, in lines. -/
structure Entry where
  word : List UInt8
  text : List (List UInt8)
  newline_notMem_word : newline ∉ word
  length_word_lt : word.length < wordSize
  text_ne_nil : text ≠ []
  newline_notMem_text : ∀ l ∈ text, newline ∉ l
  not_blank : ∀ l ∈ text, l ≠ []
  length_text_lt : (text.flatMap ended).length < textSize

namespace Entry

variable (e : Entry)

/-- The definition, with the ends of its lines. -/
def definition : List UInt8 := e.text.flatMap ended

/-- The lines of the entry. -/
def source : List UInt8 := ended e.word ++ e.definition

/-- The record of the entry. -/
def record : Dictrec where
  bytes := field wordSize e.word ++ field textSize e.definition
  length_eq := by
    have htext : e.definition.length ≤ textSize := e.length_text_lt.le
    rw [List.length_append, length_field e.length_word_lt.le, length_field htext]

end Entry

/-- A file of entries that are separated by blank lines; the last one may be followed by
one, too. -/
inductive Layout : List Entry → List UInt8 → Prop
  | nil : Layout [] []
  | last (e : Entry) : Layout [e] e.source
  | cons (e : Entry) {es : List Entry} {file : List UInt8} (h : Layout es file) :
      Layout (e :: es) (e.source ++ [newline] ++ file)

/-- The output is the records of the entries, and is read back as these. -/
structure Converted (entries : List Entry) (out : List UInt8) : Prop where
  output : out = entries.flatMap fun e ↦ e.record.bytes
  readBack : records out = entries.map Entry.record

variable {mem behind file s : List UInt8} {lines : List (List UInt8)} {entries : List Entry}

/-! ## There is no padding -/

theorem put_eq (mem : List UInt8) : put mem = cstring mem ++ cstring (mem.drop wordSize) := by
  rw [put, strlen, strlen, List.drop_zero, take_length_cstring, take_length_cstring]

theorem zero_notMem_put (mem : List UInt8) : 0 ∉ put mem := by
  rw [put_eq, List.mem_append, not_or]
  exact ⟨zero_notMem_cstring _, zero_notMem_cstring _⟩

theorem zero_notMem_mainLoop (mem : List UInt8) (lines : List (List UInt8)) :
    0 ∉ mainLoop mem lines := by
  induction mem, lines using mainLoop.induct with
  | case1 mem => simp [mainLoop]
  | case2 mem line lines mem' h =>
      rw [mainLoop, h]
      exact zero_notMem_put _
  | case3 mem line lines mem' rest h ih =>
      rw [mainLoop, h, List.mem_append, not_or]
      exact ⟨zero_notMem_put _, ih⟩

/-- **Nothing is padded**: what `strlen` counts has no NUL. -/
theorem zero_notMem_convert (behind file : List UInt8) : 0 ∉ convert behind file :=
  zero_notMem_mainLoop _ _

theorem Entry.zero_mem_record (e : Entry) : 0 ∈ e.record.bytes := by
  have hpos : wordSize - e.word.length ≠ 0 := Nat.sub_ne_zero_of_lt e.length_word_lt
  refine List.mem_append_left _ (List.mem_append_right _ ?_)
  exact List.mem_replicate.mpr ⟨hpos, rfl⟩

/-- **`convert` does what its header says** for a file without entries, and for no
other. -/
theorem converted_iff (h : Layout entries file) (behind : List UInt8) :
    Converted entries (convert behind file) ↔ entries = [] := by
  constructor
  · intro hconv
    cases entries with
    | nil => rfl
    | cons e es =>
        have hzero : 0 ∈ convert behind file := by
          rw [hconv.output, List.flatMap_cons]
          exact List.mem_append_left _ e.zero_mem_record
        exact absurd hzero (zero_notMem_convert _ _)
  · rintro rfl
    cases h
    have hnil : convert behind [] = [] := by
      rw [convert, reads, fgets, mainLoop]
    rw [hnil]
    exact ⟨rfl, by rw [records, dif_neg (by decide)]; rfl⟩

/-! ## What is written instead -/

/-- The byte at the end of a string is NUL already. -/
theorem atEnd_zero (mem : List UInt8) (off : Nat) : atEnd mem off 0 = mem := by
  rw [atEnd, overwrite_singleton]
  refine List.ext_getElem? fun i ↦ ?_
  rw [List.getElem?_set]
  split
  · next h =>
      subst h
      cases hb : mem[off + strlen mem off]? with
      | none => rw [if_neg (Nat.not_lt.mpr (List.getElem?_eq_none_iff.mp hb))]
      | some b =>
          rw [← List.getElem?_drop] at hb
          rw [getElem?_length_cstring hb]
          rw [List.getElem?_drop] at hb
          rw [if_pos (List.getElem?_eq_some_iff.mp hb).1]
  · rfl

/-- What is in memory while an entry is read. -/
def holding (behind w t : List UInt8) : List UInt8 :=
  field wordSize w ++ (field textSize t ++ behind)

variable {w t line rest : List UInt8} {n k : Nat}

theorem field_eq (h : s.length + k = n) : field n s = s ++ List.replicate k 0 := by
  rw [field, ← h, Nat.add_sub_cancel_left]

theorem cstring_field_append (hs : 0 ∉ s) (hlen : s.length < n) (rest : List UInt8) :
    cstring (field n s ++ rest) = s := by
  obtain ⟨k, hk⟩ := Nat.exists_eq_add_of_lt hlen
  rw [field_eq (k := k + 1) hk.symm, List.replicate_succ, List.append_assoc, List.cons_append]
  exact cstring_append_zero hs _

theorem drop_holding (hw : w.length ≤ wordSize) :
    (holding behind w t).drop wordSize = field textSize t ++ behind :=
  List.drop_left' (length_field hw)

theorem strlen_text (hw : w.length ≤ wordSize) (ht : 0 ∉ t) (hlen : t.length < textSize) :
    strlen (holding behind w t) wordSize = t.length := by
  rw [strlen, drop_holding hw, cstring_field_append ht hlen]

theorem copyWord_holding (hw : 0 ∉ w) (hlen : w.length ≤ wordSize) :
    copyWord (holding behind [] t) w = holding behind w t := by
  have hfield : (field wordSize w).length = (field wordSize []).length := by
    rw [length_field hlen, length_field (Nat.zero_le _)]
  rw [copyWord, cstring_of_notMem hw, List.take_of_length_le hlen]
  exact overwrite_append (a := []) rfl hfield

/-- What comes at the end of a text takes the place of NULs. -/
theorem overwrite_text (hw : w.length ≤ wordSize) (hlen : t.length + (line.length + k) ≤ textSize) :
    overwrite (holding behind w t) (wordSize + t.length) (line ++ List.replicate k 0) =
      holding behind w (t ++ line) := by
  obtain ⟨m, hm⟩ := Nat.exists_eq_add_of_le hlen
  have hold : holding behind w t = (field wordSize w ++ t) ++
      (List.replicate (line.length + k) 0 ++ (List.replicate m 0 ++ behind)) := by
    rw [holding, field_eq (s := t) (k := line.length + k + m) (by omega)]
    simp only [List.replicate_add, List.append_assoc]
  have hnew : holding behind w (t ++ line) = (field wordSize w ++ t) ++
      ((line ++ List.replicate k 0) ++ (List.replicate m 0 ++ behind)) := by
    rw [holding, field_eq (s := t ++ line) (k := k + m) (by rw [List.length_append]; omega)]
    simp only [List.replicate_add, List.append_assoc]
  rw [hold, hnew]
  refine overwrite_append ?_ ?_
  · rw [List.length_append, length_field hw]
  · rw [List.length_append, List.length_replicate, List.length_replicate]

theorem catText_holding (hw : w.length ≤ wordSize) (ht : 0 ∉ t) (hline : 0 ∉ line)
    (hlen : t.length + line.length < textSize) :
    catText (holding behind w t) line = holding behind w (t ++ line) := by
  rw [catText, strlen_text hw ht (by omega), cstring_of_notMem hline,
    List.take_of_length_le (by omega)]
  exact overwrite_text (k := 1) hw hlen

theorem atEnd_holding (hw : w.length ≤ wordSize) (ht : 0 ∉ t) (hlen : t.length < textSize)
    (c : UInt8) : atEnd (holding behind w t) wordSize c = holding behind w (t ++ [c]) := by
  rw [atEnd, strlen_text hw ht hlen]
  have hover : overwrite (holding behind w t) (wordSize + t.length) ([c] ++ List.replicate 0 0) =
      holding behind w (t ++ [c]) := overwrite_text hw hlen
  exact hover

theorem clear_holding (hw : w.length ≤ wordSize) (ht : t.length ≤ textSize) :
    clear (holding behind w t) = holding behind [] [] := by
  have htext : overwrite (holding behind w t) wordSize (List.replicate textSize 0) =
      holding behind w [] := by
    refine overwrite_append (length_field hw) ?_
    rw [List.length_replicate, length_field ht]
  rw [clear, htext]
  refine overwrite_append (a := []) rfl ?_
  rw [List.length_replicate, length_field hw]

theorem put_holding (hw : 0 ∉ w) (hwlen : w.length < wordSize) (ht : 0 ∉ t)
    (htlen : t.length < textSize) : put (holding behind w t) = w ++ t := by
  rw [put_eq, drop_holding hwlen.le, cstring_field_append ht htlen, holding,
    cstring_field_append hw hwlen]

/-! ### A whole entry -/

/-- The lines of a definition are appended. -/
theorem readText_append (hw : w.length ≤ wordSize) {ls : List (List UInt8)}
    (hblank : ∀ l ∈ ls, l ≠ [] ∧ newline ∉ l) (hzero : ∀ l ∈ ls, 0 ∉ l) (ht : 0 ∉ t)
    (hlen : t.length + (ls.flatMap ended).length < textSize) (lines : List (List UInt8)) :
    readText (holding behind w t) (ls.map ended ++ lines) =
      readText (holding behind w (t ++ ls.flatMap ended)) lines := by
  induction ls generalizing t with
  | nil => simp
  | cons l ls ih =>
      obtain ⟨⟨hne, hnewline⟩, hblank⟩ := List.forall_mem_cons.mp hblank
      obtain ⟨hl, hzero⟩ := List.forall_mem_cons.mp hzero
      rw [List.flatMap_cons, List.length_append, ← Nat.add_assoc] at hlen
      have hended : 0 ∉ ended l := by simpa [ended, hl] using (by decide : (0 : UInt8) ≠ newline)
      have hhead : (ended l).head? ≠ some newline := by
        obtain ⟨c, l', rfl⟩ := List.exists_cons_of_ne_nil hne
        exact fun heq ↦ hnewline (List.mem_cons.mpr (.inl (Option.some.inj heq).symm))
      rw [List.map_cons, List.cons_append, readText, if_neg hhead, atEnd_zero,
        catText_holding hw ht hended (by omega), ih hblank hzero (by simp [ht, hended])
          (by rwa [List.length_append]), List.flatMap_cons, List.append_assoc]

/-- What an entry consists of has no NUL, and leaves room for a newline in both fields. -/
structure Entry.Fits (e : Entry) : Prop where
  zero_notMem_word : 0 ∉ e.word
  zero_notMem_text : ∀ l ∈ e.text, 0 ∉ l
  length_word : e.word.length + 1 < wordSize
  length_text : e.definition.length + 1 < textSize

/-- What is written for an entry. -/
def Entry.output (e : Entry) : List UInt8 := e.source ++ [newline]

theorem reads_ended {l : List UInt8} (hl : newline ∉ l) (hlen : (ended l).length < bigLine)
    (s : List UInt8) : reads (· = newline) bigLine (ended l ++ s) =
      ended l :: reads (· = newline) bigLine s := by
  have heol : ∀ x ∈ l, decide (x = newline) = false := by
    intro x hx
    exact decide_eq_false fun heq ↦ hl (heq ▸ hx)
  have hchunk : chunks (bigLine - 1) (l ++ [newline]) = [ended l] :=
    chunks_of_length_le (List.concat_ne_nil _ _) (Nat.le_sub_one_of_lt hlen)
  rw [reads_eq (by decide), reads_eq (by decide), ended, List.append_assoc, List.singleton_append,
    lines_append_eol heol (by decide), List.flatMap_cons, hchunk]
  rfl

theorem reads_blank (s : List UInt8) : reads (· = newline) bigLine ([newline] ++ s) =
    [newline] :: reads (· = newline) bigLine s :=
  reads_ended (l := []) List.not_mem_nil (by decide) s

theorem reads_text {ls : List (List UInt8)} (hnewline : ∀ l ∈ ls, newline ∉ l)
    (hlen : (ls.flatMap ended).length < textSize) (s : List UInt8) :
    reads (· = newline) bigLine (ls.flatMap ended ++ s) =
      ls.map ended ++ reads (· = newline) bigLine s := by
  induction ls with
  | nil => rfl
  | cons l ls ih =>
      obtain ⟨hl, hnewline⟩ := List.forall_mem_cons.mp hnewline
      rw [List.flatMap_cons, List.length_append] at hlen
      have hfit : (ended l).length < bigLine :=
        ((Nat.le_add_right _ _).trans_lt hlen).trans (by decide)
      rw [List.flatMap_cons, List.append_assoc, reads_ended hl hfit, List.map_cons,
        ih hnewline ((Nat.le_add_left _ _).trans_lt hlen), List.cons_append]

theorem reads_source (e : Entry) (s : List UInt8) :
    reads (· = newline) bigLine (e.source ++ s) =
      ended e.word :: (e.text.map ended ++ reads (· = newline) bigLine s) := by
  have hfit : (ended e.word).length < bigLine := by
    rw [ended, List.length_append, List.length_singleton]
    exact (Nat.succ_le_of_lt e.length_word_lt).trans_lt (by decide)
  rw [Entry.source, List.append_assoc, reads_ended e.newline_notMem_word hfit, Entry.definition,
    reads_text e.newline_notMem_text e.length_text_lt]

theorem zero_notMem_ended {l : List UInt8} (h : 0 ∉ l) : 0 ∉ ended l := by
  simpa [ended, h] using (by decide : (0 : UInt8) ≠ newline)

namespace Entry.Fits

variable {e : Entry} (h : e.Fits)

include h

theorem zero_notMem_definition : 0 ∉ e.definition := by
  intro hzero
  obtain ⟨l, hl, hmem⟩ := List.mem_flatMap.mp hzero
  exact zero_notMem_ended (h.zero_notMem_text l hl) hmem

theorem length_word_lt : (ended e.word).length < wordSize := by
  rw [ended, List.length_append, List.length_singleton]
  exact h.length_word

/-- The word and the definition are in their fields when the lines have been read. -/
theorem readText_eq (behind : List UInt8) (lines : List (List UInt8)) :
    readText (atEnd (copyWord (holding behind [] []) (ended e.word)) 0 0)
        (e.text.map ended ++ lines) =
      readText (holding behind (ended e.word) e.definition) lines := by
  have hzero := zero_notMem_ended h.zero_notMem_word
  have hlen : ([] : List UInt8).length + (e.text.flatMap ended).length < textSize := by
    simpa using e.length_text_lt
  rw [atEnd_zero, copyWord_holding hzero h.length_word_lt.le,
    readText_append h.length_word_lt.le (fun l hl ↦ ⟨e.not_blank l hl, e.newline_notMem_text l hl⟩)
      h.zero_notMem_text (by simp) hlen]
  rfl

theorem put_eq (behind : List UInt8) :
    put (atEnd (holding behind (ended e.word) e.definition) wordSize newline) = e.output := by
  have hzero : 0 ∉ e.definition ++ [newline] := zero_notMem_ended h.zero_notMem_definition
  have hlen : (e.definition ++ [newline]).length < textSize := by
    rw [List.length_append, List.length_singleton]
    exact h.length_text
  rw [atEnd_holding h.length_word_lt.le h.zero_notMem_definition e.length_text_lt,
    put_holding (zero_notMem_ended h.zero_notMem_word) h.length_word_lt hzero hlen, Entry.output,
    Entry.source, List.append_assoc]

theorem clear_eq (behind : List UInt8) :
    clear (atEnd (holding behind (ended e.word) e.definition) wordSize newline) =
      holding behind [] [] := by
  rw [atEnd_holding h.length_word_lt.le h.zero_notMem_definition e.length_text_lt]
  refine clear_holding h.length_word_lt.le ?_
  rw [List.length_append, List.length_singleton]
  exact h.length_text.le

theorem mainLoop_last (behind : List UInt8) :
    mainLoop (holding behind [] []) (ended e.word :: e.text.map ended) = e.output := by
  have hread := h.readText_eq behind []
  rw [List.append_nil] at hread
  rw [mainLoop, hread, readText]
  exact h.put_eq behind

theorem mainLoop_cons (behind : List UInt8) (lines : List (List UInt8)) :
    mainLoop (holding behind [] []) (ended e.word :: (e.text.map ended ++ [newline] :: lines)) =
      e.output ++ mainLoop (holding behind [] []) lines := by
  have hblank : readText (holding behind (ended e.word) e.definition) ([newline] :: lines) =
      (holding behind (ended e.word) e.definition, some lines) := if_pos rfl
  rw [mainLoop, (h.readText_eq behind _).trans hblank]
  change put _ ++ mainLoop (clear _) lines = _
  rw [h.put_eq, h.clear_eq]

end Entry.Fits

theorem blank_append (behind : List UInt8) :
    Dictrec.blank.bytes ++ behind = holding behind [] [] := by
  have hsplit : Dictrec.blank.bytes = List.replicate wordSize 0 ++ List.replicate textSize 0 :=
    List.replicate_add _ _ _
  rw [hsplit, List.append_assoc]
  rfl

/-- **What is written instead**: the lines of the file, with a blank one after every
entry. -/
theorem convert_eq (h : Layout entries file) (hfits : ∀ e ∈ entries, e.Fits)
    (behind : List UInt8) : convert behind file = entries.flatMap Entry.output := by
  rw [convert, blank_append]
  induction h with
  | nil => rw [reads, fgets, mainLoop, List.flatMap_nil]
  | last e =>
      have hlines := reads_source e []
      have hnil : reads (· = newline) bigLine [] = [] := by rw [reads, fgets]
      rw [List.append_nil, hnil, List.append_nil] at hlines
      rw [hlines, (hfits e List.mem_cons_self).mainLoop_last, List.flatMap_singleton]
  | cons e h ih =>
      obtain ⟨he, hfits⟩ := List.forall_mem_cons.mp hfits
      rw [List.append_assoc, reads_source, reads_blank, he.mainLoop_cons, ih hfits,
        List.flatMap_cons]

/-! ## One entry -/

theorem length_a_lt : [(97 : UInt8)].length < wordSize := by decide

/-- The word `a`, and `x` for its definition. -/
def entryA : Entry where
  word := [97]
  text := [[120]]
  newline_notMem_word := by decide
  length_word_lt := length_a_lt
  text_ne_nil := by decide
  newline_notMem_text := by decide
  not_blank := by decide
  length_text_lt := by decide

theorem fits_entryA : entryA.Fits := ⟨by decide, by decide, by decide, by decide⟩

/-- Its file is no array of records, and has not become one. -/
theorem converted_entryA : Layout [entryA] entryA.source ∧
    (Converted [entryA] (convert [] entryA.source) ↔ [entryA] = []) :=
  ⟨.last entryA, converted_iff (.last entryA) []⟩

/-- Five bytes are written for it. -/
theorem not_converted_entryA : Layout [entryA] entryA.source ∧
    convert [] entryA.source = [97, 10, 120, 10, 10] ∧
    ¬ Converted [entryA] (convert [] entryA.source) := by
  have hout : convert [] entryA.source = [97, 10, 120, 10, 10] := by
    rw [convert_eq (.last entryA) (by simpa using fits_entryA)]
    rfl
  refine ⟨.last entryA, hout, fun hconv ↦ ?_⟩
  have hzero : 0 ∈ convert [] entryA.source := by
    rw [hconv.output, List.flatMap_singleton]
    exact entryA.zero_mem_record
  rw [hout] at hzero
  exact absurd hzero (by decide)

end SysProg.DictFile
