import SysProg.DictFile.Fields

/-!
# Looking up in the text

`lookup1` looks for a word in the text of a dictionary.  It compares the beginning of each line
with it, of the definitions as well as of the headwords, and copies the lines after the first one
that begins so, up to a blank one.

* `lookup` is the function, on the bytes of `*sought` and of the memory behind it.  Its `static`
  stream is rewound, and earlier queries have no effect (`lookup_after`).
* `lookup_eq` says what is found, as long as the text has room for it.
* `Laid` are the lines of a dictionary, and `first_match` is what comes after a line of it.
* `answers_iff`: the answer is right, if and only if no line begins with the word, or the first
  that does is followed by the definition of the word.
-/

namespace SysProg.DictFile

open SysProg.Lib
open SysProg.ShmDict (Code wordSize textSize)
open SysProg.NetDict (Dictrec)

/-! ## The function -/

/-- The `static FILE * in`: what is in the file, and the lines that are still to be read. -/
structure Stream where
  bytes : List UInt8
  rest : List (List UInt8)
deriving DecidableEq

/-- `rewind(in)` -/
def Stream.rewind (s : Stream) : Stream := ⟨s.bytes, reads (· = newline) bigLine s.bytes⟩

/-- `fopen(resource,"r")` -/
def fopen (file : List UInt8) : Stream := Stream.rewind ⟨file, []⟩

/-- `memset(sought->text,'\0',TEXT)` -/
def clearText (mem : List UInt8) : List UInt8 :=
  overwrite mem wordSize (List.replicate textSize 0)

/-- `strncmp(line,sought->word,strlen(sought->word))==0` -/
def matchesWord (mem line : List UInt8) : Bool :=
  (cstring line).take (strlen mem 0) = (cstring mem).take (strlen mem 0)

/-- `strncat(sought->text,line,strlen(line))` -/
def appendText (mem line : List UInt8) : List UInt8 :=
  overwrite mem (wordSize + strlen mem wordSize) (cstring line ++ [0])

/-- The loop that copies the definition: what is in memory then, and the lines that are left. -/
def copyText (mem : List UInt8) : List (List UInt8) → List UInt8 × List (List UInt8)
  | [] => (mem, [])
  | line :: lines =>
      if line.head? = some 0 ∨ line.head? = some newline then (mem, lines)
      else copyText (appendText mem line) lines

/-- `sought->text[strlen(sought->text)-1]='\0'` -/
def trimText (mem : List UInt8) : List UInt8 :=
  overwrite mem (wordSize + strlen mem wordSize - 1) [0]

/-- The loop over the lines; at the end of the file it is left by `feof`, before or after
`fgets`. -/
def search (mem : List UInt8) : List (List UInt8) → Code × List UInt8 × List (List UInt8)
  | [] => (.NOTFOUND, mem, [])
  | line :: lines =>
      if matchesWord mem line then
        let (mem, rest) := copyText mem lines
        (.FOUND, trimText mem, rest)
      else search mem lines

/-- `lookup(sought, resource)` of `lookup1.c`, on the memory from `*sought` on; `in_` is the
stream, which the first call opens. -/
def lookup (file : List UInt8) (in_ : Option Stream) (mem : List UInt8) :
    Code × List UInt8 × Stream :=
  let s := (in_.getD (fopen file)).rewind
  let (code, mem, rest) := search (clearText mem) s.rest
  (code, mem, ⟨s.bytes, rest⟩)

/-- The stream after some calls. -/
def after (file : List UInt8) (earlier : List (List UInt8)) : Option Stream :=
  earlier.foldl (fun in_ mem ↦ some (lookup file in_ mem).2.2) none

variable {behind mem file line w t word : List UInt8} {ls rest : List (List UInt8)}

/-- It is a stream of the file. -/
theorem bytes_of_after {earlier : List (List UInt8)} {s : Stream}
    (h : after file earlier = some s) : s.bytes = file := by
  induction earlier using List.reverseRecOn generalizing s with
  | nil => cases h
  | append_singleton earlier mem ih =>
      rw [after, List.foldl_append, List.foldl_cons, List.foldl_nil] at h
      obtain rfl := Option.some.inj h
      change ((after file earlier).getD (fopen file)).bytes = file
      cases hs : after file earlier with
      | none => rfl
      | some s => exact ih hs

/-- **Earlier queries have no effect.** -/
theorem lookup_after (file : List UInt8) (earlier : List (List UInt8)) (mem : List UInt8) :
    lookup file (after file earlier) mem = lookup file none mem := by
  cases hs : after file earlier with
  | none => rfl
  | some s =>
      have hbytes := bytes_of_after hs
      obtain ⟨bytes, rest⟩ := s
      obtain rfl : bytes = file := hbytes
      rfl

/-! ## What is found -/

/-- The bytes of the word. -/
theorem length_take_word (sought : Dictrec) : (sought.bytes.take wordSize).length = wordSize :=
  List.length_take_of_le (by rw [sought.length_eq]; exact Nat.le_add_right _ _)

/-- The memory during a call: the bytes of the word, and the text so far. -/
theorem clearText_append {a b : List UInt8} (ha : a.length = wordSize) (hb : b.length = textSize) :
    clearText (a ++ (b ++ behind)) = holding behind a [] := by
  rw [clearText, overwrite_append ha (by rw [hb, List.length_replicate]), holding,
    field_eq (k := 0) ha, List.replicate_zero, List.append_nil]
  rfl

theorem clearText_bytes (sought : Dictrec) (behind : List UInt8) :
    clearText (sought.bytes ++ behind) = holding behind (sought.bytes.take wordSize) [] := by
  have hw := length_take_word sought
  have htext : (sought.bytes.drop wordSize).length = textSize := by
    rw [List.length_drop, sought.length_eq]
    rfl
  conv_lhs => rw [← List.take_append_drop wordSize sought.bytes, List.append_assoc]
  exact clearText_append hw htext

/-- A line is appended, as long as it fits; its NUL may fall on the byte behind the text. -/
theorem appendText_holding (behind : List UInt8) (hw : w.length ≤ wordSize) (ht : 0 ∉ t)
    (hlt : t.length < textSize) (hlen : (t ++ cstring line).length ≤ textSize) :
    ∃ behind', appendText (holding behind w t) line = holding behind' w (t ++ cstring line) ∧
      ((t ++ cstring line).length = textSize → cstring behind' = []) := by
  rw [appendText, strlen_text hw ht hlt]
  rcases Nat.lt_or_eq_of_le hlen with hlt | heq
  · refine ⟨behind, overwrite_text (k := 1) hw ?_, fun h ↦ absurd h hlt.ne⟩
    rwa [List.length_append] at hlt
  · refine ⟨overwrite behind 0 [0], ?_, fun _ ↦ by cases behind <;> rfl⟩
    have hsplit : holding behind w t = (field wordSize w ++ t) ++
        (List.replicate (cstring line).length 0 ++ behind) := by
      rw [holding, field_eq ((List.length_append).symm.trans heq)]
      simp only [List.append_assoc]
    have hoff : (field wordSize w ++ t).length = wordSize + t.length := by
      rw [List.length_append, length_field hw]
    rw [hsplit, ← hoff, overwrite_append_left,
      overwrite_append_append List.length_replicate.symm, holding, field_eq (k := 0) heq]
    simp only [List.replicate_zero, List.append_nil, List.append_assoc]

/-- The lines up to a blank one are appended. -/
theorem copyText_holding (behind : List UInt8) (hw : w.length ≤ wordSize)
    (hls : ∀ l ∈ ls, l ≠ [] ∧ 0 ∉ l) (ht : 0 ∉ t)
    (hbehind : t.length = textSize → cstring behind = [])
    (hlen : (t ++ (ls.takeWhile (! isBlank ·)).flatten).length ≤ textSize) :
    ∃ behind', (copyText (holding behind w t) ls).1 =
        holding behind' w (t ++ (ls.takeWhile (! isBlank ·)).flatten) ∧
      ((t ++ (ls.takeWhile (! isBlank ·)).flatten).length = textSize → cstring behind' = []) := by
  induction ls generalizing behind t with
  | nil =>
      rw [List.takeWhile_nil, List.flatten_nil, List.append_nil]
      exact ⟨behind, rfl, hbehind⟩
  | cons line ls ih =>
      obtain ⟨⟨hne, hzero⟩, hls⟩ := List.forall_mem_cons.mp hls
      rw [copyText]
      cases hblank : isBlank line with
      | true =>
          rw [List.takeWhile_cons_of_neg (by simp [hblank]), List.flatten_nil, List.append_nil,
            if_pos (.inr (of_decide_eq_true hblank))]
          exact ⟨behind, rfl, hbehind⟩
      | false =>
          have hhead : ¬ (line.head? = some 0 ∨ line.head? = some newline) := by
            rintro (h | h)
            · exact hzero (List.mem_of_head? h)
            · exact of_decide_eq_false hblank h
          rw [List.takeWhile_cons_of_pos (by simp [hblank]), List.flatten_cons,
            ← List.append_assoc] at hlen ⊢
          have hline : cstring line = line := cstring_of_notMem hzero
          have hpos : 0 < line.length := List.length_pos_of_ne_nil hne
          have hfit : (t ++ line).length ≤ textSize := by
            rw [List.length_append] at hlen
            exact (Nat.le_add_right _ _).trans hlen
          have hlt : t.length < textSize := by
            rw [List.length_append] at hfit
            omega
          obtain ⟨behind', happend, hbehind'⟩ := appendText_holding behind hw ht hlt
            (hline.symm ▸ hfit)
          rw [hline] at happend hbehind'
          rw [if_neg hhead, happend]
          exact ih behind' hls (by simp [ht, hzero]) hbehind' hlen

/-- The last byte of the text is taken off. -/
theorem cstring_trimText (hw : w.length ≤ wordSize) (ht : 0 ∉ t) (hlen : t.length ≤ textSize)
    (hbehind : t.length = textSize → cstring behind = []) :
    cstring ((trimText (holding behind w t)).drop wordSize) = t.dropLast := by
  have hstrlen : strlen (holding behind w t) wordSize = t.length := by
    rw [strlen, drop_holding hw, cstring_field ht hlen]
    split
    · rw [List.append_nil]
    · next hge => rw [hbehind (by omega), List.append_nil]
  rw [trimText, hstrlen]
  rcases List.eq_nil_or_concat' t with rfl | ⟨t, c, rfl⟩
  · rw [overwrite_singleton, List.length_nil, Nat.add_zero, List.drop_set_of_lt (by decide),
      drop_holding hw, cstring_field_append List.not_mem_nil (by decide)]
    rfl
  · rw [List.length_append, List.length_singleton] at hlen ⊢
    have hoff : wordSize + (t.length + 1) - 1 = (field wordSize w ++ t).length := by
      rw [List.length_append, length_field hw]
      omega
    obtain ⟨k, hk⟩ := Nat.exists_eq_add_of_le hlen
    have hsplit : holding behind w (t ++ [c]) = (field wordSize w ++ t) ++
        ([c] ++ (List.replicate k 0 ++ behind)) := by
      rw [holding, field_eq (s := t ++ [c]) (k := k) (by rw [List.length_append]; exact hk.symm)]
      simp only [List.append_assoc]
    have hover : overwrite ((field wordSize w ++ t) ++ ([c] ++ (List.replicate k 0 ++ behind)))
        (field wordSize w ++ t).length [0] =
        (field wordSize w ++ t) ++ ([0] ++ (List.replicate k 0 ++ behind)) :=
      overwrite_append rfl rfl
    rw [hoff, hsplit, hover, List.append_assoc, List.drop_left' (length_field hw),
      List.dropLast_concat]
    exact cstring_append_zero (fun h ↦ ht (List.mem_append_left _ h)) _

/-- Lines that do not match are passed over. -/
theorem search_dropWhile {p : List UInt8 → Bool} (hp : ∀ l ∈ ls, matchesWord mem l = p l) :
    search mem (ls.dropWhile (! p ·)) = search mem ls := by
  induction ls with
  | nil => rfl
  | cons line ls ih =>
      obtain ⟨hline, hls⟩ := List.forall_mem_cons.mp hp
      cases hmatch : p line with
      | true => rw [List.dropWhile_cons_of_neg (by simp [hmatch])]
      | false =>
          rw [List.dropWhile_cons_of_pos (by simp [hmatch]), ih hls, search, hline, hmatch]
          exact (if_neg Bool.false_ne_true).symm

theorem search_eq_notFound {p : List UInt8 → Bool} (hp : ∀ l ∈ ls, matchesWord mem l = p l)
    (h : ls.dropWhile (! p ·) = []) : search mem ls = (.NOTFOUND, mem, []) := by
  rw [← search_dropWhile hp, h, search]

theorem search_eq_found {p : List UInt8 → Bool} (hp : ∀ l ∈ ls, matchesWord mem l = p l)
    (h : ls.dropWhile (! p ·) = line :: rest) :
    search mem ls = (.FOUND, trimText (copyText mem rest).1, (copyText mem rest).2) := by
  have hmem : line ∈ ls := (List.dropWhile_suffix _).subset (h ▸ List.mem_cons_self)
  have hmatch : p line = true := by
    simpa [h] using List.head_dropWhile_not (! p ·) (l := ls) (by simp [h])
  rw [← search_dropWhile hp, h, search, hp line hmem, hmatch]
  exact if_pos rfl

/-- The lines that are matched are those that begin with the word. -/
theorem matchesWord_holding (hw : w.length = wordSize) (line : List UInt8) :
    matchesWord (holding behind w []) line = (cstring w).isPrefixOf (cstring line) := by
  have hmem : cstring (holding behind w []) = cstring w := by
    rw [holding, field_eq (k := 0) hw, List.replicate_zero, List.append_nil]
    exact cstring_append_cons w _
  rw [matchesWord, strlen, List.drop_zero, hmem, List.take_length, Bool.eq_iff_iff,
    decide_eq_true_iff, List.isPrefixOf_iff_prefix, List.prefix_iff_eq_take]
  exact eq_comm

/-- **The answer of `lookup`**, for a file whose lines are `ls`. -/
theorem lookup_eq (sought : Dictrec) (behind : List UInt8)
    (hreads : reads (· = newline) bigLine file = ls) (hls : ∀ l ∈ ls, l ≠ [] ∧ 0 ∉ l) :
    (ls.dropWhile (! sought.word.isPrefixOf ·) = [] →
      (lookup file none (sought.bytes ++ behind)).1 = .NOTFOUND) ∧
    ∀ line rest, ls.dropWhile (! sought.word.isPrefixOf ·) = line :: rest →
      (rest.takeWhile (! isBlank ·)).flatten.length ≤ textSize →
      (lookup file none (sought.bytes ++ behind)).1 = .FOUND ∧
        cstring ((lookup file none (sought.bytes ++ behind)).2.1.drop wordSize) =
          (rest.takeWhile (! isBlank ·)).flatten.dropLast := by
  have hw := length_take_word sought
  have hlookup : lookup file none (sought.bytes ++ behind) =
      let (code, mem, rest) := search (holding behind (sought.bytes.take wordSize) []) ls
      (code, mem, ⟨file, rest⟩) := by
    rw [← clearText_bytes, ← hreads]
    rfl
  have hmatches : ∀ l ∈ ls, matchesWord (holding behind (sought.bytes.take wordSize) []) l =
      sought.word.isPrefixOf l := by
    intro l hl
    rw [matchesWord_holding hw, cstring_of_notMem (hls l hl).2]
    rfl
  rw [hlookup]
  constructor
  · intro h
    rw [search_eq_notFound hmatches h]
  · intro line rest h hlen
    have hsuffix := List.dropWhile_suffix (! sought.word.isPrefixOf ·) (l := ls)
    rw [h] at hsuffix
    have hsub : ∀ l ∈ rest, l ≠ [] ∧ 0 ∉ l :=
      fun l hl ↦ hls l (hsuffix.subset (List.mem_cons_of_mem line hl))
    obtain ⟨behind', hcopy, hbehind⟩ := copyText_holding behind hw.le hsub
      List.not_mem_nil (fun h ↦ absurd h (by decide)) hlen
    have hzero : 0 ∉ (rest.takeWhile (! isBlank ·)).flatten := by
      intro hmem
      obtain ⟨l, hl, hmem⟩ := List.mem_flatten.mp hmem
      exact (hsub l ((List.takeWhile_prefix _).subset hl)).2 hmem
    rw [search_eq_found hmatches h, hcopy]
    exact ⟨rfl, cstring_trimText hw.le hzero hlen hbehind⟩

/-! ## Dictionaries -/

/-- A line of text, without its newline. -/
structure IsLine (l : List UInt8) : Prop where
  ne_nil : l ≠ []
  newline_notMem : newline ∉ l
  zero_notMem : 0 ∉ l
  length_lt : l.length < 511

/-- A headword of any length and its definition, in lines. -/
structure Article where
  word : List UInt8
  text : List (List UInt8)
  isLine_word : IsLine word
  isLine_text : ∀ l ∈ text, IsLine l
  text_ne_nil : text ≠ []
  length_text_le : (text.flatMap ended).length ≤ textSize

namespace Article

/-- The lines of the definition, joined. -/
def definition (a : Article) : List UInt8 := [newline].intercalate a.text

/-- They are the whole of the file when it ends without a newline. -/
def unended (a : Article) : List (List UInt8) := DictFile.unended a.text a.text_ne_nil

end Article

/-- The lines of a dictionary, as they are read: its entries are separated by blank lines. -/
inductive Laid : List Article → List (List UInt8) → Prop
  | nil : Laid [] []
  | blank {as : List Article} {ls : List (List UInt8)} (h : Laid as ls) :
      Laid as ([newline] :: ls)
  | last (a : Article) : Laid [a] (ended a.word :: a.text.map ended)
  | unended (a : Article) : Laid [a] (ended a.word :: a.unended)
  | cons (a : Article) {as : List Article} {ls : List (List UInt8)} (h : Laid as ls) :
      Laid (a :: as) (ended a.word :: (a.text.map ended ++ [newline] :: ls))

/-- The first entry with a word. -/
def entryOf (as : List Article) (word : List UInt8) : Option Article := as.find? (·.word = word)

/-- **The right answer**: the definition of the word, or `NOTFOUND`. -/
structure Answers (as : List Article) (file : List UInt8) (earlier : List (List UInt8))
    (sought : Dictrec) (behind : List UInt8) : Prop where
  code : (lookup file (after file earlier) (sought.bytes ++ behind)).1 =
    if (entryOf as sought.word).isSome then .FOUND else .NOTFOUND
  text : ∀ a ∈ entryOf as sought.word,
    cstring ((lookup file (after file earlier) (sought.bytes ++ behind)).2.1.drop wordSize) =
      a.definition

variable {a : Article} {as : List Article} {l : List UInt8} {p : List UInt8 → Bool}

theorem intercalate_concat {ls : List (List UInt8)} (hne : ls ≠ []) :
    [newline].intercalate ls ++ [newline] = ls.flatMap ended := by
  induction ls with
  | nil => exact absurd rfl hne
  | cons l ls ih =>
      by_cases hnil : ls = []
      · subst hnil
        rw [List.intercalate_singleton, List.flatMap_singleton, ended]
      · rw [List.intercalate_cons_of_ne_nil hnil, List.append_assoc, ih hnil, List.flatMap_cons,
          ended]

namespace Article

/-- The lines of the file are those of the definition, but for the last newline. -/
theorem definition_concat (a : Article) : a.definition ++ [newline] = (a.text.map ended).flatten :=
  (intercalate_concat a.text_ne_nil).trans List.flatMap_def

theorem flatten_unended (a : Article) : a.unended.flatten = a.definition := by
  refine List.append_cancel_right (?_ : _ ++ [newline] = _ ++ [newline])
  rw [unended, ← flatMap_ended_eq, definition, intercalate_concat a.text_ne_nil]

theorem definition_ne_nil (a : Article) : a.definition ≠ [] := by
  intro hnil
  have hconcat := a.definition_concat
  obtain ⟨l, ls, htext⟩ := List.exists_cons_of_ne_nil a.text_ne_nil
  have hl := (a.isLine_text l (htext ▸ List.mem_cons_self)).ne_nil
  have hpos := List.length_pos_of_ne_nil hl
  have hlength := congrArg List.length hconcat
  rw [hnil, htext, List.map_cons, List.flatten_cons, ended] at hlength
  simp only [List.length_append, List.length_nil, List.length_singleton] at hlength
  omega

end Article

/-! ### The first line that matches -/

/-- The lines of one entry, and what comes after them: what follows a match in them is the end of
the definition, and all of it if the headword matches. -/
theorem dropWhile_block {head : List UInt8} {body tail : List (List UInt8)}
    (hbody : ∀ l ∈ body, (! isBlank l) = true) (htail : tail.takeWhile (! isBlank ·) = [])
    (h : (head :: (body ++ tail)).dropWhile (! p ·) = line :: rest) :
    (rest.takeWhile (! isBlank ·) <:+ body ∧
      (p head = true → rest.takeWhile (! isBlank ·) = body)) ∨
    (p head = false ∧ tail.dropWhile (! p ·) = line :: rest) := by
  cases hhead : p head with
  | true =>
      rw [List.dropWhile_cons_of_neg (by simp [hhead])] at h
      cases h
      have htake : (body ++ tail).takeWhile (! isBlank ·) = body := by
        rw [List.takeWhile_append_of_pos hbody, htail, List.append_nil]
      rw [htake]
      exact .inl ⟨List.suffix_rfl, fun _ ↦ rfl⟩
  | false =>
      rw [List.dropWhile_cons_of_pos (by simp [hhead]), List.dropWhile_append] at h
      split at h
      · exact .inr ⟨rfl, h⟩
      · next hne =>
          have hsuffix := List.dropWhile_suffix (! p ·) (l := body)
          have hne : body.dropWhile (! p ·) ≠ [] := fun hnil ↦ hne (by rw [hnil]; rfl)
          obtain ⟨line', s, hs⟩ := List.exists_cons_of_ne_nil hne
          rw [hs] at h hsuffix
          cases h
          have hs' : s <:+ body := (List.suffix_cons line s).trans hsuffix
          have htake : (s ++ tail).takeWhile (! isBlank ·) = s := by
            rw [List.takeWhile_append_of_pos fun l hl ↦ hbody l (hs'.subset hl), htail,
              List.append_nil]
          exact .inl ⟨htake.symm ▸ hs', fun hmatch ↦ absurd hmatch Bool.false_ne_true⟩

namespace Article

theorem no_newline_text (a : Article) : ∀ l ∈ a.text, l ≠ [] ∧ newline ∉ l :=
  fun l hl ↦ ⟨(a.isLine_text l hl).ne_nil, (a.isLine_text l hl).newline_notMem⟩

theorem isBlank_text (a : Article) : ∀ l ∈ a.text.map ended, (! isBlank l) = true :=
  isBlank_map_ended a.no_newline_text

theorem isBlank_unended (a : Article) : ∀ l ∈ a.unended, (! isBlank l) = true :=
  DictFile.isBlank_unended a.no_newline_text a.text_ne_nil

end Article

theorem ended_of_notMem (hl : newline ∉ l) : Ended (· = newline) (ended l) :=
  ⟨l, newline, fun x hx ↦ decide_eq_false fun heq ↦ hl (heq ▸ hx), by decide, rfl⟩

theorem Article.ended_text (a : Article) : ∀ l ∈ a.text.map ended, Ended (· = newline) l := by
  intro l hl
  obtain ⟨l', hl', rfl⟩ := List.mem_map.mp hl
  exact ended_of_notMem (a.isLine_text l' hl').newline_notMem

theorem length_flatten_le_of_suffix {xs ys : List (List UInt8)} (h : xs <:+ ys) :
    xs.flatten.length ≤ ys.flatten.length := by
  obtain ⟨zs, rfl⟩ := h
  rw [List.flatten_append, List.length_append]
  exact Nat.le_add_left _ _

theorem isPrefixOf_ended (l : List UInt8) : l.isPrefixOf (ended l) = true :=
  List.isPrefixOf_iff_prefix.mpr (List.prefix_append l [newline])

theorem word_of_mem_entryOf (h : a ∈ entryOf as word) : a.word = word := by
  have hfound := List.find?_some (p := fun a : Article ↦ decide (a.word = word)) h
  exact of_decide_eq_true hfound

theorem entryOf_cons_of_ne (h : a.word ≠ word) : entryOf (a :: as) word = entryOf as word :=
  List.find?_cons_of_neg (by simpa using h)

theorem isPrefixOf_of_mem_entryOf (h : a ∈ entryOf as word) :
    word.isPrefixOf (ended a.word) = true :=
  word_of_mem_entryOf h ▸ isPrefixOf_ended a.word

/-- What follows the first match: lines that have their newlines, or all the definition. -/
theorem first_match (h : Laid as ls) (hne : word ≠ []) (hnewline : newline ∉ word)
    (hdrop : ls.dropWhile (! word.isPrefixOf ·) = line :: rest) :
    (rest.takeWhile (! isBlank ·)).flatten.length ≤ textSize ∧
      ((∀ l ∈ rest.takeWhile (! isBlank ·), Ended (· = newline) l) ∨
        ∀ a ∈ entryOf as word, (rest.takeWhile (! isBlank ·)).flatten = a.definition) := by
  have hblank : word.isPrefixOf [newline] = false := by
    refine Bool.eq_false_iff.mpr fun hprefix ↦ ?_
    rcases List.prefix_cons_iff.mp (List.isPrefixOf_iff_prefix.mp hprefix) with rfl | ⟨t, rfl, -⟩
    · exact hne rfl
    · exact hnewline List.mem_cons_self
  have hended : ∀ a : Article, ∀ s, s <:+ a.text.map ended →
      s.flatten.length ≤ textSize ∧ ∀ l ∈ s, Ended (· = newline) l := by
    intro a s hs
    have hle := a.length_text_le
    rw [List.flatMap_def] at hle
    exact ⟨(length_flatten_le_of_suffix hs).trans hle, fun l hl ↦ a.ended_text l (hs.subset hl)⟩
  induction h with
  | nil => cases hdrop
  | blank h ih =>
      rw [List.dropWhile_cons_of_pos (by simp [hblank])] at hdrop
      exact ih hdrop
  | last a =>
      rw [← List.append_nil (a.text.map ended)] at hdrop
      rcases dropWhile_block a.isBlank_text rfl hdrop with ⟨hsuffix, -⟩ | ⟨-, hnil⟩
      · obtain ⟨hle, hall⟩ := hended a _ hsuffix
        exact ⟨hle, .inl hall⟩
      · cases hnil
  | unended a =>
      rw [← List.append_nil a.unended] at hdrop
      rcases dropWhile_block a.isBlank_unended rfl hdrop with ⟨hsuffix, hhead⟩ | ⟨-, hnil⟩
      · have hle := length_flatten_le_of_suffix hsuffix
        have hlen := a.length_text_le
        rw [List.flatMap_def, ← a.definition_concat, List.length_append] at hlen
        rw [a.flatten_unended] at hle
        refine ⟨hle.trans ((Nat.le_add_right _ _).trans hlen), .inr fun a' ha' ↦ ?_⟩
        obtain rfl : a' = a := List.mem_singleton.mp (List.mem_of_find?_eq_some ha')
        rw [hhead (isPrefixOf_of_mem_entryOf ha'), a'.flatten_unended]
      · cases hnil
  | cons a h ih =>
      rcases dropWhile_block a.isBlank_text (List.takeWhile_cons_of_neg (by decide)) hdrop with
        ⟨hsuffix, -⟩ | ⟨hhead, htail⟩
      · obtain ⟨hle, hall⟩ := hended a _ hsuffix
        exact ⟨hle, .inl hall⟩
      · rw [List.dropWhile_cons_of_pos (by simp [hblank])] at htail
        have hword : a.word ≠ word := by
          rintro rfl
          rw [isPrefixOf_ended] at hhead
          cases hhead
        rw [entryOf_cons_of_ne hword]
        exact ih htail

/-! ### The lines of the file -/

theorem isLine_of_laid (h : Laid as ls) : ∀ l ∈ ls, l ≠ [] ∧ 0 ∉ l ∧ l.length < bigLine := by
  have hended : ∀ l, IsLine l → ended l ≠ [] ∧ 0 ∉ ended l ∧ (ended l).length < bigLine := by
    intro l hl
    refine ⟨List.concat_ne_nil _ _, zero_notMem_ended hl.zero_notMem, ?_⟩
    rw [ended, List.length_append, List.length_singleton]
    exact Nat.succ_lt_succ hl.length_lt
  have hblank : [newline] ≠ [] ∧ 0 ∉ [newline] ∧ [newline].length < bigLine := by decide
  have htext : ∀ a : Article, ∀ l ∈ a.text.map ended, l ≠ [] ∧ 0 ∉ l ∧ l.length < bigLine := by
    intro a l hl
    obtain ⟨l', hl', rfl⟩ := List.mem_map.mp hl
    exact hended l' (a.isLine_text l' hl')
  induction h with
  | nil => simp
  | blank h ih => exact List.forall_mem_cons.mpr ⟨hblank, ih⟩
  | last a => exact List.forall_mem_cons.mpr ⟨hended _ a.isLine_word, htext a⟩
  | unended a =>
      have hlast := a.isLine_text _ (List.getLast_mem a.text_ne_nil)
      refine List.forall_mem_cons.mpr ⟨hended _ a.isLine_word, ?_⟩
      refine forall_mem_unended a.text_ne_nil (htext a) ?_
      exact ⟨hlast.ne_nil, hlast.zero_notMem, hlast.length_lt.trans (by decide)⟩
  | cons a h ih =>
      refine List.forall_mem_cons.mpr ⟨hended _ a.isLine_word, ?_⟩
      exact List.forall_mem_append.mpr ⟨htext a, List.forall_mem_cons.mpr ⟨hblank, ih⟩⟩

/-- All have their newlines, but perhaps the last one. -/
theorem exists_of_laid (h : Laid as ls) : ∃ xs r, ls = xs ++ consLine r [] ∧
    (∀ l ∈ xs, Ended (· = newline) l) ∧ ∀ x ∈ r, decide (x = newline) = false := by
  have hword : ∀ a : Article, Ended (· = newline) (ended a.word) :=
    fun a ↦ ended_of_notMem a.isLine_word.newline_notMem
  have hblank : Ended (· = newline) [newline] := ended_of_notMem List.not_mem_nil
  induction h with
  | nil => exact ⟨[], [], rfl, by simp, by simp⟩
  | blank h ih =>
      obtain ⟨xs, r, rfl, hxs, hr⟩ := ih
      exact ⟨[newline] :: xs, r, rfl, List.forall_mem_cons.mpr ⟨hblank, hxs⟩, hr⟩
  | last a =>
      refine ⟨ended a.word :: a.text.map ended, [], (List.append_nil _).symm, ?_, by simp⟩
      exact List.forall_mem_cons.mpr ⟨hword a, a.ended_text⟩
  | unended a =>
      have hline := a.isLine_text _ (List.getLast_mem a.text_ne_nil)
      refine ⟨ended a.word :: a.text.dropLast.map ended, a.text.getLast a.text_ne_nil, ?_, ?_, ?_⟩
      · rw [consLine_of_ne_nil hline.ne_nil]
        rfl
      · refine List.forall_mem_cons.mpr ⟨hword a, fun l hl ↦ a.ended_text l ?_⟩
        rw [List.map_dropLast] at hl
        exact List.mem_of_mem_dropLast hl
      · exact fun x hx ↦ decide_eq_false fun heq ↦ hline.newline_notMem (heq ▸ hx)
  | cons a h ih =>
      obtain ⟨xs, r, rfl, hxs, hr⟩ := ih
      refine ⟨ended a.word :: (a.text.map ended ++ [newline] :: xs), r, by simp, ?_, hr⟩
      refine List.forall_mem_cons.mpr ⟨hword a, ?_⟩
      exact List.forall_mem_append.mpr ⟨a.ended_text, List.forall_mem_cons.mpr ⟨hblank, hxs⟩⟩

/-- The lines are what is read. -/
theorem reads_of_laid (h : Laid as ls) : reads (· = newline) bigLine ls.flatten = ls := by
  obtain ⟨xs, r, hls, hxs, hr⟩ := exists_of_laid h
  have hflatten : ls.flatten = xs.flatten ++ r := by rw [hls, flatten_append_consLine]
  have hlines : lines (· = newline) ls.flatten = ls := by
    rw [hflatten, lines_flatten_append hxs hr, hls]
  rw [reads_eq_lines (by decide) (by rw [hlines]; exact fun l hl ↦ (isLine_of_laid h l hl).2.2),
    hlines]

theorem mem_of_laid (h : Laid as ls) : ∀ a ∈ as, ended a.word ∈ ls := by
  induction h with
  | nil => simp
  | blank h ih => exact fun a ha ↦ List.mem_cons_of_mem _ (ih a ha)
  | last a | unended a => simp
  | cons a h ih =>
      refine List.forall_mem_cons.mpr ⟨List.mem_cons_self, fun a' ha' ↦ ?_⟩
      exact List.mem_cons_of_mem _ (List.mem_append_right _ (List.mem_cons_of_mem _ (ih a' ha')))

/-- A word that no line begins with is no headword. -/
theorem entryOf_eq_none (h : Laid as ls) (hdrop : ls.dropWhile (! word.isPrefixOf ·) = []) :
    entryOf as word = none := by
  refine List.find?_eq_none.mpr fun a ha heq ↦ ?_
  obtain rfl : a.word = word := of_decide_eq_true heq
  have hall := List.dropWhile_eq_nil_iff.mp hdrop _ (mem_of_laid h a ha)
  rw [isPrefixOf_ended] at hall
  cases hall

/-! ## Right answers -/

/-- Without its last byte, what has been copied is the definition, if and only if it is the lines
of the definition. -/
theorem dropLast_flatten_eq_iff {copied : List (List UInt8)}
    (h : (∀ l ∈ copied, Ended (· = newline) l) ∨ copied.flatten = a.definition) :
    copied.flatten.dropLast = a.definition ↔ copied = a.text.map ended := by
  constructor
  · intro heq
    have hne := a.definition_ne_nil
    rcases h with hended | hflatten
    · have hcopied : copied ≠ [] := by
        rintro rfl
        exact hne heq.symm
      obtain ⟨s, c, hc, hs⟩ := exists_flatten_eq hended hcopied
      obtain rfl : c = newline := of_decide_eq_true hc
      rw [hs, List.dropLast_concat] at heq
      have hlines := lines_flatten_append hended (r := []) (by simp)
      have htext := lines_flatten_append a.ended_text (r := []) (by simp)
      rw [List.append_nil, consLine_nil, List.append_nil] at hlines htext
      rw [← hlines, ← htext, hs, heq, a.definition_concat]
    · have hlength := congrArg List.length heq
      have hpos := List.length_pos_of_ne_nil hne
      rw [hflatten, List.length_dropLast] at hlength
      omega
  · intro heq
    rw [heq, ← a.definition_concat, List.dropLast_concat]

/-- A match in the file: what is answered is right, if and only if the definition follows. -/
theorem answers_iff_of_match (h : Laid as ls) (earlier : List (List UInt8)) {sought : Dictrec}
    (behind : List UInt8) (hne : sought.word ≠ []) (hnewline : newline ∉ sought.word)
    (hdrop : ls.dropWhile (! sought.word.isPrefixOf ·) = line :: rest) :
    Answers as ls.flatten earlier sought behind ↔
      ∃ a ∈ entryOf as sought.word, rest.takeWhile (! isBlank ·) = a.text.map ended := by
  obtain ⟨hlen, hcopied⟩ := first_match h hne hnewline hdrop
  obtain ⟨hcode, htext⟩ := (lookup_eq sought behind (reads_of_laid h)
    fun l hl ↦ ⟨(isLine_of_laid h l hl).1, (isLine_of_laid h l hl).2.1⟩).2 line rest hdrop hlen
  have hanswers : Answers as ls.flatten earlier sought behind ↔
      (entryOf as sought.word).isSome ∧ ∀ a ∈ entryOf as sought.word,
        (rest.takeWhile (! isBlank ·)).flatten.dropLast = a.definition := by
    rw [← htext]
    constructor
    · rintro ⟨hfound, hdefinition⟩
      rw [lookup_after] at hfound hdefinition
      refine ⟨?_, hdefinition⟩
      by_contra hnone
      rw [hcode, if_neg hnone] at hfound
      cases hfound
    · rintro ⟨hsome, hdefinition⟩
      refine ⟨?_, ?_⟩
      · rw [lookup_after, hcode, if_pos hsome]
      · rw [lookup_after]
        exact hdefinition
  rw [hanswers]
  cases hentry : entryOf as sought.word with
  | none => simp
  | some a =>
      have hiff := dropLast_flatten_eq_iff (hcopied.imp_right fun hall ↦ hall a hentry)
      simp [hiff]

/-- **`lookup` answers right**, if and only if no line begins with the word, or the first one that
does is followed by the definition of the word. -/
theorem answers_iff (h : Laid as ls) (earlier : List (List UInt8)) (sought : Dictrec)
    (behind : List UInt8) (hne : sought.word ≠ []) (hnewline : newline ∉ sought.word) :
    Answers as ls.flatten earlier sought behind ↔
      ∀ line rest, ls.dropWhile (! sought.word.isPrefixOf ·) = line :: rest →
        ∃ a ∈ entryOf as sought.word, rest.takeWhile (! isBlank ·) = a.text.map ended := by
  cases hdrop : ls.dropWhile (! sought.word.isPrefixOf ·) with
  | nil =>
      refine iff_of_true ?_ fun line rest hcons ↦ absurd hcons.symm (List.cons_ne_nil line rest)
      have hentry := entryOf_eq_none h hdrop
      have hcode := (lookup_eq sought behind (reads_of_laid h)
        fun l hl ↦ ⟨(isLine_of_laid h l hl).1, (isLine_of_laid h l hl).2.1⟩).1 hdrop
      refine ⟨?_, fun a ha ↦ ?_⟩
      · rw [lookup_after, hcode, hentry]
        rfl
      · rw [hentry] at ha
        cases ha
  | cons line rest =>
      rw [answers_iff_of_match h earlier behind hne hnewline hdrop]
      constructor
      · intro hfollows line' rest' heq
        cases heq
        exact hfollows
      · intro hall
        exact hall line rest rfl

/-! ### Two words -/

theorem isLine_rebel : IsLine [114, 101, 98, 101, 108] :=
  ⟨by decide, by decide, by decide, by decide⟩

theorem isLine_x : ∀ l ∈ [[120]], IsLine l :=
  List.forall_mem_singleton.mpr ⟨by decide, by decide, by decide, by decide⟩

theorem text_x_ne_nil : [[(120 : UInt8)]] ≠ [] := List.cons_ne_nil _ _

theorem length_x_le : ([[120]].flatMap ended).length ≤ textSize := by decide

/-- `rebel`, and `x` for its definition. -/
def rebel : Article where
  word := [114, 101, 98, 101, 108]
  text := [[120]]
  isLine_word := isLine_rebel
  isLine_text := isLine_x
  text_ne_nil := text_x_ne_nil
  length_text_le := length_x_le

theorem length_rebel_lt : [(114 : UInt8), 101, 98, 101, 108].length < wordSize := by decide

theorem length_re_lt : [(114 : UInt8), 101].length < wordSize := by decide

/-- A record with `rebel` for its word. -/
def soughtRebel : Dictrec :=
  Dictrec.blank.setWord ⟨[114, 101, 98, 101, 108], by decide, length_rebel_lt⟩

/-- A record with `re` for its word. -/
def soughtRe : Dictrec := Dictrec.blank.setWord ⟨[114, 101], by decide, length_re_lt⟩

theorem word_soughtRebel : soughtRebel.word = [114, 101, 98, 101, 108] := Dictrec.word_setWord _ _

theorem word_soughtRe : soughtRe.word = [114, 101] := Dictrec.word_setWord _ _

/-- `rebel` is looked up. -/
theorem answers_rebel :
    Answers [rebel] (ended rebel.word :: rebel.text.map ended).flatten [] soughtRebel [] ↔
      ∀ line rest, (ended rebel.word :: rebel.text.map ended).dropWhile
        (! soughtRebel.word.isPrefixOf ·) = line :: rest →
        ∃ a ∈ entryOf [rebel] soughtRebel.word,
          rest.takeWhile (! isBlank ·) = a.text.map ended :=
  answers_iff (.last rebel) [] soughtRebel [] (by rw [word_soughtRebel]; decide)
    (by rw [word_soughtRebel]; decide)

/-- `re` is no headword, and is found. -/
theorem not_answers_re : ¬ ∀ (as : List Article) (ls : List (List UInt8)), Laid as ls →
    ∀ (earlier : List (List UInt8)) (sought : Dictrec) (behind : List UInt8),
      sought.word ≠ [] → newline ∉ sought.word → Answers as ls.flatten earlier sought behind := by
  intro h
  have hne : soughtRe.word ≠ [] := by rw [word_soughtRe]; decide
  have hnewline : newline ∉ soughtRe.word := by rw [word_soughtRe]; decide
  have hanswers := h [rebel] _ (.last rebel) [] soughtRe [] hne hnewline
  have hdrop : (ended rebel.word :: rebel.text.map ended).dropWhile
      (! soughtRe.word.isPrefixOf ·) = ended rebel.word :: rebel.text.map ended := by
    rw [word_soughtRe]
    decide
  obtain ⟨a, ha, -⟩ :=
    (answers_iff_of_match (.last rebel) [] [] hne hnewline hdrop).mp hanswers
  obtain rfl : a = rebel := List.mem_singleton.mp (List.mem_of_find?_eq_some ha)
  have hword := (word_of_mem_entryOf ha).trans word_soughtRe
  exact absurd hword (by decide)

end SysProg.DictFile
