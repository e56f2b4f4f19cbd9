import SysProg.DictFile.Lookup

/-!
# The text of the record

`lookup1` appends the lines of a definition to `sought->text` with `strncat`, which it gives the
length of the line for its bound, and then takes the last byte off.  There is no check that a
line still has room, nor that there is a byte to take off.

* `lookupStores` are the bytes that are stored through `sought->text`; no others change
  (`lookup_frame`).
* `copied` is what is appended after a match.
* `stays_iff`: the stores are in the text, if and only if nothing matches, or what is appended is
  not empty and leaves room for a NUL.
-/

namespace SysProg.DictFile

open SysProg.Lib
open SysProg.ShmDict (wordSize textSize)
open SysProg.NetDict (Dictrec)

/-! ## Stores -/

/-- Bytes that are stored through `sought->text`; `first` is the index of the first one. -/
structure TextStore where
  first : Int
  count : Nat
deriving DecidableEq

/-- They are in the field. -/
def TextStore.InField (s : TextStore) : Prop := 0 ≤ s.first ∧ s.first + s.count ≤ textSize

/-- The byte `i` from `*sought` on is one of them. -/
def TextStore.Covers (s : TextStore) (i : Nat) : Prop :=
  wordSize + s.first ≤ i ∧ (i : Int) < wordSize + s.first + s.count

/-- `line[0]=='\0'||line[0]=='\n'` -/
def endsText (line : List UInt8) : Bool := line.head? = some 0 ∨ line.head? = some newline

/-- The stores of `copyText`, and of `trimText` behind it. -/
def copyStores (mem : List UInt8) : List (List UInt8) → List TextStore
  | [] => [⟨strlen mem wordSize - 1, 1⟩]
  | line :: lines =>
      if endsText line then [⟨strlen mem wordSize - 1, 1⟩]
      else ⟨strlen mem wordSize, (cstring line).length + 1⟩ ::
        copyStores (appendText mem line) lines

/-- The stores of `search`. -/
def searchStores (mem : List UInt8) : List (List UInt8) → List TextStore
  | [] => []
  | line :: lines => if matchesWord mem line then copyStores mem lines else searchStores mem lines

/-- The stores of `lookup`; the first is the `memset`. -/
def lookupStores (file : List UInt8) (in_ : Option Stream) (mem : List UInt8) : List TextStore :=
  ⟨0, textSize⟩ :: searchStores (clearText mem) (in_.getD (fopen file)).rewind.rest

/-- **`lookup` stays in the text**, whatever has been looked up before. -/
def Stays (file : List UInt8) (earlier : List (List UInt8)) (sought : Dictrec)
    (behind : List UInt8) : Prop :=
  ∀ s ∈ lookupStores file (after file earlier) (sought.bytes ++ behind), s.InField

/-- What is appended, if these are the lines after the one that matches. -/
def copied (ls : List (List UInt8)) : List UInt8 :=
  (ls.takeWhile (! endsText ·)).flatMap cstring

variable {mem behind file line w t : List UInt8} {ls rest : List (List UInt8)} {i : Nat}

/-! ## Nothing else is stored -/

/-- A store that does not cover a byte. -/
theorem frame_store {off : Nat} {bytes : List UInt8} {s : TextStore}
    (hoff : (off : Int) = wordSize + s.first) (hcount : bytes.length = s.count)
    (h : ¬ s.Covers i) : (overwrite mem off bytes)[i]? = mem[i]? := by
  refine getElem?_overwrite (or_iff_not_imp_left.mpr fun hi ↦ ?_)
  rw [TextStore.Covers, not_and] at h
  have hbehind := h (by omega)
  omega

theorem frame_trimText (h : ¬ (⟨strlen mem wordSize - 1, 1⟩ : TextStore).Covers i) :
    (trimText mem)[i]? = mem[i]? := by
  refine frame_store ?_ rfl h
  have hpos : 1 ≤ wordSize := by decide
  dsimp only
  omega

theorem frame_copyText (h : ∀ s ∈ copyStores mem ls, ¬ s.Covers i) :
    (trimText (copyText mem ls).1)[i]? = mem[i]? := by
  induction ls generalizing mem with
  | nil => exact frame_trimText (h _ List.mem_cons_self)
  | cons line ls ih =>
      rw [copyStores] at h
      rw [copyText]
      by_cases hend : endsText line
      · rw [if_pos hend] at h
        rw [if_pos (of_decide_eq_true hend)]
        exact frame_trimText (h _ List.mem_cons_self)
      · rw [if_neg hend] at h
        rw [if_neg (mt decide_eq_true hend)]
        obtain ⟨happend, h⟩ := List.forall_mem_cons.mp h
        rw [ih h]
        exact frame_store (by push_cast; rfl) (List.length_append) happend

theorem frame_search (h : ∀ s ∈ searchStores mem ls, ¬ s.Covers i) :
    (search mem ls).2.1[i]? = mem[i]? := by
  induction ls with
  | nil => rfl
  | cons line ls ih =>
      rw [searchStores] at h
      rw [search]
      by_cases hmatch : matchesWord mem line
      · rw [if_pos hmatch] at h ⊢
        exact frame_copyText h
      · rw [if_neg hmatch] at h ⊢
        exact ih h

/-- **Only these bytes change.** -/
theorem lookup_frame (file : List UInt8) (in_ : Option Stream) (mem : List UInt8)
    (h : ∀ s ∈ lookupStores file in_ mem, ¬ s.Covers i) :
    (lookup file in_ mem).2.1[i]? = mem[i]? := by
  obtain ⟨hclear, h⟩ := List.forall_mem_cons.mp h
  exact (frame_search h).trans (frame_store (Int.add_zero _).symm List.length_replicate hclear)

/-! ## What is appended -/

/-- The last store has a byte to take off. -/
theorem trim_inField_iff (hw : w.length ≤ wordSize) (ht : 0 ∉ t) (hlen : t.length < textSize) :
    (∀ s ∈ [(⟨strlen (holding behind w t) wordSize - 1, 1⟩ : TextStore)], s.InField) ↔ t ≠ [] := by
  rw [List.forall_mem_singleton, strlen_text hw ht hlen, TextStore.InField,
    ← List.length_pos_iff_ne_nil]
  dsimp only
  omega

/-- The stores of the loop, when `t` is in the text. -/
theorem copyStores_inField_iff (hw : w.length ≤ wordSize) (ht : 0 ∉ t)
    (hlen : t.length < textSize) (behind : List UInt8) (ls : List (List UInt8)) :
    (∀ s ∈ copyStores (holding behind w t) ls, s.InField) ↔
      t ++ copied ls ≠ [] ∧ (t ++ copied ls).length < textSize := by
  induction ls generalizing behind t with
  | nil =>
      rw [copyStores, trim_inField_iff hw ht hlen, copied, List.takeWhile_nil, List.flatMap_nil,
        List.append_nil]
      exact (and_iff_left hlen).symm
  | cons line ls ih =>
      rw [copyStores]
      cases hend : endsText line with
      | true =>
          rw [if_pos rfl, trim_inField_iff hw ht hlen, copied,
            List.takeWhile_cons_of_neg (by simp [hend]), List.flatMap_nil, List.append_nil]
          exact (and_iff_left hlen).symm
      | false =>
          have hcopied : t ++ copied (line :: ls) = t ++ cstring line ++ copied ls := by
            rw [copied, List.takeWhile_cons_of_pos (by simp [hend]), List.flatMap_cons,
              List.append_assoc]
            rfl
          rw [if_neg Bool.false_ne_true, List.forall_mem_cons, hcopied, strlen_text hw ht hlen]
          have hstore : (⟨t.length, (cstring line).length + 1⟩ : TextStore).InField ↔
              (t ++ cstring line).length < textSize := by
            rw [TextStore.InField, List.length_append]
            dsimp only
            omega
          rw [hstore]
          by_cases hfit : (t ++ cstring line).length < textSize
          · obtain ⟨behind', happend, -⟩ := appendText_holding behind hw ht hlen hfit.le
            have hzero : 0 ∉ t ++ cstring line := by simp [ht, zero_notMem_cstring]
            rw [happend, ih hzero hfit, and_iff_right hfit]
          · refine iff_of_false (fun h ↦ hfit h.1) fun h ↦ hfit ?_
            rw [List.length_append] at h
            omega

/-- The first line that matches is followed by what is copied. -/
theorem searchStores_inField_iff (mem : List UInt8) (ls : List (List UInt8)) :
    (∀ s ∈ searchStores mem ls, s.InField) ↔ ∀ line rest,
      ls.dropWhile (! matchesWord mem ·) = line :: rest → ∀ s ∈ copyStores mem rest, s.InField := by
  induction ls with
  | nil => simp [searchStores]
  | cons line ls ih =>
      rw [searchStores]
      cases hmatch : matchesWord mem line with
      | true =>
          rw [List.dropWhile_cons_of_neg (by simp [hmatch]), if_pos rfl]
          constructor
          · intro h line' rest heq
            cases heq
            exact h
          · intro h
            exact h line ls rfl
      | false =>
          rw [List.dropWhile_cons_of_pos (by simp [hmatch]), if_neg Bool.false_ne_true, ih]

/-! ## The record -/

/-- The word that is looked up is at the beginning of a line. -/
def begins (sought : Dictrec) (line : List UInt8) : Bool := sought.word.isPrefixOf (cstring line)

theorem stays_iff_reads (file : List UInt8) (earlier : List (List UInt8)) (sought : Dictrec)
    (behind : List UInt8) : Stays file earlier sought behind ↔
      ∀ line rest, (reads (· = newline) bigLine file).dropWhile (! begins sought ·) = line :: rest →
        copied rest ≠ [] ∧ (copied rest).length < textSize := by
  have hw := length_take_word sought
  have hmatches : matchesWord (holding behind (sought.bytes.take wordSize) []) = begins sought := by
    funext line
    rw [matchesWord_holding hw]
    rfl
  have hrest : ((after file earlier).getD (fopen file)).rewind.rest =
      reads (· = newline) bigLine file := by
    cases hs : after file earlier with
    | none => rfl
    | some s => exact congrArg _ (bytes_of_after hs)
  have hclear : (⟨0, textSize⟩ : TextStore).InField := ⟨le_rfl, (Int.zero_add _).le⟩
  rw [Stays, lookupStores, List.forall_mem_cons, and_iff_right hclear, clearText_bytes, hrest,
    searchStores_inField_iff, hmatches]
  refine forall₃_congr fun line rest _ ↦ ?_
  exact copyStores_inField_iff hw.le List.not_mem_nil (by decide) behind rest

/-- **`lookup` stays in the text**, if and only if no line begins with the word, or what is
appended after the first that does is not empty and leaves room for a NUL. -/
theorem stays_iff (file : List UInt8) (hlines : ∀ l ∈ lines (· = newline) file, l.length < bigLine)
    (earlier : List (List UInt8)) (sought : Dictrec) (behind : List UInt8) :
    Stays file earlier sought behind ↔
      ∀ line rest, (lines (· = newline) file).dropWhile (! begins sought ·) = line :: rest →
        copied rest ≠ [] ∧ (copied rest).length < textSize := by
  rw [← reads_eq_lines (by decide) hlines]
  exact stays_iff_reads file earlier sought behind

/-- Two entries, of which the first is `reb` with the text `x`. -/
def rebAndY : List UInt8 :=
  [114, 101, 98, newline, 120, newline, newline, 121, newline, 122, newline, newline]

/-- The word `re` finds the line `reb`, after a word that was not found. -/
theorem stays_re : Stays rebAndY [[113]] soughtRe [] := by
  refine (stays_iff rebAndY (by decide) [[113]] soughtRe []).mpr fun line rest hfound ↦ ?_
  have hdrop : (lines (· = newline) rebAndY).dropWhile (! begins soughtRe ·) =
      [114, 101, 98, newline] ::
        [[120, newline], [newline], [121, newline], [122, newline], [newline]] := by
    unfold begins
    rw [word_soughtRe]
    decide
  rw [hdrop] at hfound
  obtain ⟨-, rfl⟩ := List.cons.inj hfound
  exact ⟨by decide, by decide⟩

/-- And where its line is the last one: the byte before the text is set. -/
theorem not_stays_re : ¬ ∀ (file : List UInt8), (∀ l ∈ lines (· = newline) file,
    l.length < bigLine) → ∀ (earlier : List (List UInt8)) (sought : Dictrec) (behind : List UInt8),
      Stays file earlier sought behind := by
  intro h
  have hlines : lines (· = newline) [114, 101, newline] = [[114, 101, newline]] := by decide
  have hfit : ∀ l ∈ lines (· = newline) [114, 101, newline], l.length < bigLine := by decide
  have hstays := h [114, 101, newline] hfit [] soughtRe []
  rw [stays_iff_reads, reads_eq_lines (by decide) hfit, hlines] at hstays
  have hdrop : [[114, 101, newline]].dropWhile (! begins soughtRe ·) =
      [[114, 101, newline]] := by
    unfold begins
    rw [word_soughtRe]
    decide
  exact (hstays _ _ hdrop).1 rfl

end SysProg.DictFile
