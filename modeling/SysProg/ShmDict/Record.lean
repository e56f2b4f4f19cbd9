import Mathlib.Data.List.Nodup
import SysProg.Lib.BSearch
import SysProg.Lib.CStr

/-!
# Dictionary records and the local lookup

The `Dictrec` of `SP_HW12/dict.h` and the `lookup` of `SP_HW12/lookup5.c`, which
binary-searches the mapped dictionary file.  The words and texts that reach this
`lookup` are NUL-terminated strings within their fields, so the fields are
`CStr`s.

`Dictionary` carries what `bsearch` requires of the file, that the records are in
strictly increasing `strcmp` order of their words.  On a dictionary `lookup5`
returns `FOUND` with the word's own text, or `NOTFOUND` for a word without record
(`lookup5_notfound`).
-/

namespace SysProg.ShmDict

open SysProg.Lib

/-- The size of a word field (`WORD`). -/
def wordSize : Nat := 32

/-- The size of a text field (`TEXT`). -/
def textSize : Nat := 480

abbrev Word := CStr wordSize
abbrev Text := CStr textSize

/-- The return codes of `lookup`. -/
inductive Code where
  | FOUND | NOTFOUND | UNAVAIL
deriving DecidableEq, Repr

/-- The standard lookup structure. -/
structure Dictrec where
  word : Word
  text : Text
deriving DecidableEq

/-- The records of a dictionary file, in the order `bsearch` needs.  No more are meant than an
`int` can count. -/
structure Dictionary where
  table : List Dictrec
  sorted : table.Pairwise fun r r' ↦ strcmp r.word r'.word = .lt

/-- Compare a word with the word part of a `Dictrec`. -/
def dictCmp (word : Word) (r : Dictrec) : Ordering := strcmp word r.word

/-- `lookup(sought, resource)` of `lookup5.c`, with `resource` already mapped. -/
def lookup5 (table : List Dictrec) (sought : Dictrec) : Code × Dictrec :=
  match bsearch (dictCmp sought.word) table with
  | some found => (.FOUND, { sought with text := found.text })
  | none => (.NOTFOUND, sought)

theorem ordered_dictCmp (D : Dictionary) (word : Word) : Ordered (dictCmp word) D.table := by
  refine D.sorted.imp fun {a b} hab ↦ ⟨fun h ↦ ?_, fun h ↦ ?_⟩
  · exact strcmp_lt_trans h hab
  · exact strcmp_gt_iff_lt.mpr (strcmp_lt_trans hab (strcmp_gt_iff_lt.mp h))

/-- No two records have the same word. -/
theorem Dictionary.eq_of_word_eq (D : Dictionary) {r r' : Dictrec} (hr : r ∈ D.table)
    (hr' : r' ∈ D.table) (h : r.word = r'.word) : r = r' := by
  have hnodup : (D.table.map Dictrec.word).Nodup := by
    refine List.Pairwise.map _ (fun a b hab heq ↦ ?_) D.sorted
    rw [strcmp_eq_iff.mpr heq] at hab
    cases hab
  exact List.inj_on_of_nodup_map hnodup hr hr' h

variable {D : Dictionary} {sought found : Dictrec}

theorem lookup5_word (table : List Dictrec) (sought : Dictrec) :
    (lookup5 table sought).2.word = sought.word := by
  unfold lookup5
  split <;> rfl

theorem lookup5_ne_unavail (table : List Dictrec) (sought : Dictrec) :
    (lookup5 table sought).1 ≠ .UNAVAIL := by
  unfold lookup5
  split <;> simp

/-- A word that is not found has no record, and `sought` is left alone. -/
theorem lookup5_notfound (h : lookup5 D.table sought = (.NOTFOUND, found)) :
    found = sought ∧ ∀ r ∈ D.table, r.word ≠ sought.word := by
  unfold lookup5 at h
  split at h
  · cases h
  · next hnone =>
      cases h
      refine ⟨rfl, fun r hr heq ↦ ?_⟩
      exact bsearch_eq_none (ordered_dictCmp D _) hnone r hr (strcmp_eq_iff.mpr heq.symm)

end SysProg.ShmDict
