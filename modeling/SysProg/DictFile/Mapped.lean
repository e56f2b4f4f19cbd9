import SysProg.DictFile.Convert
import SysProg.NetDict.Contents

/-!
# What `lookup5` finds in the output of `convert`

`lookup5` maps a file of fixed-length records, which is what `convert` says it makes.  But there is
no NUL in what `convert` writes (`zero_notMem_convert`), and so no word in it ends within its
field.

`lookup_convert`: whatever the dictionary is, and whichever word is looked up, it is not found.
-/

namespace SysProg.DictFile

open SysProg.Lib
open SysProg.ShmDict (Code wordSize textSize)
open SysProg.NetDict (Dictrec)
open SysProg.NetDict.Raw (entry find numrec)

variable {table sought : List UInt8} {n i : Nat}

/-- The word of a complete record without NULs goes beyond its field. -/
theorem wordSize_le_length_entry (hzero : 0 ∉ table) (hi : i < table.length / Dictrec.size)
    (behindTable : List UInt8) : wordSize ≤ (cstring (entry (table ++ behindTable) i)).length := by
  have hrecord : Dictrec.size * i + Dictrec.size ≤ table.length :=
    (Nat.mul_le_mul_left Dictrec.size hi).trans (Nat.mul_div_le _ _)
  have hle : Dictrec.size * i ≤ table.length := (Nat.le_add_right _ _).trans hrecord
  have hdrop : 0 ∉ table.drop (Dictrec.size * i) := fun h ↦ hzero (List.mem_of_mem_drop h)
  rw [entry, List.drop_append_of_le_length hle, cstring_append hdrop, List.length_append,
    List.length_drop]
  have hsize : wordSize ≤ Dictrec.size := by decide
  omega

/-- Where no record has a NUL, no word that fits is found. -/
theorem find_eq_none (hzero : 0 ∉ table) (hsought : (cstring sought).length < wordSize)
    (hn : n ≤ table.length / Dictrec.size) (behindTable : List UInt8) :
    find sought (table ++ behindTable) n = none := by
  rw [Option.eq_none_iff_forall_ne_some]
  intro i hfound
  obtain ⟨hi, heq⟩ := bsearch_eq_some hfound
  have hlt : i < table.length / Dictrec.size := (List.mem_range.mp hi).trans_le hn
  rw [NetDict.Raw.dict_cmp, strcmpFrom_fst] at heq
  have hword := wordSize_le_length_entry hzero hlt behindTable
  rw [← Std.compare_eq_iff_eq.mp heq] at hword
  exact absurd hword (Nat.not_le.mpr hsought)

/-- **In what `convert` has written nothing is found**, as long as `numrec` is not negative. -/
theorem lookup_convert (behind file behindFile : List UInt8) (request : Dictrec)
    (behindRequest : List UInt8) (hword : request.word.length < wordSize)
    (hnumrec : (convert behind file).length / Dictrec.size % 2 ^ 32 < 2 ^ 31) :
    NetDict.Raw.lookup (request.bytes ++ behindRequest) (convert behind file ++ behindFile)
        (numrec (convert behind file)) = (.NOTFOUND, request.bytes ++ behindRequest) := by
  have hn : numrec (convert behind file) ≤ (convert behind file).length / Dictrec.size := by
    rw [numrec, NetDict.size_t_bmod_of_mod hnumrec]
    exact Nat.mod_le _ _
  have hsought : (cstring (request.bytes ++ behindRequest)).length < wordSize := by
    rw [NetDict.Raw.cstring_word hword]
    exact hword
  rw [NetDict.Raw.lookup, find_eq_none (zero_notMem_convert behind file) hsought hn]

/-- A line of 470 letters. -/
def longLine : List UInt8 := List.replicate 470 120

theorem length_longLine : longLine.length = 470 := List.length_replicate

theorem notMem_longLine {c : UInt8} (hc : c ≠ 120) : c ∉ longLine :=
  fun h ↦ hc (List.eq_of_mem_replicate h)

/-- An entry with this line for its definition. -/
def longEntry (word : List UInt8) (hnewline : newline ∉ word) (hlength : word.length < wordSize) :
    Entry where
  word := word
  text := [longLine]
  newline_notMem_word := hnewline
  length_word_lt := hlength
  text_ne_nil := List.cons_ne_nil _ _
  newline_notMem_text := by simp [notMem_longLine, newline]
  not_blank := by simp [List.ne_nil_of_length_pos, length_longLine]
  length_text_lt := by simp [ended, textSize, length_longLine]

theorem fits_longEntry {word : List UInt8} (hnewline : newline ∉ word) (hzero : 0 ∉ word)
    (hlength : word.length + 1 < wordSize) :
    (longEntry word hnewline (Nat.lt_of_succ_lt hlength)).Fits where
  zero_notMem_word := hzero
  zero_notMem_text := by simp [longEntry, notMem_longLine]
  length_word := hlength
  length_text := by simp [longEntry, Entry.definition, ended, textSize, length_longLine]

theorem newline_notMem_letter {c : UInt8} (hc : newline ≠ c) : newline ∉ [c] :=
  mt List.mem_singleton.mp hc

theorem newline_ne_a : newline ≠ 97 := by decide

theorem newline_ne_b : newline ≠ 98 := by decide

theorem newline_ne_c : newline ≠ 99 := by decide

/-- The entry for a letter. -/
def letterEntry (c : UInt8) (hc : newline ≠ c) : Entry :=
  longEntry [c] (newline_notMem_letter hc) length_a_lt

/-- Entries for `a`, `b` and `c`. -/
def longEntries : List Entry :=
  [letterEntry 97 newline_ne_a, letterEntry 98 newline_ne_b, letterEntry 99 newline_ne_c]

/-- The file of these entries. -/
def longFile : List UInt8 :=
  (letterEntry 97 newline_ne_a).source ++ [newline] ++
    ((letterEntry 98 newline_ne_b).source ++ [newline] ++ (letterEntry 99 newline_ne_c).source)

/-- What is written for them is as long as two records, and some bytes. -/
theorem length_convert_longFile : (convert [] longFile).length = 1422 := by
  have hlayout : Layout longEntries longFile := .cons _ (.cons _ (.last _))
  have hletter : ∀ c (hc : newline ≠ c), 0 ≠ c → (letterEntry c hc).Fits := fun c hc hzero ↦
    fits_longEntry (newline_notMem_letter hc) (mt List.mem_singleton.mp hzero)
      (show 1 + 1 < wordSize by decide)
  have hfits : ∀ e ∈ longEntries, e.Fits := by
    simp only [longEntries, List.forall_mem_cons]
    exact ⟨hletter _ _ (by decide), hletter _ _ (by decide), hletter _ _ (by decide), by simp⟩
  rw [convert_eq hlayout hfits]
  simp [longEntries, letterEntry, longEntry, Entry.output, Entry.source, Entry.definition, ended,
    length_longLine]

/-- The word `b`, which is in the dictionary, is looked up in two records. -/
theorem lookup_convert_entryA : numrec (convert [] longFile) = 2 ∧
    NetDict.Raw.lookup ((NetDict.recordOf [98]).bytes ++ []) (convert [] longFile ++ [])
      (numrec (convert [] longFile)) =
        (.NOTFOUND, (NetDict.recordOf [98]).bytes ++ []) := by
  refine ⟨?_, lookup_convert [] longFile [] (NetDict.recordOf [98]) [] ?_ ?_⟩
  · rw [numrec, length_convert_longFile]
    decide
  · rw [NetDict.word_recordOf (by decide) (by decide)]
    decide
  · rw [length_convert_longFile]
    decide

end SysProg.DictFile
