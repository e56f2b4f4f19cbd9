import Mathlib.Algebra.GroupWithZero.Nat
import SysProg.NetDict.Framing

/-!
# The mapped dictionary

`lookup5` maps its file into memory on the first call, and searches it with `bsearch`.  The file
may end with a part of a record, and the mapping goes on to the end of its last page; `numrec`,
which is an `int`, counts the complete records.

* `lookup` is the function, with the `bsearch` of the library as a parameter; `Version` tells the
  two programs apart.
* `lookup_after`: earlier calls have no effect.
* `lookup_looked`: a word is found with its text, or there is none, and what comes behind the
  complete records is not seen.  There have to be fewer of them than an `int` can count.
* `lookupMapped_dictionary`: for so many it is the `lookup` of the servers.
* `not_looked_many`: of 2^32 records, none is found.
-/

namespace SysProg.NetDict

open SysProg.Lib
open SysProg.ShmDict (Code Dictionary wordSize textSize)

/-! ## The function -/

/-- The bytes of a page. -/
def pageSize : Nat := 4096

/-- What `mmap` gives, as an array of records: the file, and NULs to the end of the page. -/
def mmap (file : List UInt8) : List Dictrec :=
  records (file ++ List.replicate ((pageSize - file.length % pageSize) % pageSize) 0)

/-- The `static` variables after the first call. -/
structure Static where
  table : List Dictrec
  numrec : Int

/-- The first call; `mmap` fails for a file that is empty. -/
def first (file : List UInt8) : Option Static :=
  if file = [] then none
  else some ⟨mmap file, ((file.length / Dictrec.size : Nat) : Int).bmod (2 ^ 32)⟩

/-- An `int`, as the `size_t` that `bsearch` takes. -/
def size_t (n : Int) : Nat := (n % ((2 ^ 64 : Nat) : Int)).toNat

/-- `strcmp((char *)a,((Dictrec *)b)->word)` -/
def dict_cmp (a b : Dictrec) : Ordering := compare a.word b.word

/-- The two programs.  That of `SP_HW12` copies the word into a record of its own; `temp` is what
was in there. -/
inductive Version where
  | HW11
  | HW12 (temp : Dictrec)

/-- The key that is searched. -/
def Version.key : Version → Dictrec → Dictrec
  | .HW11, sought => sought
  | .HW12 temp, sought => temp.copy 0 (sought.word ++ [0])

/-- `bsearch`, of records. -/
abbrev Search : Type := (Dictrec → Ordering) → List Dictrec → Nat → Option Dictrec

/-- `lookup(sought, resource)` of `lookup5.c`; there is nothing if it exits. -/
def lookupMapped (search : Search) (v : Version) (file : List UInt8) (static : Option Static)
    (sought : Dictrec) : Option (Code × Dictrec × Static) :=
  (static.or (first file)).map fun static ↦
    match search (dict_cmp (v.key sought)) static.table (size_t static.numrec) with
    | some found => (.FOUND, sought.copy wordSize (found.text ++ [0]), static)
    | none => (.NOTFOUND, sought, static)

/-- The `static` variables after some calls. -/
def afterCalls (search : Search) (v : Version) (file : List UInt8) (earlier : List Dictrec) :
    Option Static :=
  earlier.foldl (fun static sought ↦
    (lookupMapped search v file static sought).map fun result ↦ result.2.2) none

/-- The strings of a record end in their fields. -/
structure Dictrec.Terminated (r : Dictrec) : Prop where
  word : r.word.length < wordSize
  text : r.text.length < textSize

/-- **The word has been looked up** in the records: its text is there, or nothing has changed. -/
structure Looked (rs : List Dictrec) (sought : Dictrec) (code : Code) (sought' : Dictrec) :
    Prop where
  found : ∀ r ∈ rs, r.word = sought.word →
    code = .FOUND ∧ sought'.text = r.text ∧ sought'.word = sought.word
  notFound : (∀ r ∈ rs, r.word ≠ sought.word) → code = .NOTFOUND ∧ sought' = sought

variable {search : Search} {v : Version} {file : List UInt8} {rs : List Dictrec}
  {r sought : Dictrec}

/-! ## Calls -/

theorem afterCalls_eq (search : Search) (v : Version) (file : List UInt8)
    (earlier : List Dictrec) : afterCalls search v file earlier = none ∨
      afterCalls search v file earlier = first file := by
  induction earlier using List.reverseRecOn with
  | nil => exact .inl rfl
  | append_singleton earlier sought ih =>
      have hor : (afterCalls search v file earlier).or (first file) = first file := by
        rcases ih with h | h <;> rw [h]
        · rfl
        · exact Option.or_self
      rw [afterCalls, List.foldl_append, List.foldl_cons, List.foldl_nil]
      change Option.map _ (lookupMapped search v file (afterCalls search v file earlier) sought) =
        none ∨ Option.map _ (lookupMapped search v file (afterCalls search v file earlier) sought) =
        first file
      rw [lookupMapped, hor, Option.map_map]
      cases first file with
      | none => exact .inl rfl
      | some static =>
          refine .inr (congrArg some ?_)
          simp only [Function.comp_apply]
          split <;> rfl

/-- **Earlier calls have no effect.** -/
theorem lookupMapped_after (search : Search) (v : Version) (file : List UInt8)
    (earlier : List Dictrec) (sought : Dictrec) :
    lookupMapped search v file (afterCalls search v file earlier) sought =
      lookupMapped search v file none sought := by
  rcases afterCalls_eq search v file earlier with h | h
  · rw [h]
  · rw [h, lookupMapped, lookupMapped, Option.or_self, Option.none_or]

/-! ## The records -/

theorem records_flatMap (rs : List Dictrec) (s : List UInt8) :
    records (rs.flatMap Dictrec.bytes ++ s) = rs ++ records s := by
  induction rs with
  | nil => rfl
  | cons r rs ih => rw [List.flatMap_cons, List.append_assoc, records_append, ih, List.cons_append]

theorem length_flatMap_bytes (rs : List Dictrec) :
    (rs.flatMap Dictrec.bytes).length = Dictrec.size * rs.length := by
  induction rs with
  | nil => rfl
  | cons r rs ih =>
      rw [List.flatMap_cons, List.length_append, r.length_eq, ih, List.length_cons, Nat.mul_succ,
        Nat.add_comm]

variable {trailing : List UInt8}

/-- The complete records are at the beginning of the array. -/
theorem exists_mmap_eq (rs : List Dictrec) (trailing : List UInt8) :
    ∃ rest, mmap (rs.flatMap Dictrec.bytes ++ trailing) = rs ++ rest := by
  rw [mmap, List.append_assoc, records_flatMap]
  exact ⟨_, rfl⟩

/-- An incomplete record is not counted. -/
theorem length_div_size (rs : List Dictrec) (htrailing : trailing.length < Dictrec.size) :
    (rs.flatMap Dictrec.bytes ++ trailing).length / Dictrec.size = rs.length := by
  rw [List.length_append, length_flatMap_bytes, Nat.mul_add_div (by decide),
    Nat.div_eq_of_lt htrailing, Nat.add_zero]

theorem first_eq (hpos : 0 < rs.length) (htrailing : trailing.length < Dictrec.size) :
    first (rs.flatMap Dictrec.bytes ++ trailing) =
      some ⟨mmap (rs.flatMap Dictrec.bytes ++ trailing), (rs.length : Int).bmod (2 ^ 32)⟩ := by
  have hne : rs.flatMap Dictrec.bytes ++ trailing ≠ [] := by
    intro hnil
    have hdiv := length_div_size rs htrailing
    rw [hnil, List.length_nil, Nat.zero_div] at hdiv
    exact absurd hdiv (Nat.ne_of_lt hpos)
  rw [first, if_neg hne, length_div_size rs htrailing]

/-- An `int` that is not negative. -/
theorem size_t_bmod_of_mod {n : Nat} (h : n % 2 ^ 32 < 2 ^ 31) :
    size_t ((n : Int).bmod (2 ^ 32)) = n % 2 ^ 32 := by
  have hbmod : (n : Int).bmod (2 ^ 32) = ((n % 2 ^ 32 : Nat) : Int) := by
    rw [Int.bmod_def, if_pos (by omega), Int.natCast_emod]
  rw [size_t, hbmod, Int.emod_eq_of_lt (Int.natCast_nonneg _) (by omega), Int.toNat_natCast]

/-- An `int` counts so many records. -/
theorem size_t_bmod {n : Nat} (h : n < 2 ^ 31) : size_t ((n : Int).bmod (2 ^ 32)) = n := by
  have hmod : n % 2 ^ 32 = n := Nat.mod_eq_of_lt (by omega)
  rw [size_t_bmod_of_mod (hmod.trans_lt h), hmod]

/-! ## The search -/

theorem ordered_dict_cmp (h : rs.Pairwise fun r r' ↦ compare r.word r'.word = .lt)
    (key : Dictrec) : Ordered (dict_cmp key) rs := by
  unfold dict_cmp
  refine h.imp fun {a b} hab ↦ ⟨fun hlt ↦ ?_, fun hgt ↦ ?_⟩
  · exact Std.TransCmp.lt_trans hlt hab
  · exact Std.OrientedCmp.gt_iff_lt.mpr
      (Std.TransCmp.lt_trans hab (Std.OrientedCmp.gt_iff_lt.mp hgt))

/-- No two records have the same word. -/
theorem eq_of_word_eq (h : rs.Pairwise fun r r' ↦ compare r.word r'.word = .lt) {r r' : Dictrec}
    (hr : r ∈ rs) (hr' : r' ∈ rs) (hword : r.word = r'.word) : r = r' := by
  have hnodup : (rs.map Dictrec.word).Nodup := by
    refine List.Pairwise.map _ (fun a b hab heq ↦ ?_) h
    rw [Std.compare_eq_iff_eq.mpr heq] at hab
    cases hab
  exact List.inj_on_of_nodup_map hnodup hr hr' hword

theorem dict_cmp_eq_iff {a b : Dictrec} : dict_cmp a b = .eq ↔ a.word = b.word :=
  Std.compare_eq_iff_eq

/-- The key has the word that is looked up. -/
theorem word_key (v : Version) (h : sought.word.length < wordSize) :
    (v.key sought).word = sought.word := by
  cases v with
  | HW11 => rfl
  | HW12 temp =>
      exact str_overwrite (zero_notMem_cstring _) h (by rw [temp.length_eq]; decide)

/-- `strcpy` of the text. -/
theorem copy_text (hr : r.text.length < textSize) (sought : Dictrec) :
    (sought.copy wordSize (r.text ++ [0])).text = r.text ∧
      (sought.copy wordSize (r.text ++ [0])).word = sought.word :=
  ⟨str_overwrite (zero_notMem_cstring _) hr (by rw [sought.length_eq]),
    str_overwrite_of_le (by decide) (by rw [sought.length_eq]; decide)⟩

/-- **`lookup` finds the words**, and only them: for fewer than 2^31 records in order, whatever
the file ends with, and whatever has been looked up before. -/
theorem lookup_looked (hsearch : MeetsStandard search) (v : Version)
    (hsorted : rs.Pairwise fun r r' ↦ compare r.word r'.word = .lt)
    (hterminated : ∀ r ∈ rs, r.Terminated) (hpos : 0 < rs.length) (hlen : rs.length < 2 ^ 31)
    (htrailing : trailing.length < Dictrec.size) (earlier : List Dictrec)
    (hsought : sought.word.length < wordSize) :
    ∃ code sought' static, lookupMapped search v (rs.flatMap Dictrec.bytes ++ trailing)
        (afterCalls search v (rs.flatMap Dictrec.bytes ++ trailing) earlier) sought =
          some (code, sought', static) ∧
      Looked rs sought code sought' := by
  obtain ⟨rest, hmmap⟩ := exists_mmap_eq rs trailing
  have htake : (rs ++ rest).take rs.length = rs := List.take_left
  have hle : rs.length ≤ (rs ++ rest).length := by
    rw [List.length_append]
    exact Nat.le_add_right _ _
  have hordered : Ordered (dict_cmp (v.key sought)) ((rs ++ rest).take rs.length) :=
    htake.symm ▸ ordered_dict_cmp hsorted _
  rw [lookupMapped_after, lookupMapped, Option.none_or, first_eq hpos htrailing, hmmap,
    Option.map_some, size_t_bmod hlen]
  have hcmp : ∀ r, dict_cmp (v.key sought) r = .eq ↔ r.word = sought.word := by
    intro r
    rw [dict_cmp_eq_iff, word_key v hsought]
    exact eq_comm
  cases hfound : search (dict_cmp (v.key sought)) (rs ++ rest) rs.length with
  | none =>
      have hnone := hsearch.notFound hle hordered hfound
      rw [htake] at hnone
      refine ⟨_, _, _, rfl, fun r hr hword ↦ ?_, fun _ ↦ ⟨rfl, rfl⟩⟩
      exact absurd ((hcmp r).mpr hword) (hnone r hr)
  | some p =>
      obtain ⟨hmem, heq⟩ := hsearch.found hle hordered hfound
      rw [htake] at hmem
      have hword := (hcmp p).mp heq
      obtain ⟨htext, hword'⟩ := copy_text (hterminated p hmem).text sought
      refine ⟨_, _, _, rfl, fun r hr hr' ↦ ?_, fun hnone ↦ absurd hword (hnone p hmem)⟩
      obtain rfl : r = p := eq_of_word_eq hsorted hr hmem (hr'.trans hword.symm)
      exact ⟨rfl, htext, hword'⟩

/-! ## Records of a word and a text -/

/-- A record with a word, and nothing for its text. -/
def recordOf (w : List UInt8) : Dictrec := Dictrec.blank.copy 0 (w ++ [0])

theorem word_recordOf {w : List UInt8} (hzero : 0 ∉ w) (hlen : w.length < wordSize) :
    (recordOf w).word = w := str_overwrite hzero hlen (by rw [Dictrec.blank.length_eq]; decide)

theorem text_recordOf {w : List UInt8} (hlen : w.length < wordSize) : (recordOf w).text = [] := by
  have hle : 0 + (w ++ [0]).length ≤ wordSize := by
    rw [Nat.zero_add, List.length_append, List.length_singleton]
    exact hlen
  have hblank : Dictrec.blank.text = [] := by
    rw [Dictrec.text, str, Dictrec.blank, List.drop_replicate, List.take_replicate]
    rfl
  exact (str_overwrite_of_ge hle (by rw [Dictrec.blank.length_eq]; decide)).trans hblank

theorem terminated_recordOf {w : List UInt8} (hzero : 0 ∉ w) (hlen : w.length < wordSize) :
    (recordOf w).Terminated where
  word := by rwa [word_recordOf hzero hlen]
  text := by
    rw [text_recordOf hlen]
    decide

/-- A record with a word and a text. -/
def entryOf (w t : List UInt8) : Dictrec := (recordOf w).copy wordSize (t ++ [0])

theorem word_entryOf {w : List UInt8} (hzero : 0 ∉ w) (hlen : w.length < wordSize)
    (t : List UInt8) : (entryOf w t).word = w :=
  (str_overwrite_of_le (by decide) (by rw [(recordOf w).length_eq]; decide)).trans
    (word_recordOf hzero hlen)

theorem text_entryOf {t : List UInt8} (hzero : 0 ∉ t) (hlen : t.length < textSize)
    (w : List UInt8) : (entryOf w t).text = t :=
  str_overwrite hzero hlen (by rw [(recordOf w).length_eq])

theorem terminated_entryOf {w t : List UInt8} (hword : 0 ∉ w) (hwlen : w.length < wordSize)
    (htext : 0 ∉ t) (htlen : t.length < textSize) : (entryOf w t).Terminated where
  word := by rwa [word_entryOf hword hwlen]
  text := by rwa [text_entryOf htext htlen]

/-- `a` with the text `x`, `b` with `yy`, and `c` with `z`. -/
def threeRecords : List Dictrec :=
  [entryOf [97] [120], entryOf [98] [121, 121], entryOf [99] [122]]

theorem pairwise_threeRecords :
    threeRecords.Pairwise fun r r' ↦ compare r.word r'.word = .lt := by
  have hwords : (threeRecords.map Dictrec.word).Pairwise fun w w' ↦ compare w w' = .lt := by
    rw [threeRecords, List.map_cons, List.map_cons, List.map_singleton,
      word_entryOf (by decide) (by decide), word_entryOf (by decide) (by decide),
      word_entryOf (by decide) (by decide)]
    decide
  exact List.pairwise_map.mp hwords

theorem terminated_threeRecords : ∀ r ∈ threeRecords, r.Terminated := by
  simp only [threeRecords, List.forall_mem_cons]
  exact ⟨terminated_entryOf (by decide) (by decide) (by decide) (by decide),
    terminated_entryOf (by decide) (by decide) (by decide) (by decide),
    terminated_entryOf (by decide) (by decide) (by decide) (by decide), by simp⟩

/-- `b` is looked up in three records and a part of a fourth, after `d` has been. -/
theorem lookup_looked_a : ∃ code sought' static,
    lookupMapped (fun cmp array nmemb ↦ bsearch cmp (array.take nmemb)) (.HW12 Dictrec.blank)
        (threeRecords.flatMap Dictrec.bytes ++ [100, 0, 119])
        (afterCalls (fun cmp array nmemb ↦ bsearch cmp (array.take nmemb)) (.HW12 Dictrec.blank)
          (threeRecords.flatMap Dictrec.bytes ++ [100, 0, 119]) [recordOf [100]])
        (recordOf [98]) =
      some (code, sought', static) ∧ Looked threeRecords (recordOf [98]) code sought' :=
  lookup_looked meetsStandard_bsearch (.HW12 Dictrec.blank) pairwise_threeRecords
    terminated_threeRecords (by decide) (by decide) (by decide) [recordOf [100]]
    (terminated_recordOf (by decide) (by decide)).word

/-! ## A dictionary in a file -/

/-- The record of the file for one of the dictionary. -/
def fileRecord (r : ShmDict.Dictrec) : Dictrec := entryOf r.word.bytes r.text.bytes

theorem dict_cmp_fileRecord (v : Version) (hsought : sought.word.length < wordSize)
    (r : ShmDict.Dictrec) : dict_cmp (v.key sought) (fileRecord r) = dictCmp sought r := by
  rw [dict_cmp, word_key v hsought, fileRecord, word_entryOf r.word.zero_notMem r.word.length_lt]
  rfl

/-- **`lookup` on a dictionary** is the function on the file with its records, when an `int` can
count them. -/
theorem lookupMapped_dictionary (D : Dictionary) (v : Version) (hpos : 0 < D.table.length)
    (hlen : D.table.length < 2 ^ 31) (htrailing : trailing.length < Dictrec.size)
    (hsought : sought.word.length < wordSize) :
    (lookupMapped (fun cmp array nmemb ↦ bsearch cmp (array.take nmemb)) v
        ((D.table.map fileRecord).flatMap Dictrec.bytes ++ trailing) none sought).map
      (fun result ↦ (result.1, result.2.1)) = some (lookup D sought) := by
  have hcount : (D.table.map fileRecord).length = D.table.length := List.length_map _
  obtain ⟨rest, hmmap⟩ := exists_mmap_eq (D.table.map fileRecord) trailing
  have hsearch : bsearch (dict_cmp (v.key sought))
      ((D.table.map fileRecord ++ rest).take D.table.length) =
        (bsearch (dictCmp sought) D.table).map fileRecord := by
    rw [List.take_left' hcount]
    exact bsearch_map fun r _ ↦ dict_cmp_fileRecord v hsought r
  rw [lookupMapped, Option.none_or, first_eq (hcount.symm ▸ hpos) htrailing, hmmap, hcount,
    Option.map_some, Option.map_some]
  simp only [size_t_bmod hlen, hsearch, lookup]
  cases bsearch (dictCmp sought) D.table with
  | none => rfl
  | some found =>
      simp only [Option.map_some]
      rw [fileRecord, text_entryOf found.text.zero_notMem found.text.length_lt]
      rfl

/-! ## As many records as there are numbers -/

def letters : List UInt8 := [97, 98, 99, 100, 101, 102, 103, 104, 105, 106, 107, 108, 109, 110,
  111, 112]

/-- The words of `k` of these letters, in order. -/
def wordsOf : Nat → List (List UInt8)
  | 0 => [[]]
  | k + 1 => letters.flatMap fun c ↦ (wordsOf k).map (c :: ·)

theorem length_wordsOf (k : Nat) : (wordsOf k).length = 16 ^ k := by
  induction k with
  | zero => rfl
  | succ k ih =>
      have hlength : ∀ c ∈ letters, ((wordsOf k).map (c :: ·)).length = 16 ^ k :=
        fun c _ ↦ (List.length_map _).trans ih
      rw [wordsOf, List.length_flatMap, List.map_congr_left hlength, List.map_const',
        List.sum_replicate_nat, Nat.pow_succ, Nat.mul_comm]
      rfl

theorem mem_wordsOf {k : Nat} {w : List UInt8} (h : w ∈ wordsOf k) : w.length = k ∧ 0 ∉ w := by
  induction k generalizing w with
  | zero =>
      obtain rfl := List.mem_singleton.mp h
      exact ⟨rfl, List.not_mem_nil⟩
  | succ k ih =>
      obtain ⟨c, hc, hw⟩ := List.mem_flatMap.mp h
      obtain ⟨w', hw', rfl⟩ := List.mem_map.mp hw
      obtain ⟨hlength, hzero⟩ := ih hw'
      have hne : (0 : UInt8) ≠ c := by
        rintro rfl
        exact absurd hc (by decide)
      exact ⟨congrArg (· + 1) hlength, by simp [hne, hzero]⟩

theorem pairwise_wordsOf (k : Nat) : (wordsOf k).Pairwise fun w w' ↦ compare w w' = .lt := by
  induction k with
  | zero => exact List.pairwise_singleton _ _
  | succ k ih =>
      rw [wordsOf, List.pairwise_flatMap]
      refine ⟨fun c _ ↦ ?_, ?_⟩
      · refine ih.map (c :: ·) fun w w' h ↦ ?_
        rw [List.compare_cons_cons]
        simpa using h
      · have hletters : letters.Pairwise fun c d ↦ compare c d = .lt := by decide
        refine hletters.imp fun {c d} hcd w hw w' hw' ↦ ?_
        obtain ⟨v, -, rfl⟩ := List.mem_map.mp hw
        obtain ⟨v', -, rfl⟩ := List.mem_map.mp hw'
        rw [List.compare_cons_cons, hcd]
        rfl

/-- 2^32 records. -/
def manyRecords : List Dictrec := (wordsOf 8).map recordOf

theorem length_manyRecords : manyRecords.length = 2 ^ 32 := by
  rw [manyRecords, List.length_map, length_wordsOf]
  rfl

theorem mem_manyRecords {r : Dictrec} (h : r ∈ manyRecords) : r.Terminated := by
  obtain ⟨w, hw, rfl⟩ := List.mem_map.mp h
  obtain ⟨hlength, hzero⟩ := mem_wordsOf hw
  exact terminated_recordOf hzero (by rw [hlength]; decide)

theorem pairwise_manyRecords :
    manyRecords.Pairwise fun r r' ↦ compare r.word r'.word = .lt := by
  refine List.pairwise_map.mpr ((pairwise_wordsOf 8).imp_of_mem fun {w w'} hw hw' h ↦ ?_)
  obtain ⟨hlength, hzero⟩ := mem_wordsOf hw
  obtain ⟨hlength', hzero'⟩ := mem_wordsOf hw'
  rw [word_recordOf hzero (by rw [hlength]; decide),
    word_recordOf hzero' (by rw [hlength']; decide)]
  exact h

/-- The first of them is not found: `numrec` is 0. -/
theorem not_looked_many : ¬ ∀ (search : Search), MeetsStandard search → ∀ (v : Version)
    (rs : List Dictrec), rs.Pairwise (fun r r' ↦ compare r.word r'.word = .lt) →
    (∀ r ∈ rs, r.Terminated) → 0 < rs.length → ∀ trailing : List UInt8,
    trailing.length < Dictrec.size → ∀ (earlier : List Dictrec) (sought : Dictrec),
    sought.word.length < wordSize →
    ∃ code sought' static, lookupMapped search v (rs.flatMap Dictrec.bytes ++ trailing)
        (afterCalls search v (rs.flatMap Dictrec.bytes ++ trailing) earlier) sought =
          some (code, sought', static) ∧
      Looked rs sought code sought' := by
  intro h
  have hpos : 0 < manyRecords.length := by
    rw [length_manyRecords]
    decide
  obtain ⟨r, hr⟩ := List.exists_mem_of_length_pos hpos
  obtain ⟨code, sought', static, hlookup, hlooked⟩ := h _ meetsStandard_bsearch .HW11 manyRecords
    pairwise_manyRecords (fun _ ↦ mem_manyRecords) hpos [] (by decide) [] r
    (mem_manyRecords hr).word
  have hfound := (hlooked.found r hr rfl).1
  have hnumrec : ((manyRecords.length : Nat) : Int).bmod (2 ^ 32) = 0 := by
    rw [length_manyRecords]
    decide
  rw [lookupMapped_after, lookupMapped, Option.none_or, first_eq hpos (by decide), hnumrec]
    at hlookup
  have hcode := congrArg (Option.map Prod.fst) hlookup
  rw [hfound] at hcode
  cases hcode

end SysProg.NetDict
