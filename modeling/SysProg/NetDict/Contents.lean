import SysProg.Lib.Strcmp
import SysProg.NetDict.Mapping

/-!
# What a request may contain

The servers take the bytes of a request for a `Dictrec`, and hand it to `lookup5` as it is.  There
may be no NUL in its word, and `strcmp` is given no sizes; but the words of the table have their
NULs, and at that of the table's word the comparison ends at the latest.

* `Raw.lookup` works on the memory from `*sought` and from `table` on, and `Raw.accesses` are the
  bytes that it and the server use.
* `Raw.lookup_eq`: it does what `lookupMapped` does to the record, and nothing to what is behind.
* `contained`: everything is in its field, and only words that end in theirs are found, unless
  `numrec` is negative.
* `not_contained_many`: for 2^31 records it is, and the first comparison is far away.
-/

namespace SysProg.NetDict

open SysProg.Lib
open SysProg.ShmDict (Code wordSize textSize notFoundText)

namespace Raw

/-! ## The function -/

/-- `table[i]`, and what is behind it. -/
def entry (table : List UInt8) (i : Nat) : List UInt8 := table.drop (Dictrec.size * i)

/-- `dict_cmp(sought->word, &table[i])`: the sign, and how many bytes it reads of each word. -/
def dict_cmp (sought table : List UInt8) (i : Nat) : Ordering × Nat :=
  strcmpFrom sought (entry table i)

/-- The string in `table[i].text`. -/
def textOf (table : List UInt8) (i : Nat) : List UInt8 := cstring ((entry table i).drop wordSize)

/-- `numrec` for a file, as `bsearch` takes it. -/
def numrec (file : List UInt8) : Nat :=
  size_t (((file.length / Dictrec.size : Nat) : Int).bmod (2 ^ 32))

/-- The index of what `bsearch` finds in `numrec` records. -/
def find (sought table : List UInt8) (numrec : Nat) : Option Nat :=
  bsearch (fun i ↦ (dict_cmp sought table i).1) (List.range numrec)

/-- `lookup(sought, resource)` of `lookup5.c`, with the file already mapped. -/
def lookup (sought table : List UInt8) (numrec : Nat) : Code × List UInt8 :=
  match find sought table numrec with
  | some i => (.FOUND, overwrite sought wordSize (textOf table i ++ [0]))
  | none => (.NOTFOUND, sought)

/-- The bytes that are used at a time. -/
inductive Access where
  /-- So many of `sought->word`, and of `table[i].word`. -/
  | strcmp (i count : Nat)
  /-- So many of `table[i].text`, for `sought->text`. -/
  | strcpy (i count : Nat)
  /-- So many of `tryit.text`, for `"XXXX"`. -/
  | notFound (count : Nat)
deriving DecidableEq

/-- They are in the fields of the request, and of one of so many records. -/
def Access.InFields (count : Nat) : Access → Prop
  | .strcmp i n => i < count ∧ n ≤ wordSize
  | .strcpy i n => i < count ∧ n ≤ textSize
  | .notFound n => n ≤ textSize

/-- What `lookup` uses, and the `switch` of the server behind it. -/
def accesses (sought table : List UInt8) (numrec : Nat) : List Access :=
  (probes (fun i ↦ (dict_cmp sought table i).1) (List.range numrec)).map
      (fun i ↦ .strcmp i (dict_cmp sought table i).2) ++
    match find sought table numrec with
    | some i => [.strcpy i ((textOf table i).length + 1)]
    | none => [.notFound (notFoundText.bytes.length + 1)]

variable {rs : List Dictrec} {file behind s trailing : List UInt8} {r request : Dictrec} {i n : Nat}

/-! ## Fields -/

theorem zero_mem_word (h : r.word.length < wordSize) : 0 ∈ r.bytes.take wordSize := by
  refine zero_mem_of_length_cstring_lt (h.trans_eq ?_)
  rw [List.length_take, r.length_eq]
  rfl

theorem cstring_word (h : r.word.length < wordSize) (rest : List UInt8) :
    cstring (r.bytes ++ rest) = r.word :=
  cstring_drop_append (by rw [r.length_eq]; decide) h rest

theorem cstring_text (h : r.text.length < textSize) (rest : List UInt8) :
    cstring ((r.bytes ++ rest).drop wordSize) = r.text :=
  cstring_drop_append (by rw [r.length_eq]) h rest

/-- **The comparison ends in the field of the table's word**, and is one of the fields. -/
theorem strcmpFrom_word (h : r.word.length < wordSize) (request : Dictrec)
    (behind rest : List UInt8) :
    (strcmpFrom (request.bytes ++ behind) (r.bytes ++ rest)).1 = NetDict.dict_cmp request r ∧
      (strcmpFrom (request.bytes ++ behind) (r.bytes ++ rest)).2 ≤ wordSize := by
  have hcount := strcmpFrom_snd_le (request.bytes ++ behind) (r.bytes ++ rest)
  rw [cstring_word h] at hcount
  have hle := hcount.trans h
  have hfield : ∀ (r : Dictrec) (rest : List UInt8),
      (r.bytes.take wordSize).take wordSize = (r.bytes ++ rest).take wordSize := by
    intro r rest
    rw [List.take_take, Nat.min_self, List.take_append_of_le_length]
    rw [r.length_eq]
    decide
  refine ⟨?_, hle⟩
  rw [← strcmpFrom_congr hle (hfield request behind) (hfield r rest), strcmpFrom_fst]
  rfl

/-- A record of the table. -/
theorem exists_entry_eq (h : rs[i]? = some r) (s : List UInt8) :
    ∃ rest, entry (rs.flatMap Dictrec.bytes ++ s) i = r.bytes ++ rest := by
  induction rs generalizing i with
  | nil => cases h
  | cons r' rs ih =>
      cases i with
      | zero =>
          obtain rfl := Option.some.inj h
          rw [entry, Nat.mul_zero, List.drop_zero, List.flatMap_cons, List.append_assoc]
          exact ⟨_, rfl⟩
      | succ i =>
          obtain ⟨rest, hrest⟩ := ih h
          refine ⟨rest, ?_⟩
          rw [← hrest, entry, entry, Nat.mul_succ, Nat.add_comm, ← List.drop_drop,
            List.flatMap_cons, List.append_assoc, List.drop_left' r'.length_eq]

/-! ## The search -/

theorem dict_cmp_eq (hterminated : ∀ r ∈ rs, r.Terminated) (h : rs[i]? = some r) :
    (dict_cmp (request.bytes ++ behind) (rs.flatMap Dictrec.bytes ++ s) i).1 =
        NetDict.dict_cmp request r ∧
      (dict_cmp (request.bytes ++ behind) (rs.flatMap Dictrec.bytes ++ s) i).2 ≤ wordSize := by
  obtain ⟨rest, hrest⟩ := exists_entry_eq h s
  rw [dict_cmp, hrest]
  exact strcmpFrom_word (hterminated r (List.mem_of_getElem? h)).word request behind rest

theorem textOf_eq (hterminated : ∀ r ∈ rs, r.Terminated) (h : rs[i]? = some r) :
    textOf (rs.flatMap Dictrec.bytes ++ s) i = r.text := by
  obtain ⟨rest, hrest⟩ := exists_entry_eq h s
  rw [textOf, hrest]
  exact cstring_text (hterminated r (List.mem_of_getElem? h)).text rest

theorem map_range_getElem? (hn : n ≤ rs.length) :
    (List.range n).map (fun i ↦ rs[i]?.getD .blank) = rs.take n := by
  refine List.ext_getElem ?_ fun i h h' ↦ ?_
  · rw [List.length_map, List.length_range, List.length_take_of_le hn]
  · have hi : i < rs.length := (List.length_take ▸ h').trans_le (Nat.min_le_right _ _)
    rw [List.getElem_map, List.getElem_range, List.getElem_take, List.getElem?_eq_getElem hi,
      Option.getD_some]

/-- The search is that of the records. -/
theorem find_eq (hterminated : ∀ r ∈ rs, r.Terminated) (hn : n ≤ rs.length) (request : Dictrec)
    (behind s : List UInt8) : bsearch (NetDict.dict_cmp request) (rs.take n) =
      (find (request.bytes ++ behind) (rs.flatMap Dictrec.bytes ++ s) n).map
        fun i ↦ rs[i]?.getD .blank := by
  rw [← map_range_getElem? hn]
  refine bsearch_map fun i hi ↦ ?_
  have hr := List.getElem?_eq_getElem ((List.mem_range.mp hi).trans_le hn)
  rw [hr, Option.getD_some]
  exact (dict_cmp_eq hterminated hr).1.symm

/-- What is found is a record with the word of the request. -/
theorem of_find_eq_some (hterminated : ∀ r ∈ rs, r.Terminated) (hn : n ≤ rs.length)
    (h : find (request.bytes ++ behind) (rs.flatMap Dictrec.bytes ++ s) n = some i) :
    ∃ r, rs[i]? = some r ∧ request.word = r.word := by
  obtain ⟨hi, heq⟩ := bsearch_eq_some h
  have hr := List.getElem?_eq_getElem ((List.mem_range.mp hi).trans_le hn)
  refine ⟨_, hr, dict_cmp_eq_iff.mp ?_⟩
  rw [← (dict_cmp_eq hterminated hr).1]
  exact heq

theorem numrec_le (htrailing : trailing.length < Dictrec.size)
    (hmod : rs.length % 2 ^ 32 < 2 ^ 31) :
    numrec (rs.flatMap Dictrec.bytes ++ trailing) ≤ rs.length := by
  rw [numrec, length_div_size rs htrailing, size_t_bmod_of_mod hmod]
  exact Nat.mod_le _ _

theorem first_of_ne (hne : file ≠ []) :
    ∃ n, first file = some ⟨mmap file, n⟩ ∧ size_t n = numrec file :=
  ⟨_, if_neg hne, rfl⟩

/-- **`lookup` does to the record** what `lookupMapped` does, and nothing to what is behind it. -/
theorem lookup_eq (hterminated : ∀ r ∈ rs, r.Terminated)
    (hfile : file = rs.flatMap Dictrec.bytes ++ trailing) (hne : file ≠ [])
    (hn : numrec file ≤ rs.length) (request : Dictrec) (behind behindFile : List UInt8) :
    some (lookup (request.bytes ++ behind) (file ++ behindFile) (numrec file)) =
      (lookupMapped (fun cmp array nmemb ↦ bsearch cmp (array.take nmemb)) .HW11 file none
        request).map fun result ↦ (result.1, result.2.1.bytes ++ behind) := by
  obtain ⟨rest, hmmap⟩ := exists_mmap_eq rs trailing
  obtain ⟨n, hfirst, hnumrec⟩ := first_of_ne hne
  have hfind := find_eq hterminated hn request behind (trailing ++ behindFile)
  have hsearch : bsearch (NetDict.dict_cmp request) ((mmap file).take (numrec file)) =
      (find (request.bytes ++ behind) (file ++ behindFile) (numrec file)).map
        fun i ↦ rs[i]?.getD .blank := by
    rw [hfile, hmmap, ← hfile, List.take_append_of_le_length hn, hfind, hfile, List.append_assoc]
  rw [lookupMapped, Option.none_or, hfirst, Option.map_some, Option.map_some, lookup]
  simp only [Version.key, hnumrec, hsearch]
  cases h : find (request.bytes ++ behind) (file ++ behindFile) (numrec file) with
  | none => rfl
  | some i =>
      have htable : file ++ behindFile = rs.flatMap Dictrec.bytes ++ (trailing ++ behindFile) := by
        rw [hfile, List.append_assoc]
      rw [htable] at h ⊢
      obtain ⟨r, hr, -⟩ := of_find_eq_some hterminated hn h
      have hfit : wordSize + (r.text ++ [0]).length ≤ request.bytes.length := by
        rw [request.length_eq, List.length_append]
        exact Nat.add_le_add_left (hterminated r (List.mem_of_getElem? hr)).text wordSize
      simp only [Option.map_some, hr, Option.getD_some, textOf_eq hterminated hr,
        overwrite_append_of_le hfit, Dictrec.copy]

/-! ## What is used -/

/-- **Everything is in its field.** -/
theorem inFields_of_mem_accesses (hterminated : ∀ r ∈ rs, r.Terminated) (hn : n ≤ rs.length)
    {access : Access}
    (h : access ∈ accesses (request.bytes ++ behind) (rs.flatMap Dictrec.bytes ++ s) n) :
    access.InFields rs.length := by
  rw [accesses, List.mem_append] at h
  rcases h with h | h
  · obtain ⟨i, hi, rfl⟩ := List.mem_map.mp h
    have hlt := (List.mem_range.mp (mem_of_mem_probes hi)).trans_le hn
    exact ⟨hlt, (dict_cmp_eq hterminated (List.getElem?_eq_getElem hlt)).2⟩
  · split at h
    · next i hi =>
        obtain ⟨r, hr, -⟩ := of_find_eq_some hterminated hn hi
        obtain rfl := List.mem_singleton.mp h
        rw [textOf_eq hterminated hr]
        exact ⟨(List.getElem?_eq_some_iff.mp hr).1,
          (hterminated r (List.mem_of_getElem? hr)).text⟩
    · obtain rfl := List.mem_singleton.mp h
      exact notFoundText.length_lt

/-- **A word that is found** ends in its field. -/
theorem zero_mem_of_found (hterminated : ∀ r ∈ rs, r.Terminated) (hn : n ≤ rs.length)
    (h : (lookup (request.bytes ++ behind) (rs.flatMap Dictrec.bytes ++ s) n).1 = .FOUND) :
    0 ∈ request.bytes.take wordSize ∧ ∃ r ∈ rs, r.word = request.word := by
  rw [lookup] at h
  split at h
  · next i hi =>
      obtain ⟨r, hr, hword⟩ := of_find_eq_some hterminated hn hi
      have hmem := List.mem_of_getElem? hr
      have hlt : request.word.length < wordSize := hword ▸ (hterminated r hmem).word
      exact ⟨zero_mem_word hlt, r, hmem, hword.symm⟩
  · cases h

end Raw

/-! ## Requests -/

/-- **A request is contained**, whatever its bytes are: what is used of it and of the table is in
the fields, a word that is found ends in its field, and what is behind the record is as before. -/
structure Contained (rs : List Dictrec) (file behindFile : List UInt8) (request : Dictrec)
    (behind : List UInt8) : Prop where
  inFields : ∀ access ∈ Raw.accesses (request.bytes ++ behind) (file ++ behindFile)
    (Raw.numrec file), access.InFields rs.length
  found : (Raw.lookup (request.bytes ++ behind) (file ++ behindFile) (Raw.numrec file)).1 = .FOUND →
    0 ∈ request.bytes.take wordSize ∧ ∃ r ∈ rs, r.word = request.word
  record : ∃ sought' : Dictrec,
    (Raw.lookup (request.bytes ++ behind) (file ++ behindFile) (Raw.numrec file)).2 =
      sought'.bytes ++ behind

variable {rs : List Dictrec} {trailing : List UInt8}

/-- **Requests are contained** for every table, also if it is not in order, as long as `numrec` is
not negative. -/
theorem contained (hterminated : ∀ r ∈ rs, r.Terminated)
    (htrailing : trailing.length < Dictrec.size) (hmod : rs.length % 2 ^ 32 < 2 ^ 31)
    (behindFile : List UInt8) (request : Dictrec) (behind : List UInt8) :
    Contained rs (rs.flatMap Dictrec.bytes ++ trailing) behindFile request behind := by
  have hn := Raw.numrec_le htrailing hmod
  constructor
  · intro access haccess
    rw [List.append_assoc] at haccess
    exact Raw.inFields_of_mem_accesses hterminated hn haccess
  · intro hfound
    rw [List.append_assoc] at hfound
    exact Raw.zero_mem_of_found hterminated hn hfound
  · by_cases hne : rs.flatMap Dictrec.bytes ++ trailing = []
    · rw [hne]
      exact ⟨request, rfl⟩
    · obtain ⟨result, -, hresult⟩ := Option.map_eq_some_iff.mp
        (Raw.lookup_eq hterminated rfl hne hn request behind behindFile).symm
      exact ⟨result.2.1, (congrArg Prod.snd hresult).symm⟩

/-- A word without a NUL, which the word of one of three records is the beginning of, and a part
of a record behind them. -/
theorem contained_a : Contained threeRecords (threeRecords.flatMap Dictrec.bytes ++ [100, 0, 119])
    [] (Dictrec.blank.copy 0 (List.replicate wordSize 97)) [] :=
  contained terminated_threeRecords (by decide) (by decide) [] _ []

/-- Records that an `int` cannot count. -/
def tooMany : List Dictrec := List.replicate (2 ^ 31) (recordOf [97])

theorem numrec_tooMany : Raw.numrec (tooMany.flatMap Dictrec.bytes ++ []) = 2 ^ 64 - 2 ^ 31 := by
  rw [Raw.numrec, length_div_size tooMany (by decide), tooMany, List.length_replicate]
  decide

/-- The first word that is compared is 2^63 - 2^30 records away. -/
theorem not_contained_many : ¬ ∀ (rs : List Dictrec), (∀ r ∈ rs, r.Terminated) →
    ∀ trailing : List UInt8, trailing.length < Dictrec.size →
    ∀ (behindFile : List UInt8) (request : Dictrec) (behind : List UInt8),
    Contained rs (rs.flatMap Dictrec.bytes ++ trailing) behindFile request behind := by
  intro h
  have hterminated : ∀ r ∈ tooMany, r.Terminated := by
    intro r hr
    rw [List.eq_of_mem_replicate hr]
    exact terminated_recordOf (by decide) (by decide)
  have hin := (h tooMany hterminated [] (by decide) [] .blank []).inFields
  rw [numrec_tooMany] at hin
  have hprobe : 2 ^ 63 - 2 ^ 30 ∈ probes (fun i ↦ (Raw.dict_cmp (Dictrec.blank.bytes ++ [])
      (tooMany.flatMap Dictrec.bytes ++ [] ++ []) i).1) (List.range (2 ^ 64 - 2 ^ 31)) := by
    refine mem_probes_of_getElem? ?_
    rw [List.length_range]
    exact List.getElem?_range (by decide)
  have hlt := (hin _ (List.mem_append_left _ (List.mem_map_of_mem hprobe))).1
  rw [tooMany, List.length_replicate] at hlt
  exact absurd hlt (by decide)

end SysProg.NetDict
