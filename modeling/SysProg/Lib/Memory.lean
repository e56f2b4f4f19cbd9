import Mathlib.Data.List.TakeWhile

/-!
# Strings and copies in a buffer

A buffer is the list of its bytes, and nothing done here changes its length.
`overwrite mem off bytes` is the buffer after `bytes` have been copied to the offset
`off`; what would fall behind its end is dropped.  `str mem off size` is the string in
the field of `size` bytes at `off`, up to its first NUL: a field without one is read to
its end and no further.

A string copied into its field is read back (`str_overwrite`), and a copy does not
change the fields before and behind it (`str_overwrite_of_le`, `str_overwrite_of_ge`).
-/

namespace SysProg.Lib

variable {mem bytes s : List UInt8} {off off' size : Nat}

/-- What precedes the first NUL. -/
def cstring (mem : List UInt8) : List UInt8 := mem.takeWhile (· ≠ 0)

theorem cstring_append (hs : 0 ∉ s) (rest : List UInt8) :
    cstring (s ++ rest) = s ++ cstring rest := by
  refine List.takeWhile_append_of_pos fun b hb ↦ ?_
  exact decide_eq_true fun hzero ↦ hs (hzero ▸ hb)

theorem cstring_append_zero (hs : 0 ∉ s) (rest : List UInt8) :
    cstring (s ++ 0 :: rest) = s := by
  rw [cstring_append hs, cstring, List.takeWhile_cons_of_neg (by simp), List.append_nil]

/-- What comes after a NUL does not belong to the string. -/
theorem cstring_append_of_mem (hs : 0 ∈ s) (rest : List UInt8) :
    cstring (s ++ rest) = cstring s := by
  induction s with
  | nil => cases hs
  | cons c s ih =>
      by_cases hc : c = 0
      · simp [cstring, hc]
      · have hmem : 0 ∈ s := (List.mem_cons.mp hs).resolve_left (Ne.symm hc)
        have ih : cstring (s ++ rest) = cstring s := ih hmem
        simp only [cstring, List.cons_append] at ih ⊢
        rw [List.takeWhile_cons_of_pos (by simpa using hc),
          List.takeWhile_cons_of_pos (by simpa using hc), ih]

theorem cstring_of_notMem (hs : 0 ∉ s) : cstring s = s := by
  have hnil : cstring [] = [] := rfl
  have happend := cstring_append hs []
  rwa [List.append_nil, hnil, List.append_nil] at happend

/-- A NUL behind a field ends its string. -/
theorem cstring_append_cons (s rest : List UInt8) : cstring (s ++ 0 :: rest) = cstring s := by
  by_cases hs : 0 ∈ s
  · exact cstring_append_of_mem hs _
  · rw [cstring_append_zero hs, cstring_of_notMem hs]

theorem zero_notMem_cstring (mem : List UInt8) : 0 ∉ cstring mem := by
  intro hzero
  have hne := List.mem_takeWhile_imp (p := fun b : UInt8 ↦ decide (b ≠ 0)) hzero
  exact absurd hne (by decide)

theorem zero_mem_of_length_cstring_lt (h : (cstring s).length < s.length) : 0 ∈ s := by
  by_contra hzero
  rw [cstring_of_notMem hzero] at h
  exact lt_irrefl _ h

theorem length_cstring_le (mem : List UInt8) : (cstring mem).length ≤ mem.length :=
  (List.takeWhile_prefix _).length_le

theorem take_length_cstring (mem : List UInt8) : mem.take (cstring mem).length = cstring mem :=
  (List.prefix_iff_eq_take.mp (List.takeWhile_prefix _)).symm

theorem length_flatMap_cstring_le (ps : List (List UInt8)) :
    (ps.flatMap cstring).length ≤ ps.flatten.length := by
  induction ps with
  | nil => exact Nat.le_refl 0
  | cons p ps ih =>
      rw [List.flatMap_cons, List.flatten_cons, List.length_append, List.length_append]
      exact Nat.add_le_add (length_cstring_le p) ih

/-- A string that is as long as the bytes has no NUL among them. -/
theorem zero_notMem_of_length_le {p : List UInt8} (h : p.length ≤ (cstring p).length) : 0 ∉ p := by
  have heq : cstring p = p := by
    rw [← take_length_cstring p, List.take_of_length_le h]
  rw [← heq]
  exact zero_notMem_cstring p

/-- Pieces printed as strings are all there if and only if none of them has a NUL. -/
theorem flatMap_cstring_eq_iff (ps : List (List UInt8)) :
    ps.flatMap cstring = ps.flatten ↔ 0 ∉ ps.flatten := by
  induction ps with
  | nil => exact iff_of_true rfl List.not_mem_nil
  | cons p ps ih =>
      rw [List.flatMap_cons, List.flatten_cons, List.mem_append, not_or, ← ih]
      constructor
      · intro h
        have hlen := congrArg List.length h
        rw [List.length_append, List.length_append] at hlen
        -- neither side can make up for what the other one has lost
        have hrest := length_flatMap_cstring_le ps
        have hp : 0 ∉ p := zero_notMem_of_length_le (by omega)
        rw [cstring_of_notMem hp] at h
        exact ⟨hp, List.append_cancel_left h⟩
      · rintro ⟨hp, h⟩
        rw [cstring_of_notMem hp, h]

/-- If anything comes after a string, it is a NUL. -/
theorem getElem?_length_cstring {b : UInt8} (h : mem[(cstring mem).length]? = some b) : b = 0 := by
  induction mem with
  | nil => cases h
  | cons c mem ih =>
      by_cases hc : c = 0
      · subst hc
        exact (Option.some.inj h).symm
      · rw [cstring, List.takeWhile_cons_of_pos (by simpa using hc)] at h
        exact ih h

/-- The string in the field of `size` bytes at `off`. -/
def str (mem : List UInt8) (off size : Nat) : List UInt8 := cstring ((mem.drop off).take size)

/-- A string that ends in the field does not go on behind it. -/
theorem cstring_drop_append (hfit : off + size ≤ mem.length)
    (h : (str mem off size).length < size) (rest : List UInt8) :
    cstring ((mem ++ rest).drop off) = str mem off size := by
  have hsize : ((mem.drop off).take size).length = size := by
    rw [List.length_take, List.length_drop]
    omega
  have hzero : 0 ∈ (mem.drop off).take size :=
    zero_mem_of_length_cstring_lt (h.trans_eq hsize.symm)
  rw [List.drop_append_of_le_length (by omega), ← List.take_append_drop size (mem.drop off),
    List.append_assoc, cstring_append_of_mem hzero]
  rfl

/-- The buffer after `bytes` have been copied to `off`. -/
def overwrite (mem : List UInt8) (off : Nat) (bytes : List UInt8) : List UInt8 :=
  mem.take off ++ (bytes.take (mem.length - off) ++ mem.drop (off + bytes.length))

@[simp] theorem length_overwrite (mem : List UInt8) (off : Nat) (bytes : List UInt8) :
    (overwrite mem off bytes).length = mem.length := by
  simp only [overwrite, List.length_append, List.length_take, List.length_drop]
  omega

@[simp] theorem overwrite_nil (mem : List UInt8) (off : Nat) : overwrite mem off [] = mem := by
  simp [overwrite]

/-- A copy of the whole buffer leaves nothing of what was there. -/
theorem overwrite_of_length (h : bytes.length = mem.length) : overwrite mem 0 bytes = bytes := by
  simp [overwrite, ← h]

/-- And what is too long for the buffer is cut off. -/
theorem overwrite_of_length_le (h : mem.length ≤ bytes.length) :
    overwrite mem 0 bytes = bytes.take mem.length := by
  simp [overwrite, h]

/-- A field that is overwritten as a whole. -/
theorem overwrite_append {a b b' c : List UInt8} (ha : a.length = off)
    (hb : b'.length = b.length) : overwrite (a ++ (b ++ c)) off b' = a ++ (b' ++ c) := by
  subst ha
  have htake : b'.take ((a ++ (b ++ c)).length - a.length) = b' :=
    List.take_of_length_le (by simp only [List.length_append]; omega)
  rw [overwrite, htake, List.take_left, hb, ← List.drop_drop, List.drop_left, List.drop_left]

/-- A copy behind the first part of a buffer. -/
theorem overwrite_append_left (a b bytes : List UInt8) :
    overwrite (a ++ b) a.length bytes = a ++ overwrite b 0 bytes := by
  simp [overwrite]

/-- A copy that runs over the end of a part. -/
theorem overwrite_append_append {b b' c : List UInt8} (h : b'.length = b.length)
    (bytes : List UInt8) : overwrite (b ++ c) 0 (b' ++ bytes) = b' ++ overwrite c 0 bytes := by
  have htake : b'.take (b.length + c.length) = b' :=
    List.take_of_length_le (h.trans_le (Nat.le_add_right _ _))
  simp [overwrite, List.take_append, htake, h, ← List.drop_drop]

/-- A copy that stays in the first part of a buffer. -/
theorem overwrite_append_of_le {a : List UInt8} (h : off + bytes.length ≤ a.length)
    (b : List UInt8) : overwrite (a ++ b) off bytes = overwrite a off bytes ++ b := by
  have hall : ∀ m : List UInt8, a.length ≤ m.length → bytes.take (m.length - off) = bytes :=
    fun m hm ↦ List.take_of_length_le (by omega)
  have hle : a.length ≤ (a ++ b).length := by
    rw [List.length_append]
    exact Nat.le_add_right _ _
  rw [overwrite, overwrite, hall _ hle, hall _ le_rfl, List.take_append_of_le_length (by omega),
    List.drop_append_of_le_length h, List.append_assoc, List.append_assoc]

theorem overwrite_singleton (mem : List UInt8) (off : Nat) (c : UInt8) :
    overwrite mem off [c] = mem.set off c := by
  induction mem generalizing off with
  | nil => simp [overwrite]
  | cons b mem ih =>
      cases off with
      | zero => simp [overwrite]
      | succ off =>
          rw [List.set_cons_succ, ← ih off]
          simp [overwrite]

/-- The beginning of the buffer is what has been copied there. -/
theorem take_overwrite_zero {k : Nat} (h : k ≤ bytes.length) (hk : k ≤ mem.length) :
    (overwrite mem 0 bytes).take k = bytes.take k := by
  have hlen : k ≤ (bytes.take mem.length).length := by
    rw [List.length_take]
    exact le_min hk h
  simp only [overwrite, List.take_zero, List.nil_append, Nat.sub_zero, Nat.zero_add]
  rw [List.take_append_of_le_length hlen, List.take_take, Nat.min_eq_left hk]

theorem take_overwrite (hoff : off ≤ mem.length) :
    (overwrite mem off bytes).take off = mem.take off := by
  have hlen : (mem.take off).length = off := List.length_take_of_le hoff
  exact List.take_left' hlen

theorem drop_overwrite (hfit : off + bytes.length ≤ mem.length) :
    (overwrite mem off bytes).drop off = bytes ++ mem.drop (off + bytes.length) := by
  have hlen : (mem.take off).length = off := List.length_take_of_le (by omega)
  have hall : bytes.take (mem.length - off) = bytes := List.take_of_length_le (by omega)
  rw [overwrite, List.drop_left' hlen, hall]

/-- The buffer up to the end of what has been copied. -/
theorem take_overwrite_add (hfit : off + bytes.length ≤ mem.length) :
    (overwrite mem off bytes).take (off + bytes.length) = mem.take off ++ bytes := by
  rw [List.take_add, take_overwrite (by omega), drop_overwrite hfit, List.take_left]

/-- What is copied to the beginning, and what was behind it. -/
theorem overwrite_chunk (hfit : bytes.length ≤ mem.length) :
    overwrite mem 0 bytes = bytes ++ mem.drop bytes.length := by
  have hdrop := @drop_overwrite mem bytes 0 (by omega)
  rwa [List.drop_zero, Nat.zero_add] at hdrop

/-- A copy leaves the bytes before it as they are. -/
theorem getElem?_overwrite_of_lt {i : Nat} (h : i < off) (hoff : off ≤ mem.length) :
    (overwrite mem off bytes)[i]? = mem[i]? := by
  have htake := congrArg (·[i]?) (@take_overwrite mem bytes off hoff)
  simpa only [List.getElem?_take, h, if_true] using htake

/-- And so it does those behind it. -/
theorem getElem?_overwrite_of_ge {i : Nat} (h : off + bytes.length ≤ i)
    (hfit : off + bytes.length ≤ mem.length) : (overwrite mem off bytes)[i]? = mem[i]? := by
  obtain ⟨k, rfl⟩ := Nat.exists_eq_add_of_le h
  have hdrop := congrArg (·[bytes.length + k]?) (drop_overwrite hfit)
  simp only [List.getElem?_drop] at hdrop
  rw [Nat.add_assoc, hdrop, List.getElem?_append_right (Nat.le_add_right _ _),
    Nat.add_sub_cancel_left, List.getElem?_drop, Nat.add_assoc]

/-- A copy leaves all other bytes as they are, also if it runs over the end. -/
theorem getElem?_overwrite {i : Nat} (h : i < off ∨ off + bytes.length ≤ i) :
    (overwrite mem off bytes)[i]? = mem[i]? := by
  rcases Nat.lt_or_ge mem.length (off + bytes.length) with hlong | hfit
  · rcases h with h | h
    · rcases Nat.le_total off mem.length with hoff | hoff
      · exact getElem?_overwrite_of_lt h hoff
      · have hall : overwrite mem off bytes = mem := by
          rw [overwrite, List.take_of_length_le hoff, Nat.sub_eq_zero_of_le hoff, List.take_zero,
            List.drop_of_length_le (hoff.trans (Nat.le_add_right _ _)), List.append_nil,
            List.append_nil]
        rw [hall]
    · rw [List.getElem?_eq_none, List.getElem?_eq_none]
      · omega
      · rw [length_overwrite]
        omega
  · rcases h with h | h
    · exact getElem?_overwrite_of_lt h (by omega)
    · exact getElem?_overwrite_of_ge h hfit

/-- **A string is read back** from the field it has been copied into. -/
theorem str_overwrite (hs : 0 ∉ s) (hsize : s.length < size) (hfit : off + size ≤ mem.length) :
    str (overwrite mem off (s ++ [0])) off size = s := by
  have hlen : (s ++ [0]).length ≤ size := by
    rw [List.length_append, List.length_singleton]
    exact hsize
  have hle : off + (s ++ [0]).length ≤ mem.length := (Nat.add_le_add_left hlen off).trans hfit
  rw [str, drop_overwrite hle, List.take_append, List.take_of_length_le hlen, List.append_assoc]
  exact cstring_append_zero hs _

/-- A copy leaves the fields before it as they are. -/
theorem str_overwrite_of_le (h : off' + size ≤ off) (hoff : off ≤ mem.length) :
    str (overwrite mem off bytes) off' size = str mem off' size := by
  have hfield : ∀ m : List UInt8, (m.drop off').take size = ((m.take off).drop off').take size := by
    intro m
    rw [List.drop_take, List.take_take, Nat.min_eq_left (by omega)]
  rw [str, str, hfield, take_overwrite hoff, ← hfield]

/-- And so it does those behind it. -/
theorem str_overwrite_of_ge (h : off + bytes.length ≤ off') (hfit : off' ≤ mem.length) :
    str (overwrite mem off bytes) off' size = str mem off' size := by
  have hdrop : (overwrite mem off bytes).drop off' = mem.drop off' := by
    obtain ⟨k, rfl⟩ := Nat.exists_eq_add_of_le h
    have hfield := drop_overwrite (show off + bytes.length ≤ mem.length by omega)
    rw [Nat.add_assoc, ← List.drop_drop, hfield, ← List.drop_drop, List.drop_left, List.drop_drop,
      Nat.add_assoc]
  rw [str, hdrop, str]

end SysProg.Lib
