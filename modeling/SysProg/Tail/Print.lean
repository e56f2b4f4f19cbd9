import Mathlib.Data.List.DropRight
import SysProg.Lib.Lines
import SysProg.Lib.Memory

/-!
# The last lines of a file

`SP_hw2_tail` reads the beginning of its file, as much as fits into `buf`, and a NUL comes behind
it.  It then counts newlines from the end.  The newline before the last `num` lines is the one
with the number `num + 1`, if each of the lines has its own: a last line without one is not
counted, and the output begins a line too early.

* `tail` is the program, behind its options; `posix_fadvise`, which is given an `fd` that has not
  been set, and all other calls succeed.
* `tail_suffix` and `tail_few` say what is printed, by the number of newlines.
* `prints_iff`: the output is the last lines, if and only if the file is shorter than `buf` and
  ends with a newline.  A last line that reads like the message is printed by accident.
-/

namespace SysProg.Tail

open SysProg.Lib

def BUFF_SIZE : Nat := 4096

def newline : UInt8 := 10

/-- `char buf[BUFF_SIZE]` -/
abbrev Buffer : Type := { buf : List UInt8 // buf.length = BUFF_SIZE }

/-- `"num is too big"` -/
def tooBig : List UInt8 := [110, 117, 109, 32, 105, 115, 32, 116, 111, 111, 32, 98, 105, 103]

/-- The end of the program. -/
inductive Outcome where
  | exits (status : Nat) (stdout : List UInt8)
  /-- There has been a store behind the end of `buf`. -/
  | undefined
deriving DecidableEq

/-- The loop that counts backwards from the index before `i`: `coun` and `offset` behind it. -/
def scan (buf : List UInt8) (num read_size : Nat) : Nat → Nat → Nat × Nat
  | 0, coun => (coun, 0)
  | i + 1, coun =>
      let coun := if buf[i]? = some newline then coun + 1 else coun
      if coun = num + 1 then (coun, read_size - i) else scan buf num read_size i coun

/-- The program; `buf` is what happens to be in the array. -/
def tail (buf : Buffer) (num : Nat) (file : List UInt8) : Outcome :=
  let read_size := min BUFF_SIZE file.length
  if read_size < BUFF_SIZE then
    let buf := overwrite (overwrite buf 0 (file.take read_size)) read_size [0]
    let (coun, offset) := scan buf num read_size read_size 0
    let offset := if coun = num then read_size + 1 else offset
    if coun < num then .exits 1 tooBig
    else .exits 0 ((buf.drop (read_size + 1 - offset)).take (offset - 1))
  else .undefined

/-- The last `num` lines of a file. -/
def lastLines (num : Nat) (file : List UInt8) : List UInt8 :=
  ((lines (· = newline) file).rtake num).flatten

/-- Standard output is the last `num` lines. -/
def Prints (buf : Buffer) (num : Nat) (file : List UInt8) : Prop :=
  ∃ status, tail buf num file = .exits status (lastLines num file)

variable {buf : Buffer} {mem file a b : List UInt8} {num n coun r : Nat}

/-! ## Counting -/

/-- The newlines of a text. -/
def newlines (s : List UInt8) : Nat := s.countP (· = newline)

@[simp] theorem newlines_append (s t : List UInt8) :
    newlines (s ++ t) = newlines s + newlines t := List.countP_append

theorem newlines_singleton (c : UInt8) : newlines [c] = if c = newline then 1 else 0 := by
  simp [newlines]

/-- The loop finds the newline that has `num` of them behind it. -/
theorem scan_eq_of_take (hn : n ≤ mem.length) (hmem : mem.take n = a ++ newline :: b)
    (hcoun : coun + newlines b = num) : scan mem num r n coun = (num + 1, r - a.length) := by
  induction n generalizing b coun with
  | zero => exact absurd hmem.symm (by simp)
  | succ n ih =>
      have hget : mem[n]? = some mem[n] := List.getElem?_eq_getElem hn
      rw [List.take_succ_eq_append_getElem hn] at hmem
      rw [scan]
      rcases List.eq_nil_or_concat' b with rfl | ⟨b, c, rfl⟩
      · obtain ⟨ha, hc⟩ := List.append_inj' hmem rfl
        have hlen : a.length = n := by rw [← ha, List.length_take_of_le (Nat.le_of_lt hn)]
        have hc : mem[n] = newline := List.singleton_inj.mp hc
        have hcoun : coun = num := hcoun
        rw [if_pos (hget.trans (congrArg some hc)), hcoun]
        exact (if_pos rfl).trans (by rw [hlen])
      · rw [← List.cons_append, ← List.append_assoc] at hmem
        obtain ⟨ha, hc⟩ := List.append_inj' hmem rfl
        have hc : mem[n] = c := List.singleton_inj.mp hc
        rw [newlines_append, newlines_singleton, Nat.add_left_comm, Nat.add_comm] at hcoun
        have hlast : (if mem[n]? = some newline then coun + 1 else coun) + newlines b = num := by
          simp only [hget, hc, Option.some_inj]
          split_ifs at hcoun ⊢ <;> omega
        exact (if_neg (by omega)).trans (ih (Nat.le_of_lt hn) ha hlast)

/-- If there are no more than `num`, it counts them all. -/
theorem scan_eq_of_le (hn : n ≤ mem.length) (hle : coun + newlines (mem.take n) ≤ num) :
    scan mem num r n coun = (coun + newlines (mem.take n), 0) := by
  induction n generalizing coun with
  | zero => rfl
  | succ n ih =>
      have hlast : coun + newlines (mem.take (n + 1)) =
          (if mem[n]? = some newline then coun + 1 else coun) + newlines (mem.take n) := by
        rw [List.take_succ_eq_append_getElem hn, newlines_append, newlines_singleton]
        simp only [List.getElem?_eq_getElem hn, Option.some_inj]
        split <;> omega
      rw [hlast] at hle ⊢
      rw [scan]
      exact (if_neg (by omega)).trans (ih (Nat.le_of_lt hn) hle)

/-! ## What is printed -/

theorem tail_undefined (h : BUFF_SIZE ≤ file.length) : tail buf num file = .undefined := by
  rw [tail, Nat.min_eq_left h]
  exact if_neg (Nat.lt_irrefl _)

/-- A short file is in `buf` as a whole. -/
theorem exists_tail_eq (buf : Buffer) (num : Nat) (h : file.length < BUFF_SIZE) :
    ∃ mem : List UInt8, file.length ≤ mem.length ∧ mem.take file.length = file ∧
      tail buf num file =
        let (coun, offset) := scan mem num file.length file.length 0
        let offset := if coun = num then file.length + 1 else offset
        if coun < num then .exits 1 tooBig
        else .exits 0 ((mem.drop (file.length + 1 - offset)).take (offset - 1)) := by
  have hle : file.length ≤ buf.1.length := h.le.trans buf.2.ge
  refine ⟨overwrite (overwrite buf.1 0 file) file.length [0], by simpa using hle, ?_, ?_⟩
  · rw [take_overwrite (by simpa using hle), overwrite_chunk hle, List.take_left]
  · rw [tail, Nat.min_eq_right h.le, if_pos h, List.take_length]

/-- What begins a line and has `num` newlines, is printed. -/
theorem tail_suffix (buf : Buffer) (hlt : (a ++ b).length < BUFF_SIZE)
    (ha : a = [] ∨ ∃ a', a = a' ++ [newline]) (hnum : newlines b = num) :
    tail buf num (a ++ b) = .exits 0 b := by
  obtain ⟨mem, hle, hmem, htail⟩ := exists_tail_eq buf num hlt
  rcases ha with rfl | ⟨a, rfl⟩
  · rw [List.nil_append] at *
    have hscan : scan mem num b.length b.length 0 = (num, 0) := by
      have hcount : 0 + newlines (mem.take b.length) = num := by rw [hmem, hnum, Nat.zero_add]
      rw [scan_eq_of_le hle hcount.le, hcount]
    rw [htail, hscan]
    simp [hmem]
  · rw [List.append_assoc, List.singleton_append] at *
    have hscan := scan_eq_of_take (r := (a ++ newline :: b).length) hle hmem
      ((Nat.zero_add _).trans hnum)
    have hlen : (a ++ newline :: b).length = a.length + 1 + b.length := by
      rw [List.length_append, List.length_cons, Nat.add_assoc, Nat.add_comm 1]
    have hoffset : (a ++ newline :: b).length - a.length = b.length + 1 := by omega
    have hdrop : (a ++ newline :: b).length + 1 - (b.length + 1) = a.length + 1 := by omega
    have hb : (mem.drop (a.length + 1)).take b.length = b := by
      rw [List.take_drop, ← hlen, hmem, ← List.drop_drop, List.drop_left]
      rfl
    have hne : num + 1 ≠ num := Nat.succ_ne_self num
    have hge : ¬ num + 1 < num := Nat.not_succ_lt_self
    rw [htail, hscan, hoffset]
    simp only [hne, hge, if_false, hdrop, Nat.add_sub_cancel, hb]

/-- And if there are too few, nothing is. -/
theorem tail_few (buf : Buffer) (hlt : file.length < BUFF_SIZE) (hnum : newlines file < num) :
    tail buf num file = .exits 1 tooBig := by
  obtain ⟨mem, hle, hmem, htail⟩ := exists_tail_eq buf num hlt
  have hscan : scan mem num file.length file.length 0 = (newlines file, 0) := by
    have hcount : 0 + newlines (mem.take file.length) = newlines file := by rw [hmem, Nat.zero_add]
    rw [scan_eq_of_le hle (hcount.trans_le hnum.le), hcount]
  rw [htail, hscan]
  exact if_pos hnum

/-! ## The last lines -/

theorem newlines_flatten {ls : List (List UInt8)} (h : ∀ l ∈ ls, Ended (· = newline) l) :
    newlines ls.flatten = ls.length := countP_flatten_of_ended h

theorem newlines_eq_zero {s : List UInt8} (h : ∀ x ∈ s, decide (x = newline) = false) :
    newlines s = 0 := List.countP_eq_zero.mpr (by simpa using h)

/-- Lines that have their ends are followed by the beginning of a line. -/
theorem flatten_eq_nil_or {ls : List (List UInt8)} (h : ∀ l ∈ ls, Ended (· = newline) l) :
    ls.flatten = [] ∨ ∃ a, ls.flatten = a ++ [newline] := by
  by_cases hne : ls = []
  · exact .inl (congrArg List.flatten hne)
  · obtain ⟨a, c, hc, hflatten⟩ := exists_flatten_eq h hne
    exact .inr ⟨a, hflatten.trans (by rw [of_decide_eq_true hc])⟩

/-- A file is cut before its last lines. -/
theorem lastLines_append {xs ys : List (List UInt8)}
    (hlines : lines (· = newline) file = xs ++ ys) :
    file = xs.flatten ++ ys.flatten ∧ lastLines ys.length file = ys.flatten := by
  refine ⟨by rw [← List.flatten_append, ← hlines, flatten_lines], ?_⟩
  rw [lastLines, hlines, List.rtake, List.length_append, Nat.add_sub_cancel, List.drop_left]

/-- The last `num` of a list. -/
theorem exists_last {ls : List (List UInt8)} (h : num ≤ ls.length) :
    ∃ xs ys, ls = xs ++ ys ∧ ys.length = num := by
  obtain ⟨k, hk⟩ := Nat.exists_eq_add_of_le' h
  refine ⟨ls.take k, ls.drop k, (List.take_append_drop k ls).symm, ?_⟩
  rw [List.length_drop, hk, Nat.add_sub_cancel_left]

/-- All is well if each line has its newline. -/
theorem prints_of_ended (buf : Buffer) (hlt : file.length < BUFF_SIZE)
    (hnum : num ≤ (lines (· = newline) file).length)
    (hended : ∀ l ∈ lines (· = newline) file, Ended (· = newline) l) :
    Prints buf num file := by
  obtain ⟨xs, ys, hsplit, hys⟩ := exists_last hnum
  obtain ⟨hfile, hlast⟩ := lastLines_append hsplit
  rw [hsplit] at hended
  obtain ⟨hxs, hys'⟩ := List.forall_mem_append.mp hended
  refine ⟨0, ?_⟩
  rw [← hys, hlast]
  rw [hfile] at hlt ⊢
  exact tail_suffix buf hlt (flatten_eq_nil_or hxs) (newlines_flatten hys')

/-! ### An unfinished line -/

section Unfinished

variable {ls : List (List UInt8)} (hlt : file.length < BUFF_SIZE)
  (hlines : lines (· = newline) file = ls ++ [b]) (hls : ∀ l ∈ ls, Ended (· = newline) l)
  (hb : ∀ x ∈ b, decide (x = newline) = false)

include hlt hlines hls hb

/-- For the whole file there is a newline too few. -/
theorem few_of_unfinished (buf : Buffer) : tail buf (ls.length + 1) file = .exits 1 tooBig ∧
    lastLines (ls.length + 1) file = file ∧ newlines file = ls.length := by
  have hfile : file = (ls ++ [b]).flatten := by
    rw [← hlines]
    exact (flatten_lines file).symm
  have hcount : newlines file = ls.length := by
    rw [hfile, List.flatten_concat, newlines_append, newlines_flatten hls, newlines_eq_zero hb,
      Nat.add_zero]
  have hall : lines (· = newline) file = [] ++ (ls ++ [b]) := hlines
  obtain ⟨-, hlast⟩ := lastLines_append hall
  rw [List.length_append, List.length_singleton, ← hfile] at hlast
  exact ⟨tail_few buf hlt (hcount.trans_lt (Nat.lt_succ_self _)), hlast, hcount⟩

/-- Else the output begins a line too early. -/
theorem early_of_unfinished (buf : Buffer) (hpos : 1 ≤ num) (hnum : num ≤ ls.length) :
    ∃ out, tail buf num file = .exits 0 out ∧ (lastLines num file).length < out.length := by
  obtain ⟨xs, last, rfl, hlength⟩ := exists_last hnum
  obtain ⟨y, ys, rfl⟩ := List.exists_cons_of_length_pos (hlength.symm ▸ hpos)
  obtain ⟨hxs, hended⟩ := List.forall_mem_append.mp hls
  have hcount : newlines ((y :: ys).flatten ++ b) = num := by
    rw [newlines_append, newlines_flatten hended, newlines_eq_zero hb, hlength, Nat.add_zero]
  have hwhole : lines (· = newline) file = xs ++ (y :: ys ++ [b]) := by
    rw [hlines, List.append_assoc]
  have hfile := (lastLines_append hwhole).1
  rw [List.flatten_concat] at hfile
  have hprinted := tail_suffix buf (hfile ▸ hlt) (flatten_eq_nil_or hxs) hcount
  rw [← hfile] at hprinted
  refine ⟨_, hprinted, ?_⟩
  have hrest : lines (· = newline) file = (xs ++ [y]) ++ (ys ++ [b]) := by
    rw [hwhole, List.append_assoc]
    rfl
  obtain ⟨-, hlast⟩ := lastLines_append hrest
  rw [List.length_append, List.length_singleton, ← List.length_cons, hlength] at hlast
  have hy : 0 < y.length := List.length_pos_of_ne_nil (hended y List.mem_cons_self).ne_nil
  have hout : (y :: ys).flatten ++ b = y ++ (ys ++ [b]).flatten := by
    rw [List.flatten_concat, List.flatten_cons, List.append_assoc]
  rw [hlast, hout, List.length_append]
  exact Nat.lt_add_of_pos_left hy

/-- What is printed is not what it is to be, but for the text of the message. -/
theorem prints_of_unfinished (hpos : 1 ≤ num) (hnum : num ≤ ls.length + 1)
    (h : Prints buf num file) : num = 1 ∧ file = tooBig := by
  obtain ⟨status, hprints⟩ := h
  rcases Nat.eq_or_lt_of_le hnum with rfl | hfew
  · obtain ⟨htail, hlast, hcount⟩ := few_of_unfinished hlt hlines hls hb buf
    rw [htail, hlast, Outcome.exits.injEq] at hprints
    have hzero : ls.length = 0 := by
      rw [← hcount, ← hprints.2]
      decide
    exact ⟨congrArg (· + 1) hzero, hprints.2.symm⟩
  · obtain ⟨out, htail, hshort⟩ :=
      early_of_unfinished hlt hlines hls hb buf hpos (Nat.le_of_lt_succ hfew)
    rw [htail, Outcome.exits.injEq] at hprints
    rw [hprints.2] at hshort
    exact absurd hshort (Nat.lt_irrefl _)

end Unfinished

/-- **`tail` prints the last lines** of a file, if and only if it is shorter than the buffer and
ends with a newline. -/
theorem prints_iff (buf : Buffer) (num : Nat) (file : List UInt8) (hpos : 1 ≤ num)
    (hnum : num ≤ (lines (· = newline) file).length) :
    Prints buf num file ↔ file.length < BUFF_SIZE ∧
      (file.getLast? = some newline ∨ num = 1 ∧ file = tooBig) := by
  obtain ⟨ls, b, hlines, hls, hb⟩ := exists_lines_eq (· = newline) file
  have hlast : file.getLast? = some newline ↔ b = [] ∧ ls ≠ [] := by
    rw [← getLast?_flatten hls hb, ← eq_of_lines_eq hlines]
    simp
  constructor
  · intro h
    have hlt : file.length < BUFF_SIZE := by
      by_contra hge
      obtain ⟨status, hprints⟩ := h
      rw [tail_undefined (Nat.le_of_not_lt hge)] at hprints
      cases hprints
    refine ⟨hlt, ?_⟩
    by_cases hnil : b = []
    · subst hnil
      refine .inl (hlast.mpr ⟨rfl, ?_⟩)
      rintro rfl
      rw [hlines] at hnum
      exact absurd (hpos.trans hnum) (by decide)
    · rw [consLine_of_ne_nil hnil] at hlines
      rw [hlines, List.length_append] at hnum
      exact .inr (prints_of_unfinished hlt hlines hls hb hpos hnum h)
  · rintro ⟨hlt, h | ⟨rfl, rfl⟩⟩
    · obtain ⟨rfl, -⟩ := hlast.mp h
      rw [consLine_nil, List.append_nil] at hlines
      exact prints_of_ended buf hlt hnum (hlines ▸ hls)
    · exact ⟨1, tail_few buf hlt (by decide)⟩

/-- Some memory for `buf`. -/
def zeros : Buffer := ⟨List.replicate BUFF_SIZE 0, List.length_replicate⟩

/-- The last two of three lines, of which one is empty. -/
theorem prints_ended : Prints zeros 2 [97, newline, newline, 98, newline] :=
  (prints_iff zeros 2 [97, newline, newline, 98, newline] (by decide) (by decide)).mpr
    ⟨by decide, .inl rfl⟩

/-- A file of one letter is too short. -/
theorem not_prints_letter : ¬ ∀ (buf : Buffer) (num : Nat) (file : List UInt8), 1 ≤ num →
    num ≤ (lines (· = newline) file).length → Prints buf num file := by
  intro h
  obtain ⟨status, hprints⟩ := h zeros 1 [97] (by decide) (by decide)
  rw [tail_few zeros (by decide) (by decide), Outcome.exits.injEq] at hprints
  exact absurd hprints.2 (by decide)

end SysProg.Tail
