import Mathlib.Data.List.TakeDrop
import SysProg.Lib.Seek
import SysProg.Lib.Strcmp

/-!
# Copies of files with holes

`create_hole_file` writes the characters of a line, and moves the offset on behind each of them.
`SP_hw1-2` is to make a copy of such a file.  It reads its source once, as much as fits into
`buf`, and compares that with an array that nothing has been written to; as strings, so that what
is in the arrays behind a NUL has no effect.  If they are the same, it moves the offset of its
destination on, and writes `buf` all the same.

* `createHoleFile` and `main` are the programs.  The source and the destination of `main` are two
  files, and `Calls` are the calls that succeed; those of `createHoleFile` all do.
* `transfer_of_alike` and `transfer_of_not_alike`: what there is in the destination.
* `copies_iff`: it is the source, if that fits into `buf` and is not taken for a hole; or if there
  is nothing in the source, or if it is two such blocks of zeros.
* `copies_createHoleFile_iff`: a line can be copied up to a length of 171.
-/

namespace SysProg.HoleFile

open SysProg.Lib

/-! ## The programs -/

def HOLE_SIZE : Nat := 5

def BUF_SIZE : Nat := 1024

/-- `create_hole_file`, with what `fgets` leaves in `content`, and what has been in the file: it
is not truncated. -/
def createHoleFile (content hole_file : List UInt8) : List UInt8 :=
  ((cstring content).foldl (fun f c ↦ (f.write [c]).seek HOLE_SIZE) (OpenFile.mk hole_file 0)).bytes

/-- `char buf[BUF_SIZE]` -/
abbrev Buffer : Type := { buf : List UInt8 // buf.length = BUF_SIZE }

/-- What happens to be in the arrays, and in the memory behind them. -/
structure Stack where
  buf : Buffer
  behindBuf : List UInt8
  null_char : Buffer
  behindNull : List UInt8

/-- `argc`, and whether the calls succeed; `write` does if it writes all that it is given. -/
structure Calls where
  argc : Nat
  openInput : Bool
  openOutput : Bool
  read : Bool
  write : Bool
  closeInput : Bool
  closeOutput : Bool

variable {m : Stack} {src dest content : List UInt8} {c : UInt8}

/-- What `read` returns. -/
def numRead (src : List UInt8) : Nat := min BUF_SIZE src.length

/-- `buf`, behind the call of `read`. -/
def Stack.read (m : Stack) (src : List UInt8) : List UInt8 :=
  overwrite m.buf 0 (src.take (numRead src))

/-- `strcmp(buf , null_char)` -/
def Stack.strcmp (m : Stack) (src : List UInt8) : Ordering :=
  (strcmpFrom (m.read src ++ m.behindBuf) (m.null_char ++ m.behindNull)).1

/-- The destination behind `write`: it has been empty. -/
def transfer (m : Stack) (src : List UInt8) : OpenFile :=
  let outputFd : OpenFile := ⟨[], 0⟩
  let outputFd := if m.strcmp src = .eq then outputFd.seek (numRead src) else outputFd
  outputFd.write ((m.read src).take (numRead src))

/-- `SP_hw1-2`: the destination in the end, or what `perr_exit` is given. -/
def main (calls : Calls) (m : Stack) (src : List UInt8) : Except String (List UInt8) :=
  if 3 < calls.argc then .error "too many argument in cmd line"
  else if ¬ calls.openInput then .error "open"
  else if ¬ calls.openOutput then .error "open"
  else if ¬ calls.read then .error "read"
  else if ¬ calls.write then .error "write() returned error or partial write occurred"
  else if ¬ calls.closeInput then .error "close input"
  else if ¬ calls.closeOutput then .error "close output"
  else .ok (transfer m src).bytes

/-- **The destination is the source**, whenever the program returns 0. -/
def Copies (m : Stack) (src : List UInt8) : Prop :=
  ∀ calls dest, main calls m src = .ok dest → dest = src

/-- The string that begins with the source, and goes on with what has been in `buf`, is that in
`null_char`. -/
def Stack.Alike (m : Stack) (src : List UInt8) : Prop :=
  cstring (src.take (numRead src) ++ (m.buf.val ++ m.behindBuf).drop (numRead src)) =
    cstring (m.null_char.val ++ m.behindNull)

/-! ## The destination -/

theorem of_ite_error {p : Prop} [Decidable p] {e : String} {x : Except String (List UInt8)}
    (h : (if p then .error e else x) = .ok dest) : x = .ok dest := by
  split at h
  · cases h
  · exact h

theorem main_eq_ok {calls : Calls} (h : main calls m src = .ok dest) :
    dest = (transfer m src).bytes := by
  rw [main] at h
  iterate 7 replace h := of_ite_error h
  exact (Except.ok.inj h).symm

theorem copies_iff_transfer : Copies m src ↔ (transfer m src).bytes = src := by
  refine ⟨fun h ↦ ?_, fun h calls dest hmain ↦ (main_eq_ok hmain).trans h⟩
  exact h ⟨3, true, true, true, true, true, true⟩ _ rfl

theorem numRead_le (src : List UInt8) : numRead src ≤ BUF_SIZE := Nat.min_le_left _ _

theorem length_take_numRead (src : List UInt8) : (src.take (numRead src)).length = numRead src :=
  List.length_take_of_le (Nat.min_le_right _ _)

theorem take_numRead (src : List UInt8) : src.take (numRead src) = src.take BUF_SIZE :=
  List.take_eq_take_min.symm

/-- The beginning of the source is in `buf`, and behind it what has been there. -/
theorem read_eq (m : Stack) (src : List UInt8) :
    m.read src = src.take (numRead src) ++ m.buf.val.drop (numRead src) := by
  have hfit : (src.take (numRead src)).length ≤ m.buf.val.length := by
    rw [length_take_numRead, m.buf.property]
    exact numRead_le src
  rw [Stack.read, overwrite_chunk hfit, length_take_numRead]

theorem take_read (m : Stack) (src : List UInt8) :
    (m.read src).take (numRead src) = src.take BUF_SIZE := by
  rw [read_eq, List.take_left' (length_take_numRead src), take_numRead]

theorem strcmp_eq_iff : m.strcmp src = .eq ↔ m.Alike src := by
  have hle : numRead src ≤ m.buf.val.length := (numRead_le src).trans m.buf.property.ge
  rw [Stack.strcmp, strcmpFrom_fst, Std.compare_eq_iff_eq, read_eq, List.append_assoc,
    ← List.drop_append_of_le_length hle]
  rfl

theorem transfer_nil (m : Stack) : (transfer m []).bytes = [] := by
  rw [transfer, take_read]
  split <;> rfl

/-- **The first block of the source** is copied. -/
theorem transfer_of_not_alike (h : ¬ m.Alike src) :
    (transfer m src).bytes = src.take BUF_SIZE := by
  rw [transfer, if_neg (mt strcmp_eq_iff.mp h), take_read]
  by_cases hnil : src.take BUF_SIZE = []
  · rw [hnil, OpenFile.write_nil]
  · rw [OpenFile.write_of_le (Nat.le_refl _) hnil]
    rfl

/-- **A hole comes before it**, if it is taken for one. -/
theorem transfer_of_alike (h : m.Alike src) (hne : src ≠ []) :
    (transfer m src).bytes = List.replicate (numRead src) 0 ++ src.take BUF_SIZE := by
  have htake : src.take BUF_SIZE ≠ [] := by
    intro hnil
    rcases List.take_eq_nil_iff.mp hnil with hzero | hnil
    · exact absurd hzero (by decide)
    · exact hne hnil
  rw [transfer, if_pos (strcmp_eq_iff.mpr h), take_read,
    OpenFile.write_of_le (Nat.zero_le _) htake]
  rw [OpenFile.seek, List.length_nil, Nat.zero_add]
  rfl

/-! ## When it is the source -/

theorem copies_nil (m : Stack) : Copies m [] := copies_iff_transfer.mpr (transfer_nil m)

theorem copies_iff_of_not_alike (h : ¬ m.Alike src) :
    Copies m src ↔ src.length ≤ BUF_SIZE := by
  rw [copies_iff_transfer, transfer_of_not_alike h, List.take_eq_self_iff]

/-- Two blocks of zeros are the only source with its own first block behind a hole. -/
theorem replicate_append_take_iff (hne : src ≠ []) :
    List.replicate (numRead src) 0 ++ src.take BUF_SIZE = src ↔
      src = List.replicate (2 * BUF_SIZE) 0 := by
  have hpos : 0 < src.length := List.length_pos_iff.mpr hne
  constructor
  · intro heq
    have hlength := congrArg List.length heq
    rw [List.length_append, List.length_replicate, List.length_take, numRead] at hlength
    have hnum : numRead src = BUF_SIZE := by
      rw [numRead]
      omega
    have hblock : src.take BUF_SIZE = List.replicate BUF_SIZE 0 := by
      rw [← heq, hnum, List.take_left' List.length_replicate]
    rw [← heq, hnum, hblock, List.replicate_append_replicate, Nat.two_mul]
  · intro heq
    have hnum : numRead src = BUF_SIZE := by
      rw [heq, numRead, List.length_replicate]
      rfl
    rw [hnum, heq, List.take_replicate, List.replicate_append_replicate]
    rfl

theorem copies_iff_of_alike (h : m.Alike src) (hne : src ≠ []) :
    Copies m src ↔ src = List.replicate (2 * BUF_SIZE) 0 := by
  rw [copies_iff_transfer, transfer_of_alike h hne, replicate_append_take_iff hne]

/-- **A source is copied** if and only if it fits into `buf` and is not taken for a hole, or is
nothing but zeros, as many as two such blocks have. -/
theorem copies_iff (m : Stack) (src : List UInt8) :
    Copies m src ↔ src = [] ∨ (¬ m.Alike src ∧ src.length ≤ BUF_SIZE) ∨
      (m.Alike src ∧ src = List.replicate (2 * BUF_SIZE) 0) := by
  by_cases hne : src = []
  · subst hne
    exact iff_of_true (copies_nil m) (.inl rfl)
  rw [or_iff_right hne]
  by_cases h : m.Alike src
  · rw [copies_iff_of_alike h hne, or_iff_right (fun hnot ↦ hnot.1 h), and_iff_right h]
  · rw [copies_iff_of_not_alike h, or_iff_left (fun halike ↦ h halike.1), and_iff_right h]

/-- What is longer than `buf` is not copied, unless it has twice that length. -/
theorem length_of_copies (h : Copies m src) :
    src.length ≤ BUF_SIZE ∨ src.length = 2 * BUF_SIZE := by
  by_cases hne : src = []
  · exact .inl (hne ▸ Nat.zero_le _)
  by_cases halike : m.Alike src
  · refine .inr ?_
    rw [(copies_iff_of_alike halike hne).mp h, List.length_replicate]
  · exact .inl ((copies_iff_of_not_alike halike).mp h)

/-- A stack of zeros. -/
def zeros : Stack where
  buf := ⟨List.replicate BUF_SIZE 0, List.length_replicate⟩
  behindBuf := []
  null_char := ⟨List.replicate BUF_SIZE 0, List.length_replicate⟩
  behindNull := []

/-- A byte that is zero is copied behind a hole, and of 1025 bytes the last is not copied. -/
theorem not_copies_zeros : ¬ Copies zeros [0] ∧ ¬ Copies zeros (List.replicate 1025 97) := by
  constructor
  · rw [copies_iff_of_alike (by rfl) (List.cons_ne_nil _ _)]
    intro h
    have hlength := congrArg List.length h
    rw [List.length_replicate] at hlength
    exact absurd hlength (by decide)
  · intro h
    have hlength := length_of_copies h
    rw [List.length_replicate] at hlength
    exact absurd hlength (by decide)

/-! ## Files with holes -/

/-- **The characters of the line**, with holes between them. -/
theorem createHoleFile_eq (hne : cstring content ≠ []) : createHoleFile content [] =
    (List.replicate HOLE_SIZE 0).intercalate ((cstring content).map ([·])) := by
  have hpieces : ∀ s ∈ (cstring content).map ([·]), s ≠ [] := by
    intro s hs
    obtain ⟨c, -, rfl⟩ := List.mem_map.mp hs
    exact List.cons_ne_nil c []
  have hmap : (cstring content).map ([·]) ≠ [] := mt List.map_eq_nil_iff.mp hne
  have hfile := OpenFile.foldl_write_seek (f := ⟨[], 0⟩) hpieces (Nat.le_refl _) hmap HOLE_SIZE
  rwa [List.foldl_map] at hfile

/-- A character, and a hole with another behind it. -/
theorem exists_intercalate_eq (gap : List UInt8) (c d : UInt8) (s : List UInt8) :
    gap.intercalate ((c :: d :: s).map ([·])) =
      c :: (gap ++ gap.intercalate ((d :: s).map ([·]))) :=
  List.intercalate_cons_cons

theorem length_intercalate (gap : List UInt8) (c : UInt8) (s : List UInt8) :
    (gap.intercalate ((c :: s).map ([·]))).length = (gap.length + 1) * s.length + 1 := by
  induction s generalizing c with
  | nil => rw [List.map_singleton, List.intercalate_singleton]; rfl
  | cons d s ih =>
      rw [exists_intercalate_eq, List.length_cons, List.length_append, ih, List.length_cons,
        Nat.mul_succ]
      omega

/-- What comes behind a NUL in the source has no effect. -/
theorem alike_iff_of_zero {s : List UInt8} (hc : c ≠ 0) :
    m.Alike (c :: 0 :: s) ↔ cstring (m.null_char.val ++ m.behindNull) = [c] := by
  have htwo : 2 ≤ numRead (c :: 0 :: s) := Nat.le_min.mpr ⟨by decide, Nat.le_add_left 2 s.length⟩
  obtain ⟨n, hn⟩ := Nat.exists_eq_add_of_le' htwo
  rw [Stack.Alike, hn, List.take_succ_cons, List.take_succ_cons, List.cons_append, List.cons_append,
    cstring_cons_of_ne hc, cstring_cons_zero, eq_comm]

end SysProg.HoleFile
