import Mathlib.Data.List.Basic
import Mathlib.Logic.Function.Basic
import SysProg.Lib.Memory

/-!
# A file, copied through two mappings

`49_1` maps its source privately.  Then it opens its destination, which is truncated, makes it as
long as the source, maps it too, and copies the one mapping to the other.  So it matters whether
the two names are of one file: it is empty before anything has been read.

* `main` is the program, for files that may have several names, and calls that may fail.  What a
  private mapping shows of a file that changes is unspecified: each byte is what was there, or
  what is there now (`System.mapped`).
* `exit_eq_zero_iff`: the program returns 0 if all calls succeed and there is something to copy.
* `main_copies_iff`: it is a copy then, if the files are two, or if the mapping has kept all that is
  not zero; other files are left as they were, and all of them if the source is empty.
-/

universe u

namespace SysProg.MapCopy

open SysProg.Lib

/-! ## Files and their names -/

/-- The files, and the names that they have. -/
structure FileSystem (Ino : Type u) where
  dir : String → Option Ino
  bytes : Ino → List UInt8

/-- A file without a name. -/
abbrev FileSystem.Spare {Ino : Type u} (fs : FileSystem Ino) : Type u :=
  { i : Ino // ∀ path, fs.dir path ≠ some i }

variable {Ino : Type u} [DecidableEq Ino] {fs : FileSystem Ino} {i j : Ino} {path : String}
  {b : List UInt8}

/-- What is in the file of that name. -/
def FileSystem.read (fs : FileSystem Ino) (path : String) : Option (List UInt8) :=
  (fs.dir path).map fs.bytes

def FileSystem.set (fs : FileSystem Ino) (i : Ino) (b : List UInt8) : FileSystem Ino :=
  { fs with bytes := Function.update fs.bytes i b }

/-- The file that `open` opens with `O_CREAT`. -/
def FileSystem.target (fs : FileSystem Ino) (new : fs.Spare) (path : String) : Ino :=
  (fs.dir path).getD new

/-- `open` with `O_CREAT` and `O_TRUNC` -/
def FileSystem.openTrunc (fs : FileSystem Ino) (new : fs.Spare) (path : String) : FileSystem Ino :=
  let i := fs.target new path
  { fs with dir := Function.update fs.dir path (some i) }.set i []

/-- `ftruncate` -/
def FileSystem.ftruncate (fs : FileSystem Ino) (i : Ino) (size : Nat) : FileSystem Ino :=
  fs.set i ((fs.bytes i).take size ++ List.replicate (size - (fs.bytes i).length) 0)

omit [DecidableEq Ino] in
theorem FileSystem.read_of_dir (h : fs.dir path = some i) : fs.read path = some (fs.bytes i) := by
  rw [read, h, Option.map_some]

@[simp] theorem FileSystem.bytes_set_self (fs : FileSystem Ino) (i : Ino) (b : List UInt8) :
    (fs.set i b).bytes i = b :=
  by simp [set]

theorem FileSystem.bytes_set_of_ne (h : j ≠ i) (fs : FileSystem Ino) (b : List UInt8) :
    (fs.set i b).bytes j = fs.bytes j :=
  by simp [set, h]

theorem FileSystem.read_set_self (h : fs.dir path = some i) : (fs.set i b).read path = some b := by
  have hdir : (fs.set i b).dir path = some i := h
  rw [read_of_dir hdir, bytes_set_self]

theorem FileSystem.dir_openTrunc (fs : FileSystem Ino) (new : fs.Spare) (path : String) :
    (fs.openTrunc new path).dir path = some (fs.target new path) :=
  Function.update_self path _ fs.dir

omit [DecidableEq Ino] in
theorem FileSystem.target_of_dir {new : fs.Spare} (h : fs.dir path = some i) :
    fs.target new path = i := by
  rw [target, h, Option.getD_some]

omit [DecidableEq Ino] in
/-- A file that has a name is not the new one. -/
theorem FileSystem.ne_target {new : fs.Spare} {dest : String} (h : fs.dir path = some i)
    (hdest : fs.dir path ≠ fs.dir dest) : i ≠ fs.target new dest := by
  rintro rfl
  cases hd : fs.dir dest with
  | none =>
      rw [target, hd, Option.getD_none] at h
      exact new.property path h
  | some j =>
      rw [target_of_dir hd] at h
      exact hdest (h.trans hd.symm)

/-! ## The program -/

/-- The calls that may fail. -/
inductive Call where
  | openSrc | fstat | mmapSrc | openDest | ftruncate | mmapDest | closeSrc | closeDest
  | munmapSrc | munmapDest
deriving DecidableEq

/-- What `perror` is given. -/
def Call.text : Call → String
  | .openSrc => "open src\n"
  | .fstat => "fstat\n"
  | .mmapSrc => "mmap src_addr\n"
  | .openDest => "open dest\n"
  | .ftruncate => "ftruncate\n"
  | .mmapDest => "mmap dest_addr\n"
  -- the text of the first `close` stands at both
  | .closeSrc | .closeDest => "close src_fd\n"
  | .munmapSrc => "munmap src_fd\n"
  | .munmapDest => "munmap dest_fd\n"

/-- How the program ends: with 0, or with 1 behind a text for `perror` or the usage. -/
inductive Exit where
  | zero
  | perror (text : String)
  | usage
deriving DecidableEq

structure Outcome (Ino : Type u) where
  fs : FileSystem Ino
  stdout : String
  exit : Exit

/-- What the program finds. -/
structure System (Ino : Type u) where
  fs : FileSystem Ino
  /-- The file that `O_CREAT` makes. -/
  new : fs.Spare
  /-- The calls that succeed, as far as that is not the program's own doing. -/
  ok : Call → Bool
  /-- The bytes of a private mapping that do not follow the file. -/
  kept : Nat → Bool

/-- What the private mapping of a file shows that had the bytes `old`, and now has `current`. -/
def System.mapped (m : System Ino) (old current : List UInt8) : List UInt8 :=
  old.mapIdx fun k c ↦ if m.kept k then c else current.getD k 0

/-- A call, and what comes behind it. -/
def call (c : Call) (succeeds : Bool) (fs : FileSystem Ino) (stdout : String)
    (rest : Outcome Ino) : Outcome Ino :=
  if succeeds then rest else ⟨fs, stdout, .perror c.text⟩

/-- The files behind `ftruncate`. -/
def System.sized (m : System Ino) (i : Ino) (dest : String) : FileSystem Ino :=
  (m.fs.openTrunc m.new dest).ftruncate (m.fs.target m.new dest) (m.fs.bytes i).length

/-- The files behind `memcpy`.  It reads each byte before it writes to the same offset. -/
def System.copied (m : System Ino) (i : Ino) (dest : String) : FileSystem Ino :=
  let fs := m.sized i dest
  let j := m.fs.target m.new dest
  fs.set j (overwrite (fs.bytes j) 0 (m.mapped (m.fs.bytes i) (fs.bytes i)))

/-- `49_1` -/
def main (m : System Ino) (argv0 : String) : List String → Outcome Ino
  | [src, dest] =>
      match m.fs.dir src with
      | none => ⟨m.fs, "", .perror Call.openSrc.text⟩
      | some i =>
          let opened := m.fs.openTrunc m.new dest
          let text :=
            src ++ " has been successfully copyed to " ++ dest ++ " using memmory mapping.\n"
          call .openSrc (m.ok .openSrc) m.fs "" <|
          call .fstat (m.ok .fstat) m.fs "" <|
          -- a mapping of no bytes is an error
          call .mmapSrc (!(m.fs.bytes i).isEmpty && m.ok .mmapSrc) m.fs "" <|
          call .openDest (m.ok .openDest) m.fs "" <|
          call .ftruncate (m.ok .ftruncate) opened "" <|
          call .mmapDest (m.ok .mmapDest) (m.sized i dest) "" <|
          call .closeSrc (m.ok .closeSrc) (m.copied i dest) text <|
          call .closeDest (m.ok .closeDest) (m.copied i dest) text <|
          call .munmapSrc (m.ok .munmapSrc) (m.copied i dest) text <|
          call .munmapDest (m.ok .munmapDest) (m.copied i dest) text
          ⟨m.copied i dest, text, .zero⟩
  | _ => ⟨m.fs, "Usage: " ++ argv0 ++ " <source_file> <dest_file>\n", .usage⟩

variable {m : System Ino} {c : Call} {succeeds : Bool} {stdout argv0 src dest : String}
  {rest : Outcome Ino} {old : List UInt8}

/-! ## When it returns 0 -/

omit [DecidableEq Ino] in
theorem call_exit_iff :
    (call c succeeds fs stdout rest).exit = .zero ↔ succeeds = true ∧ rest.exit = .zero := by
  cases succeeds with
  | true => exact (and_iff_right rfl).symm
  | false => exact iff_of_false (fun h ↦ by cases h) fun h ↦ by cases h.1

omit [DecidableEq Ino] in
/-- What holds of the files before and behind a call. -/
theorem call_fs {P : FileSystem Ino → Prop} (h : P fs) (hrest : P rest.fs) :
    P (call c succeeds fs stdout rest).fs := by
  cases succeeds with
  | true => exact hrest
  | false => exact h

omit [DecidableEq Ino] in
theorem System.ok_iff (m : System Ino) : (∀ c, m.ok c) ↔
    m.ok .openSrc ∧ m.ok .fstat ∧ m.ok .mmapSrc ∧ m.ok .openDest ∧ m.ok .ftruncate ∧
      m.ok .mmapDest ∧ m.ok .closeSrc ∧ m.ok .closeDest ∧ m.ok .munmapSrc ∧ m.ok .munmapDest := by
  constructor
  · intro h
    simp only [h, and_self]
  · rintro ⟨_, _, _, _, _, _, _, _, _, _⟩ c
    cases c <;> assumption

/-- **When the program returns 0**: no call fails, and there is something in the source. -/
theorem exit_eq_zero_iff (argv0 dest : String) (hsrc : m.fs.dir src = some i) :
    (main m argv0 [src, dest]).exit = .zero ↔ m.fs.bytes i ≠ [] ∧ ∀ c, m.ok c := by
  rw [main, hsrc, m.ok_iff]
  simp only [call_exit_iff, Bool.and_eq_true, Bool.not_eq_true', List.isEmpty_eq_false_iff]
  tauto

/-! ## What there is then -/

theorem System.fs_of_exit (hsrc : m.fs.dir src = some i)
    (h : (main m argv0 [src, dest]).exit = .zero) :
    (main m argv0 [src, dest]).fs = m.copied i dest := by
  obtain ⟨hne, hok⟩ := (exit_eq_zero_iff argv0 dest hsrc).mp h
  rw [main, hsrc]
  simp [call, hok, hne]

theorem System.bytes_sized_target (m : System Ino) (i : Ino) (dest : String) :
    (m.sized i dest).bytes (m.fs.target m.new dest) =
      List.replicate (m.fs.bytes i).length 0 := by
  simp [sized, FileSystem.ftruncate, FileSystem.openTrunc]

theorem System.bytes_sized_of_ne (h : j ≠ m.fs.target m.new dest) :
    (m.sized i dest).bytes j = m.fs.bytes j := by
  rw [sized, FileSystem.ftruncate, FileSystem.bytes_set_of_ne h, FileSystem.openTrunc,
    FileSystem.bytes_set_of_ne h]

omit [DecidableEq Ino] in
theorem System.length_mapped (m : System Ino) (old current : List UInt8) :
    (m.mapped old current).length = old.length := List.length_mapIdx

omit [DecidableEq Ino] in
/-- A file that does not change is shown as it is. -/
theorem System.mapped_self (m : System Ino) (old : List UInt8) : m.mapped old old = old := by
  refine List.ext_getElem (m.length_mapped old old) fun k hk hold ↦ ?_
  simp [mapped, List.getElem?_eq_getElem hold]

/-- What is not zero is kept by the mapping. -/
def System.Keeps (m : System Ino) (old : List UInt8) : Prop :=
  ∀ k c, old[k]? = some c → c ≠ 0 → m.kept k

omit [DecidableEq Ino] in
/-- A file that has been cleared. -/
theorem System.mapped_replicate_eq_iff :
    m.mapped old (List.replicate old.length 0) = old ↔ m.Keeps old := by
  rw [mapped, List.ext_getElem?_iff]
  refine forall_congr' fun k ↦ ?_
  cases hk : old[k]? with
  | none => simp [hk]
  | some c =>
      obtain ⟨hlt, -⟩ := List.getElem?_eq_some_iff.mp hk
      have hzero : (List.replicate old.length (0 : UInt8)).getD k 0 = 0 := by simp [hlt]
      rw [List.getElem?_mapIdx, hk, Option.map_some, hzero, Option.some_inj]
      constructor
      · intro h c' hc' hne
        cases hc'
        by_contra hkept
        exact hne ((if_neg hkept).symm.trans h).symm
      · intro h
        by_cases hc : c = 0
        · rw [hc, ite_self]
        · exact if_pos (h c rfl hc)

/-- The destination behind `memcpy`. -/
theorem System.read_copied (m : System Ino) (i : Ino) (dest : String) :
    (m.copied i dest).read dest = some (m.mapped (m.fs.bytes i) ((m.sized i dest).bytes i)) := by
  have hdir : (m.sized i dest).dir dest = some (m.fs.target m.new dest) :=
    m.fs.dir_openTrunc m.new dest
  rw [copied, FileSystem.read_set_self hdir, overwrite_of_length]
  rw [m.length_mapped, bytes_sized_target, List.length_replicate]

/-- If the file is the destination, it has been cleared before it is read. -/
theorem System.read_copied_eq_iff (hsrc : m.fs.dir src = some i) :
    (m.copied i dest).read dest = some (m.fs.bytes i) ↔
      (m.fs.dir src = m.fs.dir dest → m.Keeps (m.fs.bytes i)) := by
  rw [read_copied, Option.some_inj]
  by_cases hdest : m.fs.dir src = m.fs.dir dest
  · have htarget : m.fs.target m.new dest = i :=
      FileSystem.target_of_dir (hdest.symm.trans hsrc)
    have hsized := m.bytes_sized_target i dest
    rw [htarget] at hsized
    rw [hsized, mapped_replicate_eq_iff]
    exact (imp_iff_right hdest).symm
  · have hne : i ≠ m.fs.target m.new dest := FileSystem.ne_target hsrc hdest
    rw [bytes_sized_of_ne hne]
    exact iff_of_true (m.mapped_self _) fun h ↦ absurd h hdest

/-- The names of one file go on to be that. -/
theorem System.read_copied_of_eq (hsrc : m.fs.dir src = some i)
    (hdest : m.fs.dir src = m.fs.dir dest) :
    (m.copied i dest).read src = (m.copied i dest).read dest := by
  by_cases hne : src = dest
  · rw [hne]
  · have htarget : m.fs.target m.new dest = i :=
      FileSystem.target_of_dir (hdest.symm.trans hsrc)
    have hdir : (m.copied i dest).dir src = (m.copied i dest).dir dest :=
      calc (m.fs.openTrunc m.new dest).dir src
        _ = m.fs.dir src := Function.update_of_ne hne _ _
        _ = some (m.fs.target m.new dest) := hsrc.trans (congrArg some htarget.symm)
        _ = (m.fs.openTrunc m.new dest).dir dest := (m.fs.dir_openTrunc m.new dest).symm
    rw [FileSystem.read, FileSystem.read, hdir]

/-! ## The other files -/

/-- The files but the destination are what they were. -/
def System.Spared (m : System Ino) (dest : String) (fs : FileSystem Ino) : Prop :=
  ∀ path i, m.fs.dir path = some i → m.fs.dir path ≠ m.fs.dir dest →
    fs.dir path = some i ∧ fs.bytes i = m.fs.bytes i

theorem System.Spared.set (h : m.Spared dest fs) (b : List UInt8) :
    m.Spared dest (fs.set (m.fs.target m.new dest) b) := by
  intro path i hpath hdest
  obtain ⟨hdir, hbytes⟩ := h path i hpath hdest
  exact ⟨hdir, (FileSystem.bytes_set_of_ne (FileSystem.ne_target hpath hdest) fs b).trans hbytes⟩

theorem System.spared_openTrunc (m : System Ino) (dest : String) :
    m.Spared dest (m.fs.openTrunc m.new dest) := by
  have hcreated : m.Spared dest
      { m.fs with dir := Function.update m.fs.dir dest (some (m.fs.target m.new dest)) } := by
    intro path i hpath hdest
    have hne : path ≠ dest := by
      rintro rfl
      exact hdest rfl
    exact ⟨(Function.update_of_ne hne _ _).trans hpath, rfl⟩
  exact hcreated.set []

omit [DecidableEq Ino] in
theorem System.Spared.read (h : m.Spared dest fs) (hpath : m.fs.dir path ≠ none)
    (hdest : m.fs.dir path ≠ m.fs.dir dest) : fs.read path = m.fs.read path := by
  obtain ⟨i, hi⟩ := Option.ne_none_iff_exists'.mp hpath
  obtain ⟨hdir, hbytes⟩ := h path i hi hdest
  rw [FileSystem.read_of_dir hdir, FileSystem.read_of_dir hi, hbytes]

/-- However the program ends. -/
theorem spared (m : System Ino) (argv0 src dest : String) :
    m.Spared dest (main m argv0 [src, dest]).fs := by
  have hstart : m.Spared dest m.fs := fun path i hpath _ ↦ ⟨hpath, rfl⟩
  have hopened := m.spared_openTrunc dest
  rw [main]
  cases m.fs.dir src with
  | none => exact hstart
  | some i =>
      have hsized : m.Spared dest (m.sized i dest) := hopened.set _
      have hcopied : m.Spared dest (m.copied i dest) := hsized.set _
      refine call_fs hstart <| call_fs hstart <| call_fs hstart <| call_fs hstart ?_
      refine call_fs hopened <| call_fs hsized ?_
      exact call_fs hcopied <| call_fs hcopied <| call_fs hcopied <| call_fs hcopied hcopied

/-- No bytes can be mapped, and that is before the destination is opened. -/
theorem fs_of_empty (hsrc : m.fs.dir src = some i) (hempty : m.fs.bytes i = []) :
    (main m argv0 [src, dest]).fs = m.fs := by
  rw [main, hsrc]
  refine call_fs (P := (· = m.fs)) rfl <| call_fs (P := (· = m.fs)) rfl ?_
  rw [hempty]
  rfl

/-- The program returns 0, the destination is what was in the source, and so is the source. -/
structure Copies (m : System Ino) (argv0 src dest : String) (b : List UInt8) : Prop where
  exit_eq : (main m argv0 [src, dest]).exit = .zero
  read_dest : (main m argv0 [src, dest]).fs.read dest = some b
  read_src : (main m argv0 [src, dest]).fs.read src = some b

/-- **When the program copies a file**, however many names the files have. -/
theorem main_copies_iff (argv0 dest : String) (h : m.fs.read src = some b) :
    (Copies m argv0 src dest b ↔
      b ≠ [] ∧ (∀ c, m.ok c) ∧ (m.fs.dir src = m.fs.dir dest → m.Keeps b)) ∧
    (b = [] → (main m argv0 [src, dest]).fs = m.fs) ∧
    ∀ path, m.fs.dir path ≠ none → m.fs.dir path ≠ m.fs.dir dest →
      (main m argv0 [src, dest]).fs.read path = m.fs.read path := by
  obtain ⟨i, hsrc, rfl⟩ := Option.map_eq_some_iff.mp h
  refine ⟨⟨fun hcopies ↦ ?_, ?_⟩, fs_of_empty hsrc, fun path ↦ (spared m argv0 src dest).read⟩
  · obtain ⟨hne, hok⟩ := (exit_eq_zero_iff argv0 dest hsrc).mp hcopies.exit_eq
    have hread := hcopies.read_dest
    rw [m.fs_of_exit hsrc hcopies.exit_eq] at hread
    exact ⟨hne, hok, (m.read_copied_eq_iff hsrc).mp hread⟩
  · rintro ⟨hne, hok, hkeeps⟩
    have hexit := (exit_eq_zero_iff argv0 dest hsrc).mpr ⟨hne, hok⟩
    have hfs := m.fs_of_exit hsrc hexit
    have hread := (m.read_copied_eq_iff hsrc).mpr hkeeps
    refine ⟨hexit, hfs ▸ hread, ?_⟩
    by_cases hdest : m.fs.dir src = m.fs.dir dest
    · rw [hfs, m.read_copied_of_eq hsrc hdest, hread]
    · rw [(spared m argv0 src dest).read (by simp [hsrc]) hdest, h]

/-- Two names of one file, and another file. -/
def twoNames : FileSystem Nat where
  dir path := if path = "c" then some 1 else if path = "a" ∨ path = "b" then some 0 else none
  bytes i := if i = 0 then [97] else [99]

theorem not_two_twoNames (path : String) : twoNames.dir path ≠ some 2 := by
  dsimp only [twoNames]
  split_ifs <;> decide

/-- All calls succeed, and a private mapping follows its file. -/
def follows : System Nat where
  fs := twoNames
  new := ⟨2, not_two_twoNames⟩
  ok _ := true
  kept _ := false

/-- The file is cleared, and that is not an error. -/
theorem main_copies_iff_follows : ¬ Copies follows "49_1" "a" "b" [97] ∧
    (main follows "49_1" ["a", "b"]).exit = .zero ∧
    (main follows "49_1" ["a", "b"]).fs.read "c" = some [99] := by
  have hread : follows.fs.read "a" = some [97] := by decide
  obtain ⟨hcopies, -, hspared⟩ := main_copies_iff "49_1" "b" hread
  refine ⟨fun h ↦ ?_, ?_, hspared "c" (by decide) (by decide)⟩
  · have hkept := (hcopies.mp h).2.2 (by decide) 0 97 rfl (by decide)
    cases hkept
  · exact (exit_eq_zero_iff (i := 0) "49_1" "b" (by decide)).mpr ⟨by decide, fun _ ↦ rfl⟩

end SysProg.MapCopy
