import Mathlib.Logic.Function.Basic
import SysProg.Lib.Memory

/-!
# Standard input, copied to files

`SP_hw1-1` reads its input piece by piece and collects it in `all_input`.  Each piece is
written to standard output; the loop over the files is inside the loop over the pieces, and
writes to each file what has been collected so far.

* `tee` is the program; all calls succeed, and `write` writes all that it is given.
* `loop_stdout` and `loop_files`: what there is on standard output and in a file behind the
  loop.  With `-a` a file gets each beginning of the input (`repeated`).
* `tee_correct_iff`: the files have the input once, if and only if it has come in one piece, or
  there is no `-a`, or no file.
-/

namespace SysProg.Tee

open SysProg.Lib

def MAX_SIZE : Nat := 1024

def BUFFER_SIZE : Nat := 10240

theorem BUFFER_SIZE_pos : 0 < BUFFER_SIZE := by decide

variable {Path : Type}

/-- A call of the program. -/
structure Job (Path : Type) where
  /-- What `getopt` returns, call by call. -/
  options : List Char
  /-- The other arguments. -/
  targets : List Path
  /-- What `read` returns, call by call. -/
  chunks : List (List UInt8)
  /-- What is in the files that there are. -/
  files : Path → Option (List UInt8)
  ne_nil : ∀ c ∈ chunks, c ≠ []
  length_le : ∀ c ∈ chunks, c.length ≤ MAX_SIZE

/-- `case 'a': append = 1` -/
def Job.append (j : Job Path) : Bool := j.options.contains 'a'

def Job.input (j : Job Path) : List UInt8 := j.chunks.flatten

structure State (Path : Type) where
  all_input : List UInt8
  total_size : Nat
  stdout : List UInt8
  files : Path → Option (List UInt8)
  length_all_input : all_input.length = BUFFER_SIZE
  total_size_lt : total_size < BUFFER_SIZE

/-- What has been collected. -/
def State.text (s : State Path) : List UInt8 := s.all_input.take s.total_size

/-- A piece is collected, and written to standard output. -/
def State.receive (s : State Path) (chunk : List UInt8)
    (hfit : s.total_size + chunk.length < BUFFER_SIZE) : State Path where
  all_input := overwrite s.all_input s.total_size chunk
  total_size := s.total_size + chunk.length
  stdout := s.stdout ++ chunk
  files := s.files
  length_all_input := (length_overwrite _ _ _).trans s.length_all_input
  total_size_lt := hfit

theorem text_receive {s : State Path} {chunk : List UInt8}
    (hfit : s.total_size + chunk.length < BUFFER_SIZE) :
    (s.receive chunk hfit).text = s.text ++ chunk :=
  take_overwrite_add (hfit.le.trans s.length_all_input.ge)

/-- `char all_input[BUFFER_SIZE] = {0}` -/
def start (files : Path → Option (List UInt8)) : State Path where
  all_input := List.replicate BUFFER_SIZE 0
  total_size := 0
  stdout := []
  files := files
  length_all_input := List.length_replicate
  total_size_lt := BUFFER_SIZE_pos

theorem text_start (files : Path → Option (List UInt8)) : (start files).text = [] := rfl

/-- What is in a file that has just been opened: `O_APPEND` leaves what there was, `O_TRUNC`
does not, and `O_CREAT` makes an empty file. -/
def opened (append : Bool) (old : Option (List UInt8)) : List UInt8 :=
  if append then old.getD [] else []

variable [DecidableEq Path]

/-- `open`, `write` and `close` -/
def writeFile (append : Bool) (bytes : List UInt8) (files : Path → Option (List UInt8))
    (target : Path) : Path → Option (List UInt8) :=
  Function.update files target (some (opened append (files target) ++ bytes))

/-- The loop over the files. -/
def State.writeFiles (s : State Path) (append : Bool) (targets : List Path) : State Path :=
  { s with files := targets.foldl (writeFile append s.text) s.files }

/-- The loop over the pieces, and the exit status of the program. -/
def loop (append : Bool) (targets : List Path) :
    State Path → List (List UInt8) → State Path × Nat
  | s, [] => (s, 0)
  | s, chunk :: chunks =>
      if h : s.total_size + chunk.length < BUFFER_SIZE then
        loop append targets ((s.receive chunk h).writeFiles append targets) chunks
      else (s, 1)

def tee (j : Job Path) : State Path × Nat := loop j.append j.targets (start j.files) j.chunks

variable {append : Bool} {targets : List Path} {bytes chunk : List UInt8}
  {chunks : List (List UInt8)} {files : Path → Option (List UInt8)} {s : State Path} {t : Path}

/-! ## The loop over the files -/

theorem writeFiles_of_notMem (ht : t ∉ targets) :
    targets.foldl (writeFile append bytes) files t = files t := by
  induction targets generalizing files with
  | nil => rfl
  | cons target targets ih =>
      obtain ⟨hne, hnot⟩ := not_or.mp (mt List.mem_cons.mpr ht)
      rw [List.foldl_cons, ih hnot, writeFile, Function.update_of_ne hne]

/-- Each file is written once. -/
theorem writeFiles_of_mem (hnodup : targets.Nodup) (ht : t ∈ targets) :
    targets.foldl (writeFile append bytes) files t = some (opened append (files t) ++ bytes) := by
  induction targets generalizing files with
  | nil => cases ht
  | cons target targets ih =>
      obtain ⟨hnot, hnodup⟩ := List.nodup_cons.mp hnodup
      rw [List.foldl_cons]
      rcases List.mem_cons.mp ht with rfl | ht
      · rw [writeFiles_of_notMem hnot, writeFile, Function.update_self]
      · have hne : t ≠ target := fun heq ↦ hnot (heq ▸ ht)
        rw [ih hnodup ht, writeFile, Function.update_of_ne hne]

/-! ## The loop over the pieces -/

@[simp] theorem text_writeFiles : (s.writeFiles append targets).text = s.text := rfl

/-- **The exit status** says whether the input is smaller than the buffer. -/
theorem status_eq_zero_iff : (loop append targets s chunks).2 = 0 ↔
    s.total_size + chunks.flatten.length < BUFFER_SIZE := by
  induction chunks generalizing s with
  | nil => exact iff_of_true rfl s.total_size_lt
  | cons chunk chunks ih =>
      rw [loop, List.flatten_cons, List.length_append]
      split
      · next hfit => rw [ih, ← Nat.add_assoc]; rfl
      · next hfull => exact iff_of_false Nat.one_ne_zero (by omega)

theorem loop_stdout (hfit : s.total_size + chunks.flatten.length < BUFFER_SIZE) :
    (loop append targets s chunks).1.stdout = s.stdout ++ chunks.flatten := by
  induction chunks generalizing s with
  | nil => rw [loop, List.flatten_nil, List.append_nil]
  | cons chunk chunks ih =>
      rw [List.flatten_cons, List.length_append, ← Nat.add_assoc] at hfit
      rw [loop, dif_pos (by omega), ih hfit, List.flatten_cons, ← List.append_assoc]
      rfl

theorem loop_files_of_notMem (ht : t ∉ targets) :
    (loop append targets s chunks).1.files t = s.files t := by
  induction chunks generalizing s with
  | nil => rfl
  | cons chunk chunks ih =>
      rw [loop]
      split
      · rw [ih]
        exact writeFiles_of_notMem ht
      · rfl

/-- What is written to a file piece by piece, with `text` collected before. -/
def repeated (text : List UInt8) : List (List UInt8) → List UInt8
  | [] => []
  | chunk :: chunks => text ++ chunk ++ repeated (text ++ chunk) chunks

/-- A file behind the first piece. -/
theorem writeFiles_receive (hnodup : targets.Nodup) (ht : t ∈ targets)
    (hfit : s.total_size + chunk.length < BUFFER_SIZE) :
    ((s.receive chunk hfit).writeFiles append targets).files t =
      some (opened append (s.files t) ++ (s.text ++ chunk)) := by
  rw [← text_receive hfit]
  exact writeFiles_of_mem hnodup ht

/-- **Behind the loop** a file has all that has been written to it, or the last of it. -/
theorem loop_files (hnodup : targets.Nodup) (ht : t ∈ targets) (hne : chunks ≠ [])
    (hfit : s.total_size + chunks.flatten.length < BUFFER_SIZE) :
    (loop append targets s chunks).1.files t = some (if append
      then (s.files t).getD [] ++ repeated s.text chunks else s.text ++ chunks.flatten) := by
  induction chunks generalizing s with
  | nil => exact absurd rfl hne
  | cons chunk chunks ih =>
      rw [List.flatten_cons, List.length_append, ← Nat.add_assoc] at hfit
      have hchunk : s.total_size + chunk.length < BUFFER_SIZE := by omega
      have hfile : ((s.receive chunk hchunk).writeFiles append targets).files t = _ :=
        writeFiles_receive hnodup ht hchunk
      have htext : ((s.receive chunk hchunk).writeFiles append targets).text =
        s.text ++ chunk := text_receive hchunk
      rw [loop, dif_pos hchunk]
      cases chunks with
      | nil =>
          rw [loop, hfile]
          cases append <;> simp [opened, repeated]
      | cons next chunks =>
          rw [ih (List.cons_ne_nil _ _) hfit, hfile, htext]
          cases append
          · simp
          · simp [opened, repeated]

/-! ## The whole program -/

theorem length_flatten_le (text : List UInt8) (chunks : List (List UInt8)) :
    chunks.flatten.length ≤ (repeated text chunks).length := by
  induction chunks generalizing text with
  | nil => exact le_rfl
  | cons chunk chunks ih =>
      have hle := ih (text ++ chunk)
      simp only [repeated, List.flatten_cons, List.length_append]
      omega

/-- A second piece repeats the first. -/
theorem repeated_eq_iff (hne : ∀ c ∈ chunks, c ≠ []) (hchunks : chunks ≠ []) :
    repeated [] chunks = chunks.flatten ↔ chunks.length = 1 := by
  match chunks with
  | [chunk] => simp [repeated]
  | chunk :: next :: chunks =>
      have hpos := List.length_pos_iff.mpr (hne chunk List.mem_cons_self)
      have hle := length_flatten_le (chunk ++ next) chunks
      refine iff_of_false (fun h ↦ ?_) (by simp)
      have hlen := congrArg List.length h
      simp only [repeated, List.nil_append, List.flatten_cons, List.length_append] at hlen
      omega

/-- All of the input has been copied, once to each file. -/
structure Correct (j : Job Path) : Prop where
  status : (tee j).2 = 0
  stdout : (tee j).1.stdout = j.input
  files : ∀ t ∈ j.targets, (tee j).1.files t =
    some (if j.append then (j.files t).getD [] ++ j.input else j.input)

/-- **The files have the input once**, if and only if it comes in one piece, or there is no
`-a`, or no file. -/
theorem tee_correct_iff {j : Job Path} (hpos : 1 ≤ j.input.length) (hle : j.input.length ≤ 10239)
    (hnodup : j.targets.Nodup) :
    Correct j ↔ j.append = false ∨ j.targets = [] ∨ j.chunks.length = 1 := by
  have hne : j.chunks ≠ [] := fun hnil ↦ by simp [Job.input, hnil] at hpos
  have hfit : (start j.files).total_size + j.chunks.flatten.length < BUFFER_SIZE := by
    rw [start, Nat.zero_add]
    exact Nat.lt_succ_of_le hle
  have hstdout : (tee j).1.stdout = j.input := loop_stdout hfit
  have hfiles : ∀ t ∈ j.targets, (tee j).1.files t =
      some (if j.append then (j.files t).getD [] ++ repeated [] j.chunks else j.input) := by
    intro t ht
    rw [tee, loop_files hnodup ht hne hfit, text_start]
    rfl
  constructor
  · intro h
    by_cases happend : j.append
    · refine .inr ((Classical.em (j.targets = [])).imp_right fun htargets ↦ ?_)
      obtain ⟨t, ht⟩ := List.exists_mem_of_ne_nil _ htargets
      have hfile := (hfiles t ht).symm.trans (h.files t ht)
      rw [if_pos happend, if_pos happend, Option.some_inj, List.append_cancel_left_eq] at hfile
      exact (repeated_eq_iff j.ne_nil hne).mp hfile
    · exact .inl (Bool.not_eq_true _ ▸ happend)
  · intro h
    refine ⟨status_eq_zero_iff.mpr hfit, hstdout, fun t ht ↦ ?_⟩
    rw [hfiles t ht]
    rcases h with happend | htargets | hone
    · rw [if_neg (by simp [happend]), if_neg (by simp [happend])]
    · exact absurd ht (htargets ▸ List.not_mem_nil)
    · rw [(repeated_eq_iff j.ne_nil hne).mpr hone]
      rfl

/-- Three pieces for two files, of which one is there and is truncated. -/
def threePieces : Job Nat :=
  ⟨[], [0, 1], [[1], [2, 3], [4]], fun t ↦ if t = 1 then some [9, 9] else none, by decide,
    by decide⟩

theorem correct_threePieces : Correct threePieces :=
  (tee_correct_iff (by decide) (by decide) (by decide)).mpr (.inl rfl)

/-- Two bytes, one by one. -/
def twoPieces : Job Nat := ⟨['a'], [0], [[1], [2]], fun _ ↦ none, by decide, by decide⟩

/-- The first comes twice. -/
theorem correct_twoPieces : ¬ ∀ j : Job Nat, 1 ≤ j.input.length → j.input.length ≤ 10239 →
    j.targets.Nodup → Correct j := by
  intro h
  have hcorrect := (h twoPieces (by decide) (by decide) (by decide)).files 0 (by decide)
  have hfile : (tee twoPieces).1.files 0 = some [1, 1, 2] :=
    loop_files (by decide) (by decide) (by decide) (by decide)
  exact absurd (hfile.symm.trans hcorrect) (by decide)

end SysProg.Tee
