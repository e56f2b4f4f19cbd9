import Mathlib.Data.List.Forall2
import SysProg.Lib.Fds
import SysProg.Shell.Background

/-!
# The descriptors of a command

The child that `run_command` of `SP_HW5/Part2` forks attaches files and pipes to its descriptors 0
and 1 with `open`, `pipe`, `dup2` and `close`, and so do the children that `pipe_and_exec` forks.
What they execute gets the descriptors that are open then.  This holds of every `World`, whatever
the heap makes of the vectors.

* `runImages` are the processes when they call `execvp`, with their descriptor tables.
* `images_show`: they are the calls of `runCommand`, and their tables are that of the shell with the
  two streams in it.
* `ends_held`: no process is left with an end of a pipe that it does not use.
-/

namespace SysProg.Shell

open SysProg.Lib

/-! ## The program -/

/-- What a descriptor refers to. -/
inductive Open where
  | /-- What it has been in the shell. -/ inherited (n : Nat)
  | input (name : Word)
  | output (name : Word)
  | readEnd (n : Nat)
  | writeEnd (n : Nat)
deriving DecidableEq

/-- A process when it calls `execvp`. -/
structure Image where
  process : Nat
  argv : Argv
  fds : Fds Open

/-- `pipe_and_exec` in the process `n`: the calls of `execvp`, with the descriptors. -/
def pipeImages (W : World) (n : Nat) (t : Fds Open) (argv : Argv) : List Image :=
  if _h : pipePresent argv = -1 then []
  else if pipePresent argv = 0 then [⟨n, argv, t⟩]
  else if W.aborts n then []
  else
    let p := (pipePresent argv).toNat
    let pipefds := t.pipe (.readEnd n) (.writeEnd n)
    -- the talking parent keeps the write end as its output, the listening child the read end
    let talking := pipefds.fds.keep pipefds.read pipefds.write 1
    let listening := pipefds.fds.keep pipefds.write pipefds.read 0
    let right := rightArgv (W.right n) argv p
    ⟨n, leftArgv (W.left n) argv p, talking⟩ :: ⟨n + 1, right, listening⟩ ::
      if !(W.right n).wild && right.head?.join.elim false W.program then []
      else pipeImages W (n + 1) listening (emptySlots (W.own n) (argv.drop (p + 1)))
termination_by argv.length
decreasing_by
  rw [length_emptySlots, List.length_drop]
  exact Nat.sub_lt (length_pos_of_pipePresent _h) (Nat.succ_pos _)

/-- What `redirect_in` and `redirect_out` do to the descriptors. -/
def attached? (t : Fds Open) (file : Option Open) (std : Nat) : Fds Open :=
  match file with
  | none => t
  | some file => t.attach file std

/-- The child of `run_command`, when the shell has the descriptors `t`. -/
def runImages (fs : Files) (W : World) (t : Fds Open) (argv : Argv) : List Image :=
  match redirect (ascii "<") fs.canRead argv with
  | .error _ => []
  | .ok (input, argv) =>
      let t := attached? t (input.map .input) 0
      match redirect (ascii ">") fs.canWrite argv with
      | .error _ => []
      | .ok (output, argv) => pipeImages W 0 (attached? t (output.map .output) 1) argv

/-! ## Streams and descriptors -/

/-- What descriptor 0 refers to, for a stream. -/
def inputRef (t₀ : Fds Open) : Stream → Option Open
  | .shell => t₀.ref 0
  | .file name => some (.input name)
  | .pipe n => some (.readEnd n)

/-- What descriptor 1 refers to. -/
def outputRef (t₀ : Fds Open) : Stream → Option Open
  | .shell => t₀.ref 1
  | .file name => some (.output name)
  | .pipe n => some (.writeEnd n)

/-- The descriptors of the shell, with the two streams in place of its own. -/
def withStreams (t₀ : Fds Open) (stdin stdout : Stream) : Nat → Option Open :=
  Function.update (Function.update t₀.ref 0 (inputRef t₀ stdin)) 1 (outputRef t₀ stdout)

/-- The process is the one that makes the call, and has its streams. -/
structure Shows (t₀ : Fds Open) (e : Exec) (x : Image) : Prop where
  process : x.process = e.process
  argv : x.argv = e.argv
  ref : x.fds.ref = withStreams t₀ e.stdin e.stdout

variable {t₀ t : Fds Open} {stdin stdout : Stream} {n std : Nat}

/-- The shell has an input and an output. -/
structure Standard (t₀ : Fds Open) : Prop where
  stdin : t₀.ref 0 ≠ none
  stdout : t₀.ref 1 ≠ none

theorem withStreams_shell (t₀ : Fds Open) : withStreams t₀ .shell .shell = t₀.ref := by
  rw [withStreams, inputRef, outputRef, Function.update_eq_self, Function.update_eq_self]

theorem withStreams_zero (t₀ : Fds Open) (stdin stdout : Stream) :
    withStreams t₀ stdin stdout 0 = inputRef t₀ stdin := by
  rw [withStreams, Function.update_of_ne (by decide), Function.update_self]

theorem withStreams_one (t₀ : Fds Open) (stdin stdout : Stream) :
    withStreams t₀ stdin stdout 1 = outputRef t₀ stdout := by
  rw [withStreams, Function.update_self]

theorem update_input (t₀ : Fds Open) (stdin stdout new : Stream) :
    Function.update (withStreams t₀ stdin stdout) 0 (inputRef t₀ new) =
      withStreams t₀ new stdout := by
  rw [withStreams, Function.update_comm (by decide), Function.update_idem, withStreams]

theorem update_output (t₀ : Fds Open) (stdin stdout new : Stream) :
    Function.update (withStreams t₀ stdin stdout) 1 (outputRef t₀ new) =
      withStreams t₀ stdin new := by
  rw [withStreams, Function.update_idem, withStreams]

theorem Standard.ref_zero (h : Standard t₀) (ht : t.ref = withStreams t₀ stdin stdout) :
    t.ref 0 ≠ none := by
  rw [ht, withStreams_zero]
  cases stdin with
  | shell => exact h.stdin
  | file | pipe => exact Option.some_ne_none _

theorem Standard.ref_one (h : Standard t₀) (ht : t.ref = withStreams t₀ stdin stdout) :
    t.ref 1 ≠ none := by
  rw [ht, withStreams_one]
  cases stdout with
  | shell => exact h.stdout
  | file | pipe => exact Option.some_ne_none _

/-! ## Pipelines -/

/-- The ends of a pipe: one for each side, and nothing else. -/
theorem Standard.pipe (h : Standard t₀) (ht : t.ref = withStreams t₀ stdin stdout) (n : Nat) :
    ((t.pipe (.readEnd n) (.writeEnd n)).fds.keep (t.pipe (.readEnd n) (.writeEnd n)).read
        (t.pipe (.readEnd n) (.writeEnd n)).write 1).ref = withStreams t₀ stdin (.pipe n) ∧
      ((t.pipe (.readEnd n) (.writeEnd n)).fds.keep (t.pipe (.readEnd n) (.writeEnd n)).write
        (t.pipe (.readEnd n) (.writeEnd n)).read 0).ref = withStreams t₀ (.pipe n) stdout := by
  refine ⟨?_, ?_⟩
  · rw [Fds.ref_keep_write (h.ref_one ht), ht]
    exact update_output t₀ stdin stdout (.pipe n)
  · rw [Fds.ref_keep_read (h.ref_zero ht), ht]
    exact update_input t₀ stdin stdout (.pipe n)

theorem shows_execvp (W : World) (ht : t.ref = withStreams t₀ stdin stdout) (argv : Argv)
    (wild : Bool) : Shows t₀ (execvp W n stdin stdout argv wild) ⟨n, argv, t⟩ :=
  ⟨rfl, rfl, ht⟩

theorem pipeImages_show (h : Standard t₀) (W : World) (argv : Argv)
    (ht : t.ref = withStreams t₀ stdin stdout) :
    List.Forall₂ (Shows t₀) (pipeAndExec W n stdin stdout argv) (pipeImages W n t argv) := by
  induction n, stdin, argv using pipeAndExec.induct W stdout generalizing t with
  | case1 n stdin argv hpipe =>
      rw [pipeAndExec, dif_pos hpipe, pipeImages, dif_pos hpipe]
      exact .nil
  | case2 n stdin argv hpipe hnone =>
      rw [pipeAndExec, dif_neg hpipe, if_pos hnone, pipeImages, dif_neg hpipe, if_pos hnone]
      exact .cons (shows_execvp W ht argv false) .nil
  | case3 n stdin argv hpipe hnone haborts =>
      rw [pipeAndExec, dif_neg hpipe, if_neg hnone, if_pos haborts, pipeImages, dif_neg hpipe,
        if_neg hnone, if_pos haborts]
      exact .nil
  | case4 n stdin argv hpipe hnone haborts p =>
      rename_i ih
      obtain ⟨htalking, hlistening⟩ := h.pipe ht n
      have hfound : (!(W.right n).wild &&
          (rightArgv (W.right n) argv p).head?.join.elim false W.program) =
          (execvp W (n + 1) (.pipe n) stdout (rightArgv (W.right n) argv p)
            (W.right n).wild).found := rfl
      rw [pipeAndExec, dif_neg hpipe, if_neg hnone, if_neg haborts, pipeImages, dif_neg hpipe,
        if_neg hnone, if_neg haborts, List.forall₂_cons, List.forall₂_cons, hfound]
      refine ⟨shows_execvp W htalking _ _, shows_execvp W hlistening _ _, ?_⟩
      split
      · exact .nil
      · exact ih hlistening

theorem attached?_ref (h : t.ref std ≠ none) (file : Option Open) :
    (attached? t file std).ref = Function.update t.ref std (file.or (t.ref std)) := by
  cases file with
  | none => exact (Function.update_eq_self std t.ref).symm
  | some file => exact Fds.ref_attach h file

/-- After `redirect_in`. -/
theorem Standard.input (h : Standard t₀) (input : Option Word) :
    (attached? t₀ (input.map .input) 0).ref = withStreams t₀ (input.elim .shell .file) .shell := by
  rw [attached?_ref h.stdin, ← update_input t₀ .shell, withStreams_shell]
  cases input <;> rfl

/-- After `redirect_out`. -/
theorem Standard.output (h : Standard t₀) (ht : t.ref = withStreams t₀ stdin .shell)
    (output : Option Word) :
    (attached? t (output.map .output) 1).ref = withStreams t₀ stdin (output.elim .shell .file) := by
  rw [attached?_ref (h.ref_one ht), ht, withStreams_one,
    ← update_output t₀ stdin .shell (output.elim .shell .file)]
  cases output <;> rfl

theorem runImages_show (h : Standard t₀) (fs : Files) (W : World) (argv : Argv) :
    List.Forall₂ (Shows t₀) (runCommand fs W argv).calls (runImages fs W t₀ argv) := by
  rw [runCommand, runImages, redirectIn, Child.forked]
  cases redirect (ascii "<") fs.canRead argv with
  | error => exact .nil
  | ok r =>
      obtain ⟨input, argv⟩ := r
      simp only [Except.map, Except.bind, redirectOut]
      cases redirect (ascii ">") fs.canWrite argv with
      | error => exact .nil
      | ok r =>
          obtain ⟨output, argv⟩ := r
          exact pipeImages_show h W argv (h.output (h.input input) output)

/-- Pipe `k` is the output of process `k` and the input of the next one. -/
structure Wired (e : Exec) : Prop where
  stdin : ∀ k, e.stdin = .pipe k → e.process = k + 1
  stdout : ∀ k, e.stdout = .pipe k → e.process = k

theorem wired_pipeAndExec (W : World) (argv : Argv) (hin : ∀ k, stdin = .pipe k → n = k + 1)
    (hout : ∀ k, stdout ≠ .pipe k) : ∀ e ∈ pipeAndExec W n stdin stdout argv, Wired e := by
  induction n, stdin, argv using pipeAndExec.induct W stdout with
  | case1 n stdin argv hpipe =>
      rw [pipeAndExec, dif_pos hpipe]
      exact fun _ he ↦ absurd he List.not_mem_nil
  | case2 n stdin argv hpipe hnone =>
      rw [pipeAndExec, dif_neg hpipe, if_pos hnone, List.forall_mem_singleton]
      exact ⟨hin, fun k hk ↦ absurd hk (hout k)⟩
  | case3 n stdin argv hpipe hnone haborts =>
      rw [pipeAndExec, dif_neg hpipe, if_neg hnone, if_pos haborts]
      exact fun _ he ↦ absurd he List.not_mem_nil
  | case4 n stdin argv hpipe hnone haborts p =>
      rename_i ih
      have hpiped : ∀ k, Stream.pipe n = .pipe k → n = k := fun k hk ↦ Stream.pipe.inj hk
      rw [pipeAndExec, dif_neg hpipe, if_neg hnone, if_neg haborts, List.forall_mem_cons,
        List.forall_mem_cons]
      refine ⟨⟨hin, hpiped⟩, ⟨fun k hk ↦ congrArg (· + 1) (hpiped k hk), fun k hk ↦
        absurd hk (hout k)⟩, ?_⟩
      split
      · exact fun _ he ↦ absurd he List.not_mem_nil
      · exact ih fun k hk ↦ congrArg (· + 1) (hpiped k hk)

theorem wired_calls (fs : Files) (W : World) (argv : Argv) :
    ∀ e ∈ (runCommand fs W argv).calls, Wired e := by
  have hfile : ∀ (file : Option Word) (k : Nat), file.elim Stream.shell .file ≠ .pipe k := by
    intro file k
    cases file <;> exact (nomatch ·)
  rw [runCommand, redirectIn, Child.forked]
  cases redirect (ascii "<") fs.canRead argv with
  | error => exact fun _ he ↦ absurd he List.not_mem_nil
  | ok r =>
      obtain ⟨input, argv⟩ := r
      simp only [Except.map, Except.bind, redirectOut]
      cases redirect (ascii ">") fs.canWrite argv with
      | error => exact fun _ he ↦ absurd he List.not_mem_nil
      | ok r =>
          obtain ⟨output, argv⟩ := r
          exact wired_pipeAndExec W argv (fun k hk ↦ absurd hk (hfile input k)) (hfile output)

/-- **The streams of the calls are what is behind descriptors 0 and 1**, and nothing else of the
shell's descriptors has changed; whatever the words of the command line, and whichever programs and
files there are. -/
theorem images_show (h : Standard t₀) (fs : Files) (W : World) (argv : Argv) :
    List.Forall₂ (Shows t₀) (runCommand fs W argv).calls (runImages fs W t₀ argv) :=
  runImages_show h fs W argv

/-- The shell has no pipe open. -/
structure NoPipes (t₀ : Fds Open) : Prop where
  read : ∀ fd k, t₀.ref fd ≠ some (.readEnd k)
  write : ∀ fd k, t₀.ref fd ≠ some (.writeEnd k)

/-- Of each pipe the process holds what it uses: the read end as its input, if it is the process
behind the pipe, and the write end as its output, if it is the one before. -/
structure OwnEnds (x : Image) : Prop where
  read : ∀ fd k, x.fds.ref fd = some (.readEnd k) → fd = 0 ∧ x.process = k + 1
  write : ∀ fd k, x.fds.ref fd = some (.writeEnd k) → fd = 1 ∧ x.process = k

theorem NoPipes.inputRef (h : NoPipes t₀) (s : Stream) (k : Nat) :
    (inputRef t₀ s = some (.readEnd k) → s = .pipe k) ∧ inputRef t₀ s ≠ some (.writeEnd k) := by
  cases s with
  | shell => exact ⟨fun hread ↦ absurd hread (h.read 0 k), h.write 0 k⟩
  | file name => exact ⟨(nomatch ·), (nomatch ·)⟩
  | pipe n =>
      refine ⟨fun hread ↦ ?_, (nomatch ·)⟩
      cases hread
      rfl

theorem NoPipes.outputRef (h : NoPipes t₀) (s : Stream) (k : Nat) :
    (outputRef t₀ s = some (.writeEnd k) → s = .pipe k) ∧ outputRef t₀ s ≠ some (.readEnd k) := by
  cases s with
  | shell => exact ⟨fun hwrite ↦ absurd hwrite (h.write 1 k), h.read 1 k⟩
  | file name => exact ⟨(nomatch ·), (nomatch ·)⟩
  | pipe n =>
      refine ⟨fun hwrite ↦ ?_, (nomatch ·)⟩
      cases hwrite
      rfl

theorem Shows.ownEnds {e : Exec} {x : Image} (h : Shows t₀ e x) (hpipes : NoPipes t₀)
    (hwired : Wired e) : OwnEnds x := by
  have hother : ∀ fd, fd ≠ 0 → fd ≠ 1 → x.fds.ref fd = t₀.ref fd := by
    intro fd hzero hone
    rw [h.ref, withStreams, Function.update_of_ne hone, Function.update_of_ne hzero]
  have hstdin : x.fds.ref 0 = Shell.inputRef t₀ e.stdin := by rw [h.ref, withStreams_zero]
  have hstdout : x.fds.ref 1 = Shell.outputRef t₀ e.stdout := by rw [h.ref, withStreams_one]
  refine ⟨fun fd k hread ↦ ?_, fun fd k hwrite ↦ ?_⟩
  · by_cases hzero : fd = 0
    · subst hzero
      have hpipe := (hpipes.inputRef e.stdin k).1 (hstdin.symm.trans hread)
      exact ⟨rfl, h.process.trans (hwired.stdin k hpipe)⟩
    · by_cases hone : fd = 1
      · subst hone
        exact absurd (hstdout.symm.trans hread) (hpipes.outputRef e.stdout k).2
      · exact absurd ((hother fd hzero hone).symm.trans hread) (hpipes.read fd k)
  · by_cases hone : fd = 1
    · subst hone
      have hpipe := (hpipes.outputRef e.stdout k).1 (hstdout.symm.trans hwrite)
      exact ⟨rfl, h.process.trans (hwired.stdout k hpipe)⟩
    · by_cases hzero : fd = 0
      · subst hzero
        exact absurd (hstdin.symm.trans hwrite) (hpipes.inputRef e.stdin k).2
      · exact absurd ((hother fd hzero hone).symm.trans hwrite) (hpipes.write fd k)

/-- **No end of a pipe is left open** in a process that does not use it: the reader of a pipe does
not hold its write end, and so comes to the end of the file when the writer has ended. -/
theorem ends_held (h : Standard t₀) (hpipes : NoPipes t₀) (fs : Files) (W : World) (argv : Argv) :
    ∀ x ∈ runImages fs W t₀ argv, OwnEnds x := by
  intro x hx
  have hshow := runImages_show h fs W argv
  obtain ⟨e, he, hshows⟩ : ∃ e ∈ (runCommand fs W argv).calls, Shows t₀ e x := by
    obtain ⟨i, hi, rfl⟩ := List.getElem_of_mem hx
    have hlen := hshow.length_eq
    exact ⟨_, List.getElem_mem (hlen.symm ▸ hi), hshow.get (hlen.symm ▸ hi) hi⟩
  exact hshows.ownEnds hpipes (wired_calls fs W argv e he)

/-! ## Three stages -/

/-- A shell with its three standard streams. -/
def threeFds : Fds Open := [some (.inherited 0), some (.inherited 1), some (.inherited 2)]

theorem standard_threeFds : Standard threeFds := ⟨Option.some_ne_none _, Option.some_ne_none _⟩

theorem noPipes_threeFds : NoPipes threeFds := by
  have hinherited : ∀ fd x, threeFds.ref fd = some x → ∃ n, x = .inherited n := by
    intro fd x hx
    match fd with
    | 0 | 1 | 2 => exact ⟨_, (Option.some.inj hx).symm⟩
    | fd + 3 => cases hx
  refine ⟨fun fd k hread ↦ ?_, fun fd k hwrite ↦ ?_⟩
  · obtain ⟨n, hn⟩ := hinherited fd _ hread
    cases hn
  · obtain ⟨n, hn⟩ := hinherited fd _ hwrite
    cases hn

/-- `a | b | c < f` -/
def fromFile : List Word :=
  [ascii "a", bar, ascii "b", bar, ascii "c", ascii "<", ascii "f"]

/-- None of the programs is found, and so there are calls for each of the stages. -/
def World.nothing : World where
  __ := World.zero
  program _ := false
  program_nil := rfl

theorem images_show_fromFile : List.Forall₂ (Shows threeFds)
    (runCommand .all .nothing (nullTerm fromFile)).calls
    (runImages .all .nothing threeFds (nullTerm fromFile)) :=
  images_show standard_threeFds .all .nothing (nullTerm fromFile)

theorem ends_held_fromFile : Standard threeFds ∧ NoPipes threeFds ∧
    ∀ x ∈ runImages .all .nothing threeFds (nullTerm fromFile), OwnEnds x :=
  ⟨standard_threeFds, noPipes_threeFds,
    ends_held standard_threeFds noPipes_threeFds .all .nothing (nullTerm fromFile)⟩

end SysProg.Shell
