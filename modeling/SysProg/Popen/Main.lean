import SysProg.Lib.Lines
import SysProg.Lib.Memory
import SysProg.Popen.Descriptors

/-!
# One command

The `main` of `44_2.c` runs one command with `my_popen`.  It copies what the command writes to
standard output, or passes one line of the input on to it; then it closes the stream.

* `main` is the program, from the table as it starts.  `write` writes all that it is given or
  fails, and what the command does is an argument.
* `exit_eq_zero_iff`: when it returns 0.
* `main_delivers`: what has gone through the pipe then, as far as NULs let it, and that the table
  and the descriptors are what they were.
-/

namespace SysProg.Popen

open SysProg.Lib

/-! ## The program -/

/-- The size of `buf` and of `input`. -/
def bufSize : Nat := 256

def newline (c : UInt8) : Bool := c = 10

/-- What the program finds. -/
structure System where
  popen : PopenOs
  waitpid : Option Int
  /-- What the command writes. -/
  output : List UInt8
  stdin : List UInt8
  /-- Which calls of `write` succeed. -/
  writes : Nat → Bool

/-- What the program leaves. -/
structure Outcome where
  /-- The bytes written to standard output with `write`. -/
  copied : List UInt8
  /-- The bytes written to the command. -/
  given : List UInt8
  /-- What is printed by `printf` and `perror`. -/
  texts : List String
  parent : Parent
  exit : Nat

/-- What `my_pclose` prints of a status. -/
def statusTexts (stat : Int) : List String :=
  if stat % 128 = 0 then ["exited, status=" ++ toString (stat / 256 % 256) ++ "\n"]
  else if stat % 128 < 127 then ["killed by signal " ++ toString (stat % 128) ++ "\n"]
  else if stat % 256 = 127 then ["stopped by signal " ++ toString (stat / 256 % 256) ++ "\n"]
  else []

def PcloseResult.texts : PcloseResult → List String
  | .notFound | .filenoNull => []
  | .waitFailed _ => ["waitpid"]
  | .waited _ stat => statusTexts stat

/-- What `my_popen` prints. -/
def PopenResult.texts (r : PopenResult) : List String :=
  match r.ret with
  | .ok _ => []
  | .error e => [e.text]

/-- The loop over `fgets` and `write`: what is written, and whether it gets to the end. -/
def copyLoop (writes : Nat → Bool) : Nat → List (List UInt8) → List UInt8 × Bool
  | _, [] => ([], true)
  | n, buf :: bufs =>
      if writes n then
        let rest := copyLoop writes (n + 1) bufs
        (cstring buf ++ rest.1, rest.2)
      else ([], false)

/-- The end of `main`. -/
def finish (sys : System) (f : Nat) (copied given : List UInt8) (texts : List String)
    (p : Parent) : Outcome :=
  let closed := myPclose sys.waitpid (some f) p
  let texts := texts ++ closed.1.texts
  if closed.1.ret = some (-1) then ⟨copied, given, texts ++ ["my_pclose"], closed.2, 1⟩
  else ⟨copied, given, texts, closed.2, 0⟩

def prompt : String := "Enter for command: "

/-- `main` -/
def main (sys : System) : List String → Outcome
  | [command, mode] =>
      let opened := myPopen sys.popen command mode .init
      match opened.stream with
      | none => ⟨[], [], opened.texts ++ ["Failed to open process.\n"], opened.parent, 1⟩
      | some f =>
          if mode = "r" then
            match copyLoop sys.writes 0 (reads newline bufSize sys.output) with
            | (copied, false) => ⟨copied, [], ["write"], opened.parent, 1⟩
            | (copied, true) => finish sys f copied [] [] opened.parent
          else if mode = "w" then
            match fgets newline bufSize sys.stdin with
            | none => ⟨[], [], [prompt, "fgets"], opened.parent, 1⟩
            | some (input, _) =>
                if sys.writes 0 then finish sys f [] (cstring input) [prompt] opened.parent
                else ⟨[], [], [prompt, "write"], opened.parent, 1⟩
          else finish sys f [] [] [] opened.parent
  | _ => ⟨[], [], ["Usage: <command> <mode>\n"], .init, 1⟩

variable {sys : System} {command mode : String} {f : Nat} {p : Parent} {copied given : List UInt8}
  {texts : List String} {writes : Nat → Bool} {bufs : List (List UInt8)} {n : Nat}

/-! ## Opening and closing -/

/-- The calls of `my_popen` succeed. -/
structure System.Opens (sys : System) (pfd : Fd × Fd) (pid : Pid) (f : Nat) : Prop where
  pipe : sys.popen.pipe = some pfd
  fork : sys.popen.fork = some pid
  fdopen : sys.popen.fdopen = some f

theorem init_lt : Parent.init.popenCount < maxPopen := by decide

theorem stream_eq_some_iff (command : String) :
    (myPopen sys.popen command mode .init).stream = some f ↔
      (mode = "r" ∨ mode = "w") ∧ ∃ pfd pid, sys.Opens pfd pid f := by
  by_cases hmode : mode = "r" ∨ mode = "w"
  · obtain ⟨std, ends, -, hspawn⟩ := exists_spawn init_lt hmode
    rw [hspawn, and_iff_right hmode]
    constructor
    · intro h
      cases hpipe : sys.popen.pipe with
      | none => simp [spawn, hpipe, PopenResult.stream] at h
      | some pfd =>
          cases hfork : sys.popen.fork with
          | none => simp [spawn, hpipe, hfork, PopenResult.stream] at h
          | some pid =>
              refine ⟨pfd, pid, hpipe, hfork, ?_⟩
              simpa [spawn, hpipe, hfork, PopenResult.stream] using h
    · rintro ⟨pfd, pid, hpipe, hfork, hfdopen⟩
      simp [spawn, hpipe, hfork, hfdopen, PopenResult.stream]
  · refine iff_of_false (fun h ↦ ?_) fun h ↦ hmode h.1
    obtain ⟨-, hnone, -⟩ := @refused .init sys.popen command mode fun h ↦ hmode h.2
    cases hnone.symm.trans h

/-- The stream is the only one in the table, and without its descriptor the parent has those that
it has had. -/
structure Opened (p : Parent) (f : Nat) (pid : Pid) : Prop where
  stacked : Stacked [(f, pid)] p
  fds : (p.close (p.fileno f)).fds = Parent.init.fds

theorem erase_pair (fds : List Fd) (a b : Fd) : ((a :: b :: fds).erase b).erase a = fds := by
  by_cases h : a = b
  · rw [h, List.erase_cons_head, List.erase_cons_head]
  · rw [List.erase_cons_tail (by simpa using h), List.erase_cons_head, List.erase_cons_head]

theorem opened_of_opens (command : String) {pfd : Fd × Fd} {pid : Pid} (h : sys.Opens pfd pid f)
    (hmode : mode = "r" ∨ mode = "w") :
    Opened (myPopen sys.popen command mode .init).parent f pid where
  stacked := by
    have hstacked : Stacked _ (Parent.init.call (.popen sys.popen command mode)) :=
      Stacked.init.popen command mode (by simp [h.pipe]) (by simp [h.fork]) (by simp [h.fdopen])
        List.not_mem_nil
    have hlive : Live.step [] (.popen sys.popen command mode) = [(f, pid)] := by
      simp [Live.step, hmode, h.fork, h.fdopen, maxPopen]
    exact hlive ▸ hstacked
  fds := by
    obtain ⟨a, b⟩ := pfd
    obtain ⟨std, ends, hends, hspawn⟩ := exists_spawn init_lt hmode
    rw [hspawn]
    rcases hends (a, b) with hends | hends
    · simpa [spawn, h.pipe, h.fork, h.fdopen, storeStream, hends, Parent.close] using
        erase_pair Parent.init.fds a b
    · simp [spawn, h.pipe, h.fork, h.fdopen, storeStream, hends, Parent.close]

/-- The stream is found. -/
theorem Opened.find {pid : Pid} (h : Opened p f pid) :
    ∃ i, findSlot (some f) p = some i ∧ p.popenPids i = pid := by
  have hlt : 0 < maxPopen := by decide
  have hslot : [(f, pid)][((⟨0, hlt⟩ : Fin maxPopen) : Nat)]? = some (f, pid) := rfl
  exact ⟨⟨0, hlt⟩, h.stacked.findSlot_eq hslot, (h.stacked.slot _ _ hslot).2⟩

/-- Nothing is left over when `waitpid` succeeds. -/
theorem Opened.finish_eq {pid : Pid} (h : Opened p f pid) {stat : Int}
    (hwait : sys.waitpid = some stat) (hne : stat ≠ -1) (copied given : List UInt8)
    (texts : List String) :
    ∃ q, finish sys f copied given texts p = ⟨copied, given, texts ++ statusTexts stat, q, 0⟩ ∧
      q.popenCount = 0 ∧ q.fds = Parent.init.fds := by
  obtain ⟨i, hfind, -⟩ := h.find
  have hcount : (p.close (p.fileno f)).popenCount = 1 := h.stacked.count
  have hret : (PcloseResult.waited (p.popenPids i) stat).ret ≠ some (-1) :=
    fun heq ↦ hne (Option.some.inj heq)
  rw [finish, hwait, myPclose, hfind]
  dsimp only
  rw [if_neg hret]
  exact ⟨_, rfl, congrArg (· - 1) hcount, h.fds⟩

theorem Opened.finish_exit {pid : Pid} (h : Opened p f pid) :
    (finish sys f copied given texts p).exit = 0 ↔ ∃ stat, sys.waitpid = some stat ∧ stat ≠ -1 := by
  constructor
  · intro hexit
    obtain ⟨i, hfind, -⟩ := h.find
    rw [finish, myPclose, hfind] at hexit
    cases hwait : sys.waitpid with
    | none =>
        rw [hwait] at hexit
        cases hexit
    | some stat =>
        refine ⟨stat, rfl, ?_⟩
        rintro rfl
        rw [hwait] at hexit
        cases hexit
  · rintro ⟨stat, hwait, hne⟩
    obtain ⟨q, hfinish, -⟩ := h.finish_eq hwait hne copied given texts
    rw [hfinish]

/-! ## Copying -/

theorem copyLoop_snd : (copyLoop writes n bufs).2 = true ↔ ∀ k < bufs.length, writes (n + k) := by
  induction bufs generalizing n with
  | nil => simp [copyLoop]
  | cons buf bufs ih =>
      rw [copyLoop, List.length_cons, Nat.forall_lt_succ_left, Nat.add_zero]
      cases hwrite : writes n with
      | false => simp
      | true =>
          have hstep : ∀ k, n + 1 + k = n + (k + 1) := fun k ↦ by omega
          simp [ih, hstep]

theorem copyLoop_fst (h : (copyLoop writes n bufs).2 = true) :
    (copyLoop writes n bufs).1 = bufs.flatMap cstring := by
  induction bufs generalizing n with
  | nil => rfl
  | cons buf bufs ih =>
      rw [copyLoop] at h ⊢
      cases hwrite : writes n with
      | false =>
          rw [hwrite] at h
          cases h
      | true =>
          rw [hwrite] at h
          rw [List.flatMap_cons, ← ih h]
          rfl

/-! ## The whole program -/

/-- The loop of the mode succeeds. -/
def System.Copies (sys : System) (mode : String) : Prop :=
  mode = "r" ∧ (∀ k < (reads newline bufSize sys.output).length, sys.writes k) ∨
    mode = "w" ∧ sys.stdin ≠ [] ∧ sys.writes 0

/-- All calls succeed. -/
structure System.Works (sys : System) (mode : String) : Prop where
  opens : ∃ pfd pid f, sys.Opens pfd pid f
  copies : sys.Copies mode
  waits : ∃ stat, sys.waitpid = some stat ∧ stat ≠ -1

theorem System.Copies.eq_or_eq (h : sys.Copies mode) : mode = "r" ∨ mode = "w" :=
  h.imp And.left And.left

/-- What is copied and given when the loop of the mode succeeds. -/
structure Delivered (sys : System) (mode : String) (copied given : List UInt8) : Prop where
  read : mode = "r" →
    copied = (reads newline bufSize sys.output).flatMap cstring ∧ given = []
  write : mode = "w" → copied = [] ∧
    ∃ l ls, lines newline sys.stdin = l :: ls ∧ given = cstring (l.take (bufSize - 1))

/-- The line that is given to the command. -/
theorem exists_fgets {s : List UInt8} (h : s ≠ []) : ∃ l ls rest,
    lines newline s = l :: ls ∧ fgets newline bufSize s = some (l.take (bufSize - 1), rest) := by
  obtain ⟨l, ls, hlines⟩ := List.exists_cons_of_ne_nil (mt lines_eq_nil_iff.mp h)
  obtain ⟨rest, hget, -⟩ := getLine_eq hlines (bufSize - 1)
  refine ⟨l, ls, rest, hlines, ?_⟩
  rw [fgets, hget]
  exact h

/-- The middle of `main`. -/
theorem main_of_stream (hstream : (myPopen sys.popen command mode .init).stream = some f)
    (hmode : mode = "r" ∨ mode = "w") :
    (¬ sys.Copies mode ∧ (main sys [command, mode]).exit = 1) ∨
    (sys.Copies mode ∧ ∃ copied given texts, Delivered sys mode copied given ∧
      main sys [command, mode] =
        finish sys f copied given texts (myPopen sys.popen command mode .init).parent) := by
  rw [main, hstream]
  rcases hmode with rfl | rfl
  · dsimp only
    rw [if_pos rfl]
    cases hloop : copyLoop sys.writes 0 (reads newline bufSize sys.output) with
    | mk copied ended =>
        have hended : ended = true ↔ ∀ k < _, sys.writes (0 + k) := hloop ▸ copyLoop_snd
        simp only [Nat.zero_add] at hended
        cases ended with
        | false =>
            refine .inl ⟨?_, rfl⟩
            rintro (⟨-, hall⟩ | ⟨h, -⟩)
            · cases hended.mpr hall
            · exact absurd h (by decide)
        | true =>
            have hcopied : copied = _ := hloop ▸ copyLoop_fst (congrArg Prod.snd hloop)
            have hdelivered : Delivered sys "r" copied [] :=
              ⟨fun _ ↦ ⟨hcopied, rfl⟩, fun h ↦ absurd h (by decide)⟩
            exact .inr ⟨.inl ⟨rfl, hended.mp rfl⟩, copied, [], [], hdelivered, rfl⟩
  · dsimp only
    rw [if_neg (by decide), if_pos rfl]
    by_cases hnil : sys.stdin = []
    · rw [hnil]
      refine .inl ⟨?_, rfl⟩
      rintro (⟨h, -⟩ | ⟨-, h, -⟩)
      · exact absurd h (by decide)
      · exact h hnil
    · obtain ⟨l, ls, rest, hlines, hget⟩ := exists_fgets hnil
      rw [hget]
      dsimp only
      cases hwrite : sys.writes 0 with
      | false =>
          refine .inl ⟨?_, rfl⟩
          rintro (⟨h, -⟩ | ⟨-, -, h⟩)
          · exact absurd h (by decide)
          · cases hwrite.symm.trans h
      | true =>
          have hdelivered : Delivered sys "w" [] (cstring (l.take (bufSize - 1))) :=
            ⟨fun h ↦ absurd h (by decide), fun _ ↦ ⟨rfl, l, ls, hlines, rfl⟩⟩
          exact .inr ⟨.inr ⟨rfl, hnil, hwrite⟩, [], _, [prompt], hdelivered, rfl⟩

theorem exit_eq_zero_iff : (main sys [command, mode]).exit = 0 ↔ sys.Works mode := by
  cases hstream : (myPopen sys.popen command mode .init).stream with
  | none =>
      refine iff_of_false (fun h ↦ ?_) fun h ↦ ?_
      · rw [main, hstream] at h
        cases h
      · obtain ⟨pfd, pid, f, hopens⟩ := h.opens
        have hsome : (myPopen sys.popen command mode .init).stream = some f :=
          (stream_eq_some_iff command).mpr ⟨h.copies.eq_or_eq, pfd, pid, hopens⟩
        cases hstream.symm.trans hsome
  | some f =>
      obtain ⟨hmode, pfd, pid, hopens⟩ := (stream_eq_some_iff command).mp hstream
      have hopened := opened_of_opens command hopens hmode
      rcases main_of_stream hstream hmode with
        ⟨hnot, hexit⟩ | ⟨hcopies, copied, given, texts, -, heq⟩
      · rw [hexit]
        exact iff_of_false Nat.one_ne_zero fun h ↦ hnot h.copies
      · rw [heq, hopened.finish_exit]
        exact ⟨fun hwait ↦ ⟨⟨pfd, pid, f, hopens⟩, hcopies, hwait⟩, fun h ↦ h.waits⟩

/-- **What the program delivers**: it returns 0 if and only if all calls succeed.  Then what the
command has written is on standard output, up to the NULs in it, or the command has got what fits
into the buffer of the first line; and the table and the descriptors are what they were. -/
theorem main_delivers (sys : System) (command mode : String) :
    ((main sys [command, mode]).exit = 0 ↔ sys.Works mode) ∧
    (sys.Works mode →
      Delivered sys mode (main sys [command, mode]).copied (main sys [command, mode]).given ∧
      (mode = "r" → ((main sys [command, mode]).copied = sys.output ↔ 0 ∉ sys.output)) ∧
      (main sys [command, mode]).parent.popenCount = 0 ∧
      (main sys [command, mode]).parent.fds = Parent.init.fds) := by
  refine ⟨exit_eq_zero_iff, fun h ↦ ?_⟩
  obtain ⟨pfd, pid, f, hopens⟩ := h.opens
  obtain ⟨stat, hwait, hne⟩ := h.waits
  have hmode := h.copies.eq_or_eq
  have hstream := (stream_eq_some_iff command).mpr ⟨hmode, pfd, pid, hopens⟩
  have hopened := opened_of_opens command hopens hmode
  rcases main_of_stream hstream hmode with ⟨hnot, -⟩ | ⟨-, copied, given, texts, hdelivered, heq⟩
  · exact absurd h.copies hnot
  · obtain ⟨q, hfinish, hcount, hfds⟩ := hopened.finish_eq hwait hne copied given texts
    rw [heq, hfinish]
    refine ⟨hdelivered, fun hr ↦ ?_, hcount, hfds⟩
    have hall := flatMap_cstring_eq_iff (reads newline bufSize sys.output)
    rw [flatten_reads (by decide)] at hall
    rw [(hdelivered.read hr).1]
    exact hall

/-- A command that writes a line, and ends with 0. -/
def echoing : System where
  popen := ⟨some (3, 4), some 7, some 100⟩
  waitpid := some 0
  output := [104, 105, 10]
  stdin := []
  writes _ := true

theorem main_delivers_echoing : (main echoing ["echo hi", "r"]).copied = [104, 105, 10] := by
  have hworks : echoing.Works "r" :=
    ⟨⟨(3, 4), 7, 100, rfl, rfl, rfl⟩, .inl ⟨rfl, fun _ _ ↦ rfl⟩, 0, rfl, by decide⟩
  obtain ⟨-, hcopied, -⟩ := (main_delivers echoing "echo hi" "r").2 hworks
  exact (hcopied rfl).mpr (by decide)

end SysProg.Popen
