import SysProg.MsgSeq.Ranges
import SysProg.Shell.Background

/-!
# Builtins, and what ends the shell

`is_builtin` of `SP_HW5/Part2` finds the first word of a command in the table `inbuilts`,
and `do_builtin` calls the function found there.  A builtin runs in the shell itself, so
where one calls `exit` the shell is gone.

Besides `bi_quit`, which is to end the shell, three builtins do not always come back
(`doBuiltin_returns_iff`): `bi_builtin` compares a missing argument with the keywords;
`bi_cd` exits when `chdir` fails, as it does without an argument; and `bi_echo` with `-n`
reads a missing number, and exits when the number is out of range.

* `lines_survive_iff`: the shell lives to the end of its input if and only if no line is one of
  these, as long as no process of a command moves the offset of that input.
* `not_main_unknownLines`: otherwise it may read the same lines for ever.
-/

namespace SysProg.Shell

open SysProg.Lib

/-! ## The table -/

/-- The functions of `builtin.c`. -/
inductive Builtin where
  | builtin | cd | echo | hostname | id | pwd | quit
deriving DecidableEq

/-- `inbuilts` -/
def inbuilts : List (Word × Builtin) :=
  [(ascii "builtin", .builtin), (ascii "echo", .echo), (ascii "quit", .quit),
    (ascii "exit", .quit), (ascii "bye", .quit), (ascii "logout", .quit), (ascii "cd", .cd),
    (ascii "pwd", .pwd), (ascii "id", .id), (ascii "hostname", .hostname)]

/-- `is_builtin`, with the handle it leaves in `this`. -/
def isBuiltin (cmd : Word) : Option Builtin := inbuilts.lookup cmd

/-! ## What the builtins do -/

/-- The entry of the user in the password file. -/
structure Passwd where
  uid : BitVec 32
  name : Word
  gid : BitVec 32

/-- What the system answers at the time of a command; `none` where a call fails. -/
structure System where
  /-- The `errno` of a `fork` that fails. -/
  forkError : Option Nat
  chdir : Word → Bool
  getcwd : Option Word
  gethostname : Option Word
  getpwuid : Option Passwd
  /-- The processes that end before the shell reads on, for a command that is no builtin. -/
  leaves : List InStream.Leave

/-- `fork`, `getcwd`, `gethostname` and `getpwuid` succeed. -/
structure System.Works (sys : System) : Prop where
  fork : sys.forkError = none
  getcwd : sys.getcwd.isSome
  gethostname : sys.gethostname.isSome
  getpwuid : sys.getpwuid.isSome

/-- How a shell ends before its input does. -/
inductive Fate where
  | /-- `exit`, and what was printed before. -/ exited (status : Nat) (text : Word)
  | /-- Something is read through NULL. -/ crashed
deriving DecidableEq

/-- `argv[i]` -/
def slot (argv : Argv) (i : Nat) : Option Word := argv[i]?.join

/-- `%d` -/
def decimal (n : BitVec 32) : Word := Lib.decimal n.toInt

/-- `bi_builtin`: each keyword is compared with `argv[1]`. -/
def biBuiltin (argv : Argv) : Except Fate Word :=
  match slot argv 1 with
  | none => .error .crashed
  | some w =>
      if (isBuiltin w).isSome then .ok (w ++ ascii " is a builtin feature.\n")
      else .ok (w ++ ascii " is NOT a builtin feature.\n")

/-- `bi_cd`: `chdir` fails on NULL. -/
def biCd (sys : System) (argv : Argv) : Except Fate Word :=
  if (slot argv 1).elim false sys.chdir then .ok [] else .error (.exited 1 (ascii "chdir"))

/-- `bi_echo`: after `-n`, the word with that number is printed. -/
def biEcho (argv : Argv) : Except Fate Word :=
  match slot argv 1 with
  | none => .ok (ascii "at least one arguement for echo to copy.\n")
  | some w =>
      if w = ascii "-n" then
        match slot argv 2 with
        | none => .error .crashed
        | some num =>
            let n := MsgSeq.atoi num - 0 + 2
            let len := (entries argv).length
            if n.toInt ≤ 2 then .error (.exited 1 (ascii "-n num, num is too small\n"))
            else if len ≤ n.toInt then .error (.exited 1 (ascii "-n num, num is too big\n"))
            else .ok ((slot argv n.toNat).getD [] ++ ascii "\n")
      else .ok ((ascii " ").intercalate ((entries argv).drop 1) ++ ascii "\n")

/-- `bi_hostname` -/
def biHostname (sys : System) : Except Fate Word :=
  match sys.gethostname with
  | none => .error (.exited 1 (ascii "gethostname"))
  | some name => .ok (ascii "hostname: " ++ name ++ ascii "\n")

/-- `bi_id`, which prints the user's name for that of the group. -/
def biId (sys : System) : Except Fate Word :=
  match sys.getpwuid with
  | none => .error (.exited 1 (ascii "getpwnam\n"))
  | some pw =>
      .ok (ascii "UserID: " ++ decimal pw.uid ++ ascii "(" ++ pw.name ++ ascii "), GroupID: " ++
        decimal pw.gid ++ ascii "(" ++ pw.name ++ ascii ")\n")

/-- `bi_pwd` -/
def biPwd (sys : System) : Except Fate Word :=
  match sys.getcwd with
  | none => .error (.exited 1 (ascii "getpwd\n"))
  | some dir => .ok (dir ++ ascii "\n")

/-- `bi_quit` -/
def biQuit : Except Fate Word := .error (.exited 0 [])

/-- `do_builtin`: what is printed, when it comes back. -/
def doBuiltin (sys : System) (argv : Argv) : Builtin → Except Fate Word
  | .builtin => biBuiltin argv
  | .cd => biCd sys argv
  | .echo => biEcho argv
  | .hostname => biHostname sys
  | .id => biId sys
  | .pwd => biPwd sys
  | .quit => biQuit

/-- One command of the main loop.  The state is the number of commands before it. -/
def command (systems : Nat → System) (n : Nat) (ws : List Word) : Except Fate Nat :=
  match (ws.head?.map isBuiltin).join with
  | some b => (doBuiltin (systems n) (nullTerm ws) b).map fun _ ↦ n + 1
  | none => match (systems n).forkError with
      | none => .ok (n + 1)
      | some errno => .error (.exited errno (ascii "fork"))

/-- The commands of the main loop, with the processes that are forked for them. -/
def commandsOf (systems : Nat → System) : Commands Nat Fate where
  run := command systems
  leaves n ws := match (ws.head?.map isBuiltin).join with
    | some _ => []
    | none => (systems n).leaves

/-- No process moves the offset of the standard input. -/
def System.Keeps (sys : System) (seekable : Bool) : Prop := ∀ l ∈ sys.leaves, l.Keeps seekable

/-! ## Which calls come back -/

/-- When the function is safe to call with these words, its own name first. -/
def Safe (sys : System) (ws : List Word) : Builtin → Prop
  | .builtin => ∃ w, ws[1]? = some w
  | .cd => ∃ dir, ws[1]? = some dir ∧ sys.chdir dir
  | .echo => ws[1]? = some (ascii "-n") → ∃ num, ws[2]? = some num ∧
      2 < (MsgSeq.atoi num - 0 + 2).toInt ∧ (MsgSeq.atoi num - 0 + 2).toInt < ws.length
  | .hostname | .id | .pwd => True
  | .quit => False

variable {sys : System} {ws : List Word} {systems : Nat → System}

theorem slot_nullTerm (ws : List Word) (i : Nat) : slot (nullTerm ws) i = ws[i]? :=
  join_getElem?_nullTerm ws i

theorem biBuiltin_returns_iff (ws : List Word) :
    (∃ text, biBuiltin (nullTerm ws) = .ok text) ↔ ∃ w, ws[1]? = some w := by
  rw [biBuiltin, slot_nullTerm]
  cases ws[1]? with
  | none => exact iff_of_false (fun ⟨_, h⟩ ↦ by cases h) fun ⟨_, h⟩ ↦ by cases h
  | some w =>
      refine iff_of_true ?_ ⟨w, rfl⟩
      dsimp only
      split <;> exact ⟨_, rfl⟩

theorem biCd_returns_iff (sys : System) (ws : List Word) :
    (∃ text, biCd sys (nullTerm ws) = .ok text) ↔
      ∃ dir, ws[1]? = some dir ∧ sys.chdir dir := by
  rw [biCd, slot_nullTerm]
  cases ws[1]? with
  | none => exact iff_of_false (fun ⟨_, h⟩ ↦ by cases h) fun ⟨_, h, _⟩ ↦ by cases h
  | some dir =>
      by_cases hdir : sys.chdir dir
      · exact iff_of_true ⟨[], if_pos hdir⟩ ⟨dir, rfl, hdir⟩
      · refine iff_of_false (fun ⟨_, h⟩ ↦ ?_) fun ⟨_, h, hdir'⟩ ↦ ?_
        · cases (if_neg hdir).symm.trans h
        · cases h
          exact hdir hdir'

theorem biEcho_returns_iff (ws : List Word) :
    (∃ text, biEcho (nullTerm ws) = .ok text) ↔
      (ws[1]? = some (ascii "-n") → ∃ num, ws[2]? = some num ∧
        2 < (MsgSeq.atoi num - 0 + 2).toInt ∧ (MsgSeq.atoi num - 0 + 2).toInt < ws.length) := by
  rw [biEcho, slot_nullTerm, slot_nullTerm, entries_nullTerm]
  cases ws[1]? with
  | none => exact iff_of_true ⟨_, rfl⟩ fun h ↦ by cases h
  | some w =>
      by_cases hw : w = ascii "-n"
      · subst hw
        rw [forall_prop_of_true rfl]
        dsimp only
        rw [if_pos rfl]
        cases ws[2]? with
        | none => exact iff_of_false (fun ⟨_, h⟩ ↦ by cases h) fun ⟨_, h, _⟩ ↦ by cases h
        | some num =>
            dsimp only
            by_cases hsmall : (MsgSeq.atoi num - 0 + 2).toInt ≤ 2
            · rw [if_pos hsmall]
              refine iff_of_false (fun ⟨_, h⟩ ↦ by cases h) ?_
              rintro ⟨_, ⟨⟩, h, -⟩
              exact absurd hsmall (Int.not_le.mpr h)
            · by_cases hbig : (ws.length : Int) ≤ (MsgSeq.atoi num - 0 + 2).toInt
              · rw [if_neg hsmall, if_pos hbig]
                refine iff_of_false (fun ⟨_, h⟩ ↦ by cases h) ?_
                rintro ⟨_, ⟨⟩, -, h⟩
                exact absurd hbig (Int.not_le.mpr h)
              · rw [if_neg hsmall, if_neg hbig]
                exact iff_of_true ⟨_, rfl⟩ ⟨num, rfl, Int.not_le.mp hsmall, Int.not_le.mp hbig⟩
      · dsimp only
        rw [if_neg hw]
        exact iff_of_true ⟨_, rfl⟩ fun h ↦ absurd (Option.some.inj h) hw

/-- **Which builtins come back.** -/
theorem doBuiltin_returns_iff (h : sys.Works) (ws : List Word) (b : Builtin) :
    (∃ text, doBuiltin sys (nullTerm ws) b = .ok text) ↔ Safe sys ws b := by
  obtain ⟨-, hcwd, hname, hpw⟩ := h
  cases b with
  | builtin => exact biBuiltin_returns_iff ws
  | cd => exact biCd_returns_iff sys ws
  | echo => exact biEcho_returns_iff ws
  | hostname =>
      obtain ⟨name, hname⟩ := Option.isSome_iff_exists.mp hname
      refine iff_of_true ?_ trivial
      rw [doBuiltin, biHostname, hname]
      exact ⟨_, rfl⟩
  | id =>
      obtain ⟨pw, hpw⟩ := Option.isSome_iff_exists.mp hpw
      refine iff_of_true ?_ trivial
      rw [doBuiltin, biId, hpw]
      exact ⟨_, rfl⟩
  | pwd =>
      obtain ⟨dir, hdir⟩ := Option.isSome_iff_exists.mp hcwd
      refine iff_of_true ?_ trivial
      rw [doBuiltin, biPwd, hdir]
      exact ⟨_, rfl⟩
  | quit => exact iff_of_false (fun ⟨_, h⟩ ↦ by cases h) id

/-! ## The main loop -/

/-- Input lines, without their newlines. -/
structure Input where
  lines : List Word
  length_le : ∀ l ∈ lines, l.length ≤ 253
  newline_notMem : ∀ l ∈ lines, 10 ∉ l
  /-- No line's first word is that of `bi_quit`. -/
  no_quit : ∀ l ∈ lines, ∀ w ∈ (words delim (cstring l)).head?, isBuiltin w ≠ some .quit

namespace Input

/-- What the shell reads. -/
def text (I : Input) : Word := (I.lines.map (· ++ [10])).flatten

/-- The words of each line that has any. -/
def commands (I : Input) : List (List Word) := phrases delim (I.lines.map cstring)

end Input

/-- The shell carries out every line and comes to the end of its input. -/
def Survives (systems : Nat → System) (size : Nat → Nat) (I : Input) (stdin : InStream UInt8) :
    Prop :=
  Main (commandsOf systems) size 0 stdin (I.commands, .ok I.commands.length)

/-- When a command is safe: it is no builtin, or one that comes back. -/
def SafeCommand (sys : System) (ws : List Word) : Prop :=
  ∀ w ∈ ws.head?, ∀ b, isBuiltin w = some b → Safe sys ws b

/-- The newline is no part of a word, whether or not there is a NUL before it. -/
theorem words_cstring_newline (l : Word) :
    words delim (cstring (l ++ [10])) = words delim (cstring l) := by
  by_cases h : 0 ∈ l
  · rw [cstring_append_of_mem h]
  · have hnot : 0 ∉ l ++ [10] := by
      rw [List.mem_append, not_or]
      exact ⟨h, by decide⟩
    rw [cstring_of_notMem hnot, cstring_of_notMem h, words_append_blank l (by decide)]

theorem Input.commands_eq (I : Input) :
    ((I.lines.map (· ++ [10])).map cstring).filterMap parse = I.commands := by
  rw [filterMap_parse, Input.commands, phrases, phrases, List.map_map, List.map_map, List.map_map]
  refine congrArg _ (List.map_congr_left fun l _ ↦ ?_)
  exact words_cstring_newline l

/-- What the loop gets of lines that fit in its buffer. -/
theorem filterMap_reads_text (I : Input) :
    (reads newline longLine I.text).filterMap (parse ∘ cstring) = I.commands := by
  have hlines : lines newline I.text = I.lines.map (· ++ [10]) := by
    refine lines_flatten (by decide) fun l hl c hc ↦ decide_eq_false ?_
    rintro rfl
    exact I.newline_notMem l hl hc
  have hshort : ∀ l ∈ lines newline I.text, l.length < longLine := by
    rw [hlines]
    intro l hl
    obtain ⟨l', hl', rfl⟩ := List.mem_map.mp hl
    have hle := I.length_le l' hl'
    rw [List.length_append, List.length_singleton, longLine]
    omega
  rw [reads_eq_lines (by decide) hshort, hlines, ← List.filterMap_map]
  exact I.commands_eq

theorem keep_commandsOf {seekable : Bool} (h : ∀ n, (systems n).Keeps seekable) :
    (commandsOf systems).Keep seekable := by
  intro n ws l hl
  rw [commandsOf] at hl
  dsimp only at hl
  split at hl
  · cases hl
  · exact h n l hl

theorem map_eq_ok_iff (r : Except Fate Word) (n : Nat) :
    (r.map fun _ ↦ n + 1) = .ok (n + 1) ↔ ∃ text, r = .ok text := by
  cases r with
  | error e => exact iff_of_false (fun h ↦ by cases h) fun ⟨_, h⟩ ↦ by cases h
  | ok text => exact iff_of_true rfl ⟨text, rfl⟩

/-- A command comes back if and only if it is safe. -/
theorem command_ok_iff {n : Nat} (h : (systems n).Works) (ws : List Word) :
    command systems n ws = .ok (n + 1) ↔ SafeCommand (systems n) ws := by
  unfold command SafeCommand
  cases ws.head? with
  | none =>
      refine iff_of_true ?_ fun w hw ↦ by cases hw
      dsimp only [Option.map_none, Option.join_none]
      rw [h.fork]
  | some w =>
      rw [Option.map_some, Option.join_some]
      cases hb : isBuiltin w with
      | none =>
          dsimp only
          rw [h.fork]
          refine iff_of_true rfl fun w' hw' b hb' ↦ ?_
          cases hw'
          cases hb.symm.trans hb'
      | some b =>
          dsimp only
          rw [map_eq_ok_iff, doBuiltin_returns_iff h]
          constructor
          · intro hsafe w' hw' b' hb'
            cases hw'
            cases hb.symm.trans hb'
            exact hsafe
          · intro hsafe
            exact hsafe w rfl b hb

/-- A command comes back, or ends the shell. -/
theorem command_cases (systems : Nat → System) (n : Nat) (ws : List Word) :
    command systems n ws = .ok (n + 1) ∨ ∃ e, command systems n ws = .error e := by
  unfold command
  split
  · next b _ =>
      cases doBuiltin (systems n) (nullTerm ws) b with
      | error e => exact .inr ⟨e, rfl⟩
      | ok text => exact .inl rfl
  · split
    · exact .inl rfl
    · exact .inr ⟨_, rfl⟩

/-- Commands are all carried out when each of them comes back. -/
theorem inTurn_command_iff (systems : Nat → System) (n : Nat) (vs : List (List Word)) :
    inTurn (command systems) n vs = (vs, .ok (n + vs.length)) ↔
      ∀ i ws, vs[i]? = some ws → command systems (n + i) ws = .ok (n + i + 1) := by
  induction vs generalizing n with
  | nil => exact iff_of_true rfl fun i ws h ↦ by cases h
  | cons ws vs ih =>
      rw [inTurn]
      rcases command_cases systems n ws with hok | ⟨e, herror⟩
      · rw [hok]
        have hlength : n + (ws :: vs).length = n + 1 + vs.length := by
          rw [List.length_cons]
          omega
        have hcons : (ws :: (inTurn (command systems) (n + 1) vs).1,
              (inTurn (command systems) (n + 1) vs).2) = (ws :: vs, .ok (n + (ws :: vs).length)) ↔
            inTurn (command systems) (n + 1) vs = (vs, .ok (n + 1 + vs.length)) := by
          rw [hlength, Prod.ext_iff, Prod.ext_iff, List.cons_inj_right]
        refine (hcons.trans (ih (n + 1))).trans ⟨fun h i ws' hi ↦ ?_, fun h i ws' hi ↦ ?_⟩
        · cases i with
          | zero =>
              cases hi
              exact hok
          | succ i =>
              rw [← Nat.add_assoc, Nat.add_right_comm]
              exact h i ws' hi
        · have hnext := h (i + 1) ws' hi
          rwa [← Nat.add_assoc, Nat.add_right_comm] at hnext
      · rw [herror]
        refine iff_of_false (fun h ↦ ?_) fun h ↦ ?_
        · cases congrArg Prod.snd h
        · cases herror.symm.trans (h 0 ws rfl)

theorem survives_iff_safe (h : ∀ n, (systems n).Works) (I : Input) {stdin : InStream UInt8}
    (hstdin : stdin.rest = I.text) (hkeeps : ∀ n, (systems n).Keeps stdin.seekable)
    (size : Nat → Nat) : Survives systems size I stdin ↔
      ∀ i ws, I.commands[i]? = some ws → SafeCommand (systems i) ws := by
  have hzero := inTurn_command_iff systems 0 I.commands
  rw [Nat.zero_add] at hzero
  unfold Survives Main
  rw [exists_mainLoop_iff parse _ size 0 (keep_commandsOf hkeeps), hstdin, filterMap_reads_text]
  refine hzero.trans (forall_congr' fun i ↦ forall_congr' fun ws ↦ forall_congr' fun _ ↦ ?_)
  rw [Nat.zero_add]
  exact command_ok_iff (h i) ws

/-- **When the shell survives its input**: a builtin comes back if and only if the call is safe,
and where no process of a command moves the offset of the standard input, the shell carries out
every line and comes to the end of the input if and only if every command is safe at its time. -/
theorem lines_survive_iff (h : ∀ n, (systems n).Works) (I : Input) (stdin : InStream UInt8)
    (hstdin : stdin.rest = I.text) (hkeeps : ∀ n, (systems n).Keeps stdin.seekable)
    (size : Nat → Nat) :
    (∀ n ws b, (∃ text, doBuiltin (systems n) (nullTerm ws) b = .ok text) ↔
      Safe (systems n) ws b) ∧
    (Survives systems size I stdin ↔
      ∀ i ws, I.commands[i]? = some ws → SafeCommand (systems i) ws) :=
  ⟨fun n ws b ↦ doBuiltin_returns_iff (h n) ws b, survives_iff_safe h I hstdin hkeeps size⟩

/-- A system on which every call succeeds. -/
def System.good : System where
  forkError := none
  chdir _ := true
  getcwd := some (ascii "/")
  gethostname := some (ascii "host")
  getpwuid := some ⟨1000, ascii "user", 1000⟩
  leaves := [.program fun offset ↦ offset]

theorem System.good_works : System.good.Works := ⟨rfl, rfl, rfl, rfl⟩

theorem System.good_keeps (seekable : Bool) : System.good.Keeps seekable := by
  intro l hl
  obtain rfl := List.mem_singleton.mp hl
  exact fun _ ↦ rfl

/-- `cd /tmp`, `ls`, an empty line and `echo -n 1 a` -/
def quietInput : Input where
  lines := [ascii "cd /tmp", ascii "ls", [], ascii "echo -n 1 a"]
  length_le := by decide
  newline_notMem := by decide
  no_quit := by decide

theorem survives_quietInput :
    Survives (fun _ ↦ .good) (fun _ ↦ 4095) quietInput (atStart quietInput.text) := by
  obtain ⟨-, hsurvives⟩ := lines_survive_iff (fun _ ↦ System.good_works) quietInput
    (atStart quietInput.text) rfl (fun _ ↦ System.good_keeps true) fun _ ↦ 4095
  refine hsurvives.mpr fun i ws hi ↦ ?_
  have hcommands : quietInput.commands = [[ascii "cd", ascii "/tmp"], [ascii "ls"],
      [ascii "echo", ascii "-n", ascii "1", ascii "a"]] := by decide
  rw [hcommands] at hi
  have hcd : isBuiltin (ascii "cd") = some .cd := by decide
  have hls : isBuiltin (ascii "ls") = none := by decide
  have hecho : isBuiltin (ascii "echo") = some .echo := by decide
  match i with
  | 0 =>
      rintro w hw b hb
      cases hi
      cases hw
      cases hcd.symm.trans hb
      exact ⟨ascii "/tmp", rfl, rfl⟩
  | 1 =>
      rintro w hw b hb
      cases hi
      cases hw
      cases hls.symm.trans hb
  | 2 =>
      rintro w hw b hb
      cases hi
      cases hw
      cases hecho.symm.trans hb
      exact fun _ ↦ ⟨ascii "1", rfl, by decide, by decide⟩
  | _ + 3 => cases hi

/-- `cd` -/
def cdLine : Input where
  lines := [ascii "cd"]
  length_le := by decide
  newline_notMem := by decide
  no_quit := by decide

/-- `cd` without an argument ends the shell, also when every directory is there. -/
theorem not_survives_cdLine :
    ¬ Survives (fun _ ↦ .good) (fun _ ↦ 4095) cdLine (atStart cdLine.text) := by
  intro h
  have hsafe := (survives_iff_safe (fun _ ↦ System.good_works) cdLine rfl
    (fun _ ↦ System.good_keeps true) _).mp h 0 [ascii "cd"] (by decide) (ascii "cd") rfl .cd
      (by decide)
  obtain ⟨dir, hdir, -⟩ := hsafe
  cases hdir

/-! ## Lines that are read again -/

/-- Three words, none of them a builtin. -/
def unknownLines : Word := ascii "a\nb\nc\n"

/-- A system on which no program is found. -/
def System.notFound : System := { System.good with leaves := [.exit] }

/-- The process for a word that is no builtin gives back what the shell has not looked at. -/
theorem mainLoop_notFound {w line : Word} {stdin stdin' : InStream UInt8} {n : Nat}
    (hfgets : stdin.fgets newline (fun _ ↦ 4095) longLine = some (line, stdin'))
    (hparse : parse (cstring line) = some [w]) (hw : isBuiltin w = none) (fuel : Nat) :
    mainLoop parse (commandsOf fun _ ↦ .notFound) (fun _ ↦ 4095) (fuel + 1) n stdin =
      (mainLoop parse (commandsOf fun _ ↦ .notFound) (fun _ ↦ 4095) fuel (n + 1)
        (stdin'.left [.exit])).map fun r ↦ ([w] :: r.1, r.2) := by
  have hnone : ([w].head?.map isBuiltin).join = none := hw
  have hrun : (commandsOf fun _ ↦ .notFound).run n [w] = .ok (n + 1) := by
    show command (fun _ ↦ .notFound) n [w] = _
    rw [command, hnone]
    rfl
  have hleaves : (commandsOf fun _ ↦ .notFound).leaves n [w] = [.exit] := by
    rw [commandsOf]
    dsimp only
    rw [hnone]
    rfl
  rw [mainLoop_succ hfgets hparse hrun, hleaves]

/-- When the last line has been carried out, nothing of the file has been read. -/
theorem mainLoop_unknownLines (fuel n : Nat) :
    mainLoop parse (commandsOf fun _ ↦ .notFound) (fun _ ↦ 4095) (fuel + 3) n
        (atStart unknownLines) =
      (mainLoop parse (commandsOf fun _ ↦ .notFound) (fun _ ↦ 4095) fuel (n + 3)
        (atStart unknownLines)).map
          fun r ↦ ([ascii "a"] :: [ascii "b"] :: [ascii "c"] :: r.1, r.2) := by
  -- the offset is 6 behind the first line and 2 behind the second, which are read from the buffer
  have hfirst : (atStart unknownLines).fgets newline (fun _ ↦ 4095) longLine =
      some (ascii "a\n", ⟨unknownLines, true, 6, ascii "b\nc\n", false⟩) := by decide
  have hsecond : (⟨unknownLines, true, 2, ascii "b\nc\n", false⟩ : InStream UInt8).fgets newline
      (fun _ ↦ 4095) longLine =
        some (ascii "b\n", ⟨unknownLines, true, 2, ascii "c\n", false⟩) := by decide
  have hthird : (⟨unknownLines, true, 0, ascii "c\n", false⟩ : InStream UInt8).fgets newline
      (fun _ ↦ 4095) longLine = some (ascii "c\n", atStart unknownLines) := by decide
  have hback : (⟨unknownLines, true, 6, ascii "b\nc\n", false⟩ : InStream UInt8).left [.exit] =
      ⟨unknownLines, true, 2, ascii "b\nc\n", false⟩ := by decide
  have hback' : (⟨unknownLines, true, 2, ascii "c\n", false⟩ : InStream UInt8).left [.exit] =
      ⟨unknownLines, true, 0, ascii "c\n", false⟩ := by decide
  have hparse : parse (cstring (ascii "a\n")) = some [ascii "a"] ∧
      parse (cstring (ascii "b\n")) = some [ascii "b"] ∧
      parse (cstring (ascii "c\n")) = some [ascii "c"] := by
    rw [parse_eq, parse_eq, parse_eq]
    decide
  obtain ⟨ha, hb, hc⟩ := hparse
  rw [mainLoop_notFound hfirst ha (by decide), hback, mainLoop_notFound hsecond hb (by decide),
    hback', mainLoop_notFound hthird hc (by decide)]
  simp only [Option.map_map]
  rfl

/-- **The lines of a file are read for ever**, when none of them has a program that is found. -/
theorem not_main_unknownLines (r : List (List Word) × Except Fate Nat) :
    ¬ Main (commandsOf fun _ ↦ .notFound) (fun _ ↦ 4095) 0 (atStart unknownLines) r := by
  suffices h : ∀ fuel n, mainLoop parse (commandsOf fun _ ↦ .notFound) (fun _ ↦ 4095) fuel n
      (atStart unknownLines) = none by
    rintro ⟨fuel, hr⟩
    cases (h fuel 0).symm.trans hr
  intro fuel
  induction fuel using Nat.strongRecOn with
  | ind fuel ih =>
      intro n
      by_cases hfuel : fuel < 3
      · cases hmain : mainLoop parse (commandsOf fun _ ↦ .notFound) (fun _ ↦ 4095) fuel n
          (atStart unknownLines) with
        | none => rfl
        | some r =>
            have hmore := mainLoop_mono hmain (3 - fuel)
            rw [Nat.add_sub_cancel' hfuel.le, ← Nat.zero_add 3, mainLoop_unknownLines] at hmore
            cases hmore
      · obtain ⟨fuel, rfl⟩ := Nat.exists_eq_add_of_le' (Nat.not_lt.mp hfuel)
        rw [mainLoop_unknownLines, ih fuel (by omega)]
        rfl

end SysProg.Shell
