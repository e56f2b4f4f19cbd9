import SysProg.ProcTree.Status

/-!
# The program `12_3`

It looks through the descriptors of all processes for a file, and prints a line for each that is
open on it.

* `main_complete`: there is a line for each such descriptor, in the order of the directories.
* `main_stops`: the first process whose directory of descriptors cannot be opened ends the program,
  and nothing is printed for it and for those behind it.
-/

namespace SysProg.ProcTree.Openers

open SysProg.Lib

/-! ## The program -/

/-- An entry of `/proc/PID/fd`. -/
structure Fd where
  d_name : List UInt8
  /-- What `readlink` gives, or its `errno`. -/
  link : Except Int (List UInt8)
  /-- The `status` file of the process, if it is opened for this descriptor. -/
  status : Except Int (List UInt8)

/-- An entry of `/proc`. -/
structure Entry where
  d_name : List UInt8
  /-- `opendir` of its directory of descriptors. -/
  fds : Except Int (List Fd)

/-- `atoi(entry->d_name)` -/
def Entry.pid (e : Entry) : Int := Strtol.atoi e.d_name

/-- `"/proc/%d/fd"` -/
def fdPath (pid : Int) : List UInt8 := ascii "/proc/" ++ decimal pid ++ ascii "/fd"

/-- Where the program is: it has printed something and goes on, or it has ended, or what it does is
not defined. -/
inductive Run where
  | running (stdout : List UInt8)
  | ended (stdout : List UInt8) (status : Nat)
  | undefined

/-- What comes next, if the program goes on. -/
def Run.andThen : Run → (List UInt8 → Run) → Run
  | .running stdout, next => next stdout
  | run, _ => run

/-- The name in the first line `Name` of the file; without one the buffer is not initialized. -/
def readName : List (List UInt8) → Option (List UInt8)
  | [] => none
  | line :: lines => if hasKey "Name:" line then nameOf line else readName lines

/-- `printf("Pid: %d, Cmd Name: %s\n",PID,Name)` -/
def shown (pid : Int) (name : List UInt8) : List UInt8 :=
  ascii "Pid: " ++ decimal pid ++ ascii ", Cmd Name: " ++ name ++ ascii "\n"

/-- A descriptor of the process `pid`; `target` is `argv[1]`. -/
def nextFd (target : List UInt8) (pid : Int) (stdout : List UInt8) (fd : Fd) : Run :=
  if numeric fd.d_name then
    match fd.link with
    | .error errno => .ended (stdout ++ ascii "readlink,errno:" ++ decimal errno) 1
    | .ok link =>
        if cstring (link.take (MAX_SIZE - 1)) = target then
          match fd.status with
          | .error _ => .ended (stdout ++ ascii "failed to open " ++ statusPath pid) 1
          | .ok file => match readName (reads (· = newline) MAX_SIZE file) with
            | none => .undefined
            | some name => .running (stdout ++ shown pid name)
        else .running stdout
  else .running stdout

/-- The loop over the descriptors. -/
def fdLoop (target : List UInt8) (pid : Int) : List Fd → List UInt8 → Run
  | [], stdout => .running stdout
  | fd :: fds, stdout => (nextFd target pid stdout fd).andThen (fdLoop target pid fds)

/-- A process. -/
def nextEntry (target : List UInt8) (stdout : List UInt8) (e : Entry) : Run :=
  if numeric e.d_name then
    match e.fds with
    | .error errno => .ended (stdout ++ ascii "opendir failead on '" ++ fdPath e.pid ++
        ascii "', errno: " ++ decimal errno ++ ascii "\n") 1
    | .ok fds => fdLoop target e.pid fds stdout
  else .running stdout

/-- The loop over the processes. -/
def loop (target : List UInt8) : List Entry → List UInt8 → Run
  | [], stdout => .running stdout
  | e :: es, stdout => (nextEntry target stdout e).andThen (loop target es)

/-- The program with one argument: what it prints, and its exit status. -/
def main (target : List UInt8) (entries : List Entry) : Option (List UInt8 × Nat) :=
  match loop target entries [] with
  | .running stdout => some (stdout, 0)
  | .ended stdout status => some (stdout, status)
  | .undefined => none

/-! ## What is in the directories -/

/-- A directory of descriptors of a process with the file `s`: an entry for each, and others. -/
inductive Descriptors (s : Status) : List Fd → List (List UInt8) → Prop
  | nil : Descriptors s [] []
  | other {fd fds links} (hfd : numeric fd.d_name = false) (h : Descriptors s fds links) :
      Descriptors s (fd :: fds) links
  | fd {n : Nat} {link : List UInt8} {fds links} (hzero : 0 ∉ link)
      (hlen : link.length < MAX_SIZE) (h : Descriptors s fds links) :
      Descriptors s (⟨decimal n, .ok link, .ok s.text⟩ :: fds) (link :: links)

/-- A process, with what its descriptors are open on. -/
structure Holder extends Running where
  links : List (List UInt8)

/-- Each process can be looked at. -/
inductive Lists : List Entry → List Holder → Prop
  | nil : Lists [] []
  | other {e es ps} (he : numeric e.d_name = false) (h : Lists es ps) : Lists (e :: es) ps
  | process {p : Holder} {fds es ps} (hs : p.status.Valid) (hpid : p.pid < 2 ^ 31)
      (hfds : Descriptors p.status fds p.links) (h : Lists es ps) :
      Lists (⟨decimal p.pid, .ok fds⟩ :: es) (p :: ps)

/-- A line for each descriptor that is open on the file. -/
def Holder.shown (target : List UInt8) (p : Holder) : List UInt8 :=
  (p.links.filter (· = target)).flatMap fun _ ↦ Openers.shown p.pid p.status.name

variable {target : List UInt8} {entries : List Entry} {ps : List Holder}

/-! ## What is printed -/

theorem readName_text {s : Status} (h : s.Valid) :
    readName (reads (· = newline) MAX_SIZE s.text) = some s.name := by
  have hkey : hasKey "Name:" (s.nameLine ++ [newline]) = true := rfl
  rw [Status.reads_text h, Status.lines, List.map_cons, List.cons_append, readName, if_pos hkey,
    h.nameOf_nameLine]

theorem fdLoop_eq {s : Status} (hs : s.Valid) {fds : List Fd} {links : List (List UInt8)}
    (h : Descriptors s fds links) (pid : Int) (stdout : List UInt8) :
    fdLoop target pid fds stdout = .running (stdout ++
      (links.filter (· = target)).flatMap fun _ ↦ shown pid s.name) := by
  induction h generalizing stdout with
  | nil => exact congrArg Run.running (List.append_nil _).symm
  | other hfd _ ih =>
      rw [fdLoop, nextFd, if_neg (by simp [hfd])]
      exact ih stdout
  | @fd n link fds links hzero hlen _ ih =>
      have hlink : cstring (link.take (MAX_SIZE - 1)) = link := by
        rw [List.take_of_length_le (Nat.le_sub_one_of_lt hlen), cstring_of_notMem hzero]
      have hnext : nextFd target pid stdout ⟨decimal n, .ok link, .ok s.text⟩ =
          .running (stdout ++ if link = target then shown pid s.name else []) := by
        rw [nextFd, numeric_decimal, if_pos rfl]
        simp only [hlink, readName_text hs]
        split
        · rfl
        · rw [List.append_nil]
      rw [fdLoop, hnext]
      refine (ih _).trans (congrArg Run.running ?_)
      by_cases htarget : link = target
      · rw [if_pos htarget, List.filter_cons_of_pos (by simpa using htarget), List.flatMap_cons,
          List.append_assoc]
      · rw [if_neg htarget, List.filter_cons_of_neg (by simpa using htarget), List.append_nil]

theorem loop_append (es es' : List Entry) (stdout : List UInt8) :
    loop target (es ++ es') stdout = (loop target es stdout).andThen (loop target es') := by
  induction es generalizing stdout with
  | nil => rfl
  | cons e es ih =>
      rw [List.cons_append, loop, loop]
      cases nextEntry target stdout e with
      | running stdout => exact ih stdout
      | ended | undefined => rfl

theorem pid_decimal {pid : Nat} (hpid : pid < 2 ^ 31) (fds : Except Int (List Fd)) :
    Entry.pid ⟨decimal pid, fds⟩ = pid :=
  ProcTree.pid_decimal hpid (.error 0)

theorem loop_eq (h : Lists entries ps) (stdout : List UInt8) :
    loop target entries stdout = .running (stdout ++ ps.flatMap (Holder.shown target)) := by
  induction h generalizing stdout with
  | nil => exact congrArg Run.running (List.append_nil _).symm
  | other he _ ih =>
      rw [loop, nextEntry, if_neg (by simp [he])]
      exact ih stdout
  | @process p fds es ps hs hpid hfds _ ih =>
      have hnext : nextEntry target stdout ⟨decimal p.pid, .ok fds⟩ =
          .running (stdout ++ p.shown target) := by
        rw [nextEntry, numeric_decimal, if_pos rfl]
        simp only [pid_decimal hpid, fdLoop_eq hs hfds]
        rfl
      rw [loop, hnext]
      refine (ih _).trans ?_
      rw [List.flatMap_cons, List.append_assoc]

/-- **A line for each descriptor** that is open on the file, in the order of the directories. -/
theorem main_complete (h : Lists entries ps) (target : List UInt8) :
    main target entries = some (ps.flatMap (Holder.shown target), 0) := by
  rw [main, loop_eq h, List.nil_append]

/-- **The first process that cannot be looked at ends the program**: whatever comes behind it, there
are only the lines for those before it. -/
theorem main_stops (h : Lists entries ps) {pid : Nat} (hpid : pid < 2 ^ 31) (errno : Int)
    (target : List UInt8) (more : List Entry) :
    main target (entries ++ ⟨decimal pid, .error errno⟩ :: more) =
      some (ps.flatMap (Holder.shown target) ++ ascii "opendir failead on '" ++ fdPath pid ++
        ascii "', errno: " ++ decimal errno ++ ascii "\n", 1) := by
  have hnext : ∀ stdout, nextEntry target stdout ⟨decimal pid, .error errno⟩ =
      .ended (stdout ++ ascii "opendir failead on '" ++ fdPath pid ++ ascii "', errno: " ++
        decimal errno ++ ascii "\n") 1 := by
    intro stdout
    rw [nextEntry, numeric_decimal, if_pos rfl]
    simp only [pid_decimal hpid]
  rw [main, loop_append, loop_eq h, List.nil_append, Run.andThen, loop, hnext]
  rfl

/-! ## A process with three descriptors -/

/-- Two of them are open on `a`. -/
def holder : Holder := ⟨child, [[97], [98], [97]]⟩

def holderFds : List Fd :=
  [⟨ascii "..", .error 0, .error 0⟩, ⟨decimal (0 : Nat), .ok [97], .ok child.status.text⟩,
    ⟨decimal (1 : Nat), .ok [98], .ok child.status.text⟩,
    ⟨decimal (2 : Nat), .ok [97], .ok child.status.text⟩]

theorem descriptors_holder : Descriptors child.status holderFds holder.links :=
  .other rfl (.fd (by decide) (by decide) (.fd (by decide) (by decide)
    (.fd (by decide) (by decide) .nil)))

def holderEntry : Entry := ⟨decimal child.pid, .ok holderFds⟩

theorem lists_holder : Lists [⟨ascii "self", .error 0⟩, holderEntry] [holder] :=
  .other rfl (.process (p := holder) valid_child (by decide) descriptors_holder .nil)

theorem main_complete_holder : main [97] [⟨ascii "self", .error 0⟩, holderEntry] =
    some ([holder].flatMap (Holder.shown [97]), 0) :=
  main_complete lists_holder [97]

/-- A process of another user comes next, and then one that would be printed. -/
theorem main_stops_holder : main [97]
    ([⟨ascii "self", .error 0⟩, holderEntry] ++ ⟨decimal (8 : Nat), .error 13⟩ :: [holderEntry]) =
      some ([holder].flatMap (Holder.shown [97]) ++ ascii "opendir failead on '" ++ fdPath 8 ++
        ascii "', errno: " ++ decimal 13 ++ ascii "\n", 1) :=
  main_stops lists_holder (by decide) 13 [97] [holderEntry]

end SysProg.ProcTree.Openers
