import Mathlib.Logic.Function.Basic

/-!
# `my_popen` and `my_pclose`

A model of the pipe-stream table of `SP_HW6/44_2.c`: the two parallel arrays
`popen_streams` and `popen_pids`, the counter `popen_count`, and the two
functions that change them.  What the operating system answers to a call
(`pipe`, `fork`, `fdopen`, `waitpid`) is an argument of the call, so that every
behaviour of the environment is some argument.

The branch of `my_popen` the child runs is the list of system calls it makes up
to `execl`; it is part of the result, because it reads the same table.
-/

namespace SysProg.Popen

/-- How many streams can be open at once (`MAX_POPEN`). -/
def maxPopen : Nat := 128

abbrev Fd := Nat
abbrev Pid := Nat

/-- A `FILE *`: the address of a stream, or `NULL`. -/
abbrev FilePtr := Option Nat

def stdinFileno : Fd := 0
def stdoutFileno : Fd := 1

/-- The parent process: the table, the descriptor behind each stream and the
descriptors it has open.  The counter never leaves the arrays, because
`my_popen` checks the limit before it stores. -/
structure Parent where
  /-- `popen_streams`. -/
  popenStreams : Fin maxPopen → FilePtr
  /-- `popen_pids`. -/
  popenPids : Fin maxPopen → Pid
  /-- `popen_count`. -/
  popenCount : Nat
  popenCount_le : popenCount ≤ maxPopen
  /-- What `fileno` returns for a stream. -/
  fileno : Nat → Fd
  /-- The open descriptors. -/
  fds : List Fd

namespace Parent

/-- The globals as the program starts: arrays zeroed, count `0`. -/
def init : Parent where
  popenStreams _ := none
  popenPids _ := 0
  popenCount := 0
  popenCount_le := Nat.zero_le _
  fileno _ := 0
  fds := [0, 1, 2]

/-- The slots `0 .. popen_count - 1`, in the order the loops visit them. -/
def slots (p : Parent) : List (Fin maxPopen) :=
  (List.finRange p.popenCount).map (Fin.castLE p.popenCount_le)

def close (p : Parent) (fd : Fd) : Parent := { p with fds := p.fds.erase fd }

end Parent

/-! ## `my_popen` -/

/-- Why `my_popen` returned `NULL` before reaching the table. -/
inductive PopenError where
  | limit | pipe | fork | mode
deriving DecidableEq, Repr

/-- What it printed (for `pipe` and `fork`, the argument of `perror`). -/
def PopenError.text : PopenError → String
  | .limit => "Error: reached maximum popen limit.\n"
  | .pipe => "pipe"
  | .fork => "fork"
  | .mode => "wrong mode\n"

/-- The answers of the system to one `my_popen`. -/
structure PopenOs where
  /-- The two ends `pfd[0]`, `pfd[1]`, or a failure. -/
  pipe : Option (Fd × Fd)
  /-- The child's pid, or a failure. -/
  fork : Option Pid
  /-- The stream, or `NULL`. -/
  fdopen : FilePtr
deriving DecidableEq, Repr

/-- The system calls of the child. -/
inductive ChildCall where
  | close (fd : Fd)
  | dup2 (oldfd newfd : Fd)
  | execl (command : String)
  | /-- `fileno(NULL)`, which is undefined. -/ filenoNull
deriving DecidableEq, Repr

structure PopenResult where
  ret : Except PopenError FilePtr
  parent : Parent
  /-- What the child did, if there is one. -/
  child : List ChildCall

/-- The loop of the child over the streams the parent has open. -/
def closeStreams (p : Parent) : List ChildCall :=
  p.slots.map fun i ↦ match p.popenStreams i with
    | some f => .close (p.fileno f)
    | none => .filenoNull

/-- The parent's part after `fork`: close the end given to the child, make a
stream of the kept one, and store it with the pid in the next slot. -/
def storeStream (p : Parent) (h : p.popenCount < maxPopen) (keep give : Fd) (pid : Pid)
    (stream : FilePtr) : Parent :=
  { p.close give with
    popenStreams := Function.update p.popenStreams ⟨p.popenCount, h⟩ stream
    popenPids := Function.update p.popenPids ⟨p.popenCount, h⟩ pid
    popenCount := p.popenCount + 1
    popenCount_le := h
    fileno := match stream with
      | some f => Function.update p.fileno f keep
      | none => p.fileno }

/-- One mode of `my_popen`.  The parent keeps one end of the pipe and the child
puts the other on its descriptor `std`. -/
def spawn (os : PopenOs) (command : String) (std : Fd) (ends : Fd × Fd → Fd × Fd) (p : Parent)
    (h : p.popenCount < maxPopen) : PopenResult :=
  match os.pipe with
  | none => ⟨.error .pipe, p, []⟩
  | some pfd =>
      let keep := (ends pfd).1
      let give := (ends pfd).2
      let p := { p with fds := pfd.1 :: pfd.2 :: p.fds }
      match os.fork with
      | none => ⟨.error .fork, p, []⟩
      | some pid =>
          { ret := .ok os.fdopen
            parent := storeStream p h keep give pid os.fdopen
            child := [.close keep, .dup2 give std, .close give] ++ closeStreams p ++
              [.execl command] }

/-- `my_popen(command, mode)`. -/
def myPopen (os : PopenOs) (command mode : String) (p : Parent) : PopenResult :=
  if h : maxPopen ≤ p.popenCount then ⟨.error .limit, p, []⟩
  else if mode = "r" then
    spawn os command stdoutFileno (fun pfd ↦ (pfd.1, pfd.2)) p (Nat.lt_of_not_le h)
  else if mode = "w" then
    spawn os command stdinFileno (fun pfd ↦ (pfd.2, pfd.1)) p (Nat.lt_of_not_le h)
  else ⟨.error .mode, p, []⟩

/-- The table of `q` is the table of `p` with one more entry on top. -/
structure Pushed (p q : Parent) (stream : FilePtr) (pid : Pid) : Prop where
  count : q.popenCount = p.popenCount + 1
  streams : ∀ i : Fin maxPopen,
    q.popenStreams i = if (i : Nat) = p.popenCount then stream else p.popenStreams i
  pids : ∀ i : Fin maxPopen,
    q.popenPids i = if (i : Nat) = p.popenCount then pid else p.popenPids i

theorem storeStream_pushed (p : Parent) (h : p.popenCount < maxPopen) (keep give : Fd) (pid : Pid)
    (stream : FilePtr) : Pushed p (storeStream p h keep give pid stream) stream pid where
  count := rfl
  streams i := by simp [storeStream, Function.update_apply, Fin.ext_iff]
  pids i := by simp [storeStream, Function.update_apply, Fin.ext_iff]

theorem spawn_pushed {os : PopenOs} {pfd : Fd × Fd} {pid : Pid} (hpipe : os.pipe = some pfd)
    (hfork : os.fork = some pid) (command : String) (std : Fd) (ends : Fd × Fd → Fd × Fd)
    (p : Parent) (h : p.popenCount < maxPopen) :
    Pushed p (spawn os command std ends p h).parent os.fdopen pid := by
  simp only [spawn, hpipe, hfork]
  -- opening the two descriptors does not touch the table
  have hpush := storeStream_pushed { p with fds := pfd.1 :: pfd.2 :: p.fds } h
    (ends pfd).1 (ends pfd).2 pid os.fdopen
  exact ⟨hpush.count, hpush.streams, hpush.pids⟩

/-- When `pipe` and `fork` succeed, `my_popen` stores what `fdopen` returned,
`NULL` included, in the slot the counter points at. -/
theorem myPopen_pushed {os : PopenOs} {pfd : Fd × Fd} {pid : Pid} {mode : String} {p : Parent}
    (hpipe : os.pipe = some pfd) (hfork : os.fork = some pid) (hmode : mode = "r" ∨ mode = "w")
    (h : p.popenCount < maxPopen) (command : String) :
    Pushed p (myPopen os command mode p).parent os.fdopen pid := by
  rcases hmode with rfl | rfl
  · simpa [myPopen, Nat.not_le_of_lt h] using spawn_pushed hpipe hfork _ _ _ p h
  · simpa [myPopen, Nat.not_le_of_lt h] using spawn_pushed hpipe hfork _ _ _ p h

/-- At the limit, and for any other mode, `my_popen` leaves the parent alone. -/
theorem myPopen_refused {mode : String} {p : Parent}
    (h : maxPopen ≤ p.popenCount ∨ ¬ (mode = "r" ∨ mode = "w")) (os : PopenOs) (command : String) :
    (myPopen os command mode p).parent = p := by
  unfold myPopen
  rcases h with h | h
  · rw [dif_pos h]
  · obtain ⟨hr, hw⟩ := not_or.mp h
    simp only [hr, hw, ↓reduceIte]
    split <;> rfl

/-! ## `my_pclose` -/

/-- How `my_pclose` ended. -/
inductive PcloseResult where
  | /-- `return -1`: no slot holds the stream. -/ notFound
  | /-- `fileno(NULL)`, which is undefined. -/ filenoNull
  | /-- `waitpid` on `pid` failed; `return -1`. -/ waitFailed (pid : Pid)
  | /-- `waitpid` on `pid` returned the status. -/ waited (pid : Pid) (stat : Int)
deriving DecidableEq, Repr

/-- The returned value, where there is one. -/
def PcloseResult.ret : PcloseResult → Option Int
  | .notFound | .waitFailed _ => some (-1)
  | .filenoNull => none
  | .waited _ stat => some stat

/-- The loop over the slots: the first one that holds the stream. -/
def findSlot (stream : FilePtr) (p : Parent) : Option (Fin maxPopen) :=
  p.slots.find? fun i ↦ p.popenStreams i = stream

/-- `my_pclose(stream)`, where `os` is what `waitpid` answers. -/
def myPclose (os : Option Int) (stream : FilePtr) (p : Parent) : PcloseResult × Parent :=
  match findSlot stream p with
  | none => (.notFound, p)
  | some i =>
      match stream with
      | none => (.filenoNull, p)
      | some f =>
          let pid := p.popenPids i
          let p := { p.close (p.fileno f) with
            popenStreams := Function.update p.popenStreams i none
            popenPids := Function.update p.popenPids i 0 }
          match os with
          | none => (.waitFailed pid, p)
          | some stat =>
              (.waited pid stat,
                { p with
                  popenCount := p.popenCount - 1
                  popenCount_le := Nat.le_trans (Nat.sub_le _ _) p.popenCount_le })

/-! ## Call sequences -/

/-- A call with the answers it gets from the system. -/
inductive Call where
  | popen (os : PopenOs) (command mode : String)
  | pclose (os : Option Int) (stream : FilePtr)
deriving DecidableEq, Repr

def Parent.call (p : Parent) : Call → Parent
  | .popen os command mode => (myPopen os command mode p).parent
  | .pclose os stream => (myPclose os stream p).2

/-- The parent after a sequence of calls, from the start of the program. -/
def table (calls : List Call) : Parent := calls.foldl Parent.call .init

@[simp] theorem table_concat (calls : List Call) (c : Call) :
    table (calls ++ [c]) = (table calls).call c := by simp [table]

end SysProg.Popen
