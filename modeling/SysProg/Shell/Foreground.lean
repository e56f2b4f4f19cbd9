import Mathlib.Logic.Function.Basic
import SysProg.Lib.Lts
import SysProg.Shell.Background

/-!
# Foreground commands

Without an `&`, `run_command` of `SP_HW5/Part2` waits for the process that it has forked.
With a `|` this is the one that executes what is on the left of it; what is on the right is
executed by a child of that process, for which nobody waits.

* `foreground` is one command: the shell, and its processes, which make the calls of
  `pipeAndExec` and run their programs, in any order.
* `mem_calls_of_running`: the programs that run are those that `runCommand` says.
* `waits_iff`: no program runs at the prompt, whatever the order, if and only if none is found
  behind a pipe (`foundBehind`).
* `waits_stages_iff`: when the heap has no part in what is executed (`World.Tidy`), these are the
  programs that the other stages begin with.
-/

namespace SysProg.Shell

open SysProg.Lib

/-- Where a process is. -/
inductive ProcPc where
  | /-- The first one, before its redirections. -/ redirect
  | /-- Before `pipe_and_exec`. -/ pipe (stdin stdout : Stream) (argv : Argv)
  | /-- The talking parent, before its `execvp`. -/ talk (left : Exec)
  | /-- The listening child, before its `execvp` and what comes behind it. -/
    listen (right : Exec) (stdin stdout : Stream) (rest : Argv)
  | /-- A program. -/ running (e : Exec)
  | ended

/-- Where `run_command` is. -/
inductive ShellPc where
  | fork
  | waitpid
  | prompt
deriving DecidableEq

structure Command where
  shell : ShellPc
  /-- The processes that have been forked, by their numbers. -/
  proc : Nat → Option ProcPc

inductive CommandOp where
  | fork
  | redirect
  | pipe (n : Nat)
  | talk (n : Nat)
  | listen (n : Nat)
  | /-- The program of process `n` ends. -/ finish (n : Nat)
  | waitpid
deriving DecidableEq

def Command.setProc (s : Command) (n : Nat) (pc : ProcPc) : Command :=
  { s with proc := Function.update s.proc n (some pc) }

/-- A process behind an `execvp`: its program, or what it does when there is none. -/
def afterExec (e : Exec) (otherwise : ProcPc) : ProcPc := if e.found then .running e else otherwise

/-- `pipe_and_exec` up to its `execvp`s, in the process `n`. -/
def pipeProc (W : World) (s : Command) (n : Nat) (stdin stdout : Stream) (argv : Argv) : Command :=
  if pipePresent argv = -1 then s.setProc n .ended
  else if pipePresent argv = 0 then
    s.setProc n (afterExec (execvp W n stdin stdout argv false) .ended)
  else if W.aborts n then s.setProc n .ended
  else
    let p := (pipePresent argv).toNat
    let left := execvp W n stdin (.pipe n) (leftArgv (W.left n) argv p) (W.left n).wild
    let right := execvp W (n + 1) (.pipe n) stdout (rightArgv (W.right n) argv p) (W.right n).wild
    (s.setProc n (.talk left)).setProc (n + 1)
      (.listen right (.pipe n) stdout (emptySlots (W.own n) (argv.drop (p + 1))))

/-- One step of the shell or of a process. -/
def commandNext (fs : Files) (W : World) (ws : List Word) (s : Command) :
    CommandOp → Option Command
  | .fork =>
      if s.shell = .fork then
        some { (s.setProc 0 .redirect) with
          shell := if isBackground (nullTerm ws) then .prompt else .waitpid }
      else none
  | .redirect =>
      match s.proc 0 with
      | some .redirect =>
          match redirections fs ws with
          | .error _ => some (s.setProc 0 .ended)
          | .ok c => some (s.setProc 0 (.pipe c.stdin c.stdout c.argv))
      | _ => none
  | .pipe n =>
      match s.proc n with
      | some (.pipe stdin stdout argv) => some (pipeProc W s n stdin stdout argv)
      | _ => none
  | .talk n =>
      match s.proc n with
      | some (.talk left) => some (s.setProc n (afterExec left .ended))
      | _ => none
  | .listen n =>
      match s.proc n with
      | some (.listen right stdin stdout rest) =>
          some (s.setProc n (afterExec right (.pipe stdin stdout rest)))
      | _ => none
  | .finish n =>
      match s.proc n with
      | some (.running _) => some (s.setProc n .ended)
      | _ => none
  | .waitpid =>
      match s.shell, s.proc 0 with
      | .waitpid, some .ended => some { s with shell := .prompt }
      | _, _ => none

/-- `run_command` is called. -/
def commandStart : Command := ⟨.fork, fun _ ↦ none⟩

/-- One command line. -/
def foreground (fs : Files) (W : World) (ws : List Word) : Lts Command CommandOp :=
  Lts.ofNext (· = commandStart) (commandNext fs W ws)

theorem init_commandStart (fs : Files) (W : World) (ws : List Word) :
    (foreground fs W ws).init commandStart := rfl

/-- The rule of each step. -/
inductive CommandStep (fs : Files) (W : World) (ws : List Word) (s : Command) :
    CommandOp → Command → Prop
  | fork (hshell : s.shell = .fork) :
      CommandStep fs W ws s .fork
        { (s.setProc 0 .redirect) with
          shell := if isBackground (nullTerm ws) then .prompt else .waitpid }
  | fail {text : Word} (hproc : s.proc 0 = some .redirect)
      (hfail : redirections fs ws = .error text) :
      CommandStep fs W ws s .redirect (s.setProc 0 .ended)
  | redirect {c : Child} (hproc : s.proc 0 = some .redirect)
      (hok : redirections fs ws = .ok c) :
      CommandStep fs W ws s .redirect (s.setProc 0 (.pipe c.stdin c.stdout c.argv))
  | pipe {n : Nat} {stdin stdout : Stream} {argv : Argv}
      (hproc : s.proc n = some (.pipe stdin stdout argv)) :
      CommandStep fs W ws s (.pipe n) (pipeProc W s n stdin stdout argv)
  | talk {n : Nat} {left : Exec} (hproc : s.proc n = some (.talk left)) :
      CommandStep fs W ws s (.talk n) (s.setProc n (afterExec left .ended))
  | listen {n : Nat} {right : Exec} {stdin stdout : Stream} {rest : Argv}
      (hproc : s.proc n = some (.listen right stdin stdout rest)) :
      CommandStep fs W ws s (.listen n) (s.setProc n (afterExec right (.pipe stdin stdout rest)))
  | finish {n : Nat} {e : Exec} (hproc : s.proc n = some (.running e)) :
      CommandStep fs W ws s (.finish n) (s.setProc n .ended)
  | waitpid (hshell : s.shell = .waitpid) (hproc : s.proc 0 = some .ended) :
      CommandStep fs W ws s .waitpid { s with shell := .prompt }

variable {fs : Files} {W : World} {ws left rest : List Word} {w : Word} {s t : Command}
  {a : CommandOp} {tr : List CommandOp} {n : Nat} {pc : ProcPc} {stdin stdout : Stream}
  {argv : Argv}

theorem CommandStep.of_step (h : (foreground fs W ws).step s a t) : CommandStep fs W ws s a t := by
  have h : commandNext fs W ws s a = some t := h
  cases a with
  | fork =>
      obtain ⟨hshell, h⟩ := Option.ite_none_right_eq_some.mp h
      cases h
      exact .fork hshell
  | redirect =>
      simp only [commandNext] at h
      split at h
      · next hproc =>
          split at h
          · next text hfail =>
              cases h
              exact .fail hproc hfail
          · next c hok =>
              cases h
              exact .redirect hproc hok
      · cases h
  | pipe n =>
      simp only [commandNext] at h
      split at h
      · next hproc =>
          cases h
          exact .pipe hproc
      · cases h
  | talk n =>
      simp only [commandNext] at h
      split at h
      · next hproc =>
          cases h
          exact .talk hproc
      · cases h
  | listen n =>
      simp only [commandNext] at h
      split at h
      · next hproc =>
          cases h
          exact .listen hproc
      · cases h
  | finish n =>
      simp only [commandNext] at h
      split at h
      · next hproc =>
          cases h
          exact .finish hproc
      · cases h
  | waitpid =>
      simp only [commandNext] at h
      split at h
      · next hshell hproc =>
          cases h
          exact .waitpid hshell hproc
      · cases h

@[simp] theorem Command.shell_setProc : (s.setProc n pc).shell = s.shell := rfl

theorem Command.proc_setProc_self : (s.setProc n pc).proc n = some pc := by
  simp [setProc]

theorem Command.proc_setProc_of_ne {m : Nat} (h : m ≠ n) : (s.setProc n pc).proc m = s.proc m := by
  simp [setProc, h]

/-- What holds of each process still holds when one of them has moved. -/
theorem Command.forall_setProc {P : Nat → ProcPc → Prop} (hpc : P n pc)
    (h : ∀ m pc, s.proc m = some pc → P m pc) :
    ∀ m pc', (s.setProc n pc).proc m = some pc' → P m pc' := by
  intro m pc' hm
  by_cases hmn : m = n
  · subst hmn
    rw [proc_setProc_self] at hm
    cases hm
    exact hpc
  · rw [proc_setProc_of_ne hmn] at hm
    exact h m pc' hm

/-- `pipe_and_exec` concerns a process and the next one. -/
theorem pipeProc_proc_of_lt {m : Nat} (h : m < n) :
    (pipeProc W s n stdin stdout argv).proc m = s.proc m := by
  rw [pipeProc]
  split
  · exact Command.proc_setProc_of_ne h.ne
  · split
    · exact Command.proc_setProc_of_ne h.ne
    · split
      · exact Command.proc_setProc_of_ne h.ne
      · rw [Command.proc_setProc_of_ne (by omega), Command.proc_setProc_of_ne h.ne]

theorem pipeProc_shell : (pipeProc W s n stdin stdout argv).shell = s.shell := by
  rw [pipeProc]
  split
  · rfl
  · split
    · rfl
    · split <;> rfl

/-! ## Which programs run -/

/-- One pipe of `pipeAndExec`. -/
theorem pipeAndExec_of_pos (hneg : pipePresent argv ≠ -1) (hpos : pipePresent argv ≠ 0)
    (haborts : ¬ W.aborts n) : pipeAndExec W n stdin stdout argv =
      let p := (pipePresent argv).toNat
      let left := execvp W n stdin (.pipe n) (leftArgv (W.left n) argv p) (W.left n).wild
      let right :=
        execvp W (n + 1) (.pipe n) stdout (rightArgv (W.right n) argv p) (W.right n).wild
      left :: right ::
        if right.found then []
        else pipeAndExec W (n + 1) (.pipe n) stdout
          (emptySlots (W.own n) (argv.drop (p + 1))) := by
  rw [pipeAndExec, dif_neg hneg, if_neg hpos, if_neg haborts]

/-- What the process `n` has still to call is among `calls`. -/
def ProcPc.Follows (W : World) (calls : List Exec) (n : Nat) : ProcPc → Prop
  | .redirect | .ended => True
  | .pipe stdin stdout argv => ∀ e ∈ pipeAndExec W n stdin stdout argv, e ∈ calls
  | .talk left => left ∈ calls ∧ left.process = n
  | .listen right stdin stdout rest => right ∈ calls ∧ right.process = n ∧
      (right.found = false → ∀ e ∈ pipeAndExec W n stdin stdout rest, e ∈ calls)
  | .running e => e ∈ calls ∧ e.process = n ∧ e.found

variable {calls : List Exec}

theorem follows_afterExec {e : Exec} (he : e ∈ calls) (hn : e.process = n)
    (hpc : e.found = false → pc.Follows W calls n) : (afterExec e pc).Follows W calls n := by
  rw [afterExec]
  split
  · next hfound => exact ⟨he, hn, hfound⟩
  · next hnot => exact hpc (Bool.not_eq_true _ ▸ hnot)

theorem follows_pipeProc (h : ∀ m pc, s.proc m = some pc → pc.Follows W calls m)
    (hpipe : ∀ e ∈ pipeAndExec W n stdin stdout argv, e ∈ calls) :
    ∀ m pc, (pipeProc W s n stdin stdout argv).proc m = some pc → pc.Follows W calls m := by
  rw [pipeProc]
  split
  · exact Command.forall_setProc trivial h
  · next hneg =>
      split
      · next hzero =>
          rw [pipeAndExec, dif_neg hneg, if_pos hzero] at hpipe
          exact Command.forall_setProc
            (follows_afterExec (hpipe _ List.mem_cons_self) rfl fun _ ↦ trivial) h
      · next hpos =>
          split
          · exact Command.forall_setProc trivial h
          · next haborts =>
              rw [pipeAndExec_of_pos hneg hpos haborts] at hpipe
              obtain ⟨hleft, hpipe⟩ := List.forall_mem_cons.mp hpipe
              obtain ⟨hright, hpipe⟩ := List.forall_mem_cons.mp hpipe
              refine Command.forall_setProc ⟨hright, rfl, fun hfound ↦ ?_⟩
                (Command.forall_setProc ⟨hleft, rfl⟩ h)
              rwa [hfound, if_neg Bool.false_ne_true] at hpipe

/-- The first process has the redirections and the pipes of the line. -/
theorem calls_runCommand {c : Child} (hok : redirections fs ws = .ok c) :
    (runCommand fs W (nullTerm ws)).calls = pipeAndExec W 0 c.stdin c.stdout c.argv := by
  rw [redirections] at hok
  rw [runCommand, hok]

theorem follows_of_reachable (h : (foreground fs W ws).Reachable s) :
    ∀ m pc, s.proc m = some pc → pc.Follows W (runCommand fs W (nullTerm ws)).calls m := by
  refine h.induction (P := fun s ↦ ∀ m pc, s.proc m = some pc →
    pc.Follows W (runCommand fs W (nullTerm ws)).calls m) (fun s hs ↦ ?_) fun s a t _ ih hs ↦ ?_
  · subst hs
    exact fun _ _ hproc ↦ nomatch hproc
  · cases CommandStep.of_step hs with
    | fork | fail => exact Command.forall_setProc trivial ih
    | finish => exact Command.forall_setProc trivial ih
    | redirect hproc hok =>
        refine Command.forall_setProc (fun e he ↦ ?_) ih
        rwa [calls_runCommand hok]
    | pipe hproc => exact follows_pipeProc ih (ih _ _ hproc)
    | talk hproc =>
        obtain ⟨hleft, hn⟩ := ih _ _ hproc
        exact Command.forall_setProc (follows_afterExec hleft hn fun _ ↦ trivial) ih
    | listen hproc =>
        obtain ⟨hright, hn, hrest⟩ := ih _ _ hproc
        exact Command.forall_setProc (follows_afterExec hright hn hrest) ih
    | waitpid => exact ih

/-- **The programs that run** are those that `runCommand` calls. -/
theorem mem_calls_of_running (h : (foreground fs W ws).Reachable s) {e : Exec}
    (hrun : s.proc n = some (.running e)) :
    e ∈ (runCommand fs W (nullTerm ws)).calls ∧ e.process = n ∧ e.found :=
  follows_of_reachable h n _ hrun

/-- **At the prompt** the process that the shell has forked has ended. -/
theorem ended_of_prompt (hfore : ampersand ∉ ws) (h : (foreground fs W ws).Reachable s)
    (hprompt : s.shell = .prompt) : s.proc 0 = some .ended := by
  have hback : isBackground (nullTerm ws) = false :=
    Bool.eq_false_iff.mpr (mt (isBackground_iff (holds_nullTerm ws)).mp hfore)
  revert hprompt
  refine h.induction (P := fun s ↦ s.shell = .prompt → s.proc 0 = some .ended) (fun s hs ↦ ?_)
    fun s a t _ ih hs hprompt ↦ ?_
  · subst hs
    exact nofun
  · have hne : ∀ {n pc}, s.shell = .prompt → s.proc n = some pc → pc ≠ .ended → 0 ≠ n := by
      rintro n pc hshell hproc hpc rfl
      exact hpc (Option.some.inj (hproc.symm.trans (ih hshell)))
    cases CommandStep.of_step hs with
    | fork =>
        rw [hback] at hprompt
        cases hprompt
    | fail => exact Command.proc_setProc_self
    | redirect hproc => exact absurd rfl (hne hprompt hproc nofun)
    | pipe hproc =>
        rw [pipeProc_shell] at hprompt
        rw [pipeProc_proc_of_lt (Nat.pos_of_ne_zero (hne hprompt hproc nofun).symm)]
        exact ih hprompt
    | talk hproc | listen hproc | finish hproc =>
        rw [Command.proc_setProc_of_ne (hne hprompt hproc nofun)]
        exact ih hprompt
    | waitpid _ hproc => exact hproc

/-! ## Programs behind a pipe -/

/-- What is on the left of the first `|` and what is on its right, if there are words on both
sides. -/
def atPipe (ws : List Word) : Option (List Word × List Word) :=
  let left := ws.takeWhile (· ≠ bar)
  let rest := ws.drop (left.length + 1)
  if left = [] ∨ rest = [] then none else some (left, rest)

/-- The `execvp` of a copy of these words succeeds. -/
def Copy.runs (W : World) (c : Copy) (ws : List Word) : Bool :=
  !c.wild && (emptyWords c.emptied ws).head?.any W.program

theorem length_lt_of_atPipe (h : atPipe ws = some (left, rest)) : rest.length < ws.length := by
  obtain ⟨hne, heq⟩ := Option.ite_none_left_eq_some.mp h
  obtain ⟨-, rfl⟩ := Prod.mk.inj (Option.some.inj heq)
  have hpos := List.length_pos_of_ne_nil (not_or.mp hne).1
  have hle := (List.takeWhile_prefix (· ≠ bar) (l := ws)).length_le
  rw [List.length_drop]
  omega

/-- A program is found for these words, by the process `n` or by one that it forks. -/
def finds (W : World) (n : Nat) (ws : List Word) : Bool :=
  match _h : atPipe ws with
  | none => !ws.contains bar && ws.head?.any W.program
  | some (left, rest) =>
      !W.aborts n && ((W.left n).runs W left || (W.right n).runs W rest ||
        finds W (n + 1) (emptyWords (W.own n) rest))
termination_by ws.length
decreasing_by
  rw [length_emptyWords]
  exact length_lt_of_atPipe _h

/-- A program is found behind the first `|`: for the whole right side, or for what the heap has
left of it when that is not. -/
def foundBehind (W : World) (n : Nat) (ws : List Word) : Bool :=
  match atPipe ws with
  | none => false
  | some (_, rest) =>
      !W.aborts n &&
        ((W.right n).runs W rest || finds W (n + 1) (emptyWords (W.own n) rest))

theorem atPipe_append (h : bar ∉ left) : atPipe (left ++ bar :: rest) =
    if left = [] ∨ rest = [] then none else some (left, rest) := by
  have htake : (left ++ bar :: rest).takeWhile (· ≠ bar) = left := by
    rw [List.takeWhile_append_of_pos fun w hw ↦ by simpa using ne_of_mem_of_not_mem hw h]
    simp
  have hdrop : (left ++ bar :: rest).drop (left.length + 1) = rest := by
    rw [← List.drop_drop, List.drop_left]
    rfl
  rw [atPipe, htake, hdrop]

theorem atPipe_of_notMem (h : bar ∉ ws) : atPipe ws = none := by
  have htake : ws.takeWhile (· ≠ bar) = ws :=
    List.takeWhile_eq_self_iff.mpr fun w hw ↦ by simpa using ne_of_mem_of_not_mem hw h
  rw [atPipe, htake, List.drop_eq_nil_of_le (Nat.le_succ _), if_pos (.inr rfl)]

theorem finds_of_notMem (h : bar ∉ ws) : finds W n ws = ws.head?.any W.program := by
  rw [finds, atPipe_of_notMem h]
  simp [h]

theorem finds_append (h : bar ∉ left) (hne : left ≠ []) (hrest : rest ≠ []) :
    finds W n (left ++ bar :: rest) =
      (!W.aborts n && ((W.left n).runs W left || (W.right n).runs W rest ||
        finds W (n + 1) (emptyWords (W.own n) rest))) := by
  rw [finds, atPipe_append h, if_neg (not_or.mpr ⟨hne, hrest⟩)]

theorem foundBehind_of_notMem (h : bar ∉ ws) : foundBehind W n ws = false := by
  rw [foundBehind, atPipe_of_notMem h]

theorem foundBehind_append (h : bar ∉ left) (hne : left ≠ []) (hrest : rest ≠ []) :
    foundBehind W n (left ++ bar :: rest) =
      (!W.aborts n && ((W.right n).runs W rest ||
        finds W (n + 1) (emptyWords (W.own n) rest))) := by
  rw [foundBehind, atPipe_append h, if_neg (not_or.mpr ⟨hne, hrest⟩)]

/-- Nothing is found where `pipe_and_exec` gives up. -/
theorem finds_of_pipePresent (hv : Holds argv ws) (h : pipePresent argv = -1) :
    finds W n ws = false ∧ foundBehind W n ws = false := by
  by_cases hmem : bar ∈ ws
  · obtain ⟨left, rest, rfl, hbar⟩ := List.eq_append_cons_of_mem hmem
    have hmissing : left = [] ∨ rest = [] := by
      by_contra hboth
      obtain ⟨hne, hrest⟩ := not_or.mp hboth
      rw [pipePresent_of_mem hv hbar hne hrest] at h
      omega
    have hnone : atPipe (left ++ bar :: rest) = none := by
      rw [atPipe_append hbar, if_pos hmissing]
    rw [finds, foundBehind, hnone]
    simp
  · rw [finds_of_notMem hmem, foundBehind_of_notMem hmem]
    by_cases hne : ws = []
    · subst hne
      exact ⟨rfl, rfl⟩
    · rw [pipePresent_of_notMem hv hmem hne] at h
      exact absurd h (by decide)

/-! ## The calls of the processes -/

theorem found_execvp (hv : Holds argv ws) :
    (execvp W n stdin stdout argv false).found = ws.head?.any W.program := by
  cases ws with
  | nil =>
      obtain ⟨tail, rfl⟩ := hv.exists_nil
      rfl
  | cons w ws =>
      obtain ⟨tail, rfl, -⟩ := hv.exists_cons
      rfl

theorem found_vector_eq (c : Copy) (hne : ws ≠ []) :
    (execvp W n stdin stdout (c.vector ws) c.wild).found = c.runs W ws := by
  obtain ⟨w, ws, rfl⟩ := List.exists_cons_of_ne_nil hne
  rw [execvp, Copy.vector, Copy.runs, emptyWords_cons]
  rfl

theorem found_leftArgv (c : Copy) (hv : Holds argv (left ++ rest)) (hne : left ≠ []) :
    (execvp W n stdin stdout (leftArgv c argv left.length) c.wild).found = c.runs W left := by
  obtain ⟨tail, rfl⟩ := hv
  have htake : entries (((left ++ rest).map some ++ none :: tail).take left.length) = left := by
    rw [List.map_append, List.append_assoc, List.take_left' (List.length_map some)]
    exact entries_map left
  rw [leftArgv, htake, found_vector_eq c hne]

theorem found_rightArgv (c : Copy) (hv : Holds argv (left ++ bar :: rest)) (hrest : rest ≠ []) :
    (execvp W n stdin stdout (rightArgv c argv left.length) c.wild).found = c.runs W rest := by
  rw [rightArgv, (holds_drop hv).entries_eq, found_vector_eq c hrest]

/-- **Every program** that the process or one of the next finds is found. -/
theorem finds_of_found (hv : Holds argv ws) {e : Exec}
    (he : e ∈ pipeAndExec W n stdin stdout argv) (hfound : e.found) : finds W n ws := by
  induction hlen : ws.length using Nat.strongRecOn generalizing ws argv n stdin with
  | ind k ih =>
      rcases pipePresent_cases hv with hp | ⟨hp, hbar⟩ | ⟨left, w, rest, rfl, hbar, hne, hp⟩
      · rw [pipeAndExec, dif_pos hp] at he
        cases he
      · rw [pipeAndExec, hp, dif_neg (by decide), if_pos rfl, List.mem_singleton] at he
        subst he
        rwa [finds_of_notMem hbar, ← found_execvp hv]
      · have hpos := List.length_pos_of_ne_nil hne
        have hrest := List.cons_ne_nil w rest
        rw [finds_append hbar hne hrest]
        cases haborts : W.aborts n with
        | true =>
            rw [pipeAndExec, dif_neg (by omega), if_neg (by omega), if_pos haborts] at he
            cases he
        | false =>
            rw [pipeAndExec_of_pos (by omega) (by omega) (by simp [haborts]), hp,
              Int.toNat_natCast] at he
            rcases List.mem_cons.mp he with rfl | he
            · rw [found_leftArgv _ hv hne] at hfound
              simp [hfound]
            rcases List.mem_cons.mp he with rfl | he
            · rw [found_rightArgv _ hv hrest] at hfound
              simp [hfound]
            split at he
            · cases he
            · have hlt : (emptyWords (W.own n) (w :: rest)).length < k := by
                rw [length_emptyWords, ← hlen]
                exact length_behind_lt left (w :: rest)
              have hrec := ih _ hlt (holds_emptySlots (holds_drop hv)) he rfl
              simp [hrec]

/-- **Only the first process runs a program**, if none is found behind a pipe. -/
theorem process_of_found (hv : Holds argv ws) (h : foundBehind W n ws = false) {e : Exec}
    (he : e ∈ pipeAndExec W n stdin stdout argv) (hfound : e.found) : e.process = n := by
  rcases pipePresent_cases hv with hp | ⟨hp, -⟩ | ⟨left, w, rest, rfl, hbar, hne, hp⟩
  · rw [pipeAndExec, dif_pos hp] at he
    cases he
  · rw [pipeAndExec, hp, dif_neg (by decide), if_pos rfl, List.mem_singleton] at he
    exact he ▸ rfl
  · have hpos := List.length_pos_of_ne_nil hne
    have hrest := List.cons_ne_nil w rest
    rw [foundBehind_append hbar hne hrest] at h
    cases haborts : W.aborts n with
    | true =>
        rw [pipeAndExec, dif_neg (by omega), if_neg (by omega), if_pos haborts] at he
        cases he
    | false =>
        rw [haborts, Bool.not_false, Bool.true_and, Bool.or_eq_false_iff] at h
        rw [pipeAndExec_of_pos (by omega) (by omega) (by simp [haborts]), hp,
          Int.toNat_natCast] at he
        rcases List.mem_cons.mp he with rfl | he
        · rfl
        rcases List.mem_cons.mp he with rfl | he
        · rw [found_rightArgv _ hv hrest, h.1] at hfound
          cases hfound
        split at he
        · cases he
        · have hrec := finds_of_found (holds_emptySlots (holds_drop hv)) he hfound
          rw [h.2] at hrec
          cases hrec

/-! ## Reaching the prompt -/

/-- No program runs at the prompt, whatever the order of the steps. -/
def Waits (fs : Files) (W : World) (ws : List Word) : Prop :=
  ∀ s, (foreground fs W ws).Reachable s → s.shell = .prompt → ∀ n e, s.proc n ≠ some (.running e)

theorem path_pipe (hproc : s.proc n = some (.pipe stdin stdout argv)) :
    (foreground fs W ws).Path s [.pipe n] (pipeProc W s n stdin stdout argv) :=
  .single (show commandNext fs W ws s (.pipe n) = _ by rw [commandNext, hproc])

theorem path_talk {e : Exec} (hproc : s.proc n = some (.talk e)) :
    (foreground fs W ws).Path s [.talk n] (s.setProc n (afterExec e .ended)) :=
  .single (show commandNext fs W ws s (.talk n) = _ by rw [commandNext, hproc])

theorem path_listen {e : Exec} {argv : Argv}
    (hproc : s.proc n = some (.listen e stdin stdout argv)) :
    (foreground fs W ws).Path s [.listen n]
      (s.setProc n (afterExec e (.pipe stdin stdout argv))) :=
  .single (show commandNext fs W ws s (.listen n) = _ by rw [commandNext, hproc])

theorem path_finish {e : Exec} (hproc : s.proc n = some (.running e)) :
    (foreground fs W ws).Path s [.finish n] (s.setProc n .ended) :=
  .single (show commandNext fs W ws s (.finish n) = _ by rw [commandNext, hproc])

/-- A process that is to execute its left side can come to its end. -/
theorem exists_path_ended {e : Exec} (hproc : s.proc n = some (.talk e)) :
    ∃ tr, (foreground fs W ws).Path s tr (s.setProc n .ended) := by
  have htalk := @path_talk fs W ws s n e hproc
  cases hfound : e.found with
  | false =>
      rw [afterExec, hfound, if_neg Bool.false_ne_true] at htalk
      exact ⟨_, htalk⟩
  | true =>
      rw [afterExec, hfound, if_pos rfl] at htalk
      have hfinish := @path_finish fs W ws (s.setProc n (.running e)) n e Command.proc_setProc_self
      have hset : (s.setProc n (.running e)).setProc n .ended = s.setProc n .ended := by
        rw [Command.setProc, Command.setProc, Command.setProc, Function.update_idem]
      exact ⟨_, htalk.trans (hset ▸ hfinish)⟩

/-- A program can run in the process `n` or a later one, while the shell and the earlier ones stand
still. -/
def CanRun (fs : Files) (W : World) (ws : List Word) (s : Command) (n : Nat) : Prop :=
  ∃ tr t, (foreground fs W ws).Path s tr t ∧ t.shell = s.shell ∧
    (∀ k < n, t.proc k = s.proc k) ∧ ∃ m e, n ≤ m ∧ t.proc m = some (.running e)

theorem CanRun.of_path (hpath : (foreground fs W ws).Path s tr t) (hshell : t.shell = s.shell)
    (hbefore : ∀ k < n, t.proc k = s.proc k) {m : Nat} (hm : n ≤ m) (h : CanRun fs W ws t m) :
    CanRun fs W ws s n := by
  obtain ⟨tr', u, hpath', hshell', hbefore', k, e, hk, hrun⟩ := h
  refine ⟨_, u, hpath.trans hpath', hshell'.trans hshell, fun j hj ↦ ?_, k, e, hm.trans hk, hrun⟩
  rw [hbefore' j (hj.trans_le hm), hbefore j hj]

theorem canRun_of_running {e : Exec} (hproc : s.proc n = some (.running e)) : CanRun fs W ws s n :=
  ⟨[], s, .nil, rfl, fun _ _ ↦ rfl, n, e, le_rfl, hproc⟩

/-- A talking parent that finds its program. -/
theorem canRun_of_talk {e : Exec} (hproc : s.proc n = some (.talk e)) (hfound : e.found) :
    CanRun fs W ws s n := by
  have htalk := @path_talk fs W ws s n e hproc
  rw [afterExec, hfound, if_pos rfl] at htalk
  exact .of_path htalk rfl (fun k hk ↦ Command.proc_setProc_of_ne hk.ne) le_rfl
    (canRun_of_running Command.proc_setProc_self)

/-- A listening child that finds its program, or goes on with the next pipe. -/
theorem canRun_of_listen {right : Exec} (hproc : s.proc n = some (.listen right stdin stdout argv))
    (h : right.found ∨
      ∀ s', s'.proc n = some (.pipe stdin stdout argv) → CanRun fs W ws s' n) :
    CanRun fs W ws s n := by
  have hlisten := @path_listen fs W ws s n stdin stdout right argv hproc
  refine .of_path hlisten rfl (fun k hk ↦ Command.proc_setProc_of_ne hk.ne) le_rfl ?_
  cases hfound : right.found with
  | true =>
      rw [afterExec, hfound, if_pos rfl]
      exact canRun_of_running Command.proc_setProc_self
  | false =>
      rw [afterExec, hfound, if_neg Bool.false_ne_true]
      exact h.resolve_left (Bool.eq_false_iff.mp hfound) _ Command.proc_setProc_self

/-- **One pipe**: the process talks to the next one. -/
theorem exists_path_fork {words : List Word} (hv : Holds argv (left ++ bar :: rest))
    (hbar : bar ∉ left) (hne : left ≠ []) (hrest : rest ≠ []) (haborts : W.aborts n = false)
    (hproc : s.proc n = some (.pipe stdin stdout argv)) :
    ∃ t e right, (foreground fs W words).Path s [.pipe n] t ∧ t.shell = s.shell ∧
      (∀ k < n, t.proc k = s.proc k) ∧ t.proc n = some (.talk e) ∧
      e.found = (W.left n).runs W left ∧
      t.proc (n + 1) = some (.listen right (.pipe n) stdout
        (emptySlots (W.own n) (argv.drop (left.length + 1)))) ∧
      right.found = (W.right n).runs W rest := by
  have hp := pipePresent_of_mem hv hbar hne hrest
  have hpos := List.length_pos_of_ne_nil hne
  have hpipe := @path_pipe fs W words s n stdin stdout argv hproc
  rw [pipeProc, if_neg (by omega), if_neg (by omega), if_neg (by simp [haborts]), hp,
    Int.toNat_natCast] at hpipe
  refine ⟨_, execvp W n stdin (.pipe n) (leftArgv (W.left n) argv left.length) (W.left n).wild, _,
    hpipe, rfl, fun k hk ↦ ?_, ?_, found_leftArgv _ hv hne, Command.proc_setProc_self,
    found_rightArgv _ hv hrest⟩
  · rw [Command.proc_setProc_of_ne (by omega), Command.proc_setProc_of_ne hk.ne]
  · rw [Command.proc_setProc_of_ne (by omega), Command.proc_setProc_self]

/-- **What is found can run**, in the process or in one of the next. -/
theorem canRun_of_finds {words : List Word} (hv : Holds argv ws) (h : finds W n ws)
    (hproc : s.proc n = some (.pipe stdin stdout argv)) : CanRun fs W words s n := by
  induction hlen : ws.length using Nat.strongRecOn generalizing ws argv n stdin s with
  | ind k ih =>
      rcases pipePresent_cases hv with hp | ⟨hp, hbar⟩ | ⟨left, w, rest, rfl, hbar, hne, -⟩
      · rw [(finds_of_pipePresent hv hp).1] at h
        cases h
      · have hpipe := @path_pipe fs W words s n stdin stdout argv hproc
        rw [finds_of_notMem hbar, ← @found_execvp W ws n stdin stdout argv hv] at h
        rw [pipeProc, hp, if_neg (by decide), if_pos rfl, afterExec, if_pos h] at hpipe
        exact .of_path hpipe rfl (fun k hk ↦ Command.proc_setProc_of_ne hk.ne) le_rfl
          (canRun_of_running Command.proc_setProc_self)
      · have hrest := List.cons_ne_nil w rest
        rw [finds_append hbar hne hrest, Bool.and_eq_true, Bool.not_eq_true', Bool.or_eq_true,
          Bool.or_eq_true] at h
        obtain ⟨haborts, h⟩ := h
        obtain ⟨t, e, right, hpath, hshell, hbefore, htalk, hleft, hlisten, hright⟩ :=
          @exists_path_fork fs W left (w :: rest) s n stdin stdout argv words hv hbar hne hrest
            haborts hproc
        rcases h with (hruns | hruns) | hfinds
        · exact .of_path hpath hshell hbefore le_rfl (canRun_of_talk htalk (hleft.trans hruns))
        · exact .of_path hpath hshell hbefore (Nat.le_succ n)
            (canRun_of_listen hlisten (.inl (hright.trans hruns)))
        · have hlt : (emptyWords (W.own n) (w :: rest)).length < k := by
            rw [length_emptyWords, ← hlen]
            exact length_behind_lt left (w :: rest)
          exact .of_path hpath hshell hbefore (Nat.le_succ n) (canRun_of_listen hlisten
            (.inr fun s' hs' ↦ ih _ hlt (holds_emptySlots (holds_drop hv)) hfinds hs' rfl))

/-- What is found behind a pipe can run while the first stage is still to be executed. -/
theorem exists_path_running {words : List Word} (hv : Holds argv ws) (h : foundBehind W n ws)
    (hproc : s.proc n = some (.pipe stdin stdout argv)) :
    ∃ tr t, (foreground fs W words).Path s tr t ∧ t.shell = s.shell ∧
      (∃ e, t.proc n = some (.talk e)) ∧ ∃ m e, n < m ∧ t.proc m = some (.running e) := by
  rcases pipePresent_cases hv with hp | ⟨-, hbar⟩ | ⟨left, w, rest, rfl, hbar, hne, -⟩
  · rw [(finds_of_pipePresent hv hp).2] at h
    cases h
  · rw [foundBehind_of_notMem hbar] at h
    cases h
  · have hrest := List.cons_ne_nil w rest
    rw [foundBehind_append hbar hne hrest, Bool.and_eq_true, Bool.not_eq_true',
      Bool.or_eq_true] at h
    obtain ⟨haborts, h⟩ := h
    obtain ⟨t, e, right, hpath, hshell, -, htalk, -, hlisten, hright⟩ :=
      @exists_path_fork fs W left (w :: rest) s n stdin stdout argv words hv hbar hne hrest
        haborts hproc
    obtain ⟨tr, u, hpath', hshell', hbefore, m, e', hm, hrun⟩ : CanRun fs W words t (n + 1) :=
      canRun_of_listen hlisten (h.imp hright.trans fun hfinds s' hs' ↦
        canRun_of_finds (holds_emptySlots (holds_drop hv)) hfinds hs')
    exact ⟨_, u, hpath.trans hpath', hshell'.trans hshell,
      ⟨e, (hbefore n (Nat.lt_succ_self n)).trans htalk⟩, m, e', hm, hrun⟩

theorem exists_holds_redirect {op : Word} {canOpen : Word → Bool} {r : Option Word × Argv}
    (hv : Holds argv ws) (h : redirect op canOpen argv = .ok r) : ∃ ws', Holds r.2 ws' := by
  induction ws generalizing argv r with
  | nil =>
      obtain ⟨tail, rfl⟩ := hv.exists_nil
      cases h
      exact ⟨[], holds_nil_none tail⟩
  | cons w ws ih =>
      obtain ⟨v, rfl, hws⟩ := hv.exists_cons
      rw [redirect] at h
      split at h
      · split at h
        · cases h
        · split at h
          · cases h
            exact ⟨[], holds_clear w v⟩
          · cases h
      · cases hr : redirect op canOpen v with
        | error text =>
            rw [hr] at h
            cases h
        | ok r' =>
            rw [hr] at h
            cases h
            obtain ⟨ws', hws'⟩ := ih hws hr
            exact ⟨w :: ws', hws'.cons w⟩

theorem exists_holds_redirectIn {c c' : Child} (hv : Holds c.argv ws)
    (h : redirectIn fs c = .ok c') : ∃ ws', Holds c'.argv ws' := by
  rw [redirectIn] at h
  cases hr : redirect (ascii "<") fs.canRead c.argv with
  | error text =>
      rw [hr] at h
      cases h
  | ok r =>
      rw [hr] at h
      cases h
      exact exists_holds_redirect hv hr

theorem exists_holds_redirectOut {c c' : Child} (hv : Holds c.argv ws)
    (h : redirectOut fs c = .ok c') : ∃ ws', Holds c'.argv ws' := by
  rw [redirectOut] at h
  cases hr : redirect (ascii ">") fs.canWrite c.argv with
  | error text =>
      rw [hr] at h
      cases h
  | ok r =>
      rw [hr] at h
      cases h
      exact exists_holds_redirect hv hr

/-- What the redirections leave ends with NULL. -/
theorem holds_redirections {c : Child} (hok : redirections fs ws = .ok c) :
    Holds c.argv (entries c.argv) := by
  rw [redirections] at hok
  cases hin : redirectIn fs (.forked (nullTerm ws)) with
  | error text =>
      rw [hin] at hok
      cases hok
  | ok c₁ =>
      rw [hin] at hok
      obtain ⟨ws₁, h₁⟩ := exists_holds_redirectIn (holds_nullTerm ws) hin
      obtain ⟨ws₂, h₂⟩ := exists_holds_redirectOut h₁ hok
      rwa [h₂.entries_eq]

/-- The shell forks the first process, which makes its redirections. -/
theorem exists_path_redirected (hfore : ampersand ∉ ws) {c : Child}
    (hok : redirections fs ws = .ok c) :
    ∃ s, (foreground fs W ws).Path commandStart [.fork, .redirect] s ∧ s.shell = .waitpid ∧
      s.proc 0 = some (.pipe c.stdin c.stdout c.argv) := by
  have hback : isBackground (nullTerm ws) = false :=
    Bool.eq_false_iff.mpr (mt (isBackground_iff (holds_nullTerm ws)).mp hfore)
  let s : Command := ⟨.waitpid, (commandStart.setProc 0 .redirect).proc⟩
  have hproc : s.proc 0 = some .redirect :=
    @Command.proc_setProc_self commandStart 0 .redirect
  have hfork : (foreground fs W ws).step commandStart .fork s := by
    show commandNext fs W ws commandStart .fork = some s
    simp [commandNext, commandStart, hback, s]
  have hredirect : (foreground fs W ws).step s .redirect
      (s.setProc 0 (.pipe c.stdin c.stdout c.argv)) := by
    show commandNext fs W ws s .redirect = _
    simp only [commandNext, hproc, hok]
  exact ⟨_, (Lts.Path.single hfork).trans (.single hredirect), rfl, Command.proc_setProc_self⟩

/-- A program behind a pipe can run at the prompt. -/
theorem not_waits_of_foundBehind (hfore : ampersand ∉ ws) {c : Child}
    (hok : redirections fs ws = .ok c) (hfound : foundBehind W 0 (entries c.argv)) :
    ¬ Waits fs W ws := by
  intro hwaits
  obtain ⟨s, hstart, hfork, hproc⟩ := @exists_path_redirected fs W ws hfore c hok
  obtain ⟨tr, t, hpath, hshell, ⟨e, htalk⟩, m, e', hm, hrun⟩ :=
    @exists_path_running fs W _ s 0 _ _ _ ws (holds_redirections hok) hfound hproc
  -- the first stage comes to its end, and the shell back to the prompt
  obtain ⟨tr', hended⟩ := @exists_path_ended fs W ws t 0 e htalk
  have hwait : (foreground fs W ws).Path (t.setProc 0 .ended) [.waitpid]
      { t.setProc 0 .ended with shell := .prompt } := by
    refine .single (show commandNext fs W ws _ .waitpid = _ from ?_)
    simp only [commandNext, Command.shell_setProc, hshell.trans hfork, Command.proc_setProc_self]
  have hreach := ((Lts.Run.init (init_commandStart fs W ws)).append
    (hstart.trans (hpath.trans (hended.trans hwait)))).reachable
  refine hwaits _ hreach rfl m e' ?_
  exact (Command.proc_setProc_of_ne hm.ne').trans hrun

theorem waits_of_not_found (hfore : ampersand ∉ ws)
    (hnot : ∀ c, redirections fs ws = .ok c → foundBehind W 0 (entries c.argv) = false) :
    Waits fs W ws := by
  intro s hs hprompt n e hrun
  have hended := ended_of_prompt hfore hs hprompt
  obtain ⟨hcall, hprocess, hfound⟩ := mem_calls_of_running hs hrun
  have hzero : n = 0 := by
    cases hok : redirections fs ws with
    | error text =>
        rw [redirections] at hok
        rw [runCommand, hok] at hcall
        cases hcall
    | ok c =>
        rw [calls_runCommand hok] at hcall
        exact hprocess.symm.trans
          (process_of_found (holds_redirections hok) (hnot c hok) hcall hfound)
  subst hzero
  rw [hended] at hrun
  cases hrun

/-- **The shell waits for every program** of a line without `&`, if and only if no program is
found behind a pipe in what the redirections leave. -/
theorem waits_iff (fs : Files) (W : World) (ws : List Word) (hfore : ampersand ∉ ws) :
    Waits fs W ws ↔
      ∀ c, redirections fs ws = .ok c → foundBehind W 0 (entries c.argv) = false := by
  refine ⟨fun hwaits c hok ↦ ?_, waits_of_not_found hfore⟩
  cases hfound : foundBehind W 0 (entries c.argv) with
  | false => rfl
  | true => exact absurd hwaits (not_waits_of_foundBehind hfore hok hfound)

/-- There is no `wc`. -/
def World.noWc : World where
  __ := World.zero
  program w := !w.isEmpty && w != ascii "wc"
  program_nil := rfl

/-- `ls | wc`, where there is no `wc`. -/
theorem waits_noWc : Waits .all .noWc twoStages.words := by
  refine (waits_iff .all .noWc twoStages.words (by decide)).mpr fun c hok ↦ ?_
  rw [redirections_of_notMem (by decide) (by decide)] at hok
  cases hok
  have hfinds : finds .noWc 1 (emptyWords (World.noWc.own 0) [ascii "wc"]) = false := by
    rw [finds_of_notMem (by decide)]
    decide
  show foundBehind .noWc 0 ([ascii "ls"] ++ bar :: [ascii "wc"]) = false
  rw [foundBehind_append (by decide) (by decide) (by decide), hfinds]
  decide

/-- In `ls | wc` nobody waits for `wc`. -/
theorem not_waits_twoStages :
    ¬ ∀ (fs : Files) (W : World) (ws : List Word), ampersand ∉ ws → Waits fs W ws := by
  intro h
  have hok : redirections .all twoStages.words = .ok (.forked (nullTerm twoStages.words)) :=
    redirections_of_notMem (by decide) (by decide)
  have hfound : foundBehind .zero 0 ([ascii "ls"] ++ bar :: [ascii "wc"]) := by
    rw [foundBehind_append (by decide) (by decide) (by decide)]
    rfl
  exact @not_waits_of_foundBehind .all .zero twoStages.words (by decide) _ hok hfound
    (h .all .zero twoStages.words (by decide))

/-! ## Stages -/

/-- Nothing has happened to the words of the copy, and a string or NULL is behind them. -/
structure Copy.Tidy (c : Copy) : Prop where
  emptied : ∀ i, c.emptied i = false
  unset : c.unset ≠ .wild

/-- The heap has no part in what is executed, but for a word more behind each copy. -/
structure World.Tidy (W : World) : Prop where
  left : ∀ n, (W.left n).Tidy
  right : ∀ n, (W.right n).Tidy
  own : ∀ n i, W.own n i = false
  aborts : ∀ n, W.aborts n = false

theorem Copy.Tidy.runs_eq {c : Copy} (h : c.Tidy) (ws : List Word) :
    c.runs W ws = ws.head?.any W.program := by
  rw [Copy.runs, emptyWords_of_intact h.emptied, Copy.wild, decide_eq_false h.unset,
    Bool.not_false, Bool.true_and]

/-- What is found in a pipeline: the programs that the stages begin with. -/
theorem finds_intercalate (htidy : W.Tidy) {first : List Word} {stages : List (List Word)}
    (hne : ∀ stage ∈ first :: stages, stage ≠ []) (hbar : ∀ stage ∈ first :: stages, bar ∉ stage) :
    finds W n ([bar].intercalate (first :: stages)) =
      (first :: stages).any fun stage ↦ stage.head?.any W.program := by
  induction stages generalizing first n with
  | nil =>
      rw [List.intercalate_singleton, finds_of_notMem (hbar first List.mem_cons_self)]
      exact (Bool.or_false _).symm
  | cons next stages ih =>
      obtain ⟨hne₁, hne⟩ := List.forall_mem_cons.mp hne
      obtain ⟨hbar₁, hbar⟩ := List.forall_mem_cons.mp hbar
      obtain ⟨hrest, hhead⟩ := exists_intercalate (hne next List.mem_cons_self) stages
      rw [List.intercalate_cons_cons, List.append_assoc, List.singleton_append,
        finds_append hbar₁ hne₁ hrest, htidy.aborts, (htidy.left n).runs_eq,
        (htidy.right n).runs_eq, emptyWords_of_intact (htidy.own n), ih hne hbar, hhead]
      simp [Bool.or_assoc]

/-- Those of the other stages than the first are behind a pipe. -/
theorem foundBehind_intercalate (htidy : W.Tidy) {first : List Word} {stages : List (List Word)}
    (hne : ∀ stage ∈ first :: stages, stage ≠ []) (hbar : ∀ stage ∈ first :: stages, bar ∉ stage) :
    foundBehind W n ([bar].intercalate (first :: stages)) =
      stages.any fun stage ↦ stage.head?.any W.program := by
  obtain ⟨hne₁, hne⟩ := List.forall_mem_cons.mp hne
  obtain ⟨hbar₁, hbar⟩ := List.forall_mem_cons.mp hbar
  cases stages with
  | nil =>
      rw [List.intercalate_singleton, foundBehind_of_notMem hbar₁]
      rfl
  | cons next stages =>
      obtain ⟨hrest, hhead⟩ := exists_intercalate (hne next List.mem_cons_self) stages
      rw [List.intercalate_cons_cons, List.append_assoc, List.singleton_append,
        foundBehind_append hbar₁ hne₁ hrest, htidy.aborts, (htidy.right n).runs_eq,
        emptyWords_of_intact (htidy.own n), finds_intercalate htidy hne hbar, hhead]
      simp

/-- **For a pipeline without redirections** the shell waits only if no other stage than the first
begins with a program; as long as the heap has no part in what is executed. -/
theorem waits_stages_iff (fs : Files) (htidy : W.Tidy) (P : Stages) (hfore : ampersand ∉ P.words)
    (hlt : ascii "<" ∉ P.words) (hgt : ascii ">" ∉ P.words) :
    Waits fs W P.words ↔ ∀ stage ∈ P.stages.tail, stage.head?.any W.program = false := by
  have hok := @redirections_of_notMem P.words fs hlt hgt
  obtain ⟨first, stages, hstages⟩ := List.exists_cons_of_ne_nil P.ne_nil
  have hfound : foundBehind W 0 (entries (Child.forked (nullTerm P.words)).argv) =
      stages.any fun stage ↦ stage.head?.any W.program := by
    show foundBehind W 0 (entries (nullTerm P.words)) = _
    rw [entries_nullTerm, Stages.words, hstages]
    exact foundBehind_intercalate htidy (hstages ▸ P.stage_ne_nil) (hstages ▸ P.bar_notMem)
  rw [hstages, List.tail_cons]
  cases hany : stages.any fun stage ↦ stage.head?.any W.program with
  | true =>
      have hnot := not_waits_of_foundBehind hfore hok (hfound.trans hany)
      refine iff_of_false hnot fun hall ↦ ?_
      obtain ⟨stage, hmem, hstage⟩ := List.any_eq_true.mp hany
      exact Bool.false_ne_true ((hall stage hmem).symm.trans hstage)
  | false =>
      refine iff_of_true (waits_of_not_found hfore fun c hc ↦ ?_) fun stage hmem ↦ ?_
      · rw [hok] at hc
        cases hc
        exact hfound.trans hany
      · exact Bool.eq_false_iff.mpr (List.any_eq_false.mp hany stage hmem)

end SysProg.Shell
