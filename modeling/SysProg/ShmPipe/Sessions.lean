import SysProg.ShmPipe.Session

/-!
# One session after another

The two semaphores and the segment have names, so they outlive the processes: the next
writer's `sem_open` finds the semaphores there and keeps their values.  `sessions` is a
machine on which one session of `SP_HW9/54_1` after another is run to its end.

The last round of a session is not like the others.  The writer takes the token, posts it
to `read_sem` with the count `0` and leaves; the reader takes it from there, and leaves
its loop before the `sem_post` that would give it back.  So the token is gone after the
first session (`left_of_completed`), and every process of a second one waits for it.
-/

namespace SysProg.ShmPipe

open SysProg.Lib

variable {stdin : List Byte} {shmp : ShmSeg} {s t : State} {tr : List Label}

/-- Both processes have reached `exit(EXIT_SUCCESS)`. -/
def State.Completed (s : State) : Prop := s.writer = .done ∧ s.reader = .done

/-- What has a name and outlives the processes; a semaphore is `none` until it is made. -/
structure Machine where
  /-- `WRITE_SEM_NAME` -/
  writeSem : Option Nat
  /-- `READ_SEM_NAME` -/
  readSem : Option Nat
  /-- `SHM_NAME` -/
  shmp : ShmSeg

/-- `sem_open(name, O_CREAT, 0600, value)` keeps the value of a semaphore that is there. -/
def semOpen (sem : Option Nat) (value : Nat) : Nat := sem.getD value

/-- A writer and a reader are started and come to their loops. -/
def Machine.session (m : Machine) (stdin : List Byte) : State :=
  ⟨semOpen m.writeSem 1, semOpen m.readSem 0, m.shmp, stdin, .wait, .wait, 0, 0, []⟩

/-- What the processes leave behind. -/
def State.left (s : State) : Machine := ⟨some s.writeSem, some s.readSem, s.shmp⟩

/-- Completed sessions, one after the other.  The label is the input of the session, and
the semaphores are first made by the first writer. -/
def sessions : Lts Machine (List Byte) where
  init m := m.writeSem = none ∧ m.readSem = none
  step m stdin m' := ∃ tr s, (shmPipe stdin).Path (m.session stdin) tr s ∧ s.Completed ∧ s.left = m'

/-- The next writer will find `write_sem` at `1` and `read_sem` at `0`. -/
def Machine.Ready (m : Machine) : Prop := semOpen m.writeSem 1 = 1 ∧ semOpen m.readSem 0 = 0

/-! ## The end of a session -/

theorem Phase.finished_of_done {w r : Nat} {wpc : WriterPc} {c : Option (List Byte)}
    (h : Phase w r wpc .done shmp stdin c) :
    w = 0 ∧ r = 0 ∧ shmp.cnt = 0 ∧ Left shmp.cnt wpc := by
  cases h with
  | finished hleft hcnt => exact ⟨rfl, rfl, hcnt, hleft⟩

/-- **The token is lost**: at the end of a session both semaphores are `0`. -/
theorem sem_of_completed (h : (shmPipe stdin).Run tr s) (hdone : s.Completed) :
    s.writeSem = 0 ∧ s.readSem = 0 := by
  obtain ⟨c, hphase, -⟩ := exists_transit h
  unfold Transit at hphase
  rw [hdone.2] at hphase
  obtain ⟨hw, hr, -⟩ := hphase.finished_of_done
  exact ⟨hw, hr⟩

/-- A session that starts with the token is one of those whose semaphores are new. -/
theorem Machine.Ready.session_eq {m : Machine} (h : m.Ready) (stdin : List Byte) :
    m.session stdin = start m.shmp stdin := by
  unfold Machine.session
  rw [h.1, h.2]
  rfl

/-- When the reader has left its loop, all the writer may still have to do is to look at
the count once more. -/
theorem exists_completed (h : (shmPipe stdin).Run tr s) (hdone : s.reader = .done) :
    ∃ tr' t, (shmPipe stdin).Path s tr' t ∧ t.Completed := by
  obtain ⟨c, hphase, -⟩ := exists_transit h
  unfold Transit at hphase
  rw [hdone] at hphase
  obtain ⟨-, -, hcnt, hleft⟩ := hphase.finished_of_done
  generalize hw : s.writer = wpc at hleft
  cases hleft with
  | test =>
      refine ⟨[.writer .test], _, .single (Step.to_step (.writerTest hw)), ?_, hdone⟩
      exact if_pos hcnt
  | wait hne => exact absurd hcnt hne
  | done => exact ⟨[], s, .nil, hw, hdone⟩

/-- **A session with the token can always be completed**: one byte at a time, say. -/
theorem exists_path_completed (shmp : ShmSeg) (stdin : List Byte) :
    ∃ tr s, (shmPipe stdin).Path (start shmp stdin) tr s ∧ s.Completed := by
  have hpieces : ∀ chunk ∈ stdin.map ([·]), chunk ≠ [] ∧ chunk.length ≤ bufSize := by
    intro chunk hchunk
    obtain ⟨b, -, rfl⟩ := List.mem_map.mp hchunk
    exact ⟨List.cons_ne_nil b [], Nat.le_add_left 1 4095⟩
  have hflatten : (stdin.map ([·])).flatten = stdin := by
    rw [← List.flatMap_def]
    exact List.flatMap_singleton' stdin
  obtain ⟨tr, s, hpath, hdone, -⟩ := @exists_path stdin _ hpieces shmp 0 0 []
  rw [hflatten] at hpath
  obtain ⟨tr', t, hpath', hcompleted⟩ := exists_completed ⟨_, ⟨shmp, rfl⟩, hpath⟩ hdone
  exact ⟨tr ++ tr', t, hpath.trans hpath', hcompleted⟩

/-! ## Without the token -/

/-- Both processes wait, and neither semaphore lets one go on. -/
structure Starved (s : State) : Prop where
  writer : s.writer = .wait
  reader : s.reader = .wait
  writeSem : s.writeSem = 0
  readSem : s.readSem = 0

/-- Nothing happens any more. -/
theorem Starved.no_step (h : Starved s) {a : Label} : ¬ Step s a t := by
  intro hs
  cases hs with
  | writerWait _ hsem => exact absurd hsem (by rw [h.writeSem]; exact Nat.lt_irrefl 0)
  | readerWait _ hsem => exact absurd hsem (by rw [h.readSem]; exact Nat.lt_irrefl 0)
  | read hpc | store hpc | writerCheck hpc | writerPost hpc | writerTest hpc =>
      cases h.writer.symm.trans hpc
  | readerTest hpc | count hpc | write hpc | readerCheck hpc | readerPost hpc =>
      cases h.reader.symm.trans hpc

theorem Starved.path (h : Starved s) (hpath : (shmPipe stdin).Path s tr t) : t = s := by
  induction hpath with
  | nil => rfl
  | snoc _ hs ih =>
      subst ih
      exact absurd (.of_step hs) h.no_step

/-- What a session leaves behind starves the next one, whatever its input. -/
theorem starved_left {m : Machine} (hw : m.writeSem = some 0) (hr : m.readSem = some 0)
    (stdin : List Byte) : Starved (m.session stdin) where
  writer := rfl
  reader := rfl
  writeSem := by unfold Machine.session; rw [hw]; rfl
  readSem := by unfold Machine.session; rw [hr]; rfl

/-! ## Any number of sessions -/

/-- New semaphores, or those that one session has left. -/
def Machine.Spent (sofar : List (List Byte)) (m : Machine) : Prop :=
  (sofar = [] ∧ m.writeSem = none ∧ m.readSem = none) ∨
    (sofar.length = 1 ∧ m.writeSem = some 0 ∧ m.readSem = some 0)

theorem spent {sofar : List (List Byte)} {m : Machine} (h : sessions.Run sofar m) :
    m.Spent sofar := by
  refine h.induction (P := fun sofar m ↦ m.Spent sofar) (fun m hinit ↦ .inl ⟨rfl, hinit⟩) ?_
  rintro sofar m stdin m' - hspent ⟨tr, s, hpath, hcompleted, rfl⟩
  rcases hspent with ⟨rfl, hw, hr⟩ | ⟨-, hw, hr⟩
  · have hready : m.Ready := by
      unfold Machine.Ready
      rw [hw, hr]
      exact ⟨rfl, rfl⟩
    rw [hready.session_eq] at hpath
    obtain ⟨hws, hrs⟩ := sem_of_completed ⟨_, ⟨m.shmp, rfl⟩, hpath⟩ hcompleted
    exact .inr ⟨rfl, congrArg some hws, congrArg some hrs⟩
  · obtain rfl := (starved_left hw hr stdin).path hpath
    cases hcompleted.1

/-- **The second session is never completed.** -/
theorem sessions_length_le_one {sofar : List (List Byte)} {m : Machine}
    (h : sessions.Run sofar m) : sofar.length ≤ 1 := by
  rcases spent h with ⟨rfl, -⟩ | ⟨hone, -⟩
  · exact Nat.zero_le 1
  · exact Nat.le_of_eq hone

/-- A session can follow where the token is. -/
theorem Machine.Ready.exists_step {m : Machine} (h : m.Ready) (stdin : List Byte) :
    ∃ m', sessions.step m stdin m' := by
  obtain ⟨tr, s, hpath, hcompleted⟩ := exists_path_completed m.shmp stdin
  rw [← h.session_eq] at hpath
  exact ⟨s.left, tr, s, hpath, hcompleted, rfl⟩

/-- **When the next session can run.**  After any number of completed sessions, the
semaphores are `1` and `0` and a writer and a reader with any input can run to completion
if and only if that number is none. -/
theorem ready_iff {sofar : List (List Byte)} {m : Machine} (h : sessions.Run sofar m) :
    (m.Ready ∧ ∀ stdin, ∃ m', sessions.step m stdin m') ↔ sofar = [] := by
  constructor
  · rintro ⟨hready, -⟩
    rcases spent h with ⟨hnil, -⟩ | ⟨-, hw, -⟩
    · exact hnil
    · unfold Machine.Ready at hready
      rw [hw] at hready
      exact absurd hready.1 (by decide)
  · rintro rfl
    rcases spent h with ⟨-, hw, hr⟩ | ⟨hone, -⟩
    · have hready : m.Ready := by
        unfold Machine.Ready
        rw [hw, hr]
        exact ⟨rfl, rfl⟩
      exact ⟨hready, hready.exists_step⟩
    · cases hone

/-- No semaphores yet, and an empty segment. -/
def Machine.new : Machine := ⟨none, none, .zero⟩

/-- A first session with an empty input. -/
theorem exists_emptySession : ∃ m, sessions.Run [[]] m := by
  have hready : Machine.new.Ready := ⟨rfl, rfl⟩
  obtain ⟨m, hm⟩ := hready.exists_step []
  have hnew : sessions.Run [] .new := .init ⟨rfl, rfl⟩
  exact ⟨m, hnew.snoc hm⟩

theorem ready_iff_emptySession : ∃ m, sessions.Run [[]] m ∧
    ¬ (m.Ready ∧ ∀ stdin, ∃ m', sessions.step m stdin m') := by
  obtain ⟨m, hm⟩ := exists_emptySession
  exact ⟨m, hm, fun h ↦ absurd ((ready_iff hm).mp h) (List.cons_ne_nil [] [])⟩

/-- One session that transfers nothing, and the semaphores are not as they were. -/
theorem not_ready_emptySession : ∃ m, sessions.Run [[]] m ∧ ¬ m.Ready := by
  obtain ⟨m, hm⟩ := exists_emptySession
  refine ⟨m, hm, fun hready ↦ ?_⟩
  rcases spent hm with ⟨hnil, -⟩ | ⟨-, hw, -⟩
  · cases hnil
  · unfold Machine.Ready at hready
    rw [hw] at hready
    exact absurd hready.1 (by decide)

end SysProg.ShmPipe
