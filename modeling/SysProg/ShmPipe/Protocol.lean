import SysProg.Lib.Lts

/-!
# A pipe through shared memory

`SP_HW9/54_1/writer.c` copies its standard input, a block at a time, into a segment
shared with `SP_HW9/54_1/reader.c`, which copies it to its standard output.  Two POSIX
semaphores tell whose turn it is: `write_sem` starts at `1` and `read_sem` at `0`.

The two loops are one transition system.  Program counters name what is to be done
next, and every access to the segment is a step of its own, also where a line of the
source makes several: `shmp->cnt = read(…)` fills the buffer and then stores the count,
and both processes look at `shmp->cnt` more than once.  The label of a `read` and of a
`write` has the bytes.

All calls succeed, so `read` returns at most `BUF_SIZE` bytes of what is left, and
none only at the end of the input; `write` writes all it is given.  The branches to
`errExit` that depend on the segment are there, as program counter `fail`.  `bytes`
and `xfrs` are C `int`s, which wrap around.
-/

namespace SysProg.ShmPipe

open SysProg.Lib

abbrev Byte := BitVec 8

/-- `BUF_SIZE` -/
def bufSize : Nat := 4096

/-- `struct shmseg` -/
structure ShmSeg where
  cnt : BitVec 32
  buf : List Byte
  length_buf : buf.length = bufSize

/-- `read` overwrites the beginning of the buffer. -/
def ShmSeg.fill (shmp : ShmSeg) (chunk : List Byte) (h : chunk.length ≤ bufSize) : ShmSeg where
  cnt := shmp.cnt
  buf := chunk ++ shmp.buf.drop chunk.length
  length_buf := by
    rw [List.length_append, List.length_drop, shmp.length_buf]
    omega

inductive WriterPc where
  | wait | read
  | /-- With what `read` returned. -/ store (n : BitVec 32)
  | check | post | test | done | fail
deriving DecidableEq

inductive ReaderPc where
  | wait | test | count | write
  | /-- With what `write` returned. -/ check (n : BitVec 32)
  | post | done | fail
deriving DecidableEq

inductive WriterOp where
  | wait | read (chunk : List Byte) | store | check | post | test
deriving DecidableEq

inductive ReaderOp where
  | wait | test | count | write (chunk : List Byte) | check | post
deriving DecidableEq

inductive Label where
  | writer (op : WriterOp)
  | reader (op : ReaderOp)
deriving DecidableEq

structure State where
  writeSem : Nat
  readSem : Nat
  shmp : ShmSeg
  /-- What the writer has not read yet. -/
  stdin : List Byte
  writer : WriterPc
  reader : ReaderPc
  bytes : BitVec 32
  xfrs : BitVec 32
  stdout : List Byte

/-- `read(STDIN_FILENO, shmp->buf, BUF_SIZE)` can return `chunk`. -/
def CanRead (stdin chunk : List Byte) : Prop :=
  chunk.length ≤ bufSize ∧ chunk <+: stdin ∧ (chunk = [] → stdin = [])

instance (stdin chunk : List Byte) : Decidable (CanRead stdin chunk) :=
  inferInstanceAs (Decidable (_ ∧ _))

/-- The loop of the writer. -/
def writerNext (s : State) : WriterOp → Option State
  | .wait =>
      if s.writer = .wait ∧ 0 < s.writeSem then
        some { s with writeSem := s.writeSem - 1, writer := .read }
      else none
  | .read chunk =>
      if h : s.writer = .read ∧ CanRead s.stdin chunk then
        some { s with
          shmp := s.shmp.fill chunk h.2.1
          stdin := s.stdin.drop chunk.length
          writer := .store (BitVec.ofNat 32 chunk.length) }
      else none
  | .store => match s.writer with
      | .store n => some { s with shmp := { s.shmp with cnt := n }, writer := .check }
      | _ => none
  | .check =>
      if s.writer = .check then
        some { s with writer := if s.shmp.cnt = -1 then .fail else .post }
      else none
  | .post =>
      if s.writer = .post then some { s with readSem := s.readSem + 1, writer := .test } else none
  | .test =>
      if s.writer = .test then
        some { s with writer := if s.shmp.cnt = 0 then .done else .wait }
      else none

/-- The loop of the reader. -/
def readerNext (s : State) : ReaderOp → Option State
  | .wait =>
      if s.reader = .wait ∧ 0 < s.readSem then
        some { s with readSem := s.readSem - 1, reader := .test }
      else none
  | .test =>
      if s.reader = .test then
        some { s with reader := if s.shmp.cnt = 0 then .done else .count }
      else none
  | .count =>
      if s.reader = .count then
        some { s with bytes := s.bytes + s.shmp.cnt, reader := .write }
      else none
  | .write chunk =>
      if s.reader = .write ∧ s.shmp.buf.take s.shmp.cnt.toNat = chunk then
        some { s with stdout := s.stdout ++ chunk, reader := .check s.shmp.cnt }
      else none
  | .check => match s.reader with
      | .check n => some { s with reader := if n ≠ s.shmp.cnt then .fail else .post }
      | _ => none
  | .post =>
      if s.reader = .post then
        some { s with writeSem := s.writeSem + 1, xfrs := s.xfrs + 1, reader := .wait }
      else none

/-- One step of either process. -/
def next (s : State) : Label → Option State
  | .writer op => writerNext s op
  | .reader op => readerNext s op

/-- Both processes are before their loops; the segment may hold anything. -/
def start (shmp : ShmSeg) (stdin : List Byte) : State :=
  ⟨1, 0, shmp, stdin, .wait, .wait, 0, 0, []⟩

/-- One session of writer and reader, with the input `stdin`. -/
def shmPipe (stdin : List Byte) : Lts State Label :=
  Lts.ofNext (fun s ↦ ∃ shmp, s = start shmp stdin) next

/-! ## What a step does -/

/-- The rules of `next`. -/
inductive Step (s : State) : Label → State → Prop
  | writerWait (hpc : s.writer = .wait) (hsem : 0 < s.writeSem) :
      Step s (.writer .wait) { s with writeSem := s.writeSem - 1, writer := .read }
  | read {chunk : List Byte} (hpc : s.writer = .read) (hread : CanRead s.stdin chunk) :
      Step s (.writer (.read chunk))
        { s with
          shmp := s.shmp.fill chunk hread.1
          stdin := s.stdin.drop chunk.length
          writer := .store (BitVec.ofNat 32 chunk.length) }
  | store {n : BitVec 32} (hpc : s.writer = .store n) :
      Step s (.writer .store) { s with shmp := { s.shmp with cnt := n }, writer := .check }
  | writerCheck (hpc : s.writer = .check) :
      Step s (.writer .check) { s with writer := if s.shmp.cnt = -1 then .fail else .post }
  | writerPost (hpc : s.writer = .post) :
      Step s (.writer .post) { s with readSem := s.readSem + 1, writer := .test }
  | writerTest (hpc : s.writer = .test) :
      Step s (.writer .test) { s with writer := if s.shmp.cnt = 0 then .done else .wait }
  | readerWait (hpc : s.reader = .wait) (hsem : 0 < s.readSem) :
      Step s (.reader .wait) { s with readSem := s.readSem - 1, reader := .test }
  | readerTest (hpc : s.reader = .test) :
      Step s (.reader .test) { s with reader := if s.shmp.cnt = 0 then .done else .count }
  | count (hpc : s.reader = .count) :
      Step s (.reader .count) { s with bytes := s.bytes + s.shmp.cnt, reader := .write }
  | write (hpc : s.reader = .write) :
      Step s (.reader (.write (s.shmp.buf.take s.shmp.cnt.toNat)))
        { s with
          stdout := s.stdout ++ s.shmp.buf.take s.shmp.cnt.toNat
          reader := .check s.shmp.cnt }
  | readerCheck {n : BitVec 32} (hpc : s.reader = .check n) :
      Step s (.reader .check) { s with reader := if n ≠ s.shmp.cnt then .fail else .post }
  | readerPost (hpc : s.reader = .post) :
      Step s (.reader .post)
        { s with writeSem := s.writeSem + 1, xfrs := s.xfrs + 1, reader := .wait }

variable {s t : State} {a : Label} {stdin : List Byte}

theorem Step.of_writerNext {op : WriterOp} (h : writerNext s op = some t) :
    Step s (.writer op) t := by
  cases op with
  | wait =>
      obtain ⟨⟨hpc, hsem⟩, h⟩ := Option.ite_none_right_eq_some.mp h
      cases h
      exact .writerWait hpc hsem
  | read chunk =>
      simp only [writerNext] at h
      split at h
      · next hread =>
          cases h
          exact .read hread.1 hread.2
      · cases h
  | store =>
      simp only [writerNext] at h
      split at h
      · next n hpc =>
          cases h
          exact .store hpc
      · cases h
  | check =>
      obtain ⟨hpc, h⟩ := Option.ite_none_right_eq_some.mp h
      cases h
      exact .writerCheck hpc
  | post =>
      obtain ⟨hpc, h⟩ := Option.ite_none_right_eq_some.mp h
      cases h
      exact .writerPost hpc
  | test =>
      obtain ⟨hpc, h⟩ := Option.ite_none_right_eq_some.mp h
      cases h
      exact .writerTest hpc

theorem Step.of_readerNext {op : ReaderOp} (h : readerNext s op = some t) :
    Step s (.reader op) t := by
  cases op with
  | wait =>
      obtain ⟨⟨hpc, hsem⟩, h⟩ := Option.ite_none_right_eq_some.mp h
      cases h
      exact .readerWait hpc hsem
  | test =>
      obtain ⟨hpc, h⟩ := Option.ite_none_right_eq_some.mp h
      cases h
      exact .readerTest hpc
  | count =>
      obtain ⟨hpc, h⟩ := Option.ite_none_right_eq_some.mp h
      cases h
      exact .count hpc
  | write chunk =>
      obtain ⟨⟨hpc, rfl⟩, h⟩ := Option.ite_none_right_eq_some.mp h
      cases h
      exact .write hpc
  | check =>
      simp only [readerNext] at h
      split at h
      · next n hpc =>
          cases h
          exact .readerCheck hpc
      · cases h
  | post =>
      obtain ⟨hpc, h⟩ := Option.ite_none_right_eq_some.mp h
      cases h
      exact .readerPost hpc

/-- Every step of the system follows one of the rules. -/
theorem Step.of_step (h : (shmPipe stdin).step s a t) : Step s a t := by
  cases a with
  | writer op => exact .of_writerNext h
  | reader op => exact .of_readerNext h

/-- Every rule is a step of the system. -/
theorem Step.to_step (h : Step s a t) : (shmPipe stdin).step s a t := by
  show next s a = some t
  cases h with
  | writerWait hpc hsem => exact if_pos ⟨hpc, hsem⟩
  | read hpc hread => exact dif_pos ⟨hpc, hread⟩
  | store hpc => simp only [next, writerNext, hpc]
  | writerCheck hpc => exact if_pos hpc
  | writerPost hpc => exact if_pos hpc
  | writerTest hpc => exact if_pos hpc
  | readerWait hpc hsem => exact if_pos ⟨hpc, hsem⟩
  | readerTest hpc => exact if_pos hpc
  | count hpc => exact if_pos hpc
  | write hpc => exact if_pos ⟨hpc, rfl⟩
  | readerCheck hpc => simp only [next, readerNext, hpc]
  | readerPost hpc => exact if_pos hpc

end SysProg.ShmPipe
