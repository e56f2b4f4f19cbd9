import Mathlib.Algebra.Group.Nat.Defs
import SysProg.ShmPipe.Transfer

/-!
# A whole session

`transfer` says what one session of writer and reader does: the semaphores never add up
to more than `1`, the output is always a beginning of the input, and the reader leaves
its loop only with all of it.  It puts the simulation together with what each of the
processes does on its own (`Tally`).

The reader counts the chunks in an `int`.  So its count is exact up to `2 ^ 31 - 1`
chunks, and wraps around after that (`xfrs_wraps`): every way to cut an input into
chunks is that of some session (`exists_session`), also one byte at a time.
-/

namespace SysProg.ShmPipe

open SysProg.Lib

variable {stdin input chunk : List Byte} {shmp : ShmSeg} {s s' : State}
  {t : Option (List Byte)} {w r : Nat} {wpc : WriterPc} {rpc : ReaderPc} {tr : List Label}
  {a : Label}

/-! ## What the processes do on their own -/

/-- `1` where the reader has written a chunk and not counted it yet. -/
def owed : ReaderPc → BitVec 32
  | .check _ | .post | .fail => 1
  | _ => 0

/-- The input is what was read and what is left, the output is what was written, and
`xfrs` counts the chunks written. -/
structure Tally (input : List Byte) (tr : List Label) (s : State) : Prop where
  stdin : (chunks tr).flatten ++ s.stdin = input
  stdout : s.stdout = (written tr).flatten
  xfrs : s.xfrs + owed s.reader = BitVec.ofNat 32 (written tr).length

theorem chunks_concat (tr : List Label) (a : Label) :
    chunks (tr ++ [a]) = chunks tr ++ a.getRead.toList :=
  Lts.filterMap_concat ..

theorem written_concat (tr : List Label) (a : Label) :
    written (tr ++ [a]) = written tr ++ a.getWritten.toList :=
  Lts.filterMap_concat ..

theorem chunks_of_none (h : a.getRead = none) : chunks (tr ++ [a]) = chunks tr := by
  rw [chunks_concat, h, Option.toList_none, List.append_nil]

theorem written_of_none (h : a.getWritten = none) : written (tr ++ [a]) = written tr := by
  rw [written_concat, h, Option.toList_none, List.append_nil]

/-- A step that neither reads nor writes. -/
theorem Tally.silent (h : Tally input tr s) (hread : a.getRead = none)
    (hwritten : a.getWritten = none) (hstdin : s'.stdin = s.stdin) (hstdout : s'.stdout = s.stdout)
    (hxfrs : s'.xfrs + owed s'.reader = s.xfrs + owed s.reader) : Tally input (tr ++ [a]) s' where
  stdin := by rw [chunks_of_none hread, hstdin, h.stdin]
  stdout := by rw [written_of_none hwritten, hstdout, h.stdout]
  xfrs := by rw [written_of_none hwritten, hxfrs, h.xfrs]

/-- A chunk that is empty does not count, and adds nothing either. -/
theorem flatten_getRead (chunk : List Byte) :
    (Label.getRead (.writer (.read chunk))).toList.flatten = chunk := by
  rw [Label.getRead]
  split
  · next hnil => rw [hnil]; rfl
  · exact List.append_nil chunk

theorem Tally.step (h : Tally input tr s) (hs : Step s a s') : Tally input (tr ++ [a]) s' := by
  cases hs with
  | @read chunk hpc hread =>
      refine ⟨?_, ?_, ?_⟩
      · have hsplit : chunk ++ s.stdin.drop chunk.length = s.stdin :=
          List.prefix_iff_eq_append.mp hread.2.1
        rw [chunks_concat, List.flatten_append, flatten_getRead, List.append_assoc, hsplit, h.stdin]
      · rw [written_of_none rfl, h.stdout]
      · rw [written_of_none rfl, h.xfrs]
  | write hpc =>
      have hxfrs := h.xfrs
      rw [hpc] at hxfrs
      refine ⟨?_, ?_, ?_⟩
      · rw [chunks_of_none rfl, h.stdin]
      · rw [written_concat, List.flatten_append, ← h.stdout]
        exact congrArg (s.stdout ++ ·) (List.append_nil _).symm
      · rw [written_concat, List.length_append, BitVec.ofNat_add, ← hxfrs]
        exact (congrArg (· + 1) (BitVec.add_zero s.xfrs)).symm
  | writerWait | store | writerCheck | writerPost | writerTest =>
      exact h.silent rfl rfl rfl rfl rfl
  | readerWait hpc | count hpc =>
      exact h.silent rfl rfl rfl rfl (congrArg (s.xfrs + ·) (by rw [hpc]; rfl))
  | readerTest hpc | readerCheck hpc =>
      refine h.silent rfl rfl rfl rfl (congrArg (s.xfrs + ·) ?_)
      rw [hpc]
      dsimp only
      split <;> rfl
  | readerPost hpc =>
      refine h.silent rfl rfl rfl rfl ?_
      rw [hpc]
      exact BitVec.add_zero _

theorem tally (h : (shmPipe input).Run tr s) : Tally input tr s := by
  refine h.induction (P := Tally input) ?_ fun _ _ _ _ _ ih hs ↦ ih.step (.of_step hs)
  rintro s ⟨shmp, rfl⟩
  exact ⟨rfl, rfl, rfl⟩

/-! ## The end of the session -/

theorem Phase.sem_le_one (h : Phase w r wpc rpc shmp stdin t) : w + r ≤ 1 := by
  cases h <;> decide

/-- The reader leaves its loop when there is nothing left to read or to write. -/
theorem Phase.of_done (h : Phase w r wpc .done shmp stdin t) : t = none ∧ stdin = [] := by
  cases h with
  | finished => exact ⟨rfl, rfl⟩

/-- Neither process finds a count in the segment that makes it fail. -/
theorem Phase.ne_fail (h : Phase w r wpc rpc shmp stdin t) : wpc ≠ .fail ∧ rpc ≠ .fail := by
  cases h with
  | full hleft | taken hleft | counting hleft | writing hleft | written hleft | returning hleft
  | finished hleft => cases hleft <;> simp
  | _ => simp

theorem ne_fail (h : (shmPipe input).Run tr s) : s.writer ≠ .fail ∧ s.reader ≠ .fail := by
  obtain ⟨t, ht, -⟩ := exists_transit h
  exact Phase.ne_fail ht

theorem stdout_prefix (h : (shmPipe input).Run tr s) : s.stdout <+: input := by
  obtain ⟨t, -, hchunks⟩ := exists_transit h
  have htally := tally h
  rw [htally.stdout, ← htally.stdin, hchunks, List.flatten_append, List.append_assoc]
  exact List.prefix_append ..

/-- At the end everything is written, and `xfrs` has counted every chunk. -/
theorem eq_of_done (h : (shmPipe input).Run tr s) (hdone : s.reader = .done) :
    s.stdout = input ∧ s.xfrs = BitVec.ofNat 32 (chunks tr).length := by
  obtain ⟨t, ht, hchunks⟩ := exists_transit h
  unfold Transit at ht
  rw [hdone] at ht
  obtain ⟨rfl, hstdin⟩ := ht.of_done
  rw [Option.toList_none, List.append_nil] at hchunks
  have htally := tally h
  constructor
  · rw [htally.stdout, ← htally.stdin, hstdin, hchunks, List.append_nil]
  · have hxfrs := htally.xfrs
    rw [hdone] at hxfrs
    rw [hchunks, ← hxfrs]
    exact (BitVec.add_zero s.xfrs).symm

theorem toInt_ofNat_of_lt {k : Nat} (h : k < 2 ^ 31) : (BitVec.ofNat 32 k).toInt = k := by
  rw [BitVec.toInt_ofNat']
  exact Int.bmod_eq_of_le (by omega) (by omega)

/-- **What one session does.**  The semaphores never add up to more than `1`, the output
is always a beginning of the input, and when the reader leaves its loop the output is the
whole input and `xfrs` is the number of non-empty chunks modulo `2 ^ 32`, so that number
itself below `2 ^ 31`. -/
theorem transfer (h : (shmPipe input).Run tr s) :
    s.writeSem + s.readSem ≤ 1 ∧ s.stdout <+: input ∧
      (s.reader = .done → s.stdout = input ∧ s.xfrs = BitVec.ofNat 32 (chunks tr).length ∧
        ((chunks tr).length < 2 ^ 31 → s.xfrs.toInt = (chunks tr).length)) := by
  obtain ⟨t, ht, -⟩ := exists_transit h
  refine ⟨Phase.sem_le_one ht, stdout_prefix h, fun hdone ↦ ?_⟩
  obtain ⟨hstdout, hxfrs⟩ := eq_of_done h hdone
  refine ⟨hstdout, hxfrs, fun hlt ↦ ?_⟩
  rw [hxfrs]
  exact toInt_ofNat_of_lt hlt

/-- Some `read` is always possible. -/
theorem exists_canRead (stdin : List Byte) : ∃ chunk, CanRead stdin chunk := by
  refine ⟨stdin.take bufSize, ?_, List.take_prefix .., fun hnil ↦ ?_⟩
  · rw [List.length_take]
    exact Nat.min_le_left ..
  · exact (List.take_eq_nil_iff.mp hnil).resolve_left (by decide)

/-- **The processes never wait for each other**: when no step is possible, both have left
their loops. -/
theorem done_of_stuck (h : (shmPipe input).Run tr s) (hstuck : (shmPipe input).Stuck s) :
    s.writer = .done ∧ s.reader = .done := by
  obtain ⟨t, ht, -⟩ := exists_transit h
  have hno : ∀ a s', ¬ Step s a s' := fun a s' hs ↦ hstuck a ⟨s', hs.to_step⟩
  obtain ⟨writeSem, readSem, shmp, stdin, writer, reader, bytes, xfrs, stdout⟩ := s
  have hphase : Phase writeSem readSem writer reader shmp stdin t := ht
  cases hphase with
  | free => exact absurd (.writerWait rfl Nat.one_pos) (hno _ _)
  | freed => exact absurd (.writerTest rfl) (hno _ _)
  | reading =>
      obtain ⟨chunk, hread⟩ := exists_canRead stdin
      exact absurd (.read rfl hread) (hno _ _)
  | storing => exact absurd (.store rfl) (hno _ _)
  | checking => exact absurd (.writerCheck rfl) (hno _ _)
  | posting => exact absurd (.writerPost rfl) (hno _ _)
  | full => exact absurd (.readerWait rfl Nat.one_pos) (hno _ _)
  | taken => exact absurd (.readerTest rfl) (hno _ _)
  | counting => exact absurd (.count rfl) (hno _ _)
  | writing => exact absurd (.write rfl) (hno _ _)
  | written => exact absurd (.readerCheck rfl) (hno _ _)
  | returning => exact absurd (.readerPost rfl) (hno _ _)
  | finished hleft hcnt =>
      cases hleft with
      | test => exact absurd (.writerTest rfl) (hno _ _)
      | wait hne => exact absurd hcnt hne
      | done => exact ⟨rfl, rfl⟩

/-- An empty segment. -/
def ShmSeg.zero : ShmSeg := ⟨0, List.replicate bufSize 0, List.length_replicate⟩

/-- Two chunks; the writer looks at its first count again when the reader has written
the chunk, and at the second `0` when the reader has left. -/
def twoChunks : List Label :=
  [.writer .wait, .writer (.read [1, 2]), .writer .store, .writer .check, .writer .post,
    .reader .wait, .reader .test, .reader .count, .reader (.write [1, 2]), .writer .test,
    .reader .check, .reader .post,
    .writer .wait, .writer (.read [3]), .writer .store, .writer .check, .writer .post,
    .writer .test, .reader .wait, .reader .test, .reader .count, .reader (.write [3]),
    .reader .check, .reader .post,
    .writer .wait, .writer (.read []), .writer .store, .writer .check, .writer .post,
    .reader .wait, .reader .test, .writer .test]

theorem transfer_twoChunks : ∃ s, (shmPipe [1, 2, 3]).Run twoChunks s ∧ s.reader = .done ∧
    s.stdout = [1, 2, 3] ∧ s.xfrs = 2 := by
  have hexec : (Lts.exec next (start .zero [1, 2, 3]) twoChunks).map State.reader = some .done := by
    decide
  obtain ⟨s, hrun, hdone⟩ : ∃ s, (shmPipe [1, 2, 3]).Run twoChunks s ∧ s.reader = .done :=
    Lts.exists_run_of_exec ⟨.zero, rfl⟩ _ _ _ hexec
  obtain ⟨-, -, hend⟩ := transfer hrun
  obtain ⟨hstdout, hxfrs, -⟩ := hend hdone
  exact ⟨s, hrun, hdone, hstdout, hxfrs⟩

/-! ## Every way to cut the input -/

/-- One chunk goes through. -/
def round (chunk : List Byte) : List Label :=
  [.writer .wait, .writer (.read chunk), .writer .store, .writer .check, .writer .post,
    .writer .test, .reader .wait, .reader .test, .reader .count, .reader (.write chunk),
    .reader .check, .reader .post]

/-- The end of the input goes through. -/
def lastRound : List Label :=
  [.writer .wait, .writer (.read []), .writer .store, .writer .check, .writer .post,
    .writer .test, .reader .wait, .reader .test]

/-- Both processes at the head of their loops, and the writer's turn. -/
def idle (shmp : ShmSeg) (stdin : List Byte) (bytes xfrs : BitVec 32) (stdout : List Byte) :
    State :=
  ⟨1, 0, shmp, stdin, .wait, .wait, bytes, xfrs, stdout⟩

theorem path_round (hne : chunk ≠ []) (hle : chunk.length ≤ bufSize) (shmp : ShmSeg)
    (rest : List Byte) (bytes xfrs : BitVec 32) (stdout : List Byte) :
    ∃ shmp' bytes' xfrs' stdout',
      (shmPipe input).Path (idle shmp (chunk ++ rest) bytes xfrs stdout) (round chunk)
        (idle shmp' rest bytes' xfrs' stdout') := by
  have hread : CanRead (chunk ++ rest) chunk :=
    ⟨hle, List.prefix_append .., fun hnil ↦ absurd hnil hne⟩
  have hload : Loaded (shmp.fill chunk hle).buf ((chunk ++ rest).drop chunk.length)
      (BitVec.ofNat 32 chunk.length) (some chunk) := by
    have hfill := @Loaded.of_read _ _ shmp hread
    rwa [if_neg hne] at hfill
  generalize hn : BitVec.ofNat 32 chunk.length = n at hload
  have hzero : n ≠ 0#32 := fun heq ↦ hne (by simpa using (hload.eof_of_eq_zero heq).1)
  have htake : (shmp.fill chunk hle).buf.take n.toNat = chunk := by
    simpa using (hload.eq_some hzero).symm
  have hneg : n ≠ 4294967295#32 := hload.ne_neg_one
  refine ⟨{ shmp.fill chunk hle with cnt := n }, bytes + n, xfrs + 1, stdout ++ chunk, .of_exec ?_⟩
  simp [round, idle, Lts.exec, next, writerNext, readerNext, hread, hn, hneg, hzero, htake]

theorem chunks_round (hne : chunk ≠ []) : chunks (round chunk) = [chunk] := by
  simp [chunks, round, Label.getRead, List.filterMap_cons, hne]

theorem path_lastRound (shmp : ShmSeg) (bytes xfrs : BitVec 32) (stdout : List Byte) :
    ∃ t, (shmPipe input).Path (idle shmp [] bytes xfrs stdout) lastRound t ∧ t.reader = .done := by
  have hread : CanRead [] [] := ⟨Nat.zero_le _, List.nil_prefix, fun _ ↦ rfl⟩
  refine ⟨⟨0, 0, { shmp.fill [] hread.1 with cnt := 0 }, [], .done, .done, bytes, xfrs, stdout⟩,
    .of_exec ?_, rfl⟩
  simp [lastRound, idle, Lts.exec, next, writerNext, readerNext, hread]

/-- From the heads of the loops, whatever is left can go through in any chunks. -/
theorem exists_path (pieces : List (List Byte))
    (h : ∀ chunk ∈ pieces, chunk ≠ [] ∧ chunk.length ≤ bufSize) (shmp : ShmSeg)
    (bytes xfrs : BitVec 32) (stdout : List Byte) :
    ∃ tr t, (shmPipe input).Path (idle shmp pieces.flatten bytes xfrs stdout) tr t ∧
      t.reader = .done ∧ chunks tr = pieces := by
  induction pieces generalizing shmp bytes xfrs stdout with
  | nil =>
      obtain ⟨t, hpath, hdone⟩ := path_lastRound shmp bytes xfrs stdout
      exact ⟨lastRound, t, hpath, hdone, rfl⟩
  | cons chunk pieces ih =>
      obtain ⟨⟨hne, hle⟩, hpieces⟩ := List.forall_mem_cons.mp h
      obtain ⟨shmp', bytes', xfrs', stdout', hround⟩ :=
        path_round hne hle shmp pieces.flatten bytes xfrs stdout
      obtain ⟨tr, t, hpath, hdone, hchunks⟩ := ih hpieces shmp' bytes' xfrs' stdout'
      refine ⟨round chunk ++ tr, t, hround.trans hpath, hdone, ?_⟩
      rw [chunks, List.filterMap_append, ← chunks, ← chunks, chunks_round hne, hchunks]
      rfl

/-- **Every way to cut the input into chunks is that of a session.** -/
theorem exists_session (pieces : List (List Byte))
    (h : ∀ chunk ∈ pieces, chunk ≠ [] ∧ chunk.length ≤ bufSize) :
    ∃ tr s, (shmPipe pieces.flatten).Run tr s ∧ s.reader = .done ∧ chunks tr = pieces := by
  obtain ⟨tr, s, hpath, hdone, hchunks⟩ := exists_path pieces h .zero 0 0 []
  exact ⟨tr, s, ⟨_, ⟨.zero, rfl⟩, hpath⟩, hdone, hchunks⟩

/-- `k` bytes that arrive one at a time. -/
theorem exists_session_bytes (k : Nat) :
    ∃ tr s, (shmPipe (List.replicate k 0)).Run tr s ∧ s.reader = .done ∧
      (chunks tr).length = k := by
  have hpieces : ∀ chunk ∈ List.replicate k ([0] : List Byte),
      chunk ≠ [] ∧ chunk.length ≤ bufSize := by
    intro chunk hchunk
    obtain rfl := List.eq_of_mem_replicate hchunk
    decide
  obtain ⟨tr, s, hrun, hdone, hchunks⟩ := exists_session _ hpieces
  rw [List.flatten_replicate_singleton] at hrun
  exact ⟨tr, s, hrun, hdone, by rw [hchunks, List.length_replicate]⟩

/-- With `2 ^ 31` bytes that arrive one at a time, `xfrs` ends at `-2 ^ 31`. -/
theorem xfrs_wraps : ¬ ∀ tr s, (shmPipe (List.replicate (2 ^ 31) 0)).Run tr s →
    s.reader = .done → s.xfrs.toInt = (chunks tr).length := by
  intro hcount
  obtain ⟨tr, s, hrun, hdone, hlength⟩ := exists_session_bytes (2 ^ 31)
  have hxfrs := hcount tr s hrun hdone
  rw [(eq_of_done hrun hdone).2, hlength] at hxfrs
  exact absurd hxfrs (by decide)

end SysProg.ShmPipe
