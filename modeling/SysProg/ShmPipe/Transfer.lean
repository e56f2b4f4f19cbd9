import SysProg.Lib.Slot
import SysProg.ShmPipe.Protocol

/-!
# What the reader writes is what the writer reads

Between the `read` of the writer and the `write` of the reader a chunk is in the
shared buffer, so the two processes simulate a one-place buffer (`simulation`): the
`read` of a chunk that is not empty puts it there, and the `write` takes it.  What the
place holds is related to the state by `Phase`, which goes through the places where
the one token of the two semaphores can be.

The end of the input is a count of `0` in the segment.  The writer looks at the count
again after it has let the reader go on; that is safe because nobody writes to the
segment until the reader has returned the token (`Left`).
-/

namespace SysProg.ShmPipe

open SysProg.Lib

/-! ## The phases of a transfer -/

/-- The buffer and the count `n` of it are those of the chunk in transit, or `n` is `0`
and the input has ended. -/
inductive Loaded (buf stdin : List Byte) (n : BitVec 32) : Option (List Byte) → Prop
  | chunk {c : List Byte} (hne : c ≠ []) (hle : c.length ≤ bufSize) (hn : n.toNat = c.length)
      (hbuf : buf.take c.length = c) : Loaded buf stdin n (some c)
  | eof (hn : n = 0) (hstdin : stdin = []) : Loaded buf stdin n none

/-- Where the writer can be after it has posted the count `cnt`. -/
inductive Left (cnt : BitVec 32) : WriterPc → Prop
  | test : Left cnt .test
  | wait (hcnt : cnt ≠ 0) : Left cnt .wait
  | done (hcnt : cnt = 0) : Left cnt .done

/-- The values of `write_sem` and `read_sem`, the program counters of writer and reader,
the segment, the rest of the input, and the chunk in transit. -/
inductive Phase :
    Nat → Nat → WriterPc → ReaderPc → ShmSeg → List Byte → Option (List Byte) → Prop
  | free {shmp stdin} : Phase 1 0 .wait .wait shmp stdin none
  | freed {shmp stdin} (hcnt : shmp.cnt ≠ 0) : Phase 1 0 .test .wait shmp stdin none
  | reading {shmp stdin} : Phase 0 0 .read .wait shmp stdin none
  | storing {n shmp stdin t} (hload : Loaded shmp.buf stdin n t) :
      Phase 0 0 (.store n) .wait shmp stdin t
  | checking {shmp stdin t} (hload : Loaded shmp.buf stdin shmp.cnt t) :
      Phase 0 0 .check .wait shmp stdin t
  | posting {shmp stdin t} (hload : Loaded shmp.buf stdin shmp.cnt t) :
      Phase 0 0 .post .wait shmp stdin t
  | full {wpc shmp stdin t} (hleft : Left shmp.cnt wpc)
      (hload : Loaded shmp.buf stdin shmp.cnt t) : Phase 0 1 wpc .wait shmp stdin t
  | taken {wpc shmp stdin t} (hleft : Left shmp.cnt wpc)
      (hload : Loaded shmp.buf stdin shmp.cnt t) : Phase 0 0 wpc .test shmp stdin t
  | counting {wpc shmp stdin t} (hleft : Left shmp.cnt wpc) (hcnt : shmp.cnt ≠ 0)
      (hload : Loaded shmp.buf stdin shmp.cnt t) : Phase 0 0 wpc .count shmp stdin t
  | writing {wpc shmp stdin t} (hleft : Left shmp.cnt wpc) (hcnt : shmp.cnt ≠ 0)
      (hload : Loaded shmp.buf stdin shmp.cnt t) : Phase 0 0 wpc .write shmp stdin t
  | written {wpc shmp stdin} (hleft : Left shmp.cnt wpc) (hcnt : shmp.cnt ≠ 0) :
      Phase 0 0 wpc (.check shmp.cnt) shmp stdin none
  | returning {wpc shmp stdin} (hleft : Left shmp.cnt wpc) (hcnt : shmp.cnt ≠ 0) :
      Phase 0 0 wpc .post shmp stdin none
  | finished {wpc shmp} (hleft : Left shmp.cnt wpc) (hcnt : shmp.cnt = 0) :
      Phase 0 0 wpc .done shmp [] none

variable {stdin buf chunk : List Byte} {shmp : ShmSeg} {s s' : State} {t : Option (List Byte)}
  {n : BitVec 32} {w r : Nat} {wpc : WriterPc} {rpc : ReaderPc} {tr : List Label}

/-- What `read` returns is then in the buffer. -/
theorem Loaded.of_read (hread : CanRead stdin chunk) :
    Loaded (shmp.fill chunk hread.1).buf (stdin.drop chunk.length)
      (BitVec.ofNat 32 chunk.length) (if chunk = [] then none else some chunk) := by
  obtain ⟨hle, -, heof⟩ := hread
  split
  · next hnil =>
      subst hnil
      exact .eof rfl (heof rfl)
  · next hne =>
      refine .chunk hne hle ?_ List.take_left
      rw [BitVec.toNat_ofNat]
      exact Nat.mod_eq_of_lt (Nat.lt_of_le_of_lt hle (by decide))

/-- A count is never that of a failed `read`. -/
theorem Loaded.ne_neg_one (h : Loaded buf stdin n t) : n ≠ -1 := by
  rintro rfl
  cases h with
  | chunk _ hle hn => exact absurd (Nat.le_trans (Nat.le_of_eq hn) hle) (by decide)
  | eof hn => exact absurd hn (by decide)

/-- With a count that is not `0`, the chunk in transit is what the buffer begins with. -/
theorem Loaded.eq_some (h : Loaded buf stdin n t) (hn : n ≠ 0) : t = some (buf.take n.toNat) := by
  cases h with
  | chunk _ _ hlength hbuf => rw [hlength, hbuf]
  | eof hzero => exact absurd hzero hn

theorem Loaded.eof_of_eq_zero (h : Loaded buf stdin n t) (hn : n = 0) : t = none ∧ stdin = [] := by
  cases h with
  | chunk hne _ hlength =>
      subst hn
      exact absurd (List.length_eq_zero_iff.mp hlength.symm) hne
  | eof _ hstdin => exact ⟨rfl, hstdin⟩

/-! ## One step -/

theorem Phase.writerWait (h : Phase w r .wait rpc shmp stdin t) (hsem : 0 < w) :
    Phase (w - 1) r .read rpc shmp stdin t := by
  cases h with
  | free => exact .reading
  | _ => exact absurd hsem (Nat.lt_irrefl 0)

theorem Phase.read (h : Phase w r .read rpc shmp stdin t) (hread : CanRead stdin chunk) :
    t = none ∧ Phase w r (.store (BitVec.ofNat 32 chunk.length)) rpc (shmp.fill chunk hread.1)
      (stdin.drop chunk.length) (if chunk = [] then none else some chunk) := by
  cases h with
  | reading => exact ⟨rfl, .storing (.of_read hread)⟩
  | full hleft | taken hleft | counting hleft | writing hleft | written hleft | returning hleft
  | finished hleft => cases hleft

theorem Phase.store (h : Phase w r (.store n) rpc shmp stdin t) :
    Phase w r .check rpc { shmp with cnt := n } stdin t := by
  cases h with
  | storing hload => exact .checking hload
  | full hleft | taken hleft | counting hleft | writing hleft | written hleft | returning hleft
  | finished hleft => cases hleft

theorem Phase.writerCheck (h : Phase w r .check rpc shmp stdin t) :
    Phase w r (if shmp.cnt = -1 then .fail else .post) rpc shmp stdin t := by
  cases h with
  | checking hload =>
      rw [if_neg hload.ne_neg_one]
      exact .posting hload
  | full hleft | taken hleft | counting hleft | writing hleft | written hleft | returning hleft
  | finished hleft => cases hleft

theorem Phase.writerPost (h : Phase w r .post rpc shmp stdin t) :
    Phase w (r + 1) .test rpc shmp stdin t := by
  cases h with
  | posting hload => exact .full .test hload
  | full hleft | taken hleft | counting hleft | writing hleft | written hleft | returning hleft
  | finished hleft => cases hleft

/-- The count the writer looks at again is the one it has posted. -/
theorem Left.next {cnt : BitVec 32} : Left cnt (if cnt = 0 then .done else .wait) := by
  split
  · next hcnt => exact .done hcnt
  · next hcnt => exact .wait hcnt

theorem Phase.writerTest (h : Phase w r .test rpc shmp stdin t) :
    Phase w r (if shmp.cnt = 0 then .done else .wait) rpc shmp stdin t := by
  cases h with
  | freed hcnt =>
      rw [if_neg hcnt]
      exact .free
  | full _ hload => exact .full .next hload
  | taken _ hload => exact .taken .next hload
  | counting _ hcnt hload => exact .counting .next hcnt hload
  | writing _ hcnt hload => exact .writing .next hcnt hload
  | written _ hcnt => exact .written .next hcnt
  | returning _ hcnt => exact .returning .next hcnt
  | finished _ hcnt => exact .finished .next hcnt

theorem Phase.readerWait (h : Phase w r wpc .wait shmp stdin t) (hsem : 0 < r) :
    Phase w (r - 1) wpc .test shmp stdin t := by
  cases h with
  | full hleft hload => exact .taken hleft hload
  | _ => exact absurd hsem (Nat.lt_irrefl 0)

theorem Phase.readerTest (h : Phase w r wpc .test shmp stdin t) :
    Phase w r wpc (if shmp.cnt = 0 then .done else .count) shmp stdin t := by
  cases h with
  | taken hleft hload =>
      split
      · next hcnt =>
          obtain ⟨rfl, rfl⟩ := hload.eof_of_eq_zero hcnt
          exact .finished hleft hcnt
      · next hcnt => exact .counting hleft hcnt hload

theorem Phase.count (h : Phase w r wpc .count shmp stdin t) :
    Phase w r wpc .write shmp stdin t := by
  cases h with
  | counting hleft hcnt hload => exact .writing hleft hcnt hload

theorem Phase.write (h : Phase w r wpc .write shmp stdin t) :
    t = some (shmp.buf.take shmp.cnt.toNat) ∧
      Phase w r wpc (.check shmp.cnt) shmp stdin none := by
  cases h with
  | writing hleft hcnt hload => exact ⟨hload.eq_some hcnt, .written hleft hcnt⟩

theorem Phase.readerCheck (h : Phase w r wpc (.check n) shmp stdin t) :
    Phase w r wpc (if n ≠ shmp.cnt then .fail else .post) shmp stdin t := by
  cases h with
  | written hleft hcnt =>
      rw [if_neg (not_not_intro rfl)]
      exact .returning hleft hcnt

theorem Phase.readerPost (h : Phase w r wpc .post shmp stdin t) :
    Phase (w + 1) r wpc .wait shmp stdin t := by
  cases h with
  | returning hleft hcnt =>
      cases hleft with
      | test => exact .freed hcnt
      | wait => exact .free
      | done hzero => exact absurd hzero hcnt

/-! ## The simulation -/

/-- The chunk that was read, if it is not empty. -/
def Label.getRead : Label → Option (List Byte)
  | .writer (.read chunk) => if chunk = [] then none else some chunk
  | _ => none

def Label.getWritten : Label → Option (List Byte)
  | .reader (.write chunk) => some chunk
  | _ => none

/-- The non-empty chunks `read` has returned so far. -/
def chunks (tr : List Label) : List (List Byte) := tr.filterMap Label.getRead

/-- The chunks that have been written. -/
def written (tr : List Label) : List (List Byte) := tr.filterMap Label.getWritten

/-- Reading a chunk puts it into the place between the processes, writing it takes it. -/
def Label.slotOp : Label → Option (SlotOp (List Byte))
  | .writer (.read chunk) => if chunk = [] then none else some (.put chunk)
  | .reader (.write chunk) => some (.take chunk)
  | _ => none

/-- The chunk in transit in state `s` is `t`. -/
def Transit (s : State) (t : Option (List Byte)) : Prop :=
  Phase s.writeSem s.readSem s.writer s.reader s.shmp s.stdin t

theorem Transit.skip {a : Label} (h : Transit s t) (hs : Step s a s') (ha : a.slotOp = none) :
    Transit s' t := by
  unfold Transit at h ⊢
  cases hs with
  | writerWait hpc hsem => exact Phase.writerWait (hpc ▸ h) hsem
  | @read chunk hpc hread =>
      obtain ⟨rfl, hphase⟩ := Phase.read (hpc ▸ h) hread
      have hnil : chunk = [] := by
        by_contra hne
        simp [Label.slotOp, hne] at ha
      rwa [if_pos hnil] at hphase
  | store hpc => exact Phase.store (hpc ▸ h)
  | writerCheck hpc => exact Phase.writerCheck (hpc ▸ h)
  | writerPost hpc => exact Phase.writerPost (hpc ▸ h)
  | writerTest hpc => exact Phase.writerTest (hpc ▸ h)
  | readerWait hpc hsem => exact Phase.readerWait (hpc ▸ h) hsem
  | readerTest hpc => exact Phase.readerTest (hpc ▸ h)
  | count hpc => exact Phase.count (hpc ▸ h)
  | write => cases ha
  | readerCheck hpc => exact Phase.readerCheck (hpc ▸ h)
  | readerPost hpc => exact Phase.readerPost (hpc ▸ h)

theorem Transit.sync {a : Label} {b : SlotOp (List Byte)} (h : Transit s t) (hs : Step s a s')
    (ha : a.slotOp = some b) : ∃ t', SlotStep t b t' ∧ Transit s' t' := by
  unfold Transit at h ⊢
  cases hs with
  | @read chunk hpc hread =>
      obtain ⟨rfl, hphase⟩ := Phase.read (hpc ▸ h) hread
      have hne : chunk ≠ [] := by
        rintro rfl
        cases ha
      rw [if_neg hne] at hphase
      obtain rfl : SlotOp.put chunk = b := by simpa [Label.slotOp, hne] using ha
      exact ⟨_, .put chunk, hphase⟩
  | write hpc =>
      obtain ⟨rfl, hphase⟩ := Phase.write (hpc ▸ h)
      cases ha
      exact ⟨_, .take _, hphase⟩
  | _ => cases ha

/-- **The two processes simulate a one-place buffer.** -/
theorem simulation (stdin : List Byte) :
    Lts.Simulation (shmPipe stdin) (slot (List Byte)) Label.slotOp fun _ ↦ Transit where
  init := by
    rintro s ⟨shmp, rfl⟩
    exact ⟨none, rfl, .free⟩
  skip _ _ _ _ _ _ hs ha h := h.skip (.of_step hs) ha
  sync _ _ _ _ _ _ _ hs ha h := h.sync (.of_step hs) ha

theorem getPut_slotOp (a : Label) : a.slotOp.bind SlotOp.getPut = a.getRead := by
  cases a with
  | writer op =>
      cases op with
      | read chunk =>
          rw [Label.slotOp, Label.getRead]
          split <;> rfl
      | _ => rfl
  | reader op => cases op <;> rfl

theorem getTake_slotOp (a : Label) : a.slotOp.bind SlotOp.getTake = a.getWritten := by
  cases a with
  | writer op =>
      cases op with
      | read chunk =>
          rw [Label.slotOp]
          split <;> rfl
      | _ => rfl
  | reader op => cases op <;> rfl

/-- The chunks read are those written and the one in transit. -/
theorem exists_transit (h : (shmPipe stdin).Run tr s) :
    ∃ t, Transit s t ∧ chunks tr = written tr ++ t.toList := by
  obtain ⟨t, hrun, ht⟩ := (simulation stdin).run h
  refine ⟨t, ht, ?_⟩
  have hputs := puts_eq_of_run hrun
  rw [List.filterMap_filterMap, List.filterMap_filterMap, funext getPut_slotOp,
    funext getTake_slotOp] at hputs
  exact hputs

end SysProg.ShmPipe
