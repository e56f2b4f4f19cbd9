import Mathlib.Data.List.Count
import Mathlib.Logic.Function.Basic
import SysProg.FifoSeq.Protocol

/-!
# Abandoned clients

The server opens the FIFO of a client without blocking, as soon as it has read the
request, and gives up if nobody is there to read.  The client makes its FIFO before
it sends the request, but begins to open it only afterwards.

`Stage` follows one request through the system.  It is an invariant for each client
(`staged`), and shows that the server's `open` fails exactly when the client has not
begun its own, and that its `write` never fails.  So in a run that has come back to
the head of the server loop, every request has been answered if and only if each of
the server's opens found the client in its `open` (`responded_iff`).

A client whose request the server has dropped waits in its `open` forever
(`dropped_forever`).
-/

universe u

namespace SysProg.FifoSeq

open SysProg.Lib

variable {ι : Type u} [DecidableEq ι] {seqLen : ι → BitVec 32} {room : Nat → Bool} {s t : State ι}
  {a : Label ι} {i j : ι}

/-! ## The stages of a request -/

/-- What the server is doing for a client. -/
inductive Hand where
  | absent | opening | writing | closing
deriving DecidableEq

/-- What a server at this program counter is doing for client `i`. -/
def ServerPc.hand (i : ι) : ServerPc ι → Hand
  | .read => .absent
  | .openFifo req => if req.pid = i then .opening else .absent
  | .write req => if req.pid = i then .writing else .absent
  | .close req => if req.pid = i then .closing else .absent

/-- The client has sent its request, and its FIFO has no writer yet. -/
inductive Sent : Client → Prop
  | openFifo : Sent ⟨.openFifo, ⟨true, 0, 0, 0, []⟩⟩
  | opening : Sent ⟨.opening 0, ⟨true, 1, 0, 0, []⟩⟩

/-- The response is in the FIFO or has been read, and the FIFO has `w` writers. -/
inductive Written (w : Nat) : Client → Prop
  | opening {n} : Written w ⟨.opening 0, ⟨true, 1, w, 1, [n]⟩⟩
  | read {n} : Written w ⟨.read, ⟨true, 1, w, 1, [n]⟩⟩
  | exit : Written w ⟨.exit, ⟨true, 1, w, 1, []⟩⟩
  | done : Written w ⟨.done, ⟨false, 0, w, 1, []⟩⟩

/-- `Stage n hand x`: a client `x` with `n` requests in the queue, for which the
server is doing `hand`. -/
inductive Stage : Nat → Hand → Client → Prop
  | start {linked} : Stage 0 .absent ⟨.mkfifo, ⟨linked, 0, 0, 0, []⟩⟩
  | created {pc} (hpc : pc = .openServer ∨ pc = .write) :
      Stage 0 .absent ⟨pc, ⟨true, 0, 0, 0, []⟩⟩
  | queued {x} (hx : Sent x) : Stage 1 .absent x
  | taken {x} (hx : Sent x) : Stage 0 .opening x
  | abandoned {x} (hx : Sent x) : Stage 0 .absent x
  | opened {pc} (hpc : pc = .opening 0 ∨ pc = .read) :
      Stage 0 .writing ⟨pc, ⟨true, 1, 1, 1, []⟩⟩
  | written {x} (hx : Written 1 x) : Stage 0 .closing x
  | answered {x} (hx : Written 0 x) : Stage 0 .absent x

section Stage

variable {n : Nat} {hand : Hand} {x y : Client} {op : ClientOp} {fifo : Fifo (BitVec 32)}

theorem Sent.step (h : Sent x) (hs : Client.Step x op y) : Sent y := by
  cases h with
  | openFifo => cases hs; exact .opening
  | opening =>
      cases hs with
      | opened hready => simp [Fifo.CanRead] at hready

theorem Written.step {w : Nat} (h : Written w x) (hs : Client.Step x op y) : Written w y := by
  cases h with
  | opening => cases hs; exact .read
  | read =>
      cases hs with
      | read hdata => cases hdata; exact .exit
      | readEof hdata => cases hdata
  | exit => cases hs; exact .done
  | done => cases hs

/-- A call of the client other than sending its request. -/
theorem Stage.client (h : Stage n hand x) (hop : op ≠ .write) (hs : Client.Step x op y) :
    Stage n hand y := by
  cases h with
  | start => cases hs; exact .created (.inl rfl)
  | created hpc =>
      rcases hpc with rfl | rfl
      · cases hs
        exact .created (.inr rfl)
      · cases hs
        exact absurd rfl hop
  | queued hx => exact .queued (hx.step hs)
  | taken hx => exact .taken (hx.step hs)
  | abandoned hx => exact .abandoned (hx.step hs)
  | opened hpc =>
      rcases hpc with rfl | rfl
      · cases hs
        exact .opened (.inr rfl)
      · cases hs with
        | read hdata => cases hdata
        | readEof hdata hwriters => cases hwriters
  | written hx => exact .written (hx.step hs)
  | answered hx => exact .answered (hx.step hs)

theorem Stage.send (h : Stage n hand x) (hs : Client.Step x .write y) : Stage (n + 1) hand y := by
  cases h with
  | start => cases hs
  | created hpc => cases hs; exact .queued .openFifo
  | queued hx | taken hx | abandoned hx => cases hx <;> cases hs
  | opened hpc => rcases hpc with rfl | rfl <;> cases hs
  | written hx | answered hx => cases hx <;> cases hs

theorem Stage.take (h : Stage (n + 1) .absent x) : Stage n .opening x := by
  cases h with
  | queued hx => exact .taken hx

theorem Stage.open (h : Stage n .opening x) (hopen : x.fifo.openNonblock = some fifo) :
    Stage n .writing ⟨x.pc, fifo⟩ := by
  obtain ⟨⟨-, hreaders⟩, rfl⟩ := Fifo.openNonblock_eq_some.mp hopen
  cases h with
  | taken hx =>
      cases hx with
      | openFifo => cases hreaders
      | opening => exact .opened (.inl rfl)

theorem Stage.of_opening (h : Stage n .opening x) : n = 0 ∧ Sent x := by
  cases h with
  | taken hx => exact ⟨rfl, hx⟩

theorem Stage.abandon (h : Stage n .opening x) : Stage n .absent x := by
  obtain ⟨rfl, hx⟩ := h.of_opening
  exact .abandoned hx

theorem Stage.write {seqNum : BitVec 32} (h : Stage n .writing x)
    (hwrite : x.fifo.write seqNum = some fifo) : Stage n .closing ⟨x.pc, fifo⟩ := by
  obtain ⟨-, rfl⟩ := Fifo.write_eq_some.mp hwrite
  cases h with
  | opened hpc =>
      rcases hpc with rfl | rfl
      · exact .written .opening
      · exact .written .read

/-- The client does not go away before it has its response. -/
theorem Stage.write_ne_none {seqNum : BitVec 32} (h : Stage n .writing x) :
    x.fifo.write seqNum ≠ none := by
  rw [Ne, Fifo.write_eq_none]
  cases h with
  | opened => exact Nat.one_ne_zero

theorem Stage.close (h : Stage n .closing x) : Stage n .absent ⟨x.pc, x.fifo.closeWrite⟩ := by
  cases h with
  | written hx =>
      cases hx with
      | opening => exact .answered .opening
      | read => exact .answered .read
      | exit => exact .answered .exit
      | done => exact .answered .done

/-- The server's `open` succeeds exactly when the client has begun its own. -/
theorem Stage.open_ne_none_iff (h : Stage n .opening x) :
    x.fifo.openNonblock ≠ none ↔ ∃ seen, x.pc = .opening seen := by
  rw [Ne, Fifo.openNonblock_eq_none, not_not]
  cases h with
  | taken hx => cases hx <;> simp

end Stage

/-- The requests of client `i` in the queue. -/
def queued (i : ι) (queue : List (Request ι)) : Nat := queue.countP fun req ↦ req.pid = i

/-- Every client's request is at some stage. -/
def Staged (s : State ι) : Prop := ∀ i, Stage (queued i s.queue) (s.server.hand i) (s.client i)

/-- The server goes on with the request `req`, which concerns no other client. -/
theorem Staged.serve {req : Request ι} {x : Client} (h : Staged s) (hqueue : t.queue = s.queue)
    (hclient : t.client = Function.update s.client req.pid x)
    (hself : Stage (queued req.pid s.queue) (t.server.hand req.pid) x)
    (hother : ∀ j, req.pid ≠ j → t.server.hand j = s.server.hand j) : Staged t := by
  intro j
  rw [hqueue, hclient]
  by_cases hj : req.pid = j
  · subst hj
    simpa using hself
  · rw [hother j hj, Function.update_of_ne (Ne.symm hj)]
    exact h j

/-- The server is about to open the FIFO of `req`. -/
theorem Staged.opening {req : Request ι} (h : Staged s) (hpc : s.server = .openFifo req) :
    Stage (queued req.pid s.queue) .opening (s.client req.pid) := by
  simpa [hpc, ServerPc.hand] using h req.pid

theorem Staged.writing {req : Request ι} (h : Staged s) (hpc : s.server = .write req) :
    Stage (queued req.pid s.queue) .writing (s.client req.pid) := by
  simpa [hpc, ServerPc.hand] using h req.pid

theorem Staged.closing {req : Request ι} (h : Staged s) (hpc : s.server = .close req) :
    Stage (queued req.pid s.queue) .closing (s.client req.pid) := by
  simpa [hpc, ServerPc.hand] using h req.pid

theorem Staged.step (h : Staged s) (hs : Step seqLen room s a t) : Staged t := by
  cases hs with
  | @client i op x hop hx =>
      show ∀ j, Stage (queued j s.queue) (s.server.hand j) (Function.update s.client i x j)
      rw [Function.forall_update_iff s.client fun j y ↦
        Stage (queued j s.queue) (s.server.hand j) y]
      exact ⟨(h i).client hop hx, fun j _ ↦ h j⟩
  | @write i x hroom hx =>
      intro j
      by_cases hj : j = i
      · subst hj
        simpa [State.setClient, queued] using (h j).send hx
      · simpa [State.setClient, queued, hj, Ne.symm hj] using h j
  | @serverRead req queue hpc hqueue =>
      intro j
      have hj := h j
      simp only [hqueue, hpc, queued, List.countP_cons, ServerPc.hand] at hj
      by_cases hreq : req.pid = j
      · simp only [hreq, decide_true, if_true] at hj
        simpa [ServerPc.hand, queued, hreq] using hj.take
      · simpa [ServerPc.hand, queued, hreq] using hj
  | @serverOpen req fifo hpc hopen =>
      have hself := (h.opening hpc).open hopen
      refine h.serve rfl rfl (by simpa [ServerPc.hand] using hself) fun j hj ↦ ?_
      simp [hpc, ServerPc.hand, hj]
  | @serverOpenFail req hpc hopen =>
      have hclient : s.client = Function.update s.client req.pid (s.client req.pid) :=
        (Function.update_eq_self ..).symm
      refine h.serve rfl hclient (h.opening hpc).abandon fun j hj ↦ ?_
      simp [hpc, ServerPc.hand, hj]
  | @serverWrite req fifo hpc hwrite =>
      have hself := (h.writing hpc).write hwrite
      refine h.serve rfl rfl (by simpa [ServerPc.hand] using hself) fun j hj ↦ ?_
      simp [hpc, ServerPc.hand, hj]
  | @serverWriteFail req hpc hwrite => exact absurd hwrite (h.writing hpc).write_ne_none
  | @serverClose req hpc =>
      refine h.serve rfl rfl (h.closing hpc).close fun j hj ↦ ?_
      simp [hpc, ServerPc.hand, hj]

theorem staged (h : (fifoSeq seqLen room).Reachable s) : Staged s := by
  refine h.induction (fun s hs i ↦ ?_) fun _ _ _ _ hstaged hs ↦ hstaged.step (.of_step hs)
  obtain ⟨linked, hclient⟩ := hs.client i
  simpa [queued, hs.queue, hs.server, ServerPc.hand, hclient] using Stage.start

/-! ## Answered requests -/

def Label.serverOp? : Label ι → Option (ServerOp ι)
  | .server op => some op
  | _ => none

/-- The calls of the server in a run. -/
def serverOps (tr : List (Label ι)) : List (ServerOp ι) := tr.filterMap Label.serverOp?

/-- For each request that was read, the client's FIFO was opened, one response written
to it, and the FIFO closed. -/
inductive Responded : List (ServerOp ι) → Prop
  | nil : Responded []
  | snoc {ops : List (ServerOp ι)} {req : Request ι} {seqNum : BitVec 32} : Responded ops →
      Responded (ops ++ [.read req, .openFifo, .write seqNum, .close])

/-- What the server has done in the current turn of its loop, all of it successful. -/
inductive Turn : ServerPc ι → List (ServerOp ι) → Prop
  | read : Turn .read []
  | openFifo {req : Request ι} : Turn (.openFifo req) [.read req]
  | write {req : Request ι} : Turn (.write req) [.read req, .openFifo]
  | close {req : Request ι} {seqNum : BitVec 32} :
      Turn (.close req) [.read req, .openFifo, .write seqNum]

/-- When the server opens a client's FIFO, the client is already in its `open`. -/
def InTime (s : State ι) : Label ι → Prop
  | .server _ => ∀ req, s.server = .openFifo req → ∃ seen, (s.client req.pid).pc = .opening seen
  | .client _ _ => True

/-- The server's `open` succeeds exactly when it is in time. -/
theorem open_ne_none_iff (h : (fifoSeq seqLen room).Reachable s) {req : Request ι}
    (hpc : s.server = .openFifo req) :
    (s.client req.pid).fifo.openNonblock ≠ none ↔
      ∃ seen, (s.client req.pid).pc = .opening seen :=
  ((staged h).opening hpc).open_ne_none_iff

/-- The server's `write` never fails. -/
theorem write_ne_none (h : (fifoSeq seqLen room).Reachable s) {req : Request ι}
    (hpc : s.server = .write req) : (s.client req.pid).fifo.write s.seqNum ≠ none :=
  ((staged h).writing hpc).write_ne_none

/-- The turns that are over have all ended with a response, and so far so has this one. -/
def Responding (tr : List (Label ι)) (s : State ι) : Prop :=
  ∃ past turn, serverOps tr = past ++ turn ∧ Responded past ∧ Turn s.server turn

theorem Responding.step {tr : List (Label ι)} (hreach : (fifoSeq seqLen room).Reachable s)
    (h : Responding tr s) (htime : InTime s a) (hs : Step seqLen room s a t) :
    Responding (tr ++ [a]) t := by
  obtain ⟨past, turn, hops, hpast, hturn⟩ := h
  rw [Responding, serverOps, Lts.filterMap_concat, ← serverOps, hops]
  cases hs with
  | client | write => exact ⟨past, turn, List.append_nil _, hpast, hturn⟩
  | @serverRead req queue hpc hqueue =>
      rw [hpc] at hturn
      cases hturn
      exact ⟨past, [.read req], by simp [Label.serverOp?], hpast, .openFifo⟩
  | @serverOpen req fifo hpc hopen =>
      rw [hpc] at hturn
      cases hturn
      exact ⟨past, [.read req, .openFifo], by simp [Label.serverOp?], hpast, .write⟩
  | @serverOpenFail req hpc hopen =>
      exact absurd hopen ((open_ne_none_iff hreach hpc).mpr (htime req hpc))
  | @serverWrite req fifo hpc hwrite =>
      rw [hpc] at hturn
      cases hturn
      exact ⟨past, [.read req, .openFifo, .write s.seqNum], by simp [Label.serverOp?], hpast,
        .close⟩
  | @serverWriteFail req hpc hwrite => exact absurd hwrite (write_ne_none hreach hpc)
  | @serverClose req hpc =>
      rw [hpc] at hturn
      cases hturn with
      | @close _ seqNum =>
          exact ⟨past ++ [.read req, .openFifo, .write seqNum, .close], [],
            by simp [Label.serverOp?], .snoc hpast, .read⟩

theorem responding {tr : List (Label ι)} (h : ((fifoSeq seqLen room).restrict InTime).Run tr s) :
    Responding tr s := by
  refine h.induction (fun s hs ↦ ?_) fun tr s a t hr ih hs ↦ ?_
  · exact ⟨[], [], rfl, .nil, hs.server ▸ .read⟩
  · exact ih.step hr.of_restrict.reachable hs.1 (.of_step hs.2)

omit [DecidableEq ι] in
theorem Responded.openFail_notMem {ops : List (ServerOp ι)} (h : Responded ops) :
    .openFail ∉ ops := by
  induction h with
  | nil => simp
  | snoc _ ih => simp [ih]

/-- A run in which no open of the server fails is a run in which all are in time. -/
theorem inTime_of_openFail_notMem {tr : List (Label ι)} (h : (fifoSeq seqLen room).Run tr s)
    (hnone : .server .openFail ∉ tr) : ((fifoSeq seqLen room).restrict InTime).Run tr s := by
  revert hnone
  refine h.induction (M := fifoSeq seqLen room) (P := fun tr s ↦ .server .openFail ∉ tr →
    ((fifoSeq seqLen room).restrict InTime).Run tr s) (fun s hs _ ↦ .init hs) ?_
  intro tr s a t hr ih hs hnone
  rw [List.mem_append, List.mem_singleton, not_or] at hnone
  refine (ih hnone.1).snoc ⟨?_, hs⟩
  cases a with
  | client => trivial
  | server op =>
      intro req hpc
      refine (open_ne_none_iff hr.reachable hpc).mp ?_
      cases Step.of_step hs with
      | serverOpen hpc' hopen =>
          obtain rfl := ServerPc.openFifo.inj (hpc.symm.trans hpc')
          simp [hopen]
      | serverOpenFail => exact absurd rfl hnone.2
      | serverRead hpc' | serverWrite hpc' | serverWriteFail hpc' | serverClose hpc' =>
          exact absurd (hpc.symm.trans hpc') (by simp)

/-- **Back at the head of its loop, the server has answered every request it has read
if and only if each of its opens was in time.** -/
theorem responded_iff {tr : List (Label ι)} (h : (fifoSeq seqLen room).Run tr s)
    (hpc : s.server = .read) :
    Responded (serverOps tr) ↔ ((fifoSeq seqLen room).restrict InTime).Run tr s := by
  constructor
  · intro hresponded
    refine inTime_of_openFail_notMem h fun hmem ↦ hresponded.openFail_notMem ?_
    exact List.mem_filterMap.mpr ⟨_, hmem, rfl⟩
  · intro htime
    obtain ⟨past, turn, hops, hpast, hturn⟩ := responding htime
    rw [hpc] at hturn
    cases hturn
    rwa [hops, List.append_nil]

/-! ## What becomes of a dropped client -/

/-- The client has sent its request, and nobody has it any more. -/
def Dropped (i : ι) (s : State ι) : Prop :=
  queued i s.queue = 0 ∧ s.server.hand i = .absent ∧ Sent (s.client i)

theorem Dropped.step (h : Dropped i s) (hs : Step seqLen room s a t) : Dropped i t := by
  obtain ⟨hcount, hhand, hsent⟩ := h
  have hserving : ∀ {req : Request ι},
      s.server = .openFifo req ∨ s.server = .write req ∨ s.server = .close req → req.pid ≠ i := by
    rintro req (hpc | hpc | hpc) rfl <;> simp [hpc, ServerPc.hand] at hhand
  cases hs with
  | @client j op x hop hx =>
      refine ⟨hcount, hhand, ?_⟩
      by_cases hj : j = i
      · subst hj
        simpa [State.setClient] using hsent.step hx
      · simpa [State.setClient, Ne.symm hj] using hsent
  | @write j x hroom hx =>
      have hj : j ≠ i := by
        rintro rfl
        generalize s.client j = y at hsent hx
        cases hsent <;> cases hx
      exact ⟨by simpa [queued, hj] using hcount, hhand,
        by simpa [State.setClient, Ne.symm hj] using hsent⟩
  | @serverRead req queue hpc hqueue =>
      rw [hqueue, queued, List.countP_cons] at hcount
      have hne : req.pid ≠ i := by
        intro heq
        simp [heq] at hcount
      exact ⟨(Nat.add_eq_zero_iff.mp hcount).1, if_neg hne, hsent⟩
  | @serverOpen req fifo hpc hopen =>
      have hne := hserving (.inl hpc)
      exact ⟨hcount, if_neg hne, by simpa [State.setClient, Ne.symm hne] using hsent⟩
  | @serverOpenFail req hpc hopen => exact ⟨hcount, rfl, hsent⟩
  | @serverWrite req fifo hpc hwrite =>
      have hne := hserving (.inr (.inl hpc))
      exact ⟨hcount, if_neg hne, by simpa [State.setClient, Ne.symm hne] using hsent⟩
  | @serverWriteFail req hpc hwrite =>
      have hne := hserving (.inr (.inl hpc))
      exact ⟨hcount, if_neg hne, hsent⟩
  | @serverClose req hpc =>
      have hne := hserving (.inr (.inr hpc))
      exact ⟨hcount, rfl, by simpa [State.setClient, Ne.symm hne] using hsent⟩

/-- **A client that was dropped waits forever**: it never gets to read a response. -/
theorem dropped_forever {tr : List (Label ι)} (hpath : (fifoSeq seqLen room).Path s tr t)
    (h : Dropped i s) : Sent (t.client i) := by
  suffices hdropped : Dropped i t from hdropped.2.2
  induction hpath with
  | nil => exact h
  | snoc _ hs ih => exact ih.step (.of_step hs)

/-- The client of a failed `open` is dropped. -/
theorem dropped_of_openFail (h : (fifoSeq seqLen room).Reachable s) {req : Request ι}
    (hpc : s.server = .openFifo req) (hs : Step seqLen room s (.server .openFail) t) :
    Dropped req.pid t := by
  obtain ⟨hcount, hsent⟩ := ((staged h).opening hpc).of_opening
  cases hs with
  | serverOpenFail => exact ⟨hcount, rfl, hsent⟩

/-- Clients that have not begun. -/
def start : State ι where
  queue := []
  server := .read
  seqNum := 0
  client _ := ⟨.mkfifo, ⟨false, 0, 0, 0, []⟩⟩

omit [DecidableEq ι] in
theorem init_start : Init (start : State ι) := ⟨rfl, rfl, rfl, fun _ ↦ ⟨false, rfl⟩⟩

/-- The client is in its `open` when the server gets there. -/
def answeredRun : List (Label (Fin 1)) :=
  [.client 0 .mkfifo, .client 0 .openServer, .client 0 .write, .server (.read ⟨0, 5⟩),
    .client 0 .openFifo, .server .openFifo, .server (.write 0), .server .close]

theorem responded_iff_answeredRun : ∃ s, (fifoSeq (fun _ : Fin 1 ↦ 5) fun _ ↦ true).Run
      answeredRun s ∧ s.seqNum = 5 ∧
    (Responded (serverOps answeredRun) ↔
      ((fifoSeq (fun _ : Fin 1 ↦ 5) fun _ ↦ true).restrict InTime).Run answeredRun s) := by
  have hexec : (Lts.exec (next (fun _ : Fin 1 ↦ 5) fun _ ↦ true) start answeredRun).map
      (fun s ↦ (s.server, s.seqNum)) = some (.read, 5) := by decide
  obtain ⟨s, hrun, hs⟩ := Lts.exists_run_of_exec init_start _ _ _ hexec
  obtain ⟨hpc, hseqNum⟩ := Prod.mk.inj hs
  exact ⟨s, hrun, hseqNum, responded_iff hrun hpc⟩

/-- The server gets there first. -/
def abandonedRun : List (Label (Fin 1)) :=
  [.client 0 .mkfifo, .client 0 .openServer, .client 0 .write, .server (.read ⟨0, 5⟩),
    .server .openFail]

/-- The server is back at the head of its loop and has dropped the request of a client
that follows the protocol. -/
theorem abandoned : ∃ s, (fifoSeq (fun _ : Fin 1 ↦ 5) fun _ ↦ true).Run abandonedRun s ∧
    s.server = .read ∧ serverOps abandonedRun = [.read ⟨0, 5⟩, .openFail] ∧
      ¬ Responded (serverOps abandonedRun) := by
  have hexec : (Lts.exec (next (fun _ : Fin 1 ↦ 5) fun _ ↦ true) start abandonedRun).map
      (fun s ↦ s.server) = some .read := by decide
  obtain ⟨s, hrun, hpc⟩ := Lts.exists_run_of_exec init_start _ _ _ hexec
  exact ⟨s, hrun, hpc, rfl, fun hresponded ↦ hresponded.openFail_notMem (by decide)⟩

end SysProg.FifoSeq
