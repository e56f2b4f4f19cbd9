import Mathlib.Tactic.NormNum
import SysProg.FifoSeq.Abandon
import SysProg.FifoSeq.GetNum

/-!
# Who gets which number

The history of the server's answers, a request with the number it was sent, is observed along the
run.

* `accounts`: each answer is the sum of the lengths answered before it.  Requests that the server
  drops take no part in it.
* `reads_assigned`: what a client reads is the number that its own request was answered with; a
  client that has got to its end has read it, and has never seen the end of its FIFO.
* `ranges_disjoint_answered_iff`: for clients as they are started from the command line, the
  ranges given out are disjoint if and only if the lengths answered sum to at most `2 ^ 32`.
-/

universe u

namespace SysProg.FifoSeq

open SysProg.Lib

variable {ι : Type u} [DecidableEq ι] {seqLen : ι → BitVec 32} {room : Nat → Bool} {s t : State ι}
  {a : Label ι} {i j : ι} {tr : List (Label ι)}

/-! ## The answers -/

/-- A request and the number that it is answered with. -/
structure Answer (ι : Type u) where
  req : Request ι
  seqNum : BitVec 32
deriving DecidableEq

/-- The answer that a call of the server gives. -/
def answer? (s : State ι) : Label ι → Option (Answer ι)
  | .server (.write seqNum) => match s.server with
      | .write req => some ⟨req, seqNum⟩
      | _ => none
  | _ => none

/-- The system with the history of its answers. -/
def answering (seqLen : ι → BitVec 32) (room : Nat → Bool) :
    Lts (State ι × List (Answer ι)) (Label ι) :=
  (fifoSeq seqLen room).observe answer?

/-- The numbers in the answers to client `i`. -/
def assigned (i : ι) (answers : List (Answer ι)) : List (BitVec 32) :=
  (answers.filter fun x ↦ x.req.pid = i).map Answer.seqNum

def Label.received? (i : ι) : Label ι → Option (BitVec 32)
  | .client j (.read seqNum) => if j = i then some seqNum else none
  | _ => none

/-- The numbers that client `i` has read, and printed. -/
def received (i : ι) (tr : List (Label ι)) : List (BitVec 32) := tr.filterMap (Label.received? i)

/-- What the server adds to its counter when it closes a FIFO. -/
def ServerPc.pending : ServerPc ι → BitVec 32
  | .close req => req.seqLen
  | _ => 0

/-- The request that the server has in hand. -/
def ServerPc.req? : ServerPc ι → Option (Request ι)
  | .read => none
  | .openFifo req | .write req | .close req => some req

/-- The request of a client as the client has made it. -/
def Genuine (seqLen : ι → BitVec 32) (req : Request ι) : Prop := req.seqLen = seqLen req.pid

/-! ## What a run keeps -/

/-- What there is to say of the answers after a run. -/
structure Accounts (seqLen : ι → BitVec 32) (tr : List (Label ι)) (s : State ι)
    (answers : List (Answer ι)) : Prop where
  /-- Each answer is the sum of the lengths before it. -/
  start : EachCall (fun pre x ↦ x.seqNum = (pre.map fun x ↦ x.req.seqLen).sum) answers
  /-- The counter, with what is about to be added to it, is the sum of all. -/
  sum : (answers.map fun x ↦ x.req.seqLen).sum = s.seqNum + s.server.pending
  genuine_answers : ∀ x ∈ answers, Genuine seqLen x.req
  genuine_queue : ∀ req ∈ s.queue, Genuine seqLen req
  genuine_server : ∀ req ∈ s.server.req?, Genuine seqLen req
  /-- What a client has been assigned has been read, or is in its FIFO. -/
  assigned_eq : ∀ i, assigned i answers = received i tr ++ (s.client i).fifo.data

variable {answers : List (Answer ι)}

theorem received_concat (i : ι) (tr : List (Label ι)) (a : Label ι) :
    received i (tr ++ [a]) = received i tr ++ (a.received? i).toList :=
  Lts.filterMap_concat ..

theorem Accounts.init (h : Init s) : Accounts seqLen [] s [] where
  start := eachCall_nil _
  sum := by rw [h.seqNum, h.server]; rfl
  genuine_answers _ hx := absurd hx List.not_mem_nil
  genuine_queue _ hreq := absurd (h.queue ▸ hreq) List.not_mem_nil
  genuine_server _ hreq := by rw [h.server] at hreq; cases hreq
  assigned_eq i := by
    obtain ⟨linked, hclient⟩ := h.client i
    rw [hclient]
    rfl

/-- A client takes from its FIFO what it reads. -/
theorem Client.Step.data {x y : Client} {op : ClientOp} (h : Client.Step x op y) (i : ι) :
    x.fifo.data = ((Label.client i op).received? i).toList ++ y.fifo.data := by
  cases h with
  | read hdata => simpa [Label.received?] using hdata
  | _ => rfl

theorem received?_of_ne {op : ClientOp} (hij : i ≠ j) :
    (Label.client i op).received? j = none := by
  cases op with
  | read seqNum => exact if_neg hij
  | _ => rfl

/-- A call of a client, whatever it does to the queue. -/
theorem Accounts.client {x : Client} {op : ClientOp} {queue : List (Request ι)}
    (h : Accounts seqLen tr s answers) (hx : Client.Step (s.client i) op x)
    (hqueue : ∀ req ∈ queue, Genuine seqLen req) :
    Accounts seqLen (tr ++ [.client i op]) { s.setClient i x with queue } answers where
  start := h.start
  sum := h.sum
  genuine_answers := h.genuine_answers
  genuine_queue := hqueue
  genuine_server := h.genuine_server
  assigned_eq j := by
    rw [h.assigned_eq j, received_concat, List.append_assoc]
    by_cases hij : i = j
    · subst hij
      simpa [State.setClient] using hx.data i
    · simp [State.setClient, received?_of_ne hij, Function.update_of_ne (Ne.symm hij)]

/-- A call of the server other than `write`. -/
theorem Accounts.server {op : ServerOp ι} (h : Accounts seqLen tr s answers)
    (hop : answer? s (.server op) = none)
    (hsum : t.seqNum + t.server.pending = s.seqNum + s.server.pending)
    (hqueue : ∀ req ∈ t.queue, Genuine seqLen req)
    (hserver : ∀ req ∈ t.server.req?, Genuine seqLen req)
    (hdata : ∀ i, (t.client i).fifo.data = (s.client i).fifo.data) :
    Accounts seqLen (tr ++ [.server op]) t (answers ++ (answer? s (.server op)).toList) := by
  rw [hop, Option.toList_none, List.append_nil]
  refine ⟨h.start, h.sum.trans hsum.symm, h.genuine_answers, hqueue, hserver, fun i ↦ ?_⟩
  rw [h.assigned_eq i, received_concat, hdata i]
  simp [Label.received?]

theorem update_data (client : ι → Client) {x : Client}
    (hdata : x.fifo.data = (client i).fifo.data) (j : ι) :
    (Function.update client i x j).fifo.data = (client j).fifo.data := by
  by_cases hij : i = j
  · subst hij
    simpa using hdata
  · rw [Function.update_of_ne (Ne.symm hij)]

theorem Accounts.step (hstaged : Staged s) (h : Accounts seqLen tr s answers)
    (hs : Step seqLen room s a t) :
    Accounts seqLen (tr ++ [a]) t (answers ++ (answer? s a).toList) := by
  cases hs with
  | @client i op x hop hx =>
      simpa [answer?, State.setClient] using h.client hx h.genuine_queue
  | @write i x hroom hx =>
      have hqueue : ∀ req ∈ s.queue ++ [⟨i, seqLen i⟩], Genuine seqLen req := by
        intro req hreq
        rcases List.mem_append.mp hreq with hreq | hreq
        · exact h.genuine_queue req hreq
        · obtain rfl := List.mem_singleton.mp hreq
          rfl
      simpa [answer?] using h.client hx hqueue
  | @serverRead req queue hpc hqueue =>
      have hgenuine := h.genuine_queue
      rw [hqueue] at hgenuine
      refine h.server rfl ?_ (fun r hr ↦ hgenuine r (List.mem_cons_of_mem _ hr)) ?_ fun _ ↦ rfl
      · rw [hpc]
        rfl
      · rintro r ⟨⟩
        exact hgenuine _ List.mem_cons_self
  | @serverOpen req fifo hpc hopen =>
      obtain ⟨-, rfl⟩ := Fifo.openNonblock_eq_some.mp hopen
      have hserver := h.genuine_server
      rw [hpc] at hserver
      refine h.server rfl ?_ h.genuine_queue hserver fun j ↦ update_data s.client (by rfl) j
      rw [hpc]
      rfl
  | @serverOpenFail req hpc hopen =>
      refine h.server rfl ?_ h.genuine_queue (fun _ hr ↦ by cases hr) fun _ ↦ rfl
      rw [hpc]
      rfl
  | @serverWrite req fifo hpc hwrite =>
      obtain ⟨-, rfl⟩ := Fifo.write_eq_some.mp hwrite
      have hsum := h.sum
      have hserver := h.genuine_server
      rw [hpc] at hsum hserver
      have hstart : (answers.map fun x ↦ x.req.seqLen).sum = s.seqNum :=
        hsum.trans (BitVec.add_zero _)
      simp only [answer?, hpc, Option.toList_some]
      refine ⟨eachCall_concat.mpr ⟨h.start, hstart.symm⟩, ?_, ?_, h.genuine_queue, hserver, ?_⟩
      · simpa [ServerPc.pending, State.setClient] using hstart
      · intro x hx
        rcases List.mem_append.mp hx with hx | hx
        · exact h.genuine_answers x hx
        · obtain rfl := List.mem_singleton.mp hx
          exact hserver req rfl
      · intro j
        rw [assigned, List.filter_append, List.map_append, ← assigned, h.assigned_eq j,
          received_concat, List.append_assoc, List.append_assoc]
        by_cases hj : req.pid = j
        · subst hj
          simp [State.setClient, Label.received?]
        · simp [State.setClient, Label.received?, hj, Function.update_of_ne (Ne.symm hj)]
  | @serverWriteFail req hpc hwrite => exact absurd hwrite (hstaged.writing hpc).write_ne_none
  | @serverClose req hpc =>
      refine h.server rfl ?_ h.genuine_queue (fun _ hr ↦ by cases hr) fun j ↦
        update_data s.client (by rfl) j
      rw [hpc]
      simp [ServerPc.pending]

theorem accounts {p : State ι × List (Answer ι)} (h : (answering seqLen room).Run tr p) :
    Accounts seqLen tr p.1 p.2 := by
  refine Lts.Run.induction (M := answering seqLen room)
    (P := fun tr p ↦ Accounts seqLen tr p.1 p.2) ?_ ?_ h
  · rintro ⟨s, answers⟩ ⟨hs, rfl⟩
    exact .init hs
  · rintro tr ⟨s, answers⟩ a ⟨t, answers'⟩ hr ih ⟨hs, rfl⟩
    exact ih.step (staged hr.of_observe.reachable) (.of_step hs)

/-! ## Routing -/

/-- A client that is done reading. -/
def ClientPc.Served (pc : ClientPc) : Prop := pc = .exit ∨ pc = .done

instance (pc : ClientPc) : Decidable pc.Served := inferInstanceAs (Decidable (_ ∨ _))

/-- A client reads one number before it is done, and never the end of its FIFO. -/
theorem Stage.reads {n : Nat} {hand : Hand} {x y : Client} {op : ClientOp} (h : Stage n hand x)
    (hs : Client.Step x op y) (i : ι) :
    (if x.pc.Served then 1 else 0) + ((Label.client i op).received? i).toList.length =
      if y.pc.Served then 1 else 0 := by
  cases hs with
  | readEof hdata hwriters =>
      cases h with
      | created hpc => rcases hpc with hpc | hpc <;> cases hpc
      | queued hx | taken hx | abandoned hx => cases hx
      | opened => cases hwriters
      | written hx | answered hx => cases hx; cases hdata
  | read hdata => simp [Label.received?, ClientPc.Served]
  | _ => simp [Label.received?, ClientPc.Served]

/-- Who has read a number. -/
theorem length_received (h : (fifoSeq seqLen room).Run tr s) (i : ι) :
    (received i tr).length = if (s.client i).pc.Served then 1 else 0 := by
  refine h.induction (P := fun tr s ↦
    (received i tr).length = if (s.client i).pc.Served then 1 else 0) ?_ ?_
  · intro s hs
    obtain ⟨linked, hclient⟩ := hs.client i
    rw [hclient]
    rfl
  · intro tr s a t hr ih hs
    have hstage := staged hr.reachable i
    rw [received_concat, List.length_append, ih]
    have hclient : ∀ {j op x}, Client.Step (s.client j) op x →
        (if (s.client i).pc.Served then 1 else 0) +
            ((Label.client j op).received? i).toList.length =
          if (Function.update s.client j x i).pc.Served then 1 else 0 := by
      intro j op x hx
      by_cases hj : j = i
      · subst hj
        rw [Function.update_self]
        exact hstage.reads hx j
      · rw [Function.update_of_ne (Ne.symm hj), received?_of_ne hj]
        rfl
    have hserver : ∀ {j f}, (Function.update s.client j ⟨(s.client j).pc, f⟩ i).pc =
        (s.client i).pc := by
      intro j f
      by_cases hj : j = i
      · subst hj
        rw [Function.update_self]
      · rw [Function.update_of_ne (Ne.symm hj)]
    cases Step.of_step hs with
    | client hop hx => exact hclient hx
    | write hroom hx => exact hclient hx
    | serverOpen | serverWrite | serverClose =>
        simp [State.setClient, hserver, Label.received?]
    | _ => rfl

theorem Stage.data_eq_nil {n : Nat} {hand : Hand} {x : Client} (h : Stage n hand x)
    (hserved : x.pc.Served) : x.fifo.data = [] := by
  cases h with
  | start | created | opened => rfl
  | queued hx | taken hx | abandoned hx => cases hx <;> rfl
  | written hx | answered hx =>
      cases hx with
      | opening | read => rcases hserved with hpc | hpc <;> cases hpc
      | exit | done => rfl

/-- The only answer to a client. -/
theorem exists_answer {n : BitVec 32} (h : assigned i answers = [n]) :
    ∃ pre post x, answers = pre ++ x :: post ∧ x.req.pid = i ∧ x.seqNum = n ∧
      ∀ y ∈ pre ++ post, y.req.pid ≠ i := by
  obtain ⟨x, hfilter, hx⟩ := List.map_eq_singleton_iff.mp h
  obtain ⟨pre, post, rfl, hpre, hpid, hpost⟩ := List.filter_eq_cons_iff.mp hfilter
  refine ⟨pre, post, x, rfl, of_decide_eq_true hpid, hx, fun y hy ↦ ?_⟩
  rcases List.mem_append.mp hy with hy | hy
  · simpa using hpre y hy
  · simpa using List.filter_eq_nil_iff.mp hpost y hy

/-- **Each client reads the number its request was answered with**: the sum of the lengths
answered before it.  A client that is not done reading has read nothing. -/
theorem reads_assigned {p : State ι × List (Answer ι)} (h : (answering seqLen room).Run tr p)
    (i : ι) : if (p.1.client i).pc.Served then
      ∃ pre post n, p.2 = pre ++ ⟨⟨i, seqLen i⟩, n⟩ :: post ∧
        n = (pre.map fun x ↦ x.req.seqLen).sum ∧ received i tr = [n] ∧
          ∀ x ∈ pre ++ post, x.req.pid ≠ i
    else received i tr = [] := by
  have haccounts := accounts h
  have hlength := length_received h.of_observe i
  split
  · next hserved =>
      rw [if_pos hserved] at hlength
      obtain ⟨n, hn⟩ := List.length_eq_one_iff.mp hlength
      have hassigned := haccounts.assigned_eq i
      rw [hn, (staged h.of_observe.reachable i).data_eq_nil hserved, List.append_nil] at hassigned
      obtain ⟨pre, post, ⟨⟨pid, len⟩, m⟩, hanswers, hpid, rfl, hothers⟩ := exists_answer hassigned
      obtain rfl : pid = i := hpid
      have hmem : ⟨⟨pid, len⟩, m⟩ ∈ p.2 := by simp [hanswers]
      obtain rfl : len = seqLen pid := haccounts.genuine_answers _ hmem
      have hstart := haccounts.start pre _ ⟨post, by rw [hanswers, List.append_assoc]; rfl⟩
      exact ⟨pre, post, m, hanswers, hstart, hn, hothers⟩
  · next hserved =>
      rw [if_neg hserved] at hlength
      exact List.eq_nil_of_length_eq_zero hlength

/-! ## Ranges -/

/-- The range of integers that an answer gives out. -/
def Answer.range (x : Answer ι) : Grant ℤ := ⟨x.seqNum.toInt, x.req.seqLen.toInt⟩

/-- `req.seqLen = (argc > 1) ? getInt(argv[1], GN_GT_0, "seq-len") : 1` -/
def reqLen (arg : Option (List UInt8)) : Except GnFail (BitVec 32) :=
  match arg with
  | some arg => (getInt (some arg) GN_GT_0 (some (ascii "seq-len"))).map (BitVec.ofInt 32)
  | none => .ok 1

/-- The clients as they are started: `argv[1]`, if there is one.  A client whose argument is
refused ends before it sends anything, and is not one of these. -/
structure CommandLines (ι : Type u) where
  arg : ι → Option (List UInt8)
  seqLen : ι → BitVec 32
  accepted : ∀ i, reqLen (arg i) = .ok (seqLen i)

/-- Only positive lengths are asked for. -/
theorem reqLen_pos {arg : Option (List UInt8)} {len : BitVec 32} (h : reqLen arg = .ok len) :
    0 < len.toInt := by
  rcases arg with - | arg
  · obtain rfl := Except.ok.inj h
    decide
  · rw [reqLen] at h
    rcases hint : getInt (some arg) GN_GT_0 (some (ascii "seq-len")) with f | v
    · rw [hint] at h
      cases h
    · rw [hint] at h
      obtain rfl := Except.ok.inj h
      obtain ⟨-, -, -, hmin, hmax, -, hpos⟩ := getInt_eq_ok_iff.mp hint
      have hv := hpos (by decide)
      unfold intMin intMax at *
      rw [BitVec.toInt_ofInt, Int.bmod_eq_of_le] <;> omega

omit [DecidableEq ι] in
/-- The `int` counter gives out the sums of the lengths answered, wrapped. -/
theorem wrapped_answers (h : EachCall (fun pre x ↦ x.seqNum =
    (pre.map fun x ↦ x.req.seqLen).sum) answers) : Wrapped (2 ^ 31) (answers.map Answer.range) := by
  refine eachCall_map.mpr fun pre x hpre ↦ ?_
  show x.seqNum.toInt = _
  rw [h pre x hpre, MsgSeq.toInt_sum, List.map_map, List.map_map]
  rfl

/-- **The ranges given out are disjoint if and only if the lengths answered sum to at most
`2 ^ 32`**, whatever the clients are started with. -/
theorem ranges_disjoint_answered_iff (A : CommandLines ι) {p : State ι × List (Answer ι)}
    (h : (answering A.seqLen room).Run tr p) :
    ((p.2.map Answer.range).Pairwise fun g g' ↦ Disjoint g.range g'.range) ↔
      (p.2.map fun x ↦ x.req.seqLen.toInt).sum ≤ 2 ^ 32 := by
  have haccounts := accounts h
  have hpos : ∀ grant ∈ p.2.map Answer.range, 0 ≤ grant.length := by
    intro grant hgrant
    obtain ⟨x, hx, rfl⟩ := List.mem_map.mp hgrant
    have hgenuine : x.req.seqLen = A.seqLen x.req.pid := haccounts.genuine_answers x hx
    show 0 ≤ x.req.seqLen.toInt
    rw [hgenuine]
    exact (reqLen_pos (A.accepted _)).le
  have hlt : ∀ grant ∈ p.2.map Answer.range, grant.length < 2 ^ 31 := by
    intro grant hgrant
    obtain ⟨x, -, rfl⟩ := List.mem_map.mp hgrant
    exact BitVec.toInt_lt
  rw [(wrapped_answers haccounts.start).pairwise_disjoint_iff (by norm_num) hpos hlt,
    List.map_map]
  rfl

/-- Two clients, each in its `open` when the server gets to it, read their numbers. -/
def servedRun : List (Label Bool) :=
  [.mkfifo, .openServer, .write].map (.client false) ++
    [.mkfifo, .openServer, .write, .openFifo].map (.client true) ++ [.client false .openFifo] ++
    [.read ⟨false, 5⟩, .openFifo, .write 0, .close, .read ⟨true, 3⟩, .openFifo, .write 5,
      .close].map .server ++
    [.opened, .read 5, .exit].map (.client true) ++ [.opened, .read 0, .exit].map (.client false)

theorem reqLen_five : reqLen (some [53]) = .ok 5 := rfl

theorem reqLen_three : reqLen (some [51]) = .ok 3 := rfl

/-- `argv[1]` is `5` for one of them and `3` for the other. -/
def fiveThree : CommandLines Bool where
  arg i := some (cond i [51] [53])
  seqLen i := cond i 3 5
  accepted i := Bool.casesOn i reqLen_five reqLen_three

theorem exists_servedRun : ∃ s, (answering fiveThree.seqLen fun _ ↦ true).Run servedRun
      (s, [⟨⟨false, 5⟩, 0⟩, ⟨⟨true, 3⟩, 5⟩]) ∧ (s.client true).pc = .done :=
  Lts.exists_observe_run_of_exec init_start answer? servedRun (fun s ↦ (s.client true).pc) _ _
    (by decide)

theorem reads_assigned_servedRun : ∃ p, (answering fiveThree.seqLen fun _ ↦ true).Run servedRun p ∧
    p.2 = [⟨⟨false, 5⟩, 0⟩, ⟨⟨true, 3⟩, 5⟩] ∧ (p.1.client true).pc.Served ∧
    if (p.1.client true).pc.Served then
      ∃ pre post n, p.2 = pre ++ ⟨⟨true, fiveThree.seqLen true⟩, n⟩ :: post ∧
        n = (pre.map fun x ↦ x.req.seqLen).sum ∧ received true servedRun = [n] ∧
          ∀ x ∈ pre ++ post, x.req.pid ≠ true
    else received true servedRun = [] := by
  obtain ⟨s, hrun, hpc⟩ := exists_servedRun
  exact ⟨_, hrun, rfl, .inr hpc, reads_assigned hrun true⟩

/-- Two ranges are given out. -/
theorem ranges_disjoint_answered_iff_servedRun :
    ∃ p, (answering fiveThree.seqLen fun _ ↦ true).Run servedRun p ∧
      p.2 = [⟨⟨false, 5⟩, 0⟩, ⟨⟨true, 3⟩, 5⟩] ∧
      (((p.2.map Answer.range).Pairwise fun g g' ↦ Disjoint g.range g'.range) ↔
        (p.2.map fun x ↦ x.req.seqLen.toInt).sum ≤ 2 ^ 32) := by
  obtain ⟨s, hrun, -⟩ := exists_servedRun
  exact ⟨_, hrun, rfl, ranges_disjoint_answered_iff fiveThree hrun⟩

end SysProg.FifoSeq
