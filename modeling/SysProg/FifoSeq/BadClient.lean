import SysProg.FifoSeq.Numbers

/-!
# Bad clients

`SP_HW8/44_6/fifo_seqnum_bad_client.c` sends its request and ends, without opening its FIFO.  The
server opens that FIFO without blocking, and gives up.

`mixed` is the system with some of the clients bad ones.  To the others it is the system without
them (`simulation_fifoSeq`): a bad client looks like one that does not get to open its FIFO, and
that it removes the FIFO makes no difference to a server that finds no reader.  So no bad client is
answered, no number is spent on one, and the others get what they get without them
(`bad_clients_harmless`).
-/

universe u

namespace SysProg.FifoSeq

open SysProg.Lib

variable {ι : Type u} [DecidableEq ι]

section

variable (bad : ι → Bool) (seqLen : ι → BitVec 32) (room : Nat → Bool)

/-- A bad client, one call; when it ends, it removes its FIFO. -/
def badClientNext (s : State ι) (i : ι) : ClientOp → Option (State ι)
  | .exit =>
      if (s.client i).pc = .openFifo then
        some (s.setClient i ⟨.done, { (s.client i).fifo with linked := false }⟩)
      else none
  | .mkfifo => clientNext seqLen room s i .mkfifo
  | .openServer => clientNext seqLen room s i .openServer
  | .write => clientNext seqLen room s i .write
  | _ => none

/-- One call of some process. -/
def mixedNext (s : State ι) : Label ι → Option (State ι)
  | .server op => serverNext s op
  | .client i op =>
      if bad i then badClientNext seqLen room s i op else clientNext seqLen room s i op

/-- The sequence-number system, with bad clients, and the history of the server's answers. -/
def mixed : Lts (State ι × List (Answer ι)) (Label ι) :=
  (Lts.ofNext Init (mixedNext bad seqLen room)).observe answer?

/-- The ends of bad clients are not seen. -/
def visible? : Label ι → Option (Label ι)
  | .client i .exit => if bad i then none else some (.client i .exit)
  | a => some a

end

variable {bad : ι → Bool} {seqLen : ι → BitVec 32} {room : Nat → Bool} {s s' t : State ι}
  {a : Label ι} {i j : ι} {tr : List (Label ι)}

/-- A bad client that has ended. -/
def gone : Client := ⟨.done, ⟨false, 0, 0, 0, []⟩⟩

/-- A client that has sent its request and does nothing more. -/
def silent : Client := ⟨.openFifo, ⟨true, 0, 0, 0, []⟩⟩

/-- A client that has not gone beyond sending its request. -/
def ClientPc.Early (pc : ClientPc) : Prop :=
  pc = .mkfifo ∨ pc = .openServer ∨ pc = .write ∨ pc = .openFifo

/-- Client `i` with bad clients, and without. -/
def AlikeAt (bad : ι → Bool) (i : ι) (x y : Client) : Prop :=
  (x = y ∨ bad i = true ∧ x = gone ∧ y = silent) ∧ (bad i = true → y.pc.Early)

/-- What the state with bad clients is to the one without. -/
structure Alike (bad : ι → Bool) (s t : State ι) : Prop where
  queue : s.queue = t.queue
  server : s.server = t.server
  seqNum : s.seqNum = t.seqNum
  client : ∀ i, AlikeAt bad i (s.client i) (t.client i)

theorem Alike.setClient {x y : Client} (h : Alike bad s t) (hxy : AlikeAt bad i x y) :
    Alike bad (s.setClient i x) (t.setClient i y) where
  queue := h.queue
  server := h.server
  seqNum := h.seqNum
  client j := by
    by_cases hij : i = j
    · subst hij
      simpa [State.setClient] using hxy
    · simpa [State.setClient, Function.update_of_ne (Ne.symm hij)] using h.client j

theorem clientNext_of_ne {op : ClientOp} (hop : op ≠ .write) :
    clientNext seqLen room s i op = ((s.client i).next op).map (s.setClient i) := by
  cases op <;> first | rfl | exact absurd rfl hop

theorem gone_next (op : ClientOp) : gone.next op = none := by
  cases op <;> rfl

/-- A call of a client that does not end in between. -/
theorem Alike.clientNext {op : ClientOp} (h : Alike bad s t)
    (hnext : clientNext seqLen room s i op = some s')
    (hearly : bad i = true → ∀ x, (t.client i).next op = some x → x.pc.Early) :
    ∃ t', clientNext seqLen room t i op = some t' ∧ Alike bad s' t' := by
  obtain ⟨hclient | ⟨-, hgone, -⟩, -⟩ := h.client i
  · by_cases hop : op = .write
    · subst hop
      obtain ⟨hroom, hmap⟩ := Option.ite_none_right_eq_some.mp hnext
      obtain ⟨x, hx, rfl⟩ := Option.map_eq_some_iff.mp hmap
      rw [hclient] at hx
      refine ⟨{ t.setClient i x with queue := t.queue ++ [⟨i, seqLen i⟩] }, ?_, ?_⟩
      · show (if room t.queue.length then _ else _) = _
        rw [← h.queue, if_pos hroom, hx]
        rfl
      · have hset := h.setClient (x := x) (y := x) ⟨.inl rfl, fun hbad ↦ hearly hbad x hx⟩
        exact ⟨by rw [h.queue], hset.server, hset.seqNum, hset.client⟩
    · rw [clientNext_of_ne hop] at hnext ⊢
      obtain ⟨x, hx, rfl⟩ := Option.map_eq_some_iff.mp hnext
      rw [hclient] at hx
      exact ⟨_, by rw [hx]; rfl, h.setClient ⟨.inl rfl, fun hbad ↦ hearly hbad x hx⟩⟩
  · -- a client that has ended makes no calls
    by_cases hop : op = .write
    · subst hop
      obtain ⟨-, hmap⟩ := Option.ite_none_right_eq_some.mp hnext
      rw [hgone, gone_next] at hmap
      cases hmap
    · rw [clientNext_of_ne hop, hgone, gone_next] at hnext
      cases hnext

omit [DecidableEq ι] in
/-- Nobody reads the FIFO of a bad client that has ended. -/
theorem AlikeAt.eq_or {x y : Client} (h : AlikeAt bad i x y) : x = y ∨
    (x.fifo.openNonblock = none ∧ y.fifo.openNonblock = none) ∧
      ∀ n, x.fifo.write n = none ∧ y.fifo.write n = none := by
  obtain ⟨heq | ⟨-, rfl, rfl⟩, -⟩ := h
  · exact .inl heq
  · exact .inr ⟨⟨rfl, rfl⟩, fun _ ↦ ⟨rfl, rfl⟩⟩

/-- The server has done something to a FIFO that is the same in both. -/
theorem Alike.setFifo (h : Alike bad s t) (heq : s.client i = t.client i) (f : Fifo (BitVec 32)) :
    Alike bad (s.setClient i ⟨(s.client i).pc, f⟩) (t.setClient i ⟨(t.client i).pc, f⟩) :=
  h.setClient ⟨.inl (by rw [heq]), (h.client i).2⟩

/-- A call of the server. -/
theorem Alike.serverNext {op : ServerOp ι} (h : Alike bad s t)
    (hnext : serverNext s op = some s') :
    ∃ t', serverNext t op = some t' ∧ Alike bad s' t' := by
  have hs : Step (fun _ ↦ 0) (fun _ ↦ true) s (.server op) s' := .of_serverNext hnext
  cases hs with
  | @serverRead req queue hpc hqueue =>
      rw [h.server] at hpc
      rw [h.queue] at hqueue
      exact ⟨{ t with queue, server := .openFifo req }, by simp [FifoSeq.serverNext, hpc, hqueue],
        rfl, rfl, h.seqNum, h.client⟩
  | @serverOpen req fifo hpc hopen =>
      rw [h.server] at hpc
      rcases (h.client req.pid).eq_or with heq | ⟨⟨hnone, -⟩, -⟩
      · have hset := h.setFifo heq fifo
        rw [heq] at hopen
        exact ⟨{ t.setClient req.pid ⟨(t.client req.pid).pc, fifo⟩ with server := .write req },
          by simp only [FifoSeq.serverNext, hpc, hopen]; rfl,
          hset.queue, rfl, hset.seqNum, hset.client⟩
      · rw [hnone] at hopen
        cases hopen
  | @serverOpenFail req hpc hopen =>
      rw [h.server] at hpc
      have hnone : (t.client req.pid).fifo.openNonblock = none := by
        rcases (h.client req.pid).eq_or with heq | ⟨⟨-, hnone⟩, -⟩
        · rwa [← heq]
        · exact hnone
      exact ⟨{ t with server := .read }, by simp [FifoSeq.serverNext, hpc, hnone],
        h.queue, rfl, h.seqNum, h.client⟩
  | @serverWrite req fifo hpc hwrite =>
      rw [h.server] at hpc
      rcases (h.client req.pid).eq_or with heq | ⟨-, hnone⟩
      · have hset := h.setFifo heq fifo
        rw [heq, h.seqNum] at hwrite
        rw [h.seqNum]
        exact ⟨{ t.setClient req.pid ⟨(t.client req.pid).pc, fifo⟩ with server := .close req },
          by simp only [FifoSeq.serverNext, hpc, if_true, hwrite]; rfl,
          hset.queue, rfl, hset.seqNum, hset.client⟩
      · rw [(hnone _).1] at hwrite
        cases hwrite
  | @serverWriteFail req hpc hwrite =>
      rw [h.server] at hpc
      have hnone : (t.client req.pid).fifo.write t.seqNum = none := by
        rcases (h.client req.pid).eq_or with heq | ⟨-, hnone⟩
        · rwa [← heq, ← h.seqNum]
        · exact (hnone _).2
      exact ⟨{ t with server := .close req }, by simp [FifoSeq.serverNext, hpc, hnone],
        h.queue, rfl, h.seqNum, h.client⟩
  | @serverClose req hpc =>
      rw [h.server] at hpc
      have hset : AlikeAt bad req.pid ⟨(s.client req.pid).pc, (s.client req.pid).fifo.closeWrite⟩
          ⟨(t.client req.pid).pc, (t.client req.pid).fifo.closeWrite⟩ := by
        obtain ⟨heq | ⟨hbad, hgone, hsilent⟩, hpc⟩ := h.client req.pid
        · exact ⟨.inl (by rw [heq]), hpc⟩
        · exact ⟨.inr ⟨hbad, by rw [hgone]; rfl, by rw [hsilent]; rfl⟩, hpc⟩
      exact ⟨{ t.setClient req.pid ⟨(t.client req.pid).pc, (t.client req.pid).fifo.closeWrite⟩ with
          server := .read, seqNum := t.seqNum + req.seqLen },
        by simp only [FifoSeq.serverNext, hpc], (h.setClient hset).queue, rfl,
        congrArg (· + req.seqLen) h.seqNum, (h.setClient hset).client⟩

theorem Stage.eq_silent {n : Nat} {hand : Hand} {x : Client} (h : Stage n hand x)
    (hpc : x.pc = .openFifo) : x = silent := by
  cases h with
  | start => cases hpc
  | created hx | opened hx => rcases hx with rfl | rfl <;> cases hpc
  | queued hx | taken hx | abandoned hx =>
      cases hx with
      | openFifo => rfl
      | opening => cases hpc
  | written hx | answered hx => cases hx <;> cases hpc

/-- A bad client ends, which nobody else can tell. -/
theorem Alike.exit (h : Alike bad s t) (hstaged : Staged t) (hbad : bad i = true)
    (hnext : badClientNext seqLen room s i .exit = some s') : Alike bad s' t := by
  obtain ⟨hpc, h'⟩ := Option.ite_none_right_eq_some.mp hnext
  obtain rfl := Option.some.inj h'
  have hsame : s.client i = t.client i := by
    obtain ⟨heq | ⟨-, hgone, -⟩, -⟩ := h.client i
    · exact heq
    · rw [hgone] at hpc
      cases hpc
  have hsilent : t.client i = silent := (hstaged i).eq_silent (hsame ▸ hpc)
  have hset := h.setClient (i := i) (x := gone) (y := t.client i)
    ⟨.inr ⟨hbad, rfl, hsilent⟩, (h.client i).2⟩
  rw [show t.setClient i (t.client i) = t by simp [State.setClient]] at hset
  rw [hsame, hsilent]
  exact hset

/-- What a bad client does before it ends. -/
theorem early_of_badClientNext {op : ClientOp} (hop : op ≠ .exit)
    (hnext : badClientNext seqLen room s i op = some s') :
    clientNext seqLen room s i op = some s' ∧ ∀ x y : Client, x.next op = some y → y.pc.Early := by
  have hearly : ∀ x y : Client, op = .mkfifo ∨ op = .openServer ∨ op = .write →
      x.next op = some y → y.pc.Early := by
    intro x y hop hy
    cases Client.Step.of_next hy with
    | mkfifo => exact .inr (.inl rfl)
    | openServer => exact .inr (.inr (.inl rfl))
    | write => exact .inr (.inr (.inr rfl))
    | _ => rcases hop with hop | hop | hop <;> cases hop
  cases op with
  | exit => exact absurd rfl hop
  | mkfifo | openServer | write => exact ⟨hnext, fun x y ↦ hearly x y (by simp)⟩
  | _ => cases hnext

/-! ## The simulation -/

omit [DecidableEq ι] in
theorem alike_init (h : Init s) : Alike bad s s := by
  refine ⟨rfl, rfl, rfl, fun i ↦ ⟨.inl rfl, fun _ ↦ .inl ?_⟩⟩
  obtain ⟨linked, hclient⟩ := h.client i
  rw [hclient]

/-- A call that is seen is one of the system without bad clients. -/
theorem Alike.next (h : Alike bad s t) (hvisible : visible? bad a = some a)
    (hnext : mixedNext bad seqLen room s a = some s') :
    ∃ t', next seqLen room t a = some t' ∧ Alike bad s' t' := by
  cases a with
  | server op => exact h.serverNext hnext
  | client i op =>
      simp only [mixedNext] at hnext
      split at hnext
      · next hbad =>
          have hop : op ≠ .exit := by
            rintro rfl
            simp [visible?, hbad] at hvisible
          obtain ⟨hnext, hearly⟩ := early_of_badClientNext hop hnext
          exact h.clientNext hnext fun _ ↦ hearly _
      · next hgood => exact h.clientNext hnext fun hbad ↦ absurd hbad hgood

omit [DecidableEq ι] in
theorem answer?_congr (h : s.server = t.server) (a : Label ι) : answer? s a = answer? t a := by
  unfold answer?
  rw [h]

omit [DecidableEq ι] in
theorem visible?_eq {b : Label ι} (h : visible? bad a = some b) : b = a := by
  unfold visible? at h
  split at h
  · split_ifs at h
    exact (Option.some.inj h).symm
  · exact (Option.some.inj h).symm

omit [DecidableEq ι] in
theorem visible?_eq_none (h : visible? bad a = none) :
    ∃ i, bad i = true ∧ a = .client i .exit := by
  unfold visible? at h
  split at h
  · next i =>
      split_ifs at h with hbad
      exact ⟨i, hbad, rfl⟩
  · cases h

/-- **Bad clients are like clients that do nothing more.** -/
theorem simulation_fifoSeq : Lts.Simulation (mixed bad seqLen room) (answering seqLen room)
    (visible? bad) fun _ p q ↦ Alike bad p.1 q.1 ∧ Staged q.1 ∧ p.2 = q.2 where
  init p hp := by
    have hreach : (fifoSeq seqLen room).Reachable p.1 := ⟨[], .init hp.1⟩
    exact ⟨p, hp, alike_init hp.1, staged hreach, rfl⟩
  skip tr p a p' q _ hs hlabel := by
    rintro ⟨halike, hstaged, hanswers⟩
    obtain ⟨hnext, hanswer⟩ := hs
    obtain ⟨i, hbad, rfl⟩ := visible?_eq_none hlabel
    have hexit : badClientNext seqLen room p.1 i .exit = some p'.1 := by
      simpa [Lts.ofNext, mixedNext, hbad] using hnext
    refine ⟨halike.exit hstaged hbad hexit, hstaged, ?_⟩
    rw [hanswer, hanswers]
    exact List.append_nil _
  sync tr p a p' q b _ hs hlabel := by
    rintro ⟨halike, hstaged, hanswers⟩
    obtain ⟨hnext, hanswer⟩ := hs
    obtain rfl := visible?_eq hlabel
    obtain ⟨t, ht, halike'⟩ := halike.next hlabel hnext
    refine ⟨(t, q.2 ++ (answer? q.1 b).toList), ⟨ht, rfl⟩, halike', ?_, ?_⟩
    · have hstep : Step seqLen room q.1 b t := .of_step ht
      exact hstaged.step hstep
    · rw [hanswer, hanswers, answer?_congr halike.server]

/-- The numbers read are those of the run without the ends of the bad clients. -/
theorem received_filterMap (i : ι) (tr : List (Label ι)) :
    received i (tr.filterMap (visible? bad)) = received i tr := by
  rw [received, List.filterMap_filterMap, received]
  refine List.filterMap_congr fun a _ ↦ ?_
  cases hlabel : visible? bad a with
  | none =>
      obtain ⟨j, -, rfl⟩ := visible?_eq_none hlabel
      rfl
  | some b =>
      obtain rfl := visible?_eq hlabel
      rfl

theorem not_served_of_early {pc : ClientPc} (h : pc.Early) : ¬ pc.Served := by
  rintro (rfl | rfl) <;> rcases h with h | h | h | h <;> cases h

theorem Stage.data_of_early {n : Nat} {hand : Hand} {x : Client} (h : Stage n hand x)
    (hpc : x.pc.Early) : x.fifo.data = [] := by
  cases h with
  | start | created | opened => rfl
  | queued hx | taken hx | abandoned hx => cases hx <;> rfl
  | written hx | answered hx => cases hx <;> rcases hpc with h | h | h | h <;> cases h

/-- **Bad clients do no harm**: none of them is answered, and a client that is not one reads the
sum of the lengths answered before it. -/
theorem bad_clients_harmless {p : State ι × List (Answer ι)}
    (h : (mixed bad seqLen room).Run tr p) :
    (∀ x ∈ p.2, bad x.req.pid = false) ∧ ∀ i, bad i = false →
      if (p.1.client i).pc.Served then
        ∃ pre post n, p.2 = pre ++ ⟨⟨i, seqLen i⟩, n⟩ :: post ∧
          n = (pre.map fun x ↦ x.req.seqLen).sum ∧ received i tr = [n] ∧
            ∀ x ∈ pre ++ post, x.req.pid ≠ i
      else received i tr = [] := by
  obtain ⟨q, hrun, halike, hstaged, hanswers⟩ := simulation_fifoSeq.run h
  constructor
  · intro x hx
    by_contra hbad
    rw [Bool.not_eq_false] at hbad
    have hearly := (halike.client x.req.pid).2 hbad
    have hassigned := (accounts hrun).assigned_eq x.req.pid
    have hlength := length_received hrun.of_observe x.req.pid
    rw [if_neg (not_served_of_early hearly)] at hlength
    rw [List.eq_nil_of_length_eq_zero hlength, (hstaged _).data_of_early hearly,
      ← hanswers] at hassigned
    have hmem : x.seqNum ∈ assigned x.req.pid p.2 :=
      List.mem_map_of_mem (List.mem_filter.mpr ⟨hx, decide_eq_true rfl⟩)
    rw [hassigned] at hmem
    exact absurd hmem List.not_mem_nil
  · intro i hgood
    have hreads := reads_assigned hrun i
    have hclient : p.1.client i = q.1.client i := by
      obtain ⟨heq | ⟨hbad, -⟩, -⟩ := halike.client i
      · exact heq
      · rw [hgood] at hbad
        cases hbad
    rw [received_filterMap, ← hanswers, ← hclient] at hreads
    exact hreads

/-- A bad client and a good one; the good one is answered. -/
def mixedRun : List (Label Bool) :=
  [.client true .mkfifo, .client true .openServer, .client true .write, .client true .exit,
    .client false .mkfifo, .client false .openServer, .client false .write,
    .client false .openFifo, .server (.read ⟨true, 7⟩), .server .openFail,
    .server (.read ⟨false, 5⟩), .server .openFifo, .server (.write 0), .server .close,
    .client false .opened, .client false (.read 0), .client false .exit]

/-- `argv[1]` of the two. -/
def reqLens (i : Bool) : BitVec 32 := if i then 7 else 5

def twoStart : State Bool where
  queue := []
  server := .read
  seqNum := 0
  client _ := ⟨.mkfifo, ⟨false, 0, 0, 0, []⟩⟩

theorem bad_clients_harmless_mixedRun : ∃ p,
    (mixed id reqLens fun _ ↦ true).Run mixedRun p ∧ p.1.seqNum = 5 ∧
    (∀ x ∈ p.2, x.req.pid = false) ∧ ∀ i, i = false →
      if (p.1.client i).pc.Served then
        ∃ pre post n, p.2 = pre ++ ⟨⟨i, reqLens i⟩, n⟩ :: post ∧
          n = (pre.map fun x ↦ x.req.seqLen).sum ∧ received i mixedRun = [n] ∧
            ∀ x ∈ pre ++ post, x.req.pid ≠ i
      else received i mixedRun = [] := by
  have hinit : Init twoStart := ⟨rfl, rfl, rfl, fun _ ↦ ⟨false, rfl⟩⟩
  have hexec : (Lts.exec (mixedNext id reqLens fun _ ↦ true) twoStart mixedRun).map
      (fun s ↦ s.seqNum) = some 5 := by decide
  obtain ⟨s, hrun, hseqNum⟩ := Lts.exists_run_of_exec hinit _ _ _ hexec
  obtain ⟨answers, hrun⟩ := hrun.exists_observe answer?
  exact ⟨_, hrun, hseqNum, bad_clients_harmless hrun⟩

end SysProg.FifoSeq
