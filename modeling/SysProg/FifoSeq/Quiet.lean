import Mathlib.Algebra.BigOperators.Fin
import SysProg.FifoSeq.Numbers

/-!
# What the system comes to

* `stuck_iff`: when no process can go on, the server waits for requests, and each client has ended
  or waits in its `open` forever, its request dropped.
* `run_length_le`: it comes to that after at most `11` calls for each client.
* `quiescent`: then a client has ended, and has printed its number, if and only if its request has
  been answered.
-/

universe u

namespace SysProg.FifoSeq

open SysProg.Lib

variable {ι : Type u} [DecidableEq ι] {seqLen : ι → BitVec 32} {room : Nat → Bool} {s t : State ι}
  {a : Label ι} {i j : ι} {tr : List (Label ι)}

/-! ## Stuck states -/

/-- A client that nobody will open the FIFO of. -/
def Waiting (x : Client) : Prop := x = ⟨.opening 0, ⟨true, 1, 0, 0, []⟩⟩

/-- A client with no request underway that cannot go on. -/
theorem Stage.blocked {x : Client} (h : Stage 0 .absent x)
    (hblocked : ∀ op y, op ≠ .write → x.next op ≠ some y) (hwrite : ∀ y, x.next .write ≠ some y) :
    x.pc = .done ∨ Waiting x := by
  cases h with
  | start => exact absurd rfl (hblocked .mkfifo _ (by decide))
  | created hpc =>
      rcases hpc with rfl | rfl
      · exact absurd rfl (hblocked .openServer _ (by decide))
      · exact absurd rfl (hwrite _)
  | abandoned hx =>
      cases hx with
      | openFifo => exact absurd rfl (hblocked .openFifo _ (by decide))
      | opening => exact .inr rfl
  | answered hx =>
      cases hx with
      | opening => exact absurd rfl (hblocked .opened _ (by decide))
      | @read n => exact absurd (if_pos rfl) (hblocked (.read n) _ (by simp))
      | exit => exact absurd rfl (hblocked .exit _ (by decide))
      | done => exact .inl rfl

/-- A server with something to do can do it. -/
theorem exists_serverNext (h : s.server ≠ .read ∨ s.queue ≠ []) :
    ∃ op t, serverNext s op = some t := by
  cases hpc : s.server with
  | read =>
      rcases hqueue : s.queue with - | ⟨req, queue⟩
      · exact absurd h (by simp [hpc, hqueue])
      · exact ⟨.read req, _, by simp only [serverNext, hpc, hqueue, if_true]; rfl⟩
  | openFifo req =>
      rcases hopen : (s.client req.pid).fifo.openNonblock with - | fifo
      · exact ⟨.openFail, _, by simp only [serverNext, hpc]; exact if_pos hopen⟩
      · exact ⟨.openFifo, _, by simp only [serverNext, hpc, hopen]; rfl⟩
  | write req =>
      rcases hwrite : (s.client req.pid).fifo.write s.seqNum with - | fifo
      · exact ⟨.writeFail, _, by simp only [serverNext, hpc]; exact if_pos hwrite⟩
      · exact ⟨.write s.seqNum, _, by simp only [serverNext, hpc, if_true, hwrite]; rfl⟩
  | close req => exact ⟨.close, _, by simp only [serverNext, hpc]; rfl⟩

theorem Waiting.not_step {x y : Client} {op : ClientOp} (h : Waiting x) : ¬ Client.Step x op y := by
  intro hs
  rw [Waiting] at h
  subst h
  cases hs with
  | opened hready => exact absurd hready (by decide)

theorem not_step_of_done {x y : Client} {op : ClientOp} (h : x.pc = .done) :
    ¬ Client.Step x op y := by
  intro hs
  cases hs <;> cases h

/-- **Where the system cannot go on**, the server is idle, and a client that has not ended waits
forever. -/
theorem stuck_iff (hroom : room 0 = true) (h : (fifoSeq seqLen room).Reachable s) :
    (fifoSeq seqLen room).Stuck s ↔ s.server = .read ∧ s.queue = [] ∧
      ∀ i, (s.client i).pc = .done ∨ Waiting (s.client i) := by
  constructor
  · intro hstuck
    have hidle : s.server = .read ∧ s.queue = [] := by
      by_contra hne
      obtain ⟨op, t, ht⟩ := exists_serverNext (not_and_or.mp hne)
      exact hstuck (.server op) ⟨t, ht⟩
    refine ⟨hidle.1, hidle.2, fun i ↦ ?_⟩
    have hstage := staged h i
    rw [hidle.1, hidle.2] at hstage
    refine Stage.blocked hstage (fun op y hop hy ↦ ?_) fun y hy ↦ ?_
    · have hcall : next seqLen room s (.client i op) = some (s.setClient i y) := by
        have hmap : ((s.client i).next op).map (s.setClient i) = some (s.setClient i y) := by
          rw [hy]
          rfl
        cases op <;> first | exact hmap | exact absurd rfl hop
      exact hstuck (.client i op) ⟨_, hcall⟩
    · have hsend : next seqLen room s (.client i .write) = some
          { s.setClient i y with queue := s.queue ++ [⟨i, seqLen i⟩] } := by
        show (if room s.queue.length then _ else _) = _
        rw [hidle.2, List.length_nil, if_pos hroom, hy]
        rfl
      exact hstuck (.client i .write) ⟨_, hsend⟩
  · rintro ⟨hpc, hqueue, hclients⟩ a ⟨t, ht⟩
    have hclient : ∀ i op y, ¬ Client.Step (s.client i) op y := fun i op y hs ↦
      (hclients i).elim (fun hdone ↦ not_step_of_done hdone hs) fun hwait ↦ hwait.not_step hs
    cases Step.of_step ht with
    | client hop hx => exact hclient _ _ _ hx
    | write _ hx => exact hclient _ _ _ hx
    | serverRead _ hqueue' => exact List.cons_ne_nil _ _ (hqueue'.symm.trans hqueue)
    | serverOpen hpc' | serverOpenFail hpc' => exact absurd (hpc.symm.trans hpc') (by simp)
    | serverWrite hpc' | serverWriteFail hpc' => exact absurd (hpc.symm.trans hpc') (by simp)
    | serverClose hpc' => exact absurd (hpc.symm.trans hpc') (by simp)

/-! ## Every run comes to an end -/

/-- The calls that a client has yet to make, and that the server has yet to make for it before it
has its request. -/
def ClientPc.fuel : ClientPc → Nat
  | .mkfifo => 11
  | .openServer => 10
  | .write => 9
  | .openFifo => 4
  | .opening _ => 3
  | .read => 2
  | .exit => 1
  | .done => 0

/-- The calls left for the request in hand. -/
def ServerPc.fuel : ServerPc ι → Nat
  | .read => 0
  | .openFifo _ => 3
  | .write _ => 2
  | .close _ => 1

theorem Client.Step.fuel {x y : Client} {op : ClientOp} (h : Client.Step x op y) :
    y.pc.fuel + (if op = .write then 4 else 0) < x.pc.fuel := by
  cases h <;> simp [ClientPc.fuel]

section Fintype

variable [Fintype ι]

/-- The calls that are left. -/
def fuel (s : State ι) : Nat :=
  ∑ i, (s.client i).pc.fuel + 4 * s.queue.length + s.server.fuel

/-- The calls left change with those of the one client. -/
theorem sum_update (client : ι → Client) (i : ι) (x : Client) :
    ∑ j, (Function.update client i x j).pc.fuel + (client i).pc.fuel =
      ∑ j, (client j).pc.fuel + x.pc.fuel := by
  rw [← Finset.add_sum_erase _ _ (Finset.mem_univ i),
    ← Finset.add_sum_erase _ (fun j ↦ (client j).pc.fuel) (Finset.mem_univ i),
    Function.update_self]
  have hothers : ∑ j ∈ Finset.univ.erase i, (Function.update client i x j).pc.fuel =
      ∑ j ∈ Finset.univ.erase i, (client j).pc.fuel := by
    refine Finset.sum_congr rfl fun j hj ↦ ?_
    rw [Function.update_of_ne (Finset.ne_of_mem_erase hj)]
  omega

/-- **Each call lowers the number of calls that are left.** -/
theorem Step.fuel (hs : Step seqLen room s a t) : fuel t < fuel s := by
  unfold FifoSeq.fuel
  cases hs with
  | @client i op x hop hx =>
      have hsum := sum_update s.client i x
      have hlt := hx.fuel
      simp only [State.setClient]
      omega
  | @write i x hroom hx =>
      have hsum := sum_update s.client i x
      have hlt := hx.fuel
      simp only [State.setClient, List.length_append, List.length_singleton]
      rw [if_pos rfl] at hlt
      omega
  | @serverRead req queue hpc hqueue =>
      simp only [hpc, hqueue, ServerPc.fuel, List.length_cons]
      omega
  | @serverOpen req fifo hpc hopen =>
      have hsum := sum_update s.client req.pid ⟨(s.client req.pid).pc, fifo⟩
      simp only [State.setClient, hpc, ServerPc.fuel] at hsum ⊢
      omega
  | @serverOpenFail req hpc hopen =>
      simp only [hpc, ServerPc.fuel]
      omega
  | @serverWrite req fifo hpc hwrite =>
      have hsum := sum_update s.client req.pid ⟨(s.client req.pid).pc, fifo⟩
      simp only [State.setClient, hpc, ServerPc.fuel] at hsum ⊢
      omega
  | @serverWriteFail req hpc hwrite =>
      simp only [hpc, ServerPc.fuel]
      omega
  | @serverClose req hpc =>
      have hsum := sum_update s.client req.pid
        ⟨(s.client req.pid).pc, (s.client req.pid).fifo.closeWrite⟩
      simp only [State.setClient, hpc, ServerPc.fuel] at hsum ⊢
      omega

/-- **No run is longer than `11` calls for each client.** -/
theorem run_length_le (h : (fifoSeq seqLen room).Run tr s) :
    tr.length + fuel s ≤ 11 * Fintype.card ι := by
  refine h.induction (P := fun tr s ↦ tr.length + fuel s ≤ 11 * Fintype.card ι) ?_ ?_
  · intro s hs
    have hclient : ∀ i, (s.client i).pc.fuel = 11 := by
      intro i
      obtain ⟨linked, hclient⟩ := hs.client i
      rw [hclient]
      rfl
    simp [FifoSeq.fuel, hs.queue, hs.server, hclient, ServerPc.fuel, Nat.mul_comm]
  · intro tr s a t _ ih hs
    have hlt := (Step.of_step hs).fuel
    rw [List.length_append, List.length_singleton]
    omega

omit [Fintype ι] in
/-- A client that cannot go on any more has read its number, or has not been answered. -/
theorem outcome {p : State ι × List (Answer ι)} (h : (answering seqLen room).Run tr p)
    (hclient : (p.1.client i).pc = .done ∨ Waiting (p.1.client i)) :
    ((p.1.client i).pc = .done ∧ ∃ n, assigned i p.2 = [n] ∧ received i tr = [n]) ∨
      (Waiting (p.1.client i) ∧ assigned i p.2 = []) := by
  have hassigned := (accounts h).assigned_eq i
  have hlength := length_received h.of_observe i
  rcases hclient with hdone | hwait
  · have hserved : (p.1.client i).pc.Served := .inr hdone
    rw [if_pos hserved] at hlength
    obtain ⟨n, hn⟩ := List.length_eq_one_iff.mp hlength
    rw [hn, (staged h.of_observe.reachable i).data_eq_nil hserved, List.append_nil] at hassigned
    exact .inl ⟨hdone, n, hassigned, hn⟩
  · have hserved : ¬ (p.1.client i).pc.Served := by
      rw [hwait]
      decide
    rw [if_neg hserved] at hlength
    rw [List.eq_nil_of_length_eq_zero hlength, hwait] at hassigned
    exact .inr ⟨hwait, hassigned⟩

/-- **What becomes of the clients.**  Runs are finite.  One cannot go on exactly when the server is
idle and each client either has ended and printed the number that its request was answered with,
or waits in its `open` and was not answered. -/
theorem settled (hroom : room 0 = true) {p : State ι × List (Answer ι)}
    (h : (answering seqLen room).Run tr p) :
    tr.length ≤ 11 * Fintype.card ι ∧ ((fifoSeq seqLen room).Stuck p.1 ↔
      p.1.server = .read ∧ p.1.queue = [] ∧ ∀ i,
        ((p.1.client i).pc = .done ∧ ∃ n, assigned i p.2 = [n] ∧ received i tr = [n]) ∨
          (Waiting (p.1.client i) ∧ assigned i p.2 = [])) := by
  refine ⟨(Nat.le_add_right _ _).trans (run_length_le h.of_observe), ?_⟩
  rw [stuck_iff hroom h.of_observe.reachable]
  refine and_congr_right fun _ ↦ and_congr_right fun _ ↦ forall_congr' fun i ↦ ?_
  exact ⟨outcome h, Or.imp And.left And.left⟩

end Fintype

theorem settled_servedRun : ∃ p, (answering fiveThree.seqLen fun _ ↦ true).Run servedRun p ∧
    p.2 = [⟨⟨false, 5⟩, 0⟩, ⟨⟨true, 3⟩, 5⟩] ∧ servedRun.length ≤ 11 * Fintype.card Bool ∧
      ((fifoSeq fiveThree.seqLen fun _ ↦ true).Stuck p.1 ↔
        p.1.server = .read ∧ p.1.queue = [] ∧ ∀ i,
          ((p.1.client i).pc = .done ∧ ∃ n, assigned i p.2 = [n] ∧ received i servedRun = [n]) ∨
            (Waiting (p.1.client i) ∧ assigned i p.2 = [])) := by
  obtain ⟨s, hrun, -⟩ := exists_servedRun
  exact ⟨_, hrun, rfl, settled rfl hrun⟩

end SysProg.FifoSeq
