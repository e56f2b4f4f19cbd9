import SysProg.Lib.Family
import SysProg.MsgSeq.Routing

/-!
# Deadlock on the shared queue

The server sends its responses into the queue the requests arrive in.  While it holds
the response to one client, requests of others may fill the queue; then it cannot
send, nobody can receive, and the system is stuck.

A client has at most one message in the queue, and none while the server holds its
response.  So the queue has room for the response as long as it can hold a message of
every client: `deadlockFree_iff` says that the system is free of deadlock if and only
if there are at most as many clients as messages fit in the queue.
-/

universe u

namespace SysProg.MsgSeq

open SysProg.Lib

variable {ι : Type u} [DecidableEq ι] {C : Clients ι} {cap : Nat} {s t : State ι} {i j : ι}

/-- A queue that holds at most `cap` messages. -/
def bounded (cap n : Nat) : Bool := n < cap

/-- Client `i` has not received its response yet. -/
def Waiting (i : ι) (s : State ι) : Prop := s.client i = .send ∨ s.client i = .recv

/-- As long as a client waits for its response, some process can take a step. -/
def DeadlockFree (C : Clients ι) (cap : Nat) : Prop :=
  ∀ s, (msgSeq C (bounded cap)).Reachable s → (∃ i, Waiting i s) →
    ¬ (msgSeq C (bounded cap)).Stuck s

/-! ## Enough room -/

/-- A client has one message in the queue or with the server. -/
theorem Stage.le_one {pc : ClientPc} {n : Nat} {hand out given : List (BitVec 32)}
    (h : Stage pc n hand out given) : n + out.length + hand.length ≤ 1 := by
  cases h <;> simp

omit [DecidableEq ι] in
/-- The messages in the queue and with the server are at most as many as the clients. -/
theorem Routed.length_le [Fintype ι] {taken : List (Words × BitVec 32)} (h : Routed C taken s) :
    s.queue.length + s.server.pending.length ≤ Fintype.card ι := by
  have hqueue : s.queue.length ≤
      ∑ i, requests C i s.queue + ∑ i, (responses C i s.queue).length := by
    have hsum := length_le_sum_countP (Sum.elim
      (fun (i : ι) (m : Msg Words) ↦ decide (m.mtype = 1 ∧ m.mtext.word0 = C.pid i))
      (fun (i : ι) (m : Msg Words) ↦ decide (m.mtype = respType (C.pid i)))) (l := s.queue) ?_
    · simpa [requests, responses, List.countP_eq_length_filter] using hsum
    · intro m hm
      obtain ⟨i, rfl | hi⟩ := h.queue m hm
      · exact ⟨.inl i, by simp [Clients.request]⟩
      · exact ⟨.inr i, by simp [hi]⟩
  have hpending : s.server.pending.length ≤ ∑ i, (inHand C i s.server).length := by
    have hsum := length_le_sum_countP
      (fun (i : ι) (reply : Int × BitVec 32) ↦ decide (reply.1 = respType (C.pid i)))
      (l := s.server.pending) ?_
    · simpa [inHand, List.countP_eq_length_filter] using hsum
    · intro reply hreply
      cases hserver : s.server with
      | recv => simp [hserver, ServerPc.pending] at hreply
      | send mtype seqNum =>
          obtain ⟨i, hi⟩ := h.server mtype seqNum hserver
          obtain rfl : reply = (mtype, seqNum) := by
            simpa [hserver, ServerPc.pending] using hreply
          exact ⟨i, by simp [hi]⟩
  have hone : ∑ i, (requests C i s.queue + (responses C i s.queue).length +
      (inHand C i s.server).length) ≤ ∑ _i : ι, 1 :=
    Finset.sum_le_sum fun i _ ↦ (h.stage i).le_one
  rw [Finset.sum_add_distrib, Finset.sum_add_distrib, ← Finset.card_eq_sum_ones,
    Finset.card_univ] at hone
  omega

/-- A client whose response is in the queue can receive it. -/
theorem Stage.pc_of_out {pc : ClientPc} {n : Nat} {hand out given : List (BitVec 32)}
    (h : Stage pc n hand out given) (hout : out ≠ []) : pc = .recv := by
  cases h with
  | replied => rfl
  | _ => exact absurd rfl hout

/-- A client waits for its response only while that, or its request, is on the way. -/
theorem Stage.exists_of_recv {n : Nat} {hand out given : List (BitVec 32)}
    (h : Stage .recv n hand out given) (hhand : hand = []) : n ≠ 0 ∨ out ≠ [] := by
  cases h with
  | asked => exact .inl (by simp)
  | taken => cases hhand
  | replied => exact .inr (by simp)

theorem enabled_serverRecv {m : Msg Words} (hpc : s.server = .recv) (hm : m ∈ s.queue)
    (htype : m.mtype = 1) : ∃ a, (msgSeq C (bounded cap)).Enabled s a := by
  cases hrcv : msgrcv 1 s.queue with
  | none => exact absurd htype (msgrcv_eq_none.mp hrcv m hm)
  | some r => exact ⟨_, _, (Step.serverRecv hpc hrcv).to_step⟩

theorem enabled_clientRecv {m : Msg Words} (hpc : s.client i = .recv) (hm : m ∈ s.queue)
    (htype : m.mtype = respType (C.pid i)) : ∃ a, (msgSeq C (bounded cap)).Enabled s a := by
  cases hrcv : msgrcv (respType (C.pid i)) s.queue with
  | none => exact absurd htype (msgrcv_eq_none.mp hrcv m hm)
  | some r => exact ⟨_, _, (Step.clientRecv hpc hrcv).to_step⟩

/-- Whatever is in the queue, somebody can take something out of it. -/
theorem Routed.enabled_of_mem {taken : List (Words × BitVec 32)} (h : Routed C taken s)
    (hpc : s.server = .recv) {m : Msg Words} (hm : m ∈ s.queue) :
    ∃ a, (msgSeq C (bounded cap)).Enabled s a := by
  obtain ⟨i, rfl | htype⟩ := h.queue m hm
  · exact enabled_serverRecv hpc hm rfl
  · have hout : m.mtext.word0 ∈ responses C i s.queue :=
      List.mem_map_of_mem (List.mem_filter.mpr ⟨hm, by simp [htype]⟩)
    exact enabled_clientRecv ((h.stage i).pc_of_out (List.ne_nil_of_mem hout)) hm htype

theorem deadlockFree_of_le [Fintype ι] (hcap : Fintype.card ι ≤ cap) : DeadlockFree C cap := by
  rintro s ⟨tr, hrun⟩ ⟨i, hi⟩ hstuck
  have h := routed hrun
  have hlength := h.length_le
  suffices henabled : ∃ a, (msgSeq C (bounded cap)).Enabled s a from
    henabled.elim hstuck
  cases hserver : s.server with
  | send mtype seqNum =>
      rw [hserver] at hlength
      have hroom : bounded cap s.queue.length = true := decide_eq_true (by
        simp only [ServerPc.pending, List.length_singleton] at hlength
        omega)
      obtain ⟨j, hj⟩ := h.server mtype seqNum hserver
      have hmtype : 1 ≤ mtype := hj ▸ (C.one_lt_pid j).le
      exact ⟨_, _, (Step.serverSend 0 hserver hmtype hroom).to_step⟩
  | recv =>
      cases hqueue : s.queue with
      | cons m queue =>
          have hm : m ∈ s.queue := by rw [hqueue]; exact List.mem_cons_self
          exact h.enabled_of_mem hserver hm
      | nil =>
          rcases hi with hi | hi
          · have hroom : bounded cap s.queue.length = true := decide_eq_true (by
              have hpos : 0 < Fintype.card ι := Fintype.card_pos_iff.mpr ⟨i⟩
              rw [hqueue, List.length_nil]
              omega)
            exact ⟨_, _, (Step.clientSend hi hroom).to_step⟩
          · have hstage := h.stage i
            rw [hi, hserver, hqueue] at hstage
            exact absurd (hstage.exists_of_recv rfl) (by simp)

/-! ## Too many clients -/

/-- Clients that have not sent their requests can do so as long as there is room. -/
theorem path_send {clients : List ι} (hnodup : clients.Nodup)
    (hsend : ∀ i ∈ clients, s.client i = .send) (hroom : s.queue.length + clients.length ≤ cap) :
    ∃ tr t, (msgSeq C (bounded cap)).Path s tr t ∧ t.queue = s.queue ++ clients.map C.request ∧
      t.server = s.server ∧ ∀ j ∉ clients, t.client j = s.client j := by
  induction clients using List.reverseRecOn with
  | nil => exact ⟨[], s, .nil, by simp, rfl, fun _ _ ↦ rfl⟩
  | append_singleton clients i ih =>
      obtain ⟨hi, hnodup'⟩ := List.nodup_cons.mp (List.nodup_append_comm.mp hnodup)
      rw [List.length_append, List.length_singleton] at hroom
      obtain ⟨tr, t, hpath, hqueue, hserver, hother⟩ :=
        ih hnodup' (fun j hj ↦ hsend j (List.mem_append_left _ hj)) (by omega)
      have hpc : t.client i = .send := (hother i hi).trans (hsend i (by simp))
      have hfree : bounded cap t.queue.length = true := decide_eq_true (by
        rw [hqueue, List.length_append, List.length_map]
        omega)
      refine ⟨_, _, hpath.snoc (Step.clientSend hpc hfree).to_step, ?_, hserver, fun j hj ↦ ?_⟩
      · simp [hqueue]
      · rw [List.mem_append, List.mem_singleton, not_or] at hj
        exact (Function.update_of_ne hj.2 ..).trans (hother j hj.1)

/-- With a response in the hands of the server and only requests in a full queue, the
system is stuck. -/
theorem stuck_of_full {mtype : Int} {seqNum : BitVec 32} (hserver : s.server = .send mtype seqNum)
    (hmtype : 1 ≤ mtype) (hfull : cap ≤ s.queue.length) (htype : ∀ m ∈ s.queue, m.mtype = 1) :
    (msgSeq C (bounded cap)).Stuck s := by
  rintro a ⟨t, hs⟩
  have hroom : ¬ bounded cap s.queue.length = true := by simpa [bounded] using hfull
  cases Step.of_step hs with
  | clientSend _ h => exact hroom h
  | @clientRecv i resp queue hpc hrcv =>
      obtain ⟨hresp, pre, post, hqueue, -, -⟩ := msgrcv_eq_some hrcv
      have hone := htype resp (by rw [hqueue]; simp)
      exact respType_ne_one C i (hresp.symm.trans hone)
  | serverRecv hpc => exact absurd (hserver.symm.trans hpc) (by simp)
  | serverSend _ _ _ h => exact hroom h
  | serverSendFail hpc hlt =>
      obtain ⟨rfl, -⟩ := ServerPc.send.inj (hserver.symm.trans hpc)
      omega

/-- Client `i` sends its request, and the server takes it. -/
theorem path_take (i : ι) (hcap : 0 < cap) :
    ∃ tr t, (msgSeq C (bounded cap)).Path start tr t ∧ t.queue = [] ∧
      t.server = .send (respType (C.pid i)) 0 ∧ t.client i = .recv ∧
        ∀ j ≠ i, t.client j = .send := by
  have hroom : bounded cap (start : State ι).queue.length = true := decide_eq_true hcap
  have hsend := (Step.clientSend (C := C) (i := i) rfl hroom).to_step
  have hrcv : msgrcv 1 [C.request i] = some (C.request i, []) := if_pos rfl
  refine ⟨_, _, (Lts.Path.single hsend).snoc (Step.serverRecv rfl hrcv).to_step, rfl, rfl,
    Function.update_self .., fun j hj ↦ Function.update_of_ne hj ..⟩

omit [DecidableEq ι] in
/-- `cap + 1` clients in a row. -/
theorem exists_clients [Fintype ι] (hcap : cap < Fintype.card ι) :
    ∃ (i : ι) (clients : List ι), (i :: clients).Nodup ∧ clients.length = cap := by
  have hlength : ((Finset.univ : Finset ι).toList.take (cap + 1)).length = cap + 1 := by
    rw [List.length_take, Finset.length_toList, Finset.card_univ]
    omega
  have hnodup := (Finset.nodup_toList (Finset.univ : Finset ι)).take (i := cap + 1)
  cases hclients : (Finset.univ : Finset ι).toList.take (cap + 1) with
  | nil => rw [hclients] at hlength; cases hlength
  | cons i clients =>
      rw [hclients] at hlength hnodup
      exact ⟨i, clients, hnodup, Nat.succ.inj hlength⟩

theorem not_deadlockFree_of_lt [Fintype ι] (hcap : cap < Fintype.card ι) :
    ¬ DeadlockFree C cap := by
  intro hfree
  -- the client whose response the server holds, and those whose requests fill the queue
  obtain ⟨i, clients, hnodup, hlength⟩ := exists_clients hcap
  obtain ⟨hi, hnodup⟩ := List.nodup_cons.mp hnodup
  rcases Nat.eq_zero_or_pos cap with rfl | hpos
  · refine hfree start ⟨[], .init init_start⟩ ⟨i, .inl rfl⟩ ?_
    rintro a ⟨t, hs⟩
    cases Step.of_step hs with
    | clientSend _ hroom => cases hroom
    | clientRecv hpc => cases hpc
    | serverRecv _ hrcv => cases hrcv
    | serverSend _ hpc => cases hpc
    | serverSendFail hpc => cases hpc
  · obtain ⟨tr, s, hpath, hqueue, hserver, hrecv, hsend⟩ := path_take (C := C) i hpos
    have hroom : s.queue.length + clients.length ≤ cap := by
      rw [hqueue, hlength, List.length_nil, Nat.zero_add]
    obtain ⟨tr', t, hpath', hqueue', hserver', hother⟩ :=
      path_send (C := C) hnodup (fun j hj ↦ hsend j fun heq ↦ hi (heq ▸ hj)) hroom
    rw [hqueue, List.nil_append] at hqueue'
    refine hfree t ⟨_, (Lts.Run.init init_start).append (hpath.trans hpath')⟩
      ⟨i, .inr ((hother i hi).trans hrecv)⟩ ?_
    refine stuck_of_full (hserver'.trans hserver) (C.one_lt_pid i).le ?_ ?_
    · rw [hqueue', List.length_map, hlength]
    · intro m hm
      rw [hqueue'] at hm
      obtain ⟨j, -, rfl⟩ := List.mem_map.mp hm
      rfl

/-- **The system is free of deadlock if and only if there are no more clients than
messages fit in the queue.** -/
theorem deadlockFree_iff [Fintype ι] (C : Clients ι) (cap : Nat) :
    DeadlockFree C cap ↔ Fintype.card ι ≤ cap := by
  constructor
  · intro hfree
    by_contra hcap
    exact not_deadlockFree_of_lt (by omega) hfree
  · exact deadlockFree_of_le

/-- Two clients, and a queue that holds one message. -/
theorem not_deadlockFree_twoClients : ¬ DeadlockFree (twoClients 1 1) 1 :=
  not_deadlockFree_of_lt (by decide)

end SysProg.MsgSeq
