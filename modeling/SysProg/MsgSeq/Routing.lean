import Mathlib.Data.BitVec
import Mathlib.Data.Fin.VecNotation
import Mathlib.Data.List.Nodup
import SysProg.Lib.Dispenser
import SysProg.MsgSeq.Protocol

/-!
# Routing on the shared queue

Requests and responses are told apart by type alone: process ids are greater than
`1`, so no response looks like a request, and they are distinct, so no client's
response looks like another's.

`Stage` follows the request of one client: unsent, in the queue, with the server,
answered in the queue, or received; in each case it is nowhere else.  It is an
invariant for every client, next to the fact that all messages of type `1` are
clients' requests (`Routed`).

The sequence numbers are those of a dispenser (`simulation_dispenser`): a run of the
system, seen through the requests the server takes, is a run of the counter that
gives each request the sum of the lengths before it.  `routing` puts the two together.
-/

universe u

namespace SysProg.MsgSeq

open SysProg.Lib

variable {ι : Type u} [DecidableEq ι] {C : Clients ι} {room : Nat → Bool} {s t : State ι}
  {a : Label ι} {i j : ι}

/-! ## What the server takes and sends -/

def Label.take? : Label ι → Option (Words × BitVec 32)
  | .server (.recv req seqNum) => some (req, seqNum)
  | _ => none

def Label.reply? : Label ι → Option (Int × BitVec 32)
  | .server (.send mtype seqNum _) => some (mtype, seqNum)
  | _ => none

/-- The requests the server has taken, oldest first, with the numbers it assigned. -/
def takes (tr : List (Label ι)) : List (Words × BitVec 32) := tr.filterMap Label.take?

/-- The responses the server has sent, oldest first. -/
def replies (tr : List (Label ι)) : List (Int × BitVec 32) := tr.filterMap Label.reply?

omit [DecidableEq ι] in
theorem takes_concat (tr : List (Label ι)) (a : Label ι) :
    takes (tr ++ [a]) = takes tr ++ a.take?.toList :=
  Lts.filterMap_concat ..

omit [DecidableEq ι] in
theorem replies_concat (tr : List (Label ι)) (a : Label ι) :
    replies (tr ++ [a]) = replies tr ++ a.reply?.toList :=
  Lts.filterMap_concat ..

/-- The response the server is about to send. -/
def ServerPc.pending : ServerPc → List (Int × BitVec 32)
  | .recv => []
  | .send mtype seqNum => [(mtype, seqNum)]

/-! ## The sequence numbers -/

def grantOf (take : Words × BitVec 32) : Grant (BitVec 32) := ⟨take.2, take.1.word1⟩

/-- The server's sequence number is a dispenser. -/
theorem simulation_dispenser : Lts.Simulation (msgSeq C room) (dispenser (BitVec 32))
    (fun a ↦ a.take?.map grantOf) fun _ s next ↦ s.seqNum = next where
  init s hs := ⟨0, rfl, hs.seqNum⟩
  skip tr s a t next _ hs hlabel hR := by
    cases Step.of_step hs with
    | serverRecv => cases hlabel
    | _ => exact hR
  sync tr s a t next b _ hs hlabel hR := by
    cases Step.of_step hs with
    | serverRecv hpc hrcv =>
        cases hlabel
        exact ⟨_, ⟨hR, rfl⟩, congrArg (· + _) hR⟩
    | _ => cases hlabel

/-- Every request taken gets the sum of the lengths taken before it. -/
theorem takes_start {tr : List (Label ι)} (h : (msgSeq C room).Run tr s) :
    EachCall (fun pre take ↦ take.2 = (pre.map fun take ↦ take.1.word1).sum) (takes tr) := by
  obtain ⟨next, hrun, -⟩ := simulation_dispenser.run h
  have hstart := dispenser_start hrun
  rw [← List.map_filterMap, eachCall_map] at hstart
  simp only [List.map_map] at hstart
  exact hstart

/-! ## The stages of a request -/

/-- The requests of client `i` in the queue. -/
def requests (C : Clients ι) (i : ι) (queue : List (Msg Words)) : Nat :=
  queue.countP fun m ↦ m.mtype = 1 ∧ m.mtext.word0 = C.pid i

/-- The sequence numbers in the responses to client `i` in the queue. -/
def responses (C : Clients ι) (i : ι) (queue : List (Msg Words)) : List (BitVec 32) :=
  (queue.filter fun m ↦ m.mtype = respType (C.pid i)).map fun m ↦ m.mtext.word0

/-- The sequence number the server is about to send to client `i`. -/
def inHand (C : Clients ι) (i : ι) (server : ServerPc) : List (BitVec 32) :=
  (server.pending.filter fun reply ↦ reply.1 = respType (C.pid i)).map Prod.snd

/-- The sequence numbers assigned to client `i`. -/
def assigned (C : Clients ι) (i : ι) (taken : List (Words × BitVec 32)) : List (BitVec 32) :=
  (taken.filter fun take ↦ take.1.word0 = C.pid i).map Prod.snd

/-- `Stage pc n hand out given`: a client at `pc` with `n` requests in the queue, the
numbers `hand` with the server, `out` in responses in the queue, and `given` assigned. -/
inductive Stage : ClientPc → Nat → List (BitVec 32) → List (BitVec 32) → List (BitVec 32) → Prop
  | unsent : Stage .send 0 [] [] []
  | asked : Stage .recv 1 [] [] []
  | taken {n} : Stage .recv 0 [n] [] [n]
  | replied {n} : Stage .recv 0 [] [n] [n]
  | done {n} : Stage (.done n) 0 [] [] [n]

/-- Every client's request is at one stage, and there is nothing of anybody else. -/
structure Routed (C : Clients ι) (taken : List (Words × BitVec 32)) (s : State ι) : Prop where
  stage : ∀ i, Stage (s.client i) (requests C i s.queue) (inHand C i s.server)
    (responses C i s.queue) (assigned C i taken)
  queue : ∀ m ∈ s.queue, ∃ i, m = C.request i ∨ m.mtype = respType (C.pid i)
  taken : ∀ take ∈ taken, ∃ i, take.1 = (C.request i).mtext
  server : ∀ mtype seqNum, s.server = .send mtype seqNum → ∃ i, mtype = respType (C.pid i)

omit [DecidableEq ι] in
theorem respType_ne_one (C : Clients ι) (i : ι) : respType (C.pid i) ≠ 1 :=
  (C.one_lt_pid i).ne'

omit [DecidableEq ι] in
theorem respType_inj : respType (C.pid i) = respType (C.pid j) ↔ i = j := by
  rw [respType, respType, BitVec.toInt_inj, C.pid_injective.eq_iff]

omit [DecidableEq ι] in
@[simp] theorem request_word0 : (C.request i).mtext.word0 = C.pid i := rfl

section Queue

variable {queue : List (Msg Words)} {m : Msg Words}

omit [DecidableEq ι] in
@[simp] theorem requests_append (queue queue' : List (Msg Words)) :
    requests C i (queue ++ queue') = requests C i queue + requests C i queue' :=
  List.countP_append

omit [DecidableEq ι] in
@[simp] theorem responses_append (queue queue' : List (Msg Words)) :
    responses C i (queue ++ queue') = responses C i queue ++ responses C i queue' := by
  simp [responses]

omit [DecidableEq ι] in
@[simp] theorem requests_nil : requests C i [] = 0 := rfl

omit [DecidableEq ι] in
@[simp] theorem responses_nil : responses C i [] = [] := rfl

omit [DecidableEq ι] in
theorem requests_cons : requests C i (m :: queue) =
    requests C i queue + if m.mtype = 1 ∧ m.mtext.word0 = C.pid i then 1 else 0 := by
  simp [requests, List.countP_cons]

omit [DecidableEq ι] in
theorem responses_cons : responses C i (m :: queue) =
    (if m.mtype = respType (C.pid i) then [m.mtext.word0] else []) ++ responses C i queue := by
  by_cases h : m.mtype = respType (C.pid i) <;> simp [responses, h]

@[simp] theorem requests_cons_request : requests C i (C.request j :: queue) =
    requests C i queue + if j = i then 1 else 0 := by
  simp [requests_cons, Clients.request, C.pid_injective.eq_iff]

omit [DecidableEq ι] in
@[simp] theorem responses_cons_request :
    responses C i (C.request j :: queue) = responses C i queue := by
  simp [responses_cons, Clients.request, (respType_ne_one C i).symm]

omit [DecidableEq ι] in
@[simp] theorem requests_cons_response {text : Words} :
    requests C i (⟨respType (C.pid j), text⟩ :: queue) = requests C i queue := by
  simp [requests_cons, respType_ne_one]

@[simp] theorem responses_cons_response {text : Words} :
    responses C i (⟨respType (C.pid j), text⟩ :: queue) =
      (if j = i then [text.word0] else []) ++ responses C i queue := by
  simp [responses_cons, respType_inj]

omit [DecidableEq ι] in
theorem responses_eq_nil (h : ∀ m ∈ queue, m.mtype ≠ respType (C.pid i)) :
    responses C i queue = [] := by
  simpa [responses] using h

omit [DecidableEq ι] in
@[simp] theorem inHand_recv : inHand C i .recv = [] := rfl

@[simp] theorem inHand_send {seqNum : BitVec 32} :
    inHand C i (.send (respType (C.pid j)) seqNum) = if j = i then [seqNum] else [] := by
  by_cases h : j = i <;> simp [inHand, ServerPc.pending, respType_inj, h]

omit [DecidableEq ι] in
@[simp] theorem assigned_append {taken taken' : List (Words × BitVec 32)} :
    assigned C i (taken ++ taken') = assigned C i taken ++ assigned C i taken' := by
  simp [assigned]

@[simp] theorem assigned_request {seqNum : BitVec 32} :
    assigned C i [((C.request j).mtext, seqNum)] = if j = i then [seqNum] else [] := by
  by_cases h : j = i <;> simp [assigned, Clients.request, C.pid_injective.eq_iff, h]

end Queue

section Stage

variable {pc : ClientPc} {n : Nat} {hand out given : List (BitVec 32)} {x : BitVec 32}

theorem Stage.send (h : Stage .send n hand out given) : Stage .recv (n + 1) hand out given := by
  cases h
  exact .asked

theorem Stage.take (h : Stage pc (n + 1) hand out given) : Stage pc n [x] out (given ++ [x]) := by
  cases h
  exact .taken

theorem Stage.reply (h : Stage pc n [x] out given) : Stage pc n [] (out ++ [x]) given := by
  cases h
  exact .replied

theorem Stage.recv (h : Stage .recv n hand (x :: out) given) :
    Stage (.done x) n hand out given := by
  cases h
  exact .done

/-- A client is assigned at most one number, and none before it has sent its request. -/
theorem Stage.given_length_le (h : Stage pc n hand out given) : given.length ≤ 1 := by
  cases h <;> simp

theorem Stage.ne_send (h : Stage pc n hand out given) (hgiven : given ≠ []) : pc ≠ .send := by
  rintro rfl
  cases h
  exact hgiven rfl

/-- A client prints what it was assigned. -/
theorem Stage.given_eq (h : Stage (.done x) n hand out given) : given = [x] := by
  cases h
  rfl

end Stage

omit [DecidableEq ι] in
/-- So a message of type `1` is a client's request. -/
theorem Routed.exists_request {taken : List (Words × BitVec 32)} (h : Routed C taken s)
    {m : Msg Words} (hm : m ∈ s.queue) (htype : m.mtype = 1) : ∃ i, m = C.request i := by
  obtain ⟨i, hi | hi⟩ := h.queue m hm
  · exact ⟨i, hi⟩
  · exact absurd (hi.symm.trans htype) (respType_ne_one C i)

theorem Routed.step {taken : List (Words × BitVec 32)} (h : Routed C taken s)
    (hs : Step C room s a t) : Routed C (taken ++ a.take?.toList) t := by
  cases hs with
  | @clientSend i hpc hroom =>
      refine ⟨fun j ↦ ?_, fun m hm ↦ ?_, by simpa [Label.take?] using h.taken, h.server⟩
      · have hj := h.stage j
        by_cases hij : i = j
        · subst hij
          rw [hpc] at hj
          simpa [Label.take?] using hj.send
        · simpa [Label.take?, hij, Ne.symm hij] using hj
      · rcases List.mem_append.mp hm with hm | hm
        · exact h.queue m hm
        · exact ⟨i, .inl (List.mem_singleton.mp hm)⟩
  | @clientRecv i resp queue hpc hrcv =>
      obtain ⟨htype, pre, post, hqueue, rfl, hpre⟩ := msgrcv_eq_some hrcv
      obtain ⟨mtype, text⟩ := resp
      subst htype
      refine ⟨fun j ↦ ?_, fun m hm ↦ h.queue m (mem_of_msgrcv hrcv hm),
        by simpa [Label.take?] using h.taken, h.server⟩
      · have hj := h.stage j
        rw [hqueue] at hj
        by_cases hij : i = j
        · subst hij
          have hfirst : Stage .recv (requests C i pre + requests C i post) (inHand C i s.server)
              (text.word0 :: responses C i post) (assigned C i taken) := by
            simpa [hpc, responses_eq_nil hpre] using hj
          simpa [Label.take?, responses_eq_nil hpre] using hfirst.recv
        · simpa [Label.take?, hij, Ne.symm hij] using hj
  | @serverRecv m queue hpc hrcv =>
      obtain ⟨htype, pre, post, hqueue, rfl, hpre⟩ := msgrcv_eq_some hrcv
      obtain ⟨i, rfl⟩ := h.exists_request (by rw [hqueue]; simp) htype
      refine ⟨fun j ↦ ?_, fun m hm ↦ h.queue m (mem_of_msgrcv hrcv hm), fun take htake ↦ ?_, ?_⟩
      · have hj := h.stage j
        rw [hqueue, hpc] at hj
        by_cases hij : i = j
        · subst hij
          have hone : Stage (s.client i) (requests C i pre + requests C i post + 1) []
              (responses C i pre ++ responses C i post) (assigned C i taken) := by
            simpa [add_assoc] using hj
          simpa [Label.take?] using hone.take (x := s.seqNum)
        · simpa [Label.take?, hij] using hj
      · rcases List.mem_append.mp htake with htake | htake
        · exact h.taken take htake
        · obtain rfl := List.mem_singleton.mp htake
          exact ⟨i, rfl⟩
      · rintro mtype seqNum hsend
        cases hsend
        exact ⟨i, rfl⟩
  | @serverSend mtype seqNum pad hpc hmtype hroom =>
      obtain ⟨i, rfl⟩ := h.server mtype seqNum hpc
      refine ⟨fun j ↦ ?_, fun m hm ↦ ?_, by simpa [Label.take?] using h.taken, by simp⟩
      · have hj := h.stage j
        rw [hpc] at hj
        by_cases hij : i = j
        · subst hij
          have hheld : Stage (s.client i) (requests C i s.queue) [seqNum]
              (responses C i s.queue) (assigned C i taken) := by simpa using hj
          simpa [Label.take?] using hheld.reply
        · simpa [Label.take?, hij] using hj
      · rcases List.mem_append.mp hm with hm | hm
        · exact h.queue m hm
        · obtain rfl := List.mem_singleton.mp hm
          exact ⟨i, .inr rfl⟩
  | @serverSendFail mtype seqNum hpc hmtype =>
      obtain ⟨i, rfl⟩ := h.server mtype seqNum hpc
      exact absurd hmtype (not_lt.mpr (C.one_lt_pid i).le)

theorem routed {tr : List (Label ι)} (h : (msgSeq C room).Run tr s) :
    Routed C (takes tr) s := by
  refine h.induction (P := fun tr s ↦ Routed C (takes tr) s) (fun s hs ↦ ?_) ?_
  · refine ⟨fun i ↦ ?_, ?_, by simp [takes], ?_⟩
    · rw [hs.client, hs.queue, hs.server]
      exact .unsent
    · simp [hs.queue]
    · simp [hs.server]
  · intro tr s a t _ hrouted hs
    rw [takes_concat]
    exact hrouted.step (.of_step hs)

/-! ## What the clients get -/

/-- What client `i` has received. -/
def Label.receipt? (i : ι) : Label ι → Option (BitVec 32)
  | .client j (.recv seqNum) => if j = i then some seqNum else none
  | _ => none

def receipts (i : ι) (tr : List (Label ι)) : List (BitVec 32) := tr.filterMap (Label.receipt? i)

/-- The response of a client that has one. -/
def ClientPc.result : ClientPc → List (BitVec 32)
  | .done seqNum => [seqNum]
  | _ => []

theorem receipts_concat (i : ι) (tr : List (Label ι)) (a : Label ι) :
    receipts i (tr ++ [a]) = receipts i tr ++ (a.receipt? i).toList :=
  Lts.filterMap_concat ..

theorem receipts_eq {tr : List (Label ι)} (h : (msgSeq C room).Run tr s) (i : ι) :
    receipts i tr = (s.client i).result := by
  refine h.induction (P := fun tr s ↦ receipts i tr = (s.client i).result) (fun s hs ↦ ?_) ?_
  · rw [hs.client]
    rfl
  · intro tr s a t _ ih hs
    rw [receipts_concat, ih]
    cases Step.of_step hs with
    | @clientSend j hpc hroom =>
        by_cases hj : j = i
        · subst hj
          simp [hpc, ClientPc.result, Label.receipt?]
        · simp [Ne.symm hj, Label.receipt?]
    | @clientRecv j resp queue hpc hrcv =>
        by_cases hj : j = i
        · subst hj
          simp [hpc, ClientPc.result, Label.receipt?]
        · simp [hj, Ne.symm hj, Label.receipt?]
    | _ => simp [Label.receipt?]

/-- Every request taken is answered by one response, at once and to its client. -/
theorem replies_eq {tr : List (Label ι)} (h : (msgSeq C room).Run tr s) :
    replies tr ++ s.server.pending =
      (takes tr).map fun take ↦ (respType take.1.word0, take.2) := by
  refine h.induction (P := fun tr s ↦ replies tr ++ s.server.pending =
    (takes tr).map fun take ↦ (respType take.1.word0, take.2)) (fun s hs ↦ ?_) ?_
  · rw [hs.server]
    rfl
  · intro tr s a t hr ih hs
    rw [replies_concat, takes_concat, List.map_append, ← ih]
    cases Step.of_step hs with
    | clientSend | clientRecv => simp [Label.reply?, Label.take?]
    | serverRecv hpc hrcv => simp [Label.reply?, Label.take?, ServerPc.pending, hpc]
    | serverSend pad hpc => simp [Label.reply?, Label.take?, ServerPc.pending, hpc]
    | serverSendFail hpc hmtype =>
        obtain ⟨i, rfl⟩ := (routed hr).server _ _ hpc
        exact absurd hmtype (not_lt.mpr (C.one_lt_pid i).le)

theorem send_mem {tr : List (Label ι)} (h : (msgSeq C room).Run tr s) (hi : s.client i ≠ .send) :
    .client i .send ∈ tr := by
  revert hi
  refine h.induction (P := fun tr s ↦ s.client i ≠ .send → .client i .send ∈ tr) ?_ ?_
  · exact fun s hs hi ↦ absurd (hs.client i) hi
  intro tr s a t _ ih hs hi
  rw [List.mem_append, List.mem_singleton]
  by_cases hsent : s.client i = .send
  · refine .inr ?_
    cases Step.of_step hs with
    | @clientSend j hpc hroom =>
        by_cases hj : j = i
        · rw [hj]
        · exact absurd hsent (by simpa [Ne.symm hj] using hi)
    | @clientRecv j resp queue hpc hrcv =>
        by_cases hj : j = i
        · exact absurd (hsent.symm.trans (hj ▸ hpc)) (by simp)
        · exact absurd hsent (by simpa [Ne.symm hj] using hi)
    | _ => exact absurd hsent hi
  · exact .inl (ih hsent)

/-- The requests and responses of a run. -/
structure Routing (C : Clients ι) (tr : List (Label ι)) (s : State ι) : Prop where
  /-- What the server takes for a request is what a client has sent as one. -/
  requests : ∀ take ∈ takes tr, ∃ i, take.1 = (C.request i).mtext ∧ .client i .send ∈ tr
  /-- No request is taken twice. -/
  once : ((takes tr).map fun take ↦ take.1.word0).Nodup
  /-- Every request that was taken is answered by exactly one response, which has the
  type of its client; the last may be about to be sent. -/
  answers : replies tr ++ s.server.pending =
    (takes tr).map fun take ↦ (respType take.1.word0, take.2)
  /-- A client receives at most once, and then the response to its own request, with the
  sum of the lengths that were taken before. -/
  own : ∀ i, receipts i tr = [] ∨ ∃ seqNum pre post, receipts i tr = [seqNum] ∧
    takes tr = pre ++ ((C.request i).mtext, seqNum) :: post ∧
      seqNum = (pre.map fun take ↦ take.1.word1).sum
  /-- The request of a client, or the response to it, is in exactly one place. -/
  stage : ∀ i, Stage (s.client i) (MsgSeq.requests C i s.queue) (inHand C i s.server)
    (responses C i s.queue) (assigned C i (takes tr))

/-- **Requests and responses are routed right**, after every run. -/
theorem routing {tr : List (Label ι)} (h : (msgSeq C room).Run tr s) : Routing C tr s := by
  have hrouted := routed h
  have hclient : ∀ take ∈ takes tr, ∀ i, take.1.word0 = C.pid i →
      take.1 = (C.request i).mtext := by
    intro take htake i hi
    obtain ⟨j, hj⟩ := hrouted.taken take htake
    rw [hj, request_word0, C.pid_injective.eq_iff] at hi
    rw [hj, hi]
  refine ⟨fun take htake ↦ ?_, ?_, replies_eq h, fun i ↦ ?_, hrouted.stage⟩
  · obtain ⟨i, hi⟩ := hrouted.taken take htake
    have hmem : take.2 ∈ assigned C i (takes tr) :=
      List.mem_map_of_mem (List.mem_filter.mpr ⟨htake, by simp [hi]⟩)
    exact ⟨i, hi, send_mem h ((hrouted.stage i).ne_send (List.ne_nil_of_mem hmem))⟩
  · rw [List.nodup_iff_count_le_one]
    intro pid
    by_cases hpid : pid ∈ (takes tr).map fun take ↦ take.1.word0
    · obtain ⟨take, htake, rfl⟩ := List.mem_map.mp hpid
      obtain ⟨i, hi⟩ := hrouted.taken take htake
      have hle := (hrouted.stage i).given_length_le
      rw [assigned, List.length_map, ← List.countP_eq_length_filter] at hle
      rw [hi, request_word0, List.count_eq_countP, List.countP_map]
      exact hle
    · rw [List.count_eq_zero_of_not_mem hpid]
      exact Nat.zero_le 1
  · have hreceipts := receipts_eq h i
    cases hpc : s.client i with
    | send => exact .inl (by rw [hreceipts, hpc]; rfl)
    | recv => exact .inl (by rw [hreceipts, hpc]; rfl)
    | done seqNum =>
        have hgiven := (hpc ▸ hrouted.stage i).given_eq
        have hmem : seqNum ∈ assigned C i (takes tr) := by simp [hgiven]
        obtain ⟨⟨req, seqNum⟩, htake, rfl⟩ := List.mem_map.mp hmem
        obtain ⟨htake, hi⟩ := List.mem_filter.mp htake
        obtain rfl : req = _ := hclient _ htake i (by simpa using hi)
        obtain ⟨pre, post, htakes⟩ := List.append_of_mem htake
        refine .inr ⟨seqNum, pre, post, by rw [hreceipts, hpc]; rfl, htakes, ?_⟩
        exact takes_start h pre ((C.request i).mtext, seqNum) ⟨post, by simp [htakes]⟩

/-- Two clients with process ids 100 and 101 that ask for `a` and `b`. -/
def twoClients (a b : BitVec 32) : Clients (Fin 2) where
  pid := ![100, 101]
  seqLen := ![a, b]
  pid_injective := by decide
  one_lt_pid := by decide

def start : State ι where
  queue := []
  server := .recv
  seqNum := 0
  client _ := .send

omit [DecidableEq ι] in
theorem init_start : Init (start : State ι) := ⟨rfl, rfl, rfl, fun _ ↦ rfl⟩

/-- Client 1 is served while the request of client 0 is in the queue behind it. -/
def crossing : List (Label (Fin 2)) :=
  [.client 1 .send, .client 0 .send, .server (.recv ⟨101, 7⟩ 0), .server (.send 101 0 0),
    .server (.recv ⟨100, 5⟩ 7), .client 1 (.recv 0), .server (.send 100 7 0), .client 0 (.recv 7)]

theorem routing_crossing : ∃ s : State (Fin 2),
    (msgSeq (twoClients 5 7) fun n ↦ n < 2).Run crossing s ∧ s.client 0 = .done 7 ∧
      Routing (twoClients 5 7) crossing s := by
  have hexec : (Lts.exec (next (twoClients 5 7) fun n ↦ n < 2) start crossing).map
      (fun s ↦ s.client 0) = some (.done 7) := by decide
  obtain ⟨s, hrun, hs⟩ := Lts.exists_run_of_exec init_start _ _ _ hexec
  exact ⟨s, hrun, hs, routing hrun⟩

end SysProg.MsgSeq
