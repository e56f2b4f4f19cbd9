import Mathlib.Logic.Function.Basic
import SysProg.Lib.Lts
import SysProg.Lib.MsgQueue

/-!
# The sequence-number server over one message queue

The loop of `SP_HW8/46_2/server.c` and any number of clients running
`SP_HW8/46_2/client.c`, as a transition system.  Requests and responses travel in the
same System V queue: requests have type `1`, a response has the process id of its
client as its type.

Both structures of `seqnum.h` are eight bytes after `mtype`: in a request `pid` and
`seqLen`, in a response `seqNum` and padding, whose contents (`pad`) are whatever was
there.  Whoever receives a message reads these bytes as the structure it expects, so
the model keeps them as two words.  `room` says whether one more message fits in a
queue of the given length.

Each step is one `msgsnd` or `msgrcv` with the assignments after it.
-/

universe u

namespace SysProg.MsgSeq

open SysProg.Lib

variable {ι : Type u}

/-- The clients: their process ids, and the lengths they ask for. -/
structure Clients (ι : Type u) where
  pid : ι → BitVec 32
  seqLen : ι → BitVec 32
  pid_injective : Function.Injective pid
  one_lt_pid : ∀ i, 1 < (pid i).toInt

/-- The bytes of a message after `mtype`. -/
structure Words where
  word0 : BitVec 32
  word1 : BitVec 32
deriving DecidableEq

/-- What client `i` sends. -/
def Clients.request (C : Clients ι) (i : ι) : Msg Words := ⟨1, ⟨C.pid i, C.seqLen i⟩⟩

/-- The type of the responses to the client with process id `pid`. -/
def respType (pid : BitVec 32) : Int := pid.toInt

inductive ServerPc where
  | recv
  | /-- With `resp.mtype` and `resp.seqNum`. -/ send (mtype : Int) (seqNum : BitVec 32)
deriving DecidableEq

inductive ClientPc where
  | send | recv
  | /-- With what it prints. -/ done (seqNum : BitVec 32)
deriving DecidableEq

/-- What the server does: `recv` with the request and the sequence number assigned,
`send` with the response. -/
inductive ServerOp where
  | recv (req : Words) (seqNum : BitVec 32)
  | send (mtype : Int) (seqNum pad : BitVec 32)
  | sendFail
deriving DecidableEq

inductive ClientOp where
  | send | recv (seqNum : BitVec 32)
deriving DecidableEq

inductive Label (ι : Type u) where
  | server (op : ServerOp)
  | client (i : ι) (op : ClientOp)
deriving DecidableEq

structure State (ι : Type u) where
  queue : List (Msg Words)
  server : ServerPc
  seqNum : BitVec 32
  client : ι → ClientPc

section

variable [DecidableEq ι] (C : Clients ι) (room : Nat → Bool)

/-- Client `i`: `msgsnd` of its request, then `msgrcv` of type `req.pid`. -/
def clientNext (s : State ι) (i : ι) : ClientOp → Option (State ι)
  | .send =>
      if s.client i = .send ∧ room s.queue.length then
        some { s with
          queue := s.queue ++ [C.request i], client := Function.update s.client i .recv }
      else none
  | .recv seqNum =>
      if s.client i = .recv then
        match msgrcv (respType (C.pid i)) s.queue with
        | some (resp, queue) =>
            if resp.mtext.word0 = seqNum then
              some { s with queue, client := Function.update s.client i (.done seqNum) }
            else none
        | none => none
      else none

/-- The server loop. -/
def serverNext (s : State ι) : ServerOp → Option (State ι)
  | .recv req seqNum =>
      if s.server = .recv then
        match msgrcv 1 s.queue with
        | some (m, queue) =>
            if m.mtext = req ∧ s.seqNum = seqNum then
              some { s with
                queue
                server := .send (respType req.word0) seqNum
                seqNum := seqNum + req.word1 }
            else none
        | none => none
      else none
  | .send mtype seqNum pad =>
      if s.server = .send mtype seqNum ∧ 1 ≤ mtype ∧ room s.queue.length then
        some { s with queue := s.queue ++ [⟨mtype, ⟨seqNum, pad⟩⟩], server := .recv }
      else none
  | .sendFail => match s.server with
      -- `EINVAL`: the server reports it and goes on
      | .send mtype _ => if mtype < 1 then some { s with server := .recv } else none
      | .recv => none

/-- One step of some process. -/
def next (s : State ι) : Label ι → Option (State ι)
  | .server op => serverNext room s op
  | .client i op => clientNext C room s i op

end

/-- An empty queue, and nobody has done anything. -/
structure Init (s : State ι) : Prop where
  queue : s.queue = []
  server : s.server = .recv
  seqNum : s.seqNum = 0
  client : ∀ i, s.client i = .send

/-- The sequence-number system over one queue. -/
def msgSeq [DecidableEq ι] (C : Clients ι) (room : Nat → Bool) : Lts (State ι) (Label ι) :=
  Lts.ofNext Init (next C room)

/-! ## What a step does -/

/-- The rule of each label. -/
inductive Step [DecidableEq ι] (C : Clients ι) (room : Nat → Bool) (s : State ι) :
    Label ι → State ι → Prop
  | clientSend {i : ι} (hpc : s.client i = .send) (hroom : room s.queue.length = true) :
      Step C room s (.client i .send)
        { s with queue := s.queue ++ [C.request i], client := Function.update s.client i .recv }
  | clientRecv {i : ι} {resp : Msg Words} {queue : List (Msg Words)} (hpc : s.client i = .recv)
      (hrcv : msgrcv (respType (C.pid i)) s.queue = some (resp, queue)) :
      Step C room s (.client i (.recv resp.mtext.word0))
        { s with queue, client := Function.update s.client i (.done resp.mtext.word0) }
  | serverRecv {m : Msg Words} {queue : List (Msg Words)} (hpc : s.server = .recv)
      (hrcv : msgrcv 1 s.queue = some (m, queue)) :
      Step C room s (.server (.recv m.mtext s.seqNum))
        { s with
          queue
          server := .send (respType m.mtext.word0) s.seqNum
          seqNum := s.seqNum + m.mtext.word1 }
  | serverSend {mtype : Int} {seqNum : BitVec 32} (pad : BitVec 32)
      (hpc : s.server = .send mtype seqNum) (hmtype : 1 ≤ mtype)
      (hroom : room s.queue.length = true) :
      Step C room s (.server (.send mtype seqNum pad))
        { s with queue := s.queue ++ [⟨mtype, ⟨seqNum, pad⟩⟩], server := .recv }
  | serverSendFail {mtype : Int} {seqNum : BitVec 32} (hpc : s.server = .send mtype seqNum)
      (hmtype : mtype < 1) : Step C room s (.server .sendFail) { s with server := .recv }

variable [DecidableEq ι] {C : Clients ι} {room : Nat → Bool} {s t : State ι} {a : Label ι}

theorem Step.of_clientNext {i : ι} {op : ClientOp} (h : clientNext C room s i op = some t) :
    Step C room s (.client i op) t := by
  cases op with
  | send =>
      obtain ⟨⟨hpc, hroom⟩, h⟩ := Option.ite_none_right_eq_some.mp h
      cases h
      exact .clientSend hpc hroom
  | recv seqNum =>
      obtain ⟨hpc, h⟩ := Option.ite_none_right_eq_some.mp h
      split at h
      · next resp queue hrcv =>
          obtain ⟨rfl, hsome⟩ := Option.ite_none_right_eq_some.mp h
          cases hsome
          exact .clientRecv hpc hrcv
      · cases h

theorem Step.of_serverNext {op : ServerOp} (h : serverNext room s op = some t) :
    Step C room s (.server op) t := by
  cases op with
  | recv req seqNum =>
      obtain ⟨hpc, h⟩ := Option.ite_none_right_eq_some.mp h
      split at h
      · next m queue hrcv =>
          obtain ⟨⟨rfl, rfl⟩, hsome⟩ := Option.ite_none_right_eq_some.mp h
          cases hsome
          exact .serverRecv hpc hrcv
      · cases h
  | send mtype seqNum pad =>
      obtain ⟨⟨hpc, hmtype, hroom⟩, h⟩ := Option.ite_none_right_eq_some.mp h
      cases h
      exact .serverSend pad hpc hmtype hroom
  | sendFail =>
      simp only [serverNext] at h
      split at h
      · next mtype seqNum hpc =>
          obtain ⟨hmtype, h⟩ := Option.ite_none_right_eq_some.mp h
          cases h
          exact .serverSendFail hpc hmtype
      · cases h

/-- Every step of the system follows one of the rules. -/
theorem Step.of_step (h : (msgSeq C room).step s a t) : Step C room s a t := by
  cases a with
  | server op => exact .of_serverNext h
  | client i op => exact .of_clientNext h

/-- Every rule is a step of the system. -/
theorem Step.to_step (h : Step C room s a t) : (msgSeq C room).step s a t := by
  show next C room s a = some t
  cases h with
  | clientSend hpc hroom => exact if_pos ⟨hpc, hroom⟩
  | clientRecv hpc hrcv =>
      refine (if_pos hpc).trans ?_
      simp only [hrcv, if_true]
  | serverRecv hpc hrcv =>
      refine (if_pos hpc).trans ?_
      simp only [hrcv, and_self, if_true]
  | serverSend pad hpc hmtype hroom => exact if_pos ⟨hpc, hmtype, hroom⟩
  | serverSendFail hpc hmtype => simp [next, serverNext, hpc, hmtype]

end SysProg.MsgSeq
