import Mathlib.Algebra.GroupWithZero.Nat
import SysProg.Lib.Lts
import SysProg.Lib.Memory

/-!
# A file over a message queue

The server of `52_3` opens the file that a client has asked for, sends it through the
client's queue in messages of `MSG_SIZE` bytes, and ends with a message that begins with
a NUL.  The client counts the bytes of each message as those of a string, up to the
message that begins with a NUL.

* `transfer` is one request: the server from the `open` of the file to the end of the
  request, the client's loop, and the queue between them.  All calls succeed, and `mq_send`
  waits while the queue is full.
* `server_res` is not initialised, and keeps its content from one request to the next.
* `messages` is what the server sends, and `receiveAll` the client's loop on a list of
  messages; `outcome_eq` says that each run is on its way to what they make of the file.
* `length_add_work` and `left_of_stuck`: a run ends, and not before the client has left
  its loop.

Both programs are taken as they are above the mark in the middle of the two files.
-/

namespace SysProg.MqFile

open SysProg.Lib

/-- The size of `data` in a message -/
def MSG_SIZE : Nat := 2048

/-- `attr.mq_maxmsg` for the client's queue -/
def mq_maxmsg : Nat := 4

/-- A request whose file can be read. -/
structure Request where
  /-- What `read` returns, call by call. -/
  chunks : List (List UInt8)
  /-- `server_res.data` when the request arrives. -/
  data : List UInt8
  /-- What is in memory behind `client_res` when the message number `k` is measured. -/
  behind : Nat → List UInt8
  ne_nil : ∀ c ∈ chunks, c ≠ []
  length_le : ∀ c ∈ chunks, c.length ≤ MSG_SIZE - 1
  length_data : data.length = MSG_SIZE

/-- What is in the file. -/
def Request.file (r : Request) : List UInt8 := r.chunks.flatten

/-- What `memset` leaves in `server_res.data`. -/
def zeros : List UInt8 := List.replicate MSG_SIZE 0

theorem length_zeros : zeros.length = MSG_SIZE := List.length_replicate

/-- Where the server is; `signify` is the `mq_send` of the last message. -/
inductive ServerPc where
  | read
  | send
  | signify
  | done
deriving DecidableEq

/-- Where the client is. -/
inductive ClientPc where
  | receive
  | left
deriving DecidableEq

structure State where
  /-- What has not been read of the file. -/
  unread : List (List UInt8)
  server : ServerPc
  /-- `server_res.data` -/
  data : List UInt8
  mq_client : List (List UInt8)
  client : ClientPc
  receive_byte_num : Int
  receive_msg_num : Nat
deriving DecidableEq

inductive Op where
  | read
  | send
  | signify
  | receive
deriving DecidableEq

/-- `n += len`, for an `int` and a `size_t` -/
def addInt (n : Int) (len : Nat) : Int := (n + len).bmod (2 ^ 32)

/-- One step of the server or of the client. -/
def next (r : Request) (s : State) : Op → Option State
  | .read =>
      if s.server = .read then
        match s.unread with
        | [] => some { s with server := .signify, data := s.data.set 0 0 }
        | c :: rest =>
            some { s with unread := rest, server := .send, data := overwrite s.data 0 c }
      else none
  | .send =>
      if s.server = .send ∧ s.mq_client.length < mq_maxmsg then
        some { s with server := .read, data := zeros, mq_client := s.mq_client ++ [s.data] }
      else none
  | .signify =>
      if s.server = .signify ∧ s.mq_client.length < mq_maxmsg then
        some { s with server := .done, mq_client := s.mq_client ++ [s.data] }
      else none
  | .receive =>
      if s.client = .receive then
        match s.mq_client with
        | [] => none
        | m :: rest =>
            if m.head? = some 0 then some { s with mq_client := rest, client := .left }
            else
              some { s with
                mq_client := rest,
                receive_byte_num := addInt s.receive_byte_num
                  (cstring (m ++ r.behind s.receive_msg_num)).length,
                receive_msg_num := s.receive_msg_num + 1 }
      else none

/-- The request has been received, and nothing has been sent. -/
def start (r : Request) : State := ⟨r.chunks, .read, r.data, [], .receive, 0, 0⟩

/-- One request. -/
def transfer (r : Request) : Lts State Op := Lts.ofNext (· = start r) (next r)

theorem init_start (r : Request) : (transfer r).init (start r) := rfl

/-- The rule of each step. -/
inductive Step (r : Request) (s : State) : Op → State → Prop
  | eof (hserver : s.server = .read) (hunread : s.unread = []) :
      Step r s .read { s with server := .signify, data := s.data.set 0 0 }
  | read {c : List UInt8} {rest : List (List UInt8)} (hserver : s.server = .read)
      (hunread : s.unread = c :: rest) :
      Step r s .read { s with unread := rest, server := .send, data := overwrite s.data 0 c }
  | send (hserver : s.server = .send) (hroom : s.mq_client.length < mq_maxmsg) :
      Step r s .send
        { s with server := .read, data := zeros, mq_client := s.mq_client ++ [s.data] }
  | signify (hserver : s.server = .signify) (hroom : s.mq_client.length < mq_maxmsg) :
      Step r s .signify { s with server := .done, mq_client := s.mq_client ++ [s.data] }
  | leave {m : List UInt8} {rest : List (List UInt8)} (hclient : s.client = .receive)
      (hqueue : s.mq_client = m :: rest) (hnull : m.head? = some 0) :
      Step r s .receive { s with mq_client := rest, client := .left }
  | receive {m : List UInt8} {rest : List (List UInt8)} (hclient : s.client = .receive)
      (hqueue : s.mq_client = m :: rest) (hnull : m.head? ≠ some 0) :
      Step r s .receive
        { s with
          mq_client := rest,
          receive_byte_num := addInt s.receive_byte_num
            (cstring (m ++ r.behind s.receive_msg_num)).length,
          receive_msg_num := s.receive_msg_num + 1 }

variable {r : Request} {s t : State} {a : Op} {tr : List Op}

theorem Step.of_step (h : (transfer r).step s a t) : Step r s a t := by
  have h : next r s a = some t := h
  cases a with
  | read =>
      obtain ⟨hserver, h⟩ := Option.ite_none_right_eq_some.mp h
      split at h
      · next hunread =>
          cases h
          exact .eof hserver hunread
      · next c rest hunread =>
          cases h
          exact .read hserver hunread
  | send =>
      obtain ⟨⟨hserver, hroom⟩, h⟩ := Option.ite_none_right_eq_some.mp h
      cases h
      exact .send hserver hroom
  | signify =>
      obtain ⟨⟨hserver, hroom⟩, h⟩ := Option.ite_none_right_eq_some.mp h
      cases h
      exact .signify hserver hroom
  | receive =>
      obtain ⟨hclient, h⟩ := Option.ite_none_right_eq_some.mp h
      split at h
      · cases h
      · next m rest hqueue =>
          split at h
          · next hnull =>
              cases h
              exact .leave hclient hqueue hnull
          · next hnull =>
              cases h
              exact .receive hclient hqueue hnull

/-! ## What is sent, and what is made of it -/

/-- The messages of the server, with `data` in its buffer. -/
def messages (data : List UInt8) : List (List UInt8) → List (List UInt8)
  | [] => [data.set 0 0]
  | c :: chunks => overwrite data 0 c :: messages zeros chunks

/-- The client's loop: what it prints, and the messages that it does not receive. -/
def receiveAll (behind : Nat → List UInt8) :
    Nat → Int → List (List UInt8) → Option (Int × List (List UInt8))
  | _, _, [] => none
  | k, n, m :: ms =>
      if m.head? = some 0 then some (n, ms)
      else receiveAll behind (k + 1) (addInt n (cstring (m ++ behind k)).length) ms

/-- What the server has still to send. -/
def toCome (s : State) : List (List UInt8) :=
  match s.server with
  | .read => messages s.data s.unread
  | .send => s.data :: messages zeros s.unread
  | .signify => [s.data]
  | .done => []

/-- What the client will have printed. -/
def outcome (r : Request) (s : State) : Option (Int × List (List UInt8)) :=
  match s.client with
  | .receive =>
      receiveAll r.behind s.receive_msg_num s.receive_byte_num (s.mq_client ++ toCome s)
  | .left => some (s.receive_byte_num, s.mq_client ++ toCome s)

theorem messages_ne_nil (data : List UInt8) (chunks : List (List UInt8)) :
    messages data chunks ≠ [] := by
  cases chunks <;> exact List.cons_ne_nil _ _

theorem toCome_eq_nil_iff : toCome s = [] ↔ s.server = .done := by
  cases hserver : s.server <;> simp [toCome, hserver, messages_ne_nil]

theorem outcome_step (h : Step r s a t) : outcome r t = outcome r s := by
  cases h with
  | eof hserver hunread | read hserver hunread =>
      simp [outcome, toCome, hserver, hunread, messages]
  | send hserver | signify hserver => simp [outcome, toCome, hserver]
  | leave hclient hqueue hnull | receive hclient hqueue hnull =>
      simp [outcome, toCome, hclient, hqueue, receiveAll, hnull]

/-- **Whatever the order of the steps**, the client is on its way to the same outcome. -/
theorem outcome_eq (h : (transfer r).Run tr s) :
    outcome r s = receiveAll r.behind 0 0 (messages r.data r.chunks) := by
  refine h.induction (P := fun _ s ↦ outcome r s = _) (fun s hs ↦ ?_) fun _ _ _ _ _ ih hs ↦ ?_
  · subst hs
    rfl
  · exact (outcome_step (.of_step hs)).trans ih

/-! ## The end of a run -/

/-- How many steps are left for the server. -/
def ServerPc.work : ServerPc → Nat
  | .read => 3
  | .send => 5
  | .signify => 2
  | .done => 0

/-- How many steps are left if the client takes all messages. -/
def work (s : State) : Nat := 3 * s.unread.length + s.server.work + s.mq_client.length

theorem work_step (h : Step r s a t) : work t + 1 = work s := by
  cases h with
  | eof hserver | send hserver | signify hserver =>
      simp [work, hserver, ServerPc.work]
      omega
  | read hserver hunread =>
      simp [work, hserver, hunread, ServerPc.work]
      omega
  | leave _ hqueue | receive _ hqueue =>
      simp [work, hqueue]
      omega

/-- No run is longer than three steps for each chunk, and three for the last message. -/
theorem length_add_work (h : (transfer r).Run tr s) :
    tr.length + work s = 3 * r.chunks.length + 3 := by
  refine h.induction (P := fun tr s ↦ tr.length + work s = 3 * r.chunks.length + 3)
    (fun s hs ↦ ?_) fun tr s a t _ ih hs ↦ ?_
  · subst hs
    simp [work, start, ServerPc.work]
  · have hwork := work_step (.of_step hs)
    rw [List.length_append, List.length_singleton]
    omega

/-- The last message begins with a NUL. -/
theorem receiveAll_nil {data : List UInt8} (hdata : data.length = MSG_SIZE)
    (behind : Nat → List UInt8) (k : Nat) (n : Int) :
    receiveAll behind k n (messages data []) = some (n, []) := by
  obtain ⟨b, rest, rfl⟩ := List.exists_cons_of_length_eq_add_one hdata
  exact if_pos rfl

/-- So the client does not wait for another. -/
theorem exists_receiveAll {data : List UInt8} (hdata : data.length = MSG_SIZE)
    (chunks : List (List UInt8)) (behind : Nat → List UInt8) (k : Nat) (n : Int) :
    ∃ out, receiveAll behind k n (messages data chunks) = some out := by
  induction chunks generalizing data k n with
  | nil => exact ⟨_, receiveAll_nil hdata behind k n⟩
  | cons c chunks ih =>
      rw [messages, receiveAll]
      split
      · exact ⟨_, rfl⟩
      · exact ih length_zeros _ _

theorem exists_step (h : (transfer r).Run tr s) (hclient : s.client ≠ .left) :
    ∃ a t, (transfer r).step s a t := by
  have hclient : s.client = .receive := by
    cases hc : s.client with
    | receive => rfl
    | left => exact absurd hc hclient
  cases hqueue : s.mq_client with
  | cons m rest =>
      refine ⟨.receive, ?_⟩
      by_cases hnull : m.head? = some 0
      · exact ⟨_, (if_pos hclient).trans (by rw [hqueue]; exact if_pos hnull)⟩
      · exact ⟨_, (if_pos hclient).trans (by rw [hqueue]; exact if_neg hnull)⟩
  | nil =>
      have hroom : s.mq_client.length < mq_maxmsg := by
        rw [hqueue]
        exact Nat.succ_pos 3
      cases hserver : s.server with
      | read =>
          cases hunread : s.unread with
          | nil => exact ⟨.read, _, (if_pos hserver).trans (by rw [hunread])⟩
          | cons c rest => exact ⟨.read, _, (if_pos hserver).trans (by rw [hunread])⟩
      | send => exact ⟨.send, _, if_pos ⟨hserver, hroom⟩⟩
      | signify => exact ⟨.signify, _, if_pos ⟨hserver, hroom⟩⟩
      | done =>
          obtain ⟨out, hout⟩ := exists_receiveAll r.length_data r.chunks r.behind 0 0
          have hnone : outcome r s = none := by
            simp [outcome, hclient, hqueue, toCome, hserver, receiveAll]
          rw [← outcome_eq h, hnone] at hout
          cases hout

/-- A run does not stop before the client has left its loop. -/
theorem left_of_stuck (h : (transfer r).Run tr s) (hstuck : (transfer r).Stuck s) :
    s.client = .left := by
  by_contra hclient
  obtain ⟨a, hstep⟩ := exists_step h hclient
  exact hstuck a hstep

/-- And so some run gets there. -/
theorem exists_left (r : Request) : ∃ tr s, (transfer r).Run tr s ∧ s.client = .left := by
  have hstart := Lts.Run.init (init_start r)
  have hpath : ∃ tr s, (transfer r).Path (start r) tr s ∧ True ∧ s.client = .left := by
    refine hstart.exists_path (I := fun _ _ ↦ True) work (fun tr s hrun _ hclient ↦ ?_) trivial
    obtain ⟨a, t, hs⟩ := exists_step hrun hclient
    exact ⟨a, t, hs, trivial, Nat.lt_of_succ_le (work_step (.of_step hs)).le⟩
  obtain ⟨tr, s, hpath, -, hleft⟩ := hpath
  exact ⟨_, s, hstart.append hpath, hleft⟩

end SysProg.MqFile
