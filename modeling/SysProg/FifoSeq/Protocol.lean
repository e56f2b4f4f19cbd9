import SysProg.Lib.Fifo
import SysProg.Lib.Lts

/-!
# The sequence-number server over FIFOs

The loop of `SP_HW8/44_6/fifo_seqnum_server.c` and any number of clients running
`SP_HW8/44_6/fifo_seqnum_client.c`, as a transition system.  The clients are named
by their process ids, which is also what their FIFOs are named by; the FIFO of a
client is kept with it.  Program counters name the call to be made next, and labels
the call made, with the failures of the server's `open` and `write` as labels of
their own.

A client's `open` of its FIFO takes two steps, as it blocks: in between the client
is `opening`.  The server's FIFO is the queue of requests: it always has a reader and
a writer, and request writes are atomic.  `room` says whether one more request fits.
Numbers are the C `int`s, which wrap around.  `getInt` only lets positive lengths
through, but nothing here depends on that.
-/

universe u

namespace SysProg.FifoSeq

open SysProg.Lib

variable {ι : Type u}

/-- A request of the client with process id `pid`. -/
structure Request (ι : Type u) where
  pid : ι
  seqLen : BitVec 32
deriving DecidableEq

/-- The calls of the server loop; `write` and `close` are on the client's FIFO. -/
inductive ServerPc (ι : Type u) where
  | read
  | openFifo (req : Request ι)
  | write (req : Request ι)
  | close (req : Request ι)
deriving DecidableEq

/-- The calls of a client. -/
inductive ClientPc where
  | mkfifo | openServer | write | openFifo | opening (seen : Nat) | read | exit | done
deriving DecidableEq, Repr

inductive ServerOp (ι : Type u) where
  | read (req : Request ι)
  | openFifo
  | openFail
  | write (seqNum : BitVec 32)
  | writeFail
  | close
deriving DecidableEq

inductive ClientOp where
  | mkfifo | openServer | write | openFifo | opened | read (seqNum : BitVec 32) | readEof | exit
deriving DecidableEq

inductive Label (ι : Type u) where
  | server (op : ServerOp ι)
  | client (i : ι) (op : ClientOp)
deriving DecidableEq

/-- A client and its FIFO. -/
structure Client where
  pc : ClientPc
  fifo : Fifo (BitVec 32)
deriving DecidableEq

structure State (ι : Type u) where
  /-- The requests in the server's FIFO, oldest first. -/
  queue : List (Request ι)
  server : ServerPc ι
  seqNum : BitVec 32
  client : ι → Client

/-- The client's own part of a call: its program counter and its FIFO. -/
def Client.next (x : Client) : ClientOp → Option Client
  | .mkfifo => if x.pc = .mkfifo then some ⟨.openServer, x.fifo.mkfifo⟩ else none
  | .openServer => if x.pc = .openServer then some ⟨.write, x.fifo⟩ else none
  | .write => if x.pc = .write then some ⟨.openFifo, x.fifo⟩ else none
  | .openFifo =>
      if x.pc = .openFifo then some ⟨.opening x.fifo.opened, x.fifo.beginRead⟩ else none
  | .opened => match x.pc with
      | .opening seen => if x.fifo.CanRead seen then some ⟨.read, x.fifo⟩ else none
      | _ => none
  | .read seqNum => match x.pc, x.fifo.data with
      | .read, y :: data => if y = seqNum then some ⟨.exit, { x.fifo with data }⟩ else none
      | _, _ => none
  | .readEof =>
      -- `read` returns 0, and the client ends with `fatal`
      if x.pc = .read ∧ x.fifo.data = [] ∧ x.fifo.writers = 0 then some ⟨.exit, x.fifo⟩ else none
  | .exit => if x.pc = .exit then some ⟨.done, x.fifo.closeRead⟩ else none

section

variable [DecidableEq ι] (seqLen : ι → BitVec 32) (room : Nat → Bool)

def State.setClient (s : State ι) (i : ι) (x : Client) : State ι :=
  { s with client := Function.update s.client i x }

/-- Client `i`, one call. -/
def clientNext (s : State ι) (i : ι) : ClientOp → Option (State ι)
  | .write =>
      if room s.queue.length then
        ((s.client i).next .write).map fun x ↦
          { s.setClient i x with queue := s.queue ++ [⟨i, seqLen i⟩] }
      else none
  | op => ((s.client i).next op).map (s.setClient i)

/-- The server loop, one call; closing the FIFO and updating the sequence number are
one step. -/
def serverNext (s : State ι) : ServerOp ι → Option (State ι)
  | .read req => match s.server, s.queue with
      | .read, x :: queue =>
          if x = req then some { s with queue, server := .openFifo req } else none
      | _, _ => none
  | .openFifo => match s.server with
      | .openFifo req => (s.client req.pid).fifo.openNonblock.map fun fifo ↦
          { s.setClient req.pid ⟨(s.client req.pid).pc, fifo⟩ with server := .write req }
      | _ => none
  | .openFail => match s.server with
      | .openFifo req =>
          if (s.client req.pid).fifo.openNonblock = none then some { s with server := .read }
          else none
      | _ => none
  | .write seqNum => match s.server with
      | .write req =>
          if s.seqNum = seqNum then
            ((s.client req.pid).fifo.write s.seqNum).map fun fifo ↦
              { s.setClient req.pid ⟨(s.client req.pid).pc, fifo⟩ with server := .close req }
          else none
      | _ => none
  | .writeFail => match s.server with
      | .write req =>
          if (s.client req.pid).fifo.write s.seqNum = none then
            some { s with server := .close req }
          else none
      | _ => none
  | .close => match s.server with
      | .close req =>
          some { s.setClient req.pid
              ⟨(s.client req.pid).pc, (s.client req.pid).fifo.closeWrite⟩ with
            server := .read, seqNum := s.seqNum + req.seqLen }
      | _ => none

/-- One call of some process. -/
def next (s : State ι) : Label ι → Option (State ι)
  | .server op => serverNext s op
  | .client i op => clientNext seqLen room s i op

end

/-- The server is at the head of its loop with nothing to read, and no client has done
anything.  A client's FIFO may be there from an earlier process of its number. -/
structure Init (s : State ι) : Prop where
  queue : s.queue = []
  server : s.server = .read
  seqNum : s.seqNum = 0
  client : ∀ i, ∃ linked, s.client i = ⟨.mkfifo, ⟨linked, 0, 0, 0, []⟩⟩

/-- The sequence-number system over FIFOs. -/
def fifoSeq [DecidableEq ι] (seqLen : ι → BitVec 32) (room : Nat → Bool) :
    Lts (State ι) (Label ι) :=
  Lts.ofNext Init (next seqLen room)

/-! ## What a call does -/

/-- The rules of `Client.next`. -/
inductive Client.Step : Client → ClientOp → Client → Prop
  | mkfifo {f} : Client.Step ⟨.mkfifo, f⟩ .mkfifo ⟨.openServer, f.mkfifo⟩
  | openServer {f} : Client.Step ⟨.openServer, f⟩ .openServer ⟨.write, f⟩
  | write {f} : Client.Step ⟨.write, f⟩ .write ⟨.openFifo, f⟩
  | openFifo {f} : Client.Step ⟨.openFifo, f⟩ .openFifo ⟨.opening f.opened, f.beginRead⟩
  | opened {f seen} (hready : f.CanRead seen) :
      Client.Step ⟨.opening seen, f⟩ .opened ⟨.read, f⟩
  | read {f seqNum data} (hdata : f.data = seqNum :: data) :
      Client.Step ⟨.read, f⟩ (.read seqNum) ⟨.exit, { f with data }⟩
  | readEof {f} (hdata : f.data = []) (hwriters : f.writers = 0) :
      Client.Step ⟨.read, f⟩ .readEof ⟨.exit, f⟩
  | exit {f} : Client.Step ⟨.exit, f⟩ .exit ⟨.done, f.closeRead⟩

theorem Client.Step.of_next {x y : Client} {op : ClientOp} (h : x.next op = some y) :
    Client.Step x op y := by
  obtain ⟨pc, f⟩ := x
  cases op with
  | mkfifo =>
      obtain ⟨rfl, h⟩ := Option.ite_none_right_eq_some.mp h
      cases h
      exact .mkfifo
  | openServer =>
      obtain ⟨rfl, h⟩ := Option.ite_none_right_eq_some.mp h
      cases h
      exact .openServer
  | write =>
      obtain ⟨rfl, h⟩ := Option.ite_none_right_eq_some.mp h
      cases h
      exact .write
  | openFifo =>
      obtain ⟨rfl, h⟩ := Option.ite_none_right_eq_some.mp h
      cases h
      exact .openFifo
  | opened =>
      cases pc with
      | opening seen =>
          obtain ⟨hready, h⟩ := Option.ite_none_right_eq_some.mp h
          cases h
          exact .opened hready
      | _ => cases h
  | read seqNum =>
      obtain ⟨linked, readers, writers, opened, data⟩ := f
      cases pc with
      | read =>
          cases data with
          | nil => cases h
          | cons y data =>
              simp only [Client.next, Option.ite_none_right_eq_some, Option.some.injEq] at h
              obtain ⟨rfl, rfl⟩ := h
              exact .read rfl
      | _ => cases h
  | readEof =>
      obtain ⟨⟨rfl, hdata, hwriters⟩, h⟩ := Option.ite_none_right_eq_some.mp h
      cases h
      exact .readEof hdata hwriters
  | exit =>
      obtain ⟨rfl, h⟩ := Option.ite_none_right_eq_some.mp h
      cases h
      exact .exit

/-- The rule of each label. -/
inductive Step [DecidableEq ι] (seqLen : ι → BitVec 32) (room : Nat → Bool) (s : State ι) :
    Label ι → State ι → Prop
  | client {i : ι} {op : ClientOp} {x : Client} (hop : op ≠ .write)
      (hx : Client.Step (s.client i) op x) : Step seqLen room s (.client i op) (s.setClient i x)
  | write {i : ι} {x : Client} (hroom : room s.queue.length = true)
      (hx : Client.Step (s.client i) .write x) :
      Step seqLen room s (.client i .write)
        { s.setClient i x with queue := s.queue ++ [⟨i, seqLen i⟩] }
  | serverRead {req : Request ι} {queue : List (Request ι)} (hpc : s.server = .read)
      (hqueue : s.queue = req :: queue) :
      Step seqLen room s (.server (.read req)) { s with queue, server := .openFifo req }
  | serverOpen {req : Request ι} {fifo : Fifo (BitVec 32)} (hpc : s.server = .openFifo req)
      (hopen : (s.client req.pid).fifo.openNonblock = some fifo) :
      Step seqLen room s (.server .openFifo)
        { s.setClient req.pid ⟨(s.client req.pid).pc, fifo⟩ with server := .write req }
  | serverOpenFail {req : Request ι} (hpc : s.server = .openFifo req)
      (hopen : (s.client req.pid).fifo.openNonblock = none) :
      Step seqLen room s (.server .openFail) { s with server := .read }
  | serverWrite {req : Request ι} {fifo : Fifo (BitVec 32)} (hpc : s.server = .write req)
      (hwrite : (s.client req.pid).fifo.write s.seqNum = some fifo) :
      Step seqLen room s (.server (.write s.seqNum))
        { s.setClient req.pid ⟨(s.client req.pid).pc, fifo⟩ with server := .close req }
  | serverWriteFail {req : Request ι} (hpc : s.server = .write req)
      (hwrite : (s.client req.pid).fifo.write s.seqNum = none) :
      Step seqLen room s (.server .writeFail) { s with server := .close req }
  | serverClose {req : Request ι} (hpc : s.server = .close req) :
      Step seqLen room s (.server .close)
        { s.setClient req.pid ⟨(s.client req.pid).pc, (s.client req.pid).fifo.closeWrite⟩ with
          server := .read, seqNum := s.seqNum + req.seqLen }

variable [DecidableEq ι] {seqLen : ι → BitVec 32} {room : Nat → Bool} {s t : State ι}

theorem Step.of_clientNext {i : ι} {op : ClientOp} (h : clientNext seqLen room s i op = some t) :
    Step seqLen room s (.client i op) t := by
  by_cases hop : op = .write
  · subst hop
    obtain ⟨hroom, h⟩ := Option.ite_none_right_eq_some.mp h
    obtain ⟨x, hx, rfl⟩ := Option.map_eq_some_iff.mp h
    exact .write hroom (.of_next hx)
  · have hmap : ((s.client i).next op).map (s.setClient i) = some t := by
      cases op <;> first | exact h | exact absurd rfl hop
    obtain ⟨x, hx, rfl⟩ := Option.map_eq_some_iff.mp hmap
    exact .client hop (.of_next hx)

theorem Step.of_serverNext {op : ServerOp ι} (h : serverNext s op = some t) :
    Step seqLen room s (.server op) t := by
  cases op with
  | read req =>
      simp only [serverNext] at h
      split at h
      · next x queue hpc hqueue =>
          obtain ⟨rfl, h⟩ := Option.ite_none_right_eq_some.mp h
          cases h
          exact .serverRead hpc hqueue
      · cases h
  | openFifo =>
      simp only [serverNext] at h
      split at h
      · next req hpc =>
          obtain ⟨fifo, hopen, rfl⟩ := Option.map_eq_some_iff.mp h
          exact .serverOpen hpc hopen
      · cases h
  | openFail =>
      simp only [serverNext] at h
      split at h
      · next req hpc =>
          obtain ⟨hopen, h⟩ := Option.ite_none_right_eq_some.mp h
          cases h
          exact .serverOpenFail hpc hopen
      · cases h
  | write seqNum =>
      simp only [serverNext] at h
      split at h
      · next req hpc =>
          obtain ⟨rfl, hmap⟩ := Option.ite_none_right_eq_some.mp h
          obtain ⟨fifo, hwrite, rfl⟩ := Option.map_eq_some_iff.mp hmap
          exact .serverWrite hpc hwrite
      · cases h
  | writeFail =>
      simp only [serverNext] at h
      split at h
      · next req hpc =>
          obtain ⟨hwrite, h⟩ := Option.ite_none_right_eq_some.mp h
          cases h
          exact .serverWriteFail hpc hwrite
      · cases h
  | close =>
      simp only [serverNext] at h
      split at h
      · next req hpc =>
          cases h
          exact .serverClose hpc
      · cases h

/-- Every call of the system follows one of the rules. -/
theorem Step.of_step {a : Label ι} (h : (fifoSeq seqLen room).step s a t) :
    Step seqLen room s a t := by
  cases a with
  | server op => exact .of_serverNext h
  | client i op => exact .of_clientNext h

end SysProg.FifoSeq
