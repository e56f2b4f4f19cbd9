import SysProg.NetDict.Udp

/-!
# Whom `lookup9` talks to

`lookup9.c` fills in the static `server` on the first call, and hands the same variable to
`recvfrom` for the address of the sender.  One process is a transition system here: it
calls `lookup` with the records it likes, and datagrams of any length and from anybody
arrive at its socket once `sendto` has bound it.

* `Kept` relates what has been sent to what has been received, at every statement of
  `lookup`.
* `keepsServer_iff`: the requests of a run go to the configured address, and `server`
  keeps it, if and only if each datagram that a call received came from there.
* `not_keepsServer_stranger` is a run with a datagram from somewhere else, which the next
  request is sent to.
-/

namespace SysProg.NetDict

open SysProg.Lib
open SysProg.ShmDict (Code)

/-! ## The process -/

def AF_INET : UInt16 := 2

def PORT : UInt16 := 5678

/-- A `struct sockaddr_in`, in host byte order. -/
structure SockaddrIn where
  sin_family : UInt16
  sin_port : UInt16
  sin_addr : UInt32
deriving DecidableEq

/-- What the first call puts into `server`: port `PORT` of `127.0.0.1`. -/
def serverAddress : SockaddrIn := ⟨AF_INET, PORT, 0x7f000001⟩

/-- A process that calls `lookup`. -/
structure Lookup9 where
  first_time : Bool
  server : SockaddrIn
  pc : UdpPc
  sought : Dictrec
  /-- What the last `lookup` returned. -/
  ret : Option Code
  /-- The socket has a port of its own. -/
  bound : Bool
  /-- The datagrams that have arrived and not been received, and whom they are from. -/
  queue : List (SockaddrIn × List UInt8)
deriving DecidableEq

/-- What happens to the process. -/
inductive Lookup9Op where
  | /-- `main` calls `lookup` with `r`. -/ call (r : Dictrec)
  | /-- The request `r` is sent to `dest`. -/ sendto (dest : SockaddrIn) (r : Dictrec)
  | /-- A datagram arrives at the socket. -/ arrive (sender : SockaddrIn) (d : List UInt8)
  | /-- The call receives the next datagram. -/ recvfrom (sender : SockaddrIn) (d : List UInt8)
  | /-- `socket`, `sendto` or `recvfrom` fails, and the process exits. -/ die
deriving DecidableEq

/-- One step of `lookup`, or of the network. -/
def lookup9Next (s : Lookup9) : Lookup9Op → Option Lookup9
  | .call r =>
      if s.pc = .idle then
        some { s with
          pc := .sendto, sought := r, ret := none, first_time := false,
          server := if s.first_time then serverAddress else s.server }
      else none
  | .sendto dest r =>
      if s.pc = .sendto ∧ s.server = dest ∧ s.sought = r then
        some { s with pc := .recvfrom, bound := true }
      else none
  | .arrive sender d =>
      if s.bound = true ∧ sender.sin_family = AF_INET then
        some { s with queue := s.queue ++ [(sender, d)] }
      else none
  | .recvfrom sender d =>
      if s.pc = .recvfrom ∧ s.queue.head? = some (sender, d) then
        some { s with
          pc := .idle, sought := s.sought.recv d, ret := some (code (s.sought.recv d)),
          server := sender, queue := s.queue.tail }
      else none
  | .die => if s.pc = .sendto ∨ s.pc = .recvfrom then some { s with pc := .dead } else none

/-- No call has been made. -/
structure Lookup9Init (s : Lookup9) : Prop where
  first_time : s.first_time = true
  server : s.server = ⟨0, 0, 0⟩
  pc : s.pc = .idle
  ret : s.ret = none
  bound : s.bound = false
  queue : s.queue = []

/-- The calls of `lookup9.c` in one process. -/
def lookup9Calls : Lts Lookup9 Lookup9Op := Lts.ofNext Lookup9Init lookup9Next

/-- The rule of each step. -/
inductive Lookup9Step (s : Lookup9) : Lookup9Op → Lookup9 → Prop
  | call (r : Dictrec) (hpc : s.pc = .idle) :
      Lookup9Step s (.call r)
        { s with
          pc := .sendto, sought := r, ret := none, first_time := false,
          server := if s.first_time then serverAddress else s.server }
  | sendto (hpc : s.pc = .sendto) :
      Lookup9Step s (.sendto s.server s.sought) { s with pc := .recvfrom, bound := true }
  | arrive {sender : SockaddrIn} (d : List UInt8) (hbound : s.bound = true)
      (hfamily : sender.sin_family = AF_INET) :
      Lookup9Step s (.arrive sender d) { s with queue := s.queue ++ [(sender, d)] }
  | recvfrom {sender : SockaddrIn} {d : List UInt8} (hpc : s.pc = .recvfrom)
      (hqueue : s.queue.head? = some (sender, d)) :
      Lookup9Step s (.recvfrom sender d)
        { s with
          pc := .idle, sought := s.sought.recv d, ret := some (code (s.sought.recv d)),
          server := sender, queue := s.queue.tail }
  | die (hpc : s.pc = .sendto ∨ s.pc = .recvfrom) : Lookup9Step s .die { s with pc := .dead }

variable {s t : Lookup9} {a : Lookup9Op} {tr : List Lookup9Op}

theorem Lookup9Step.of_step (h : lookup9Calls.step s a t) : Lookup9Step s a t := by
  have h : lookup9Next s a = some t := h
  cases a with
  | call r =>
      obtain ⟨hpc, h⟩ := Option.ite_none_right_eq_some.mp h
      cases h
      exact .call r hpc
  | sendto dest r =>
      obtain ⟨⟨hpc, rfl, rfl⟩, hnext⟩ := Option.ite_none_right_eq_some.mp h
      cases hnext
      exact .sendto hpc
  | arrive sender d =>
      obtain ⟨⟨hbound, hfamily⟩, h⟩ := Option.ite_none_right_eq_some.mp h
      cases h
      exact .arrive d hbound hfamily
  | recvfrom sender d =>
      obtain ⟨⟨hpc, hqueue⟩, h⟩ := Option.ite_none_right_eq_some.mp h
      cases h
      exact .recvfrom hpc hqueue
  | die =>
      obtain ⟨hpc, h⟩ := Option.ite_none_right_eq_some.mp h
      cases h
      exact .die hpc

/-! ## Requests and senders -/

/-- A request goes to the configured address. -/
def ToServer : Lookup9Op → Prop
  | .sendto dest _ => dest = serverAddress
  | _ => True

/-- A call receives a datagram from the configured address. -/
def FromServer : Lookup9Op → Prop
  | .recvfrom sender _ => sender = serverAddress
  | _ => True

/-- The requests of a run went to the configured address, and `server` still has it. -/
structure KeepsServer (tr : List Lookup9Op) (s : Lookup9) : Prop where
  sent : ∀ a ∈ tr, ToServer a
  server : s.first_time = false → s.server = serverAddress

/-- What the requests of a run say about the datagrams it received.  Between `sendto` and
`recvfrom` the variable `server` is what the last request was sent to. -/
structure Kept (tr : List Lookup9Op) (s : Lookup9) : Prop where
  begun : s.pc ≠ .idle → s.first_time = false
  awaiting : s.pc = .recvfrom → (∀ a ∈ tr, ToServer a) → s.server = serverAddress
  iff : KeepsServer tr s ↔ ∀ a ∈ tr, FromServer a

theorem forall_mem_concat {P : Lookup9Op → Prop} :
    (∀ b ∈ tr ++ [a], P b) ↔ (∀ b ∈ tr, P b) ∧ P a := by
  simp [or_imp, forall_and]

theorem keepsServer_concat : KeepsServer (tr ++ [a]) s ↔ KeepsServer tr s ∧ ToServer a := by
  constructor
  · rintro ⟨hsent, hserver⟩
    obtain ⟨hsent, hlast⟩ := forall_mem_concat.mp hsent
    exact ⟨⟨hsent, hserver⟩, hlast⟩
  · rintro ⟨⟨hsent, hserver⟩, hlast⟩
    exact ⟨forall_mem_concat.mpr ⟨hsent, hlast⟩, hserver⟩

/-- A step that leaves `server` alone, as far as the configured address goes. -/
theorem keepsServer_congr (h : (s.first_time = false → s.server = serverAddress) ↔
    (t.first_time = false → t.server = serverAddress)) : KeepsServer tr s ↔ KeepsServer tr t :=
  ⟨fun hs ↦ ⟨hs.sent, h.mp hs.server⟩, fun ht ↦ ⟨ht.sent, h.mpr ht.server⟩⟩

theorem Kept.step (h : Kept tr s) (hs : Lookup9Step s a t) : Kept (tr ++ [a]) t := by
  cases hs with
  | call r hpc =>
      refine ⟨fun _ ↦ rfl, by simp, ?_⟩
      rw [keepsServer_concat, forall_mem_concat, ← h.iff]
      refine and_congr (keepsServer_congr ?_) Iff.rfl
      cases s.first_time <;> simp
  | sendto hpc =>
      have hfirst := h.begun (by simp [hpc])
      refine ⟨fun _ ↦ hfirst, fun _ hsent ↦ (forall_mem_concat.mp hsent).2, ?_⟩
      rw [keepsServer_concat, forall_mem_concat, ← h.iff]
      constructor
      · rintro ⟨⟨hsent, hserver⟩, -⟩
        exact ⟨⟨hsent, hserver⟩, trivial⟩
      · rintro ⟨⟨hsent, hserver⟩, -⟩
        exact ⟨⟨hsent, hserver⟩, hserver hfirst⟩
  | arrive d hbound hfamily =>
      refine ⟨h.begun, fun hpc hsent ↦ h.awaiting hpc (forall_mem_concat.mp hsent).1, ?_⟩
      rw [keepsServer_concat, forall_mem_concat, ← h.iff]
      exact and_congr (keepsServer_congr Iff.rfl) Iff.rfl
  | @recvfrom sender d hpc hqueue =>
      have hfirst := h.begun (by simp [hpc])
      refine ⟨by simp, by simp, ?_⟩
      rw [keepsServer_concat, forall_mem_concat, ← h.iff]
      constructor
      · rintro ⟨⟨hsent, hserver⟩, -⟩
        exact ⟨⟨hsent, fun _ ↦ h.awaiting hpc hsent⟩, hserver hfirst⟩
      · rintro ⟨⟨hsent, -⟩, hsender⟩
        exact ⟨⟨hsent, fun _ ↦ hsender⟩, trivial⟩
  | die hpc =>
      have hidle : s.pc ≠ .idle := by rcases hpc with hpc | hpc <;> simp [hpc]
      refine ⟨fun _ ↦ h.begun hidle, by simp, ?_⟩
      rw [keepsServer_concat, forall_mem_concat, ← h.iff]
      exact and_congr (keepsServer_congr Iff.rfl) Iff.rfl

theorem kept (h : lookup9Calls.Run tr s) : Kept tr s := by
  refine h.induction (P := Kept) (fun s hs ↦ ?_) fun _ _ _ _ _ hkept hs ↦ hkept.step (.of_step hs)
  have hserver : s.first_time = false → s.server = serverAddress := by simp [hs.first_time]
  exact ⟨fun hpc ↦ absurd hs.pc hpc, by simp [hs.pc], by simp, fun _ ↦ ⟨by simp, hserver⟩⟩

/-- **`lookup9` keeps talking to the configured server** if and only if it only receives
from there. -/
theorem keepsServer_iff (h : lookup9Calls.Run tr s) : KeepsServer tr s ↔ ∀ a ∈ tr, FromServer a :=
  (kept h).iff

/-! ## A datagram from somewhere else -/

/-- A process that has made no call. -/
def uncalled : Lookup9 := ⟨true, ⟨0, 0, 0⟩, .idle, .blank, none, false, []⟩

theorem init_uncalled : Lookup9Init uncalled := ⟨rfl, rfl, rfl, rfl, rfl, rfl⟩

/-- Port 9999 of the same host, where no server listens. -/
def stranger : SockaddrIn := ⟨AF_INET, 9999, 0x7f000001⟩

/-- A call that is answered from `sender`, and the next one. -/
def twoCalls (sender : SockaddrIn) : List Lookup9Op :=
  [.call .blank, .sendto serverAddress .blank, .arrive sender Dictrec.blank.bytes,
    .recvfrom sender Dictrec.blank.bytes,
    .call .blank, .sendto sender .blank]

theorem exec_twoCalls {sender : SockaddrIn} (h : sender.sin_family = AF_INET) :
    ∃ s, Lts.exec lookup9Next uncalled (twoCalls sender) = some s := by
  simp [Lts.exec, twoCalls, lookup9Next, uncalled, h]

theorem keepsServer_twoCalls : ∃ s, lookup9Calls.Run (twoCalls serverAddress) s ∧
    KeepsServer (twoCalls serverAddress) s := by
  obtain ⟨s, hexec⟩ := @exec_twoCalls serverAddress rfl
  have hrun : lookup9Calls.Run (twoCalls serverAddress) s := .of_exec init_uncalled hexec
  exact ⟨s, hrun, (keepsServer_iff hrun).mpr (by simp [twoCalls, FromServer])⟩

/-- The second request is sent to the stranger. -/
theorem not_keepsServer_stranger : ∃ s, lookup9Calls.Run (twoCalls stranger) s ∧
    .sendto stranger .blank ∈ twoCalls stranger ∧ stranger ≠ serverAddress ∧
    ¬ KeepsServer (twoCalls stranger) s := by
  obtain ⟨s, hexec⟩ := @exec_twoCalls stranger rfl
  have hmem : .sendto stranger .blank ∈ twoCalls stranger := by simp [twoCalls]
  have hne : stranger ≠ serverAddress := by decide
  exact ⟨s, .of_exec init_uncalled hexec, hmem, hne, fun hkeeps ↦ hne (hkeeps.sent _ hmem)⟩

end SysProg.NetDict
