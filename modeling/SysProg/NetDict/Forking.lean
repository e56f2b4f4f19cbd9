import Mathlib.Logic.Function.Basic
import SysProg.NetDict.Framing
import SysProg.NetDict.Remote
import SysProg.NetDict.Stale

/-!
# The servers that fork

`usock_server.c` and `isock_server.c` fork a child for every connection, which has the dialogue with
one client, while the parent goes back to `accept`.  Here there are any number of clients, which
make their lookups with `lookup7.c` or `lookup8.c`, and all of them take their steps in any order.

* `Link` is one client, its connection and its child; `linkage` are the steps that it sees.
* `forking` is the whole system, and `run_link` says that each link is a run of `linkage`, whatever
  the others do.
* `dialogues`: what a client is sent is the dialogue of its own child about its own pieces.
* `all_answered`: where its own records arrive whole, it gets what a local lookup gives.
* `answer_comes`: it need not wait for another client to do anything.
-/

universe u

namespace SysProg.NetDict.Forking

open SysProg.Lib
open SysProg.ShmDict (Word Code Dictionary Result answer answered notFoundText wordA wordB twoWords)

/-! ## One connection -/

/-- `listen(sd,10)` -/
def backlog : Nat := 10

/-- The process that has the dialogue. -/
inductive Child where
  | /-- The connection is not accepted yet. -/ waiting
  | /-- It is in its loop; `mapped` when `lookup` has been called before. -/
    running (mapped : Bool) (tryit : Dictrec)
  | /-- There is none, and will be none: the connection is closed. -/ ended
deriving DecidableEq

/-- A client, its connection and its child. -/
structure Link where
  pc : ClientPc
  sought : Dictrec
  /-- Not `first_time`. -/
  connected : Bool
  /-- What the client has sent and the child has not received. -/
  up : List UInt8
  /-- What the child has sent and the client has not received. -/
  down : List UInt8
  child : Child
deriving DecidableEq

/-- What the client does. -/
inductive ClientOp where
  | /-- `main` asks for `w`. -/ call (w : Word)
  | connect
  | send (r : Dictrec)
  | recv (bytes : List UInt8)
  | /-- It exits, because a call has failed or there are no more words. -/ leave
deriving DecidableEq

/-- What the child does. -/
inductive ChildOp where
  | /-- `recv` returns a piece; the word is looked up, and the reply is sent. -/ serve (p : Piece)
  | /-- The same, but the dictionary cannot be mapped: `DIE(argv[1])`. -/ unavail (p : Piece)
  | /-- The client has gone: `recv` does not return a piece, or `send` fails. -/ stop

/-- What happens to a connection. -/
inductive LinkOp where
  | client (op : ClientOp)
  | child (op : ChildOp)
  | /-- The parent accepts the connection and forks. -/ accept
  | /-- `accept` or `fork` fails, and the parent exits. -/ fail

namespace Link

/-- A step of the client: `main.c` with `lookup7.c` or `lookup8.c`. -/
def clientNext (l : Link) : ClientOp → Option Link
  | .call w =>
      if l.pc = .idle then some { l with pc := .send, sought := l.sought.setWord w } else none
  | .connect =>
      if l.pc = .send ∧ l.connected = false then some { l with connected := true } else none
  | .send r =>
      if l.pc = .send ∧ l.connected = true ∧ r = l.sought then
        some { l with pc := .recv, up := l.up ++ r.bytes }
      else none
  | .recv bytes =>
      if l.pc = .recv ∧ bytes.length ≤ Dictrec.size ∧ bytes <+: l.down ∧
          (bytes = [] → l.down = [] ∧ l.child = .ended) then
        some { l with
          pc := .idle, sought := l.sought.recv bytes, down := l.down.drop bytes.length }
      else none
  | .leave => if l.pc ≠ .dead then some { l with pc := .dead } else none

/-- A step of the child. -/
def childNext (D : Dictionary) (l : Link) : ChildOp → Option Link
  | .serve p =>
      match l.child with
      | .running _ tryit =>
          if p.bytes <+: l.up then
            (serve D (tryit.recv p.bytes)).map fun sent ↦
              { l with
                up := l.up.drop p.bytes.length, down := l.down ++ sent.bytes,
                child := .running true sent }
          else none
      | _ => none
  | .unavail p =>
      match l.child with
      | .running false _ =>
          if p.bytes <+: l.up then
            some { l with up := l.up.drop p.bytes.length, child := .ended }
          else none
      | _ => none
  | .stop =>
      match l.child with
      | .running _ _ => if l.pc = .dead then some { l with child := .ended } else none
      | _ => none

/-- The child is forked, with the parent's `tryit`. -/
def accept (tryit : Dictrec) (l : Link) : Option Link :=
  if l.connected = true ∧ l.child = .waiting then some { l with child := .running false tryit }
  else none

/-- What the exit of the parent does to a connection that it has not accepted. -/
def fail (l : Link) : Link :=
  if l.connected = true ∧ l.child = .waiting then { l with child := .ended } else l

/-- A step of a connection. -/
def next (D : Dictionary) (tryit : Dictrec) (l : Link) : LinkOp → Option Link
  | .client op => l.clientNext op
  | .child op => l.childNext D op
  | .accept => l.accept tryit
  | .fail => some l.fail

/-- A client that has not made a lookup, with any record to ask with. -/
structure Init (l : Link) : Prop where
  pc : l.pc = .idle
  connected : l.connected = false
  up : l.up = []
  down : l.down = []
  child : l.child = .waiting

end Link

/-- A client and its child; `tryit` is the record of the parent. -/
def linkage (D : Dictionary) (tryit : Dictrec) : Lts Link LinkOp :=
  Lts.ofNext Link.Init (Link.next D tryit)

/-! ## The system -/

/-- The parent, and the clients. -/
structure State (ι : Type u) where
  /-- The parent is in its loop. -/
  listening : Bool
  /-- The connections that it has not accepted, oldest first. -/
  pending : List ι
  link : ι → Link

/-- A step of some process. -/
inductive Label (ι : Type u) where
  | client (i : ι) (op : ClientOp)
  | child (i : ι) (op : ChildOp)
  | accept (i : ι)
  | fail

/-- What the connection of `i` sees of it. -/
def Label.view {ι : Type u} [DecidableEq ι] (i : ι) : Label ι → Option LinkOp
  | .client j op => if j = i then some (.client op) else none
  | .child j op => if j = i then some (.child op) else none
  | .accept j => if j = i then some .accept else none
  | .fail => some .fail

section

variable {ι : Type u} [DecidableEq ι]

def State.setLink (s : State ι) (i : ι) (l : Link) : State ι :=
  { s with link := Function.update s.link i l }

/-- A step of some process. -/
def next (D : Dictionary) (tryit : Dictrec) (s : State ι) : Label ι → Option (State ι)
  | .client i .connect =>
      if s.listening = true ∧ s.pending.length ≤ backlog then
        ((s.link i).clientNext .connect).map fun l ↦
          { s.setLink i l with pending := s.pending ++ [i] }
      else none
  | .client i op => ((s.link i).clientNext op).map (s.setLink i)
  | .child i op => ((s.link i).childNext D op).map (s.setLink i)
  | .accept i =>
      if s.listening = true ∧ s.pending.head? = some i then
        ((s.link i).accept tryit).map fun l ↦ { s.setLink i l with pending := s.pending.tail }
      else none
  | .fail =>
      if s.listening = true then some ⟨false, [], fun i ↦ (s.link i).fail⟩ else none

/-- No client has made a lookup. -/
structure Init (s : State ι) : Prop where
  listening : s.listening = true
  pending : s.pending = []
  link : ∀ i, (s.link i).Init

/-- A server that forks, and its clients.  `tryit` is the record of the parent, which it does not
write to. -/
def forking (ι : Type u) [DecidableEq ι] (D : Dictionary) (tryit : Dictrec) :
    Lts (State ι) (Label ι) :=
  Lts.ofNext Init (next D tryit)

end

section

variable {ι : Type u} [DecidableEq ι] {D : Dictionary} {tryit : Dictrec} {s s' : State ι} {i j : ι}
  {l : Link} {tr : List (Label ι)} {a : Label ι}

@[simp] theorem State.link_setLink (s : State ι) (i : ι) (l : Link) :
    (s.setLink i l).link = Function.update s.link i l := rfl

@[simp] theorem State.pending_setLink (s : State ι) (i : ι) (l : Link) :
    (s.setLink i l).pending = s.pending := rfl

@[simp] theorem State.listening_setLink (s : State ι) (i : ι) (l : Link) :
    (s.setLink i l).listening = s.listening := rfl

/-- The rule of each step. -/
inductive Step (D : Dictionary) (tryit : Dictrec) (s : State ι) : Label ι → State ι → Prop
  | connect {i : ι} {l : Link} (hlistening : s.listening = true)
      (hroom : s.pending.length ≤ backlog) (hl : (s.link i).clientNext .connect = some l) :
      Step D tryit s (.client i .connect) { s.setLink i l with pending := s.pending ++ [i] }
  | client {i : ι} {op : ClientOp} {l : Link} (hop : op ≠ .connect)
      (hl : (s.link i).clientNext op = some l) : Step D tryit s (.client i op) (s.setLink i l)
  | child {i : ι} {op : ChildOp} {l : Link} (hl : (s.link i).childNext D op = some l) :
      Step D tryit s (.child i op) (s.setLink i l)
  | accept {i : ι} {rest : List ι} {l : Link} (hlistening : s.listening = true)
      (hpending : s.pending = i :: rest) (hl : (s.link i).accept tryit = some l) :
      Step D tryit s (.accept i) { s.setLink i l with pending := rest }
  | fail (hlistening : s.listening = true) :
      Step D tryit s .fail ⟨false, [], fun i ↦ (s.link i).fail⟩

theorem step_iff : (forking ι D tryit).step s a s' ↔ Step D tryit s a s' := by
  constructor
  · intro h
    have h : next D tryit s a = some s' := h
    cases a with
    | client i op =>
        by_cases hop : op = .connect
        · subst hop
          obtain ⟨⟨hlistening, hroom⟩, h⟩ := Option.ite_none_right_eq_some.mp h
          obtain ⟨l, hl, rfl⟩ := Option.map_eq_some_iff.mp h
          exact .connect hlistening hroom hl
        · have h : ((s.link i).clientNext op).map (s.setLink i) = some s' := by
            cases op <;> first | exact h | exact absurd rfl hop
          obtain ⟨l, hl, rfl⟩ := Option.map_eq_some_iff.mp h
          exact .client hop hl
    | child i op =>
        obtain ⟨l, hl, rfl⟩ := Option.map_eq_some_iff.mp h
        exact .child hl
    | accept i =>
        obtain ⟨⟨hlistening, hhead⟩, h⟩ := Option.ite_none_right_eq_some.mp h
        obtain ⟨l, hl, rfl⟩ := Option.map_eq_some_iff.mp h
        obtain ⟨rest, hpending⟩ := List.head?_eq_some_iff.mp hhead
        rw [hpending]
        exact .accept hlistening hpending hl
    | fail =>
        obtain ⟨hlistening, h⟩ := Option.ite_none_right_eq_some.mp h
        cases h
        exact .fail hlistening
  · intro h
    show next D tryit s a = some s'
    cases h with
    | connect hlistening hroom hl => rw [next, if_pos ⟨hlistening, hroom⟩, hl]; rfl
    | @client i op l hop hl =>
        have hnext : next D tryit s (.client i op) =
            ((s.link i).clientNext op).map (s.setLink i) := by
          cases op <;> first | rfl | exact absurd rfl hop
        rw [hnext, hl]
        rfl
    | child hl => rw [next, hl]; rfl
    | accept hlistening hpending hl =>
        rw [next, if_pos ⟨hlistening, by rw [hpending]; rfl⟩, hl, hpending]
        rfl
    | fail hlistening => rw [next, if_pos hlistening]

/-- A step that the connection of `i` does not see leaves it as it is. -/
theorem Step.link_eq (h : Step D tryit s a s') (hview : a.view i = none) :
    s'.link i = s.link i := by
  have hne : ∀ {j : ι} {op : LinkOp}, (if j = i then some op else none) = none → i ≠ j := by
    rintro j op hview rfl
    rw [if_pos rfl] at hview
    cases hview
  cases h with
  | connect | client | child | accept => exact Function.update_of_ne (hne hview) _ _
  | fail => cases hview

theorem Step.link_next {op : LinkOp} (h : Step D tryit s a s') (hview : a.view i = some op) :
    (s.link i).next D tryit op = some (s'.link i) := by
  cases h with
  | connect _ _ hl | client _ hl | child hl | accept _ _ hl =>
      obtain ⟨rfl, hop⟩ := Option.ite_none_right_eq_some.mp hview
      cases hop
      simpa [Link.next] using hl
  | fail =>
      cases hview
      rfl

/-- **Each connection is by itself**, whatever happens on the others. -/
theorem run_link (h : (forking ι D tryit).Run tr s) (i : ι) :
    (linkage D tryit).Run (tr.filterMap (Label.view i)) (s.link i) :=
  h.project (fun s ↦ s.link i) (Label.view i) (fun _ hs ↦ Init.link hs i)
    (fun _ _ _ hs ↦ (step_iff.mp hs).link_eq) fun _ _ _ _ hs ↦ (step_iff.mp hs).link_next

end

/-! ## What a connection carries -/

variable {D : Dictionary} {tryit : Dictrec} {l l' : Link} {op : LinkOp} {ops : List LinkOp}

/-- The rule of each step of a connection. -/
inductive LinkStep (D : Dictionary) (tryit : Dictrec) (l : Link) : LinkOp → Link → Prop
  | call (w : Word) (hpc : l.pc = .idle) :
      LinkStep D tryit l (.client (.call w)) { l with pc := .send, sought := l.sought.setWord w }
  | connect (hpc : l.pc = .send) (hconnected : l.connected = false) :
      LinkStep D tryit l (.client .connect) { l with connected := true }
  | send (hpc : l.pc = .send) (hconnected : l.connected = true) :
      LinkStep D tryit l (.client (.send l.sought))
        { l with pc := .recv, up := l.up ++ l.sought.bytes }
  | recv {bytes rest : List UInt8} (hpc : l.pc = .recv) (hsize : bytes.length ≤ Dictrec.size)
      (hdown : l.down = bytes ++ rest) (hend : bytes = [] → l.down = [] ∧ l.child = .ended) :
      LinkStep D tryit l (.client (.recv bytes))
        { l with pc := .idle, sought := l.sought.recv bytes, down := rest }
  | leave (hpc : l.pc ≠ .dead) : LinkStep D tryit l (.client .leave) { l with pc := .dead }
  | serve {p : Piece} {mapped : Bool} {t : Dictrec} {rest : List UInt8}
      (hchild : l.child = .running mapped t) (hup : l.up = p.bytes ++ rest) :
      LinkStep D tryit l (.child (.serve p))
        { l with
          up := rest, down := l.down ++ (reply D (t.recv p.bytes)).bytes,
          child := .running true (reply D (t.recv p.bytes)) }
  | unavail {p : Piece} {t : Dictrec} {rest : List UInt8} (hchild : l.child = .running false t)
      (hup : l.up = p.bytes ++ rest) :
      LinkStep D tryit l (.child (.unavail p)) { l with up := rest, child := .ended }
  | stop {mapped : Bool} {t : Dictrec} (hchild : l.child = .running mapped t)
      (hpc : l.pc = .dead) : LinkStep D tryit l (.child .stop) { l with child := .ended }
  | accept (hconnected : l.connected = true) (hchild : l.child = .waiting) :
      LinkStep D tryit l .accept { l with child := .running false tryit }
  | fail : LinkStep D tryit l .fail l.fail

theorem LinkStep.of_client {op : ClientOp} (h : l.clientNext op = some l') :
    LinkStep D tryit l (.client op) l' := by
  cases op with
  | call w =>
      obtain ⟨hpc, h⟩ := Option.ite_none_right_eq_some.mp h
      cases h
      exact .call w hpc
  | connect =>
      obtain ⟨⟨hpc, hconnected⟩, h⟩ := Option.ite_none_right_eq_some.mp h
      cases h
      exact .connect hpc hconnected
  | send r =>
      obtain ⟨⟨hpc, hconnected, rfl⟩, h⟩ := Option.ite_none_right_eq_some.mp h
      cases h
      exact .send hpc hconnected
  | recv bytes =>
      obtain ⟨⟨hpc, hsize, ⟨rest, hdown⟩, hend⟩, h⟩ := Option.ite_none_right_eq_some.mp h
      cases h
      rw [← hdown, List.drop_left]
      exact .recv hpc hsize hdown.symm hend
  | leave =>
      obtain ⟨hpc, h⟩ := Option.ite_none_right_eq_some.mp h
      cases h
      exact .leave hpc

theorem LinkStep.of_child {op : ChildOp} (h : l.childNext D op = some l') :
    LinkStep D tryit l (.child op) l' := by
  cases op with
  | serve p =>
      rcases hchild : l.child with - | ⟨mapped, t⟩ | -
      all_goals simp only [Link.childNext, hchild] at h
      · cases h
      · obtain ⟨⟨rest, hup⟩, h⟩ := Option.ite_none_right_eq_some.mp h
        rw [serve_eq] at h
        cases h
        rw [← hup, List.drop_left]
        exact .serve hchild hup.symm
      · cases h
  | unavail p =>
      rcases hchild : l.child with - | ⟨mapped, t⟩ | -
      all_goals simp only [Link.childNext, hchild] at h
      · cases h
      · cases mapped with
        | true => cases h
        | false =>
            obtain ⟨⟨rest, hup⟩, h⟩ := Option.ite_none_right_eq_some.mp h
            cases h
            rw [← hup, List.drop_left]
            exact .unavail hchild hup.symm
      · cases h
  | stop =>
      rcases hchild : l.child with - | ⟨mapped, t⟩ | -
      all_goals simp only [Link.childNext, hchild] at h
      · cases h
      · obtain ⟨hpc, h⟩ := Option.ite_none_right_eq_some.mp h
        cases h
        exact .stop hchild hpc
      · cases h

theorem LinkStep.of_step (h : (linkage D tryit).step l op l') : LinkStep D tryit l op l' := by
  have h : l.next D tryit op = some l' := h
  cases op with
  | client op => exact .of_client h
  | child op => exact .of_child h
  | accept =>
      obtain ⟨⟨hconnected, hchild⟩, h⟩ := Option.ite_none_right_eq_some.mp h
      cases h
      exact .accept hconnected hchild
  | fail =>
      cases h
      exact .fail

/-- The words asked for. -/
def queries (ops : List LinkOp) : List Word :=
  ops.filterMap fun
    | .client (.call w) => some w
    | _ => none

/-- The pieces that the child has answered. -/
def pieces (ops : List LinkOp) : List Piece :=
  ops.filterMap fun
    | .child (.serve p) => some p
    | _ => none

/-- What the client has sent. -/
def sent (ops : List LinkOp) : List UInt8 :=
  ops.flatMap fun
    | .client (.send r) => r.bytes
    | _ => []

/-- What the client has received. -/
def received (ops : List LinkOp) : List UInt8 :=
  ops.flatMap fun
    | .client (.recv bytes) => bytes
    | _ => []

theorem queries_append (ops ops' : List LinkOp) :
    queries (ops ++ ops') = queries ops ++ queries ops' := List.filterMap_append

theorem pieces_append (ops ops' : List LinkOp) :
    pieces (ops ++ ops') = pieces ops ++ pieces ops' := List.filterMap_append

theorem sent_append (ops ops' : List LinkOp) : sent (ops ++ ops') = sent ops ++ sent ops' :=
  List.flatMap_append

theorem received_append (ops ops' : List LinkOp) :
    received (ops ++ ops') = received ops ++ received ops' := List.flatMap_append

/-- What is in `tryit` after the dialogue about `ps`. -/
def lastTryit (D : Dictionary) (tryit : Dictrec) (ps : List Piece) : Dictrec :=
  ps.foldl (fun t p ↦ reply D (t.recv p.bytes)) tryit

theorem dialogue_concat (D : Dictionary) (tryit : Dictrec) (ps : List Piece) (p : Piece) :
    dialogue D tryit (ps ++ [p]) =
      dialogue D tryit ps ++ [Turn.of D ((lastTryit D tryit ps).recv p.bytes)] := by
  induction ps generalizing tryit with
  | nil => exact dialogue_cons _ _ _
  | cons p' ps ih => rw [List.cons_append, dialogue_cons, ih, dialogue_cons]; rfl

/-- What the child has been sent is what it has answered, and what it has answered is what it has
sent, up to what is on its way. -/
structure Conveyed (D : Dictionary) (tryit : Dictrec) (ops : List LinkOp) (l : Link) : Prop where
  waiting : l.child = .waiting → pieces ops = []
  running : ∀ mapped t, l.child = .running mapped t → t = lastTryit D tryit (pieces ops)
  up : l.child ≠ .ended → sent ops = stream (pieces ops) ++ l.up
  sent : stream (pieces ops) <+: sent ops
  down : received ops ++ l.down = (dialogue D tryit (pieces ops)).flatMap fun x ↦ x.sent.bytes

/-- A step that conveys nothing. -/
theorem Conveyed.quiet {op : LinkOp} (h : Conveyed D tryit ops l) (hpieces : pieces [op] = [])
    (hsent : Forking.sent [op] = []) (hreceived : received [op] = [])
    (hchild : l'.child = l.child ∨ l'.child = .ended ∨
      l.child = .waiting ∧ l'.child = .running false tryit)
    (hup : l'.child ≠ .ended → l'.up = l.up) (hdown : l'.down = l.down) :
    Conveyed D tryit (ops ++ [op]) l' := by
  have hpieces : pieces (ops ++ [op]) = pieces ops := by
    rw [pieces_append, hpieces, List.append_nil]
  have hsent : Forking.sent (ops ++ [op]) = Forking.sent ops := by
    rw [sent_append, hsent, List.append_nil]
  have hreceived : received (ops ++ [op]) = received ops := by
    rw [received_append, hreceived, List.append_nil]
  refine ⟨?_, ?_, ?_, ?_, ?_⟩
  · rw [hpieces]
    rcases hchild with hchild | hchild | ⟨-, hchild⟩
    · rw [hchild]
      exact h.waiting
    all_goals rw [hchild]; exact fun hwaiting ↦ nomatch hwaiting
  · rw [hpieces]
    rcases hchild with hchild | hchild | ⟨hwaiting, hchild⟩
    · rw [hchild]
      exact h.running
    · rw [hchild]
      exact fun _ _ hrunning ↦ nomatch hrunning
    · rintro mapped t hrunning
      rw [hchild] at hrunning
      cases hrunning
      rw [h.waiting hwaiting]
      rfl
  · intro hended
    rw [hsent, hpieces, hup hended]
    refine h.up fun hl ↦ ?_
    rcases hchild with hchild | hchild | ⟨hwaiting, -⟩
    · exact hended (hchild.trans hl)
    · exact hended hchild
    · rw [hl] at hwaiting
      cases hwaiting
  · rw [hsent, hpieces]
    exact h.sent
  · rw [hreceived, hpieces, hdown]
    exact h.down

theorem Conveyed.step {op : LinkOp} (h : Conveyed D tryit ops l)
    (hs : LinkStep D tryit l op l') : Conveyed D tryit (ops ++ [op]) l' := by
  cases hs with
  | call | connect | leave => exact h.quiet rfl rfl rfl (.inl rfl) (fun _ ↦ rfl) rfl
  | stop => exact h.quiet rfl rfl rfl (.inr (.inl rfl)) (fun hne ↦ absurd rfl hne) rfl
  | unavail => exact h.quiet rfl rfl rfl (.inr (.inl rfl)) (fun hne ↦ absurd rfl hne) rfl
  | accept _ hchild => exact h.quiet rfl rfl rfl (.inr (.inr ⟨hchild, rfl⟩)) (fun _ ↦ rfl) rfl
  | fail =>
      unfold Link.fail
      split
      · exact h.quiet rfl rfl rfl (.inr (.inl rfl)) (fun hne ↦ absurd rfl hne) rfl
      · exact h.quiet rfl rfl rfl (.inl rfl) (fun _ ↦ rfl) rfl
  | send =>
      have hpieces : pieces (ops ++ [.client (.send l.sought)]) = pieces ops := by
        rw [pieces_append]
        exact List.append_nil _
      have hreceived : received (ops ++ [.client (.send l.sought)]) = received ops := by
        rw [received_append]
        exact List.append_nil _
      have hsent : Forking.sent (ops ++ [.client (.send l.sought)]) =
          Forking.sent ops ++ l.sought.bytes := by
        rw [sent_append]
        exact congrArg _ (List.append_nil _)
      refine ⟨?_, ?_, fun hended ↦ ?_, ?_, ?_⟩
      · rw [hpieces]
        exact h.waiting
      · rw [hpieces]
        exact h.running
      · rw [hsent, hpieces, h.up hended, List.append_assoc]
      · rw [hsent, hpieces]
        exact h.sent.trans (List.prefix_append _ _)
      · rw [hreceived, hpieces]
        exact h.down
  | @recv bytes rest _ _ hdown =>
      have hpieces : pieces (ops ++ [.client (.recv bytes)]) = pieces ops := by
        rw [pieces_append]
        exact List.append_nil _
      have hsent : Forking.sent (ops ++ [.client (.recv bytes)]) = Forking.sent ops := by
        rw [sent_append]
        exact List.append_nil _
      have hreceived : received (ops ++ [.client (.recv bytes)]) = received ops ++ bytes := by
        rw [received_append]
        exact congrArg _ (List.append_nil _)
      refine ⟨?_, ?_, ?_, ?_, ?_⟩
      · rw [hpieces]
        exact h.waiting
      · rw [hpieces]
        exact h.running
      · rw [hsent, hpieces]
        exact h.up
      · rw [hsent, hpieces]
        exact h.sent
      · rw [hreceived, hpieces, List.append_assoc, ← hdown]
        exact h.down
  | @serve p mapped t rest hchild hup =>
      have hpieces : pieces (ops ++ [.child (.serve p)]) = pieces ops ++ [p] := by
        rw [pieces_append]
        rfl
      have hsent : Forking.sent (ops ++ [.child (.serve p)]) = Forking.sent ops := by
        rw [sent_append]
        exact List.append_nil _
      have hreceived : received (ops ++ [.child (.serve p)]) = received ops := by
        rw [received_append]
        exact List.append_nil _
      have hstream : stream (pieces ops ++ [p]) = stream (pieces ops) ++ p.bytes := by
        rw [stream, List.flatMap_append, List.flatMap_singleton]
        rfl
      have hlast := h.running mapped t hchild
      have hsum := h.up (by rw [hchild]; exact Child.noConfusion)
      rw [hup, ← List.append_assoc] at hsum
      refine ⟨Child.noConfusion, ?_, fun _ ↦ ?_, ?_, ?_⟩
      · rintro mapped' t' hrunning
        cases hrunning
        rw [hpieces, hlast, lastTryit, lastTryit, List.foldl_concat]
      · rw [hsent, hpieces, hstream, hsum]
      · rw [hsent, hpieces, hstream, hsum]
        exact List.prefix_append _ _
      · rw [hreceived, hpieces, dialogue_concat, List.flatMap_append, List.flatMap_singleton,
          ← hlast, ← h.down, List.append_assoc]
        rfl

theorem conveyed (h : (linkage D tryit).Run ops l) : Conveyed D tryit ops l := by
  refine h.induction (P := fun ops l ↦ Conveyed D tryit ops l) (fun l hl ↦ ?_)
    fun _ _ _ _ _ hconveyed hs ↦ hconveyed.step (.of_step hs)
  have hl : l.Init := hl
  refine ⟨fun _ ↦ rfl, fun _ _ hrunning ↦ ?_, fun _ ↦ hl.up.symm, List.prefix_rfl, hl.down⟩
  rw [hl.child] at hrunning
  cases hrunning

/-- The steps of the client `i`, of its child, and of the parent as far as they concern them. -/
def own {ι : Type u} [DecidableEq ι] (i : ι) (tr : List (Label ι)) : List LinkOp :=
  tr.filterMap (Label.view i)

/-- **What a client is sent is the dialogue of its own child**: about the pieces of what it has sent
itself, and with nothing in it from other connections. -/
theorem dialogues {ι : Type u} [DecidableEq ι] {tr : List (Label ι)} {s : State ι}
    (h : (forking ι D tryit).Run tr s) (i : ι) :
    stream (pieces (own i tr)) <+: sent (own i tr) ∧
      received (own i tr) ++ (s.link i).down =
        (dialogue D tryit (pieces (own i tr))).flatMap fun x ↦ x.sent.bytes := by
  have hconveyed := conveyed (run_link h i)
  exact ⟨hconveyed.sent, hconveyed.down⟩

/-! ## What a client gets -/

/-- What `recv` returns is a whole record. -/
def Uncut : LinkOp → Prop
  | .client (.recv bytes) => bytes.length = Dictrec.size
  | .child (.serve p) => p.bytes.length = Dictrec.size
  | _ => True

/-- What `main` makes of the lookup that returns with the step. -/
def result? (l : Link) : LinkOp → Option Result
  | .client (.recv bytes) =>
      (⟨code (l.sought.recv bytes), l.sought.recv bytes, l.sought⟩ : Returned Dictrec).result
  | _ => none

/-- The last word asked for is in the record, and the words before it have been answered. -/
def Waits (D : Dictionary) (ops : List LinkOp) (l : Link) (results : List Result) : Prop :=
  ∃ ws w, queries ops = ws ++ [w] ∧ results = ws.map (answered D) ∧ l.sought.word = w.bytes

/-- The request or its reply is on its way. -/
def InFlight (D : Dictionary) (l : Link) : Prop :=
  l.up = l.sought.bytes ∧ l.down = [] ∨ l.up = [] ∧ l.down = (reply D l.sought).bytes ∨
    l.child = .ended ∧ l.down = []

/-- There is at most one record in flight, and the client has got the answers to its words. -/
structure Asked (D : Dictionary) (ops : List LinkOp) (l : Link) (results : List Result) :
    Prop where
  idle : l.pc = .idle → l.up = [] ∧ l.down = [] ∧ results = (queries ops).map (answered D)
  send : l.pc = .send → l.up = [] ∧ l.down = [] ∧ Waits D ops l results
  recv : l.pc = .recv → InFlight D l ∧ Waits D ops l results
  isPrefix : results <+: (queries ops).map (answered D)

variable {results : List Result}

/-- Where one list of bytes is the beginning of the other and as long, they are the same. -/
theorem eq_of_append_eq {bytes rest whole : List UInt8} (h : whole = bytes ++ rest)
    (hlen : bytes.length = whole.length) : bytes = whole ∧ rest = [] := by
  have hrest : rest = [] := by
    have := congrArg List.length h
    rw [List.length_append] at this
    exact List.eq_nil_of_length_eq_zero (by omega)
  rw [h, hrest, List.append_nil]
  exact ⟨rfl, rfl⟩

theorem append_ne_nil_of_piece (p : Piece) (rest : List UInt8) : p.bytes ++ rest ≠ [] :=
  List.append_ne_nil_of_left_ne_nil (List.ne_nil_of_length_pos p.length_pos) rest

/-- A step with which the client neither asks nor gets an answer. -/
theorem Asked.quiet (h : Asked D ops l results) (hqueries : queries [op] = [])
    (hresult : result? l op = none) (hsought : l'.sought = l.sought)
    (hidle : l'.pc = .idle → l.pc = .idle ∧ l'.up = l.up ∧ l'.down = l.down)
    (hsend : l'.pc = .send → l.pc = .send ∧ l'.up = l.up ∧ l'.down = l.down)
    (hrecv : l'.pc = .recv → (l.pc = .recv ∨ l.pc = .send) ∧ InFlight D l') :
    Asked D (ops ++ [op]) l' (results ++ (result? l op).toList) := by
  have hqueries : queries (ops ++ [op]) = queries ops := by
    rw [queries_append, hqueries, List.append_nil]
  have hwaits : Waits D ops l results → Waits D (ops ++ [op]) l' results := by
    rintro ⟨ws, w, hws, hresults, hword⟩
    exact ⟨ws, w, hqueries.trans hws, hresults, hsought ▸ hword⟩
  rw [hresult, Option.toList_none, List.append_nil]
  refine ⟨fun hpc ↦ ?_, fun hpc ↦ ?_, fun hpc ↦ ?_, ?_⟩
  · obtain ⟨hpc, hup, hdown⟩ := hidle hpc
    rw [hup, hdown, hqueries]
    exact h.idle hpc
  · obtain ⟨hpc, hup, hdown⟩ := hsend hpc
    obtain ⟨hl, hl', hl''⟩ := h.send hpc
    rw [hup, hdown]
    exact ⟨hl, hl', hwaits hl''⟩
  · obtain ⟨hpc | hpc, hflight⟩ := hrecv hpc
    · exact ⟨hflight, hwaits (h.recv hpc).2⟩
    · exact ⟨hflight, hwaits (h.send hpc).2.2⟩
  · rw [hqueries]
    exact h.isPrefix

theorem Asked.step (h : Asked D ops l results) (hs : LinkStep D tryit l op l') (hop : Uncut op) :
    Asked D (ops ++ [op]) l' (results ++ (result? l op).toList) := by
  cases hs with
  | call w hpc =>
      obtain ⟨hup, hdown, hresults⟩ := h.idle hpc
      have hqueries : queries (ops ++ [.client (.call w)]) = queries ops ++ [w] := by
        rw [queries_append]
        rfl
      rw [show result? l (.client (.call w)) = none from rfl, Option.toList_none, List.append_nil]
      refine ⟨(nomatch ·), fun _ ↦ ⟨hup, hdown, queries ops, w, hqueries, hresults, ?_⟩,
        (nomatch ·), ?_⟩
      · exact l.sought.word_setWord w
      · rw [hqueries, List.map_append, hresults]
        exact List.prefix_append _ _
  | connect hpc =>
      exact h.quiet rfl rfl rfl (fun hpc ↦ ⟨hpc, rfl, rfl⟩) (fun hpc ↦ ⟨hpc, rfl, rfl⟩)
        fun hrecv ↦ absurd (hpc.symm.trans hrecv) (by decide)
  | send hpc =>
      obtain ⟨hup, hdown, -⟩ := h.send hpc
      refine h.quiet rfl rfl rfl (nomatch ·) (nomatch ·) fun _ ↦ ⟨.inr hpc, .inl ⟨?_, hdown⟩⟩
      rw [hup]
      exact List.nil_append _
  | @recv bytes rest hpc hsize hdown =>
      obtain ⟨hflight, ws, w, hws, hresults, hword⟩ := h.recv hpc
      have hne : l.down ≠ [] := by
        rintro hnil
        rw [hnil] at hdown
        have hlen : bytes.length = Dictrec.size := hop
        rw [(List.append_eq_nil_iff.mp hdown.symm).1] at hlen
        exact absurd hlen (by decide)
      obtain ⟨hup, hreply⟩ : l.up = [] ∧ l.down = (reply D l.sought).bytes := by
        rcases hflight with ⟨-, hnil⟩ | hreply | ⟨-, hnil⟩
        · exact absurd hnil hne
        · exact hreply
        · exact absurd hnil hne
      obtain ⟨hbytes, rfl⟩ := eq_of_append_eq (hreply.symm.trans hdown)
        ((show bytes.length = _ from hop).trans (Dictrec.length_eq _).symm)
      have hresult : result? l (.client (.recv bytes)) = some (answered D w) := by
        rw [result?, hbytes, Dictrec.recv_bytes]
        exact result_of_text (text_reply hword)
      have hqueries : queries (ops ++ [.client (.recv bytes)]) = queries ops := by
        rw [queries_append]
        exact List.append_nil _
      have hall : results ++ [answered D w] = (queries ops).map (answered D) := by
        rw [hws, hresults, List.map_append]
        rfl
      rw [hresult, Option.toList_some, hall]
      refine ⟨fun _ ↦ ⟨hup, rfl, by rw [hqueries]⟩, (nomatch ·), (nomatch ·), ?_⟩
      rw [hqueries]
  | leave => exact h.quiet rfl rfl rfl (nomatch ·) (nomatch ·) (nomatch ·)
  | @serve p mapped t rest hchild hup =>
      have hne : l.up ≠ [] := hup ▸ append_ne_nil_of_piece p rest
      refine h.quiet rfl rfl rfl (fun hpc ↦ absurd (h.idle hpc).1 hne)
        (fun hpc ↦ absurd (h.send hpc).1 hne) fun hpc ↦ ⟨.inl hpc, ?_⟩
      rcases (h.recv hpc).1 with ⟨hrequest, hdown⟩ | ⟨hnil, -⟩ | ⟨hended, -⟩
      · obtain ⟨hbytes, rfl⟩ := eq_of_append_eq (hrequest.symm.trans hup)
          ((show p.bytes.length = _ from hop).trans (Dictrec.length_eq _).symm)
        refine .inr (.inl ⟨rfl, ?_⟩)
        rw [hbytes, Dictrec.recv_bytes, hdown]
        rfl
      · exact absurd hnil hne
      · rw [hchild] at hended
        cases hended
  | @unavail p t rest hchild hup =>
      have hne : l.up ≠ [] := hup ▸ append_ne_nil_of_piece p rest
      refine h.quiet rfl rfl rfl (fun hpc ↦ absurd (h.idle hpc).1 hne)
        (fun hpc ↦ absurd (h.send hpc).1 hne) fun hpc ↦ ⟨.inl hpc, .inr (.inr ⟨rfl, ?_⟩)⟩
      rcases (h.recv hpc).1 with ⟨-, hdown⟩ | ⟨hnil, -⟩ | ⟨-, hdown⟩
      · exact hdown
      · exact absurd hnil hne
      · exact hdown
  | stop hchild hpc =>
      exact h.quiet rfl rfl rfl (fun hidle ↦ absurd (hpc.symm.trans hidle) (by decide))
        (fun hsend ↦ absurd (hpc.symm.trans hsend) (by decide))
        fun hrecv ↦ absurd (hpc.symm.trans hrecv) (by decide)
  | accept hconnected hchild =>
      refine h.quiet rfl rfl rfl (fun hpc ↦ ⟨hpc, rfl, rfl⟩) (fun hpc ↦ ⟨hpc, rfl, rfl⟩)
        fun hpc ↦ ⟨.inl hpc, ?_⟩
      refine (h.recv hpc).1.imp_right (Or.imp_right fun ⟨hended, _⟩ ↦ ?_)
      rw [hchild] at hended
      cases hended
  | fail =>
      unfold Link.fail
      split
      · exact h.quiet rfl rfl rfl (fun hpc ↦ ⟨hpc, rfl, rfl⟩) (fun hpc ↦ ⟨hpc, rfl, rfl⟩)
          fun hpc ↦ ⟨.inl hpc, (h.recv hpc).1.imp_right (Or.imp_right fun hended ↦ ⟨rfl, hended.2⟩)⟩
      · exact h.quiet rfl rfl rfl (fun hpc ↦ ⟨hpc, rfl, rfl⟩) (fun hpc ↦ ⟨hpc, rfl, rfl⟩)
          fun hpc ↦ ⟨.inl hpc, (h.recv hpc).1⟩

theorem asked {p : Link × List Result} (h : ((linkage D tryit).observe result?).Run ops p)
    (hops : ∀ op ∈ ops, Uncut op) : Asked D ops p.1 p.2 := by
  refine h.induction (P := fun ops p ↦ (∀ op ∈ ops, Uncut op) → Asked D ops p.1 p.2)
    (fun p hp _ ↦ ?_) (fun ops p op q _ ih hs hops ↦ ?_) hops
  · obtain ⟨hinit, hresults⟩ := hp
    have hinit : p.1.Init := hinit
    refine ⟨fun _ ↦ ⟨hinit.up, hinit.down, hresults⟩, fun hpc ↦ ?_, fun hpc ↦ ?_, ?_⟩
    · exact absurd (hinit.pc.symm.trans hpc) (by decide)
    · exact absurd (hinit.pc.symm.trans hpc) (by decide)
    · rw [hresults]
      exact List.nil_prefix
  · obtain ⟨hops, hop⟩ := List.forall_mem_append.mp hops
    rw [hs.2]
    exact (ih hops).step (.of_step hs.1) (hop op List.mem_cons_self)

/-! ## Many clients -/

/-- Who takes the step: `i`, its child, or the parent when it accepts. -/
def Label.By {ι : Type u} (i : ι) : Label ι → Prop
  | .client j _ | .child j _ => j = i
  | .accept _ => True
  | .fail => False

section

variable {ι : Type u} [DecidableEq ι] {s s' : State ι} {i j : ι} {tr : List (Label ι)}
  {a : Label ι}

/-- What the step gives the client `i`. -/
def resultOf? (i : ι) (s : State ι) (a : Label ι) : Option Result :=
  (a.view i).bind (result? (s.link i))

theorem run_observed_link {p : State ι × List Result}
    (h : ((forking ι D tryit).observe (resultOf? i)).Run tr p) :
    ((linkage D tryit).observe result?).Run (own i tr) (p.1.link i, p.2) := by
  refine h.project (fun p ↦ (p.1.link i, p.2)) (Label.view i) ?_ ?_ ?_
  · rintro p ⟨hinit, hresults⟩
    exact ⟨Init.link hinit i, hresults⟩
  · rintro p a q ⟨hs, hresults⟩ hview
    rw [resultOf?, hview, Option.bind_none, Option.toList_none, List.append_nil] at hresults
    rw [(step_iff.mp hs).link_eq hview, hresults]
  · rintro p a q op ⟨hs, hresults⟩ hview
    rw [resultOf?, hview, Option.bind_some] at hresults
    exact ⟨(step_iff.mp hs).link_next hview, hresults⟩

/-- **Every client gets what a local lookup gives**, for the words that it asks for and in their
order, while others ask for theirs.  Its own records have to arrive whole; those of the others may
arrive as they like. -/
theorem all_answered {p : State ι × List Result}
    (h : ((forking ι D tryit).observe (resultOf? i)).Run tr p)
    (huncut : ∀ op ∈ own i tr, Uncut op) :
    p.2 <+: (queries (own i tr)).map (remote D) ∧
      ((p.1.link i).pc = .idle → p.2 = (queries (own i tr)).map (remote D)) := by
  have hasked := asked (run_observed_link h) huncut
  have hremote : answered D = remote D := funext (answered_eq_remote D)
  rw [← hremote]
  exact ⟨hasked.isPrefix, fun hpc ↦ (hasked.idle hpc).2.2⟩

theorem Link.not_waiting_fail (l : Link) :
    ¬ (l.fail.connected = true ∧ l.fail.child = .waiting) := by
  unfold Link.fail
  split
  · exact fun hwaits ↦ nomatch hwaits.2
  · next hwaits => exact hwaits

theorem Link.fail_of_unconnected {l : Link} (h : l.connected = false) : l.fail = l := by
  rw [Link.fail, if_neg fun hwaits ↦ absurd (hwaits.1.symm.trans h) (by decide)]

@[simp] theorem Link.connected_fail (l : Link) : l.fail.connected = l.connected := by
  unfold Link.fail
  split <;> rfl

/-- The connections that wait to be accepted. -/
structure Queued (s : State ι) : Prop where
  mem_iff : ∀ i, i ∈ s.pending ↔ (s.link i).connected = true ∧ (s.link i).child = .waiting
  unconnected : ∀ i, (s.link i).connected = false → (s.link i).child = .waiting
  nodup : s.pending.Nodup
  listening : s.pending ≠ [] → s.listening = true

/-- A step of `i` or its child that does not change whether it waits. -/
theorem Queued.setLink (h : Queued s) (hconnected : l.connected = (s.link i).connected)
    (hchild : l.child = .waiting ↔ (s.link i).child = .waiting) : Queued (s.setLink i l) := by
  have hlink : ∀ j, ((s.setLink i l).link j).connected = (s.link j).connected ∧
      (((s.setLink i l).link j).child = .waiting ↔ (s.link j).child = .waiting) := by
    intro j
    by_cases hji : j = i
    · subst hji
      simpa using ⟨hconnected, hchild⟩
    · simp [hji]
  refine ⟨fun j ↦ ?_, fun j hj ↦ ?_, h.nodup, h.listening⟩
  · rw [(hlink j).1, (hlink j).2]
    exact h.mem_iff j
  · rw [(hlink j).1] at hj
    exact (hlink j).2.mpr (h.unconnected j hj)

theorem Queued.step (h : Queued s) (hs : Step D tryit s a s') : Queued s' := by
  cases hs with
  | @connect i l hlistening hroom hl =>
      have hstep : LinkStep D tryit _ _ l := .of_client hl
      cases hstep with
      | connect hpc hconnected =>
          have hi : i ∉ s.pending := by
            rw [h.mem_iff, hconnected]
            exact fun hwaits ↦ nomatch hwaits.1
          have hnodup : (s.pending ++ [i]).Nodup :=
            List.nodup_append'.mpr ⟨h.nodup, List.nodup_singleton i, List.disjoint_singleton.mpr hi⟩
          refine ⟨fun j ↦ ?_, fun j hj ↦ ?_, hnodup, fun _ ↦ hlistening⟩
          · rw [List.mem_append, List.mem_singleton]
            by_cases hji : j = i
            · subst hji
              simpa using h.unconnected j hconnected
            · simpa [hji] using h.mem_iff j
          · by_cases hji : j = i
            · subst hji
              simp at hj
            · simp only [State.link_setLink, Function.update_of_ne hji] at hj ⊢
              exact h.unconnected j hj
  | @client i op l hop hl =>
      have hstep : LinkStep D tryit _ _ l := .of_client hl
      cases hstep with
      | connect => exact absurd rfl hop
      | call | send | recv | leave => exact h.setLink rfl Iff.rfl
  | @child i op l hl =>
      have hstep : LinkStep D tryit _ _ l := .of_child hl
      cases hstep with
      | serve hchild | unavail hchild | stop hchild =>
          refine h.setLink rfl ?_
          rw [hchild]
          exact ⟨(nomatch ·), (nomatch ·)⟩
  | @accept i rest l hlistening hpending hl =>
      have hnodup := h.nodup
      rw [hpending, List.nodup_cons] at hnodup
      obtain ⟨⟨hconnected, hchild⟩, hl⟩ := Option.ite_none_right_eq_some.mp hl
      cases hl
      refine ⟨fun j ↦ ?_, fun j hj ↦ ?_, hnodup.2, fun _ ↦ hlistening⟩
      · by_cases hji : j = i
        · subst hji
          simpa using hnodup.1
        · have hmem := h.mem_iff j
          rw [hpending, List.mem_cons, or_iff_right hji] at hmem
          simpa [hji] using hmem
      · by_cases hji : j = i
        · subst hji
          simp [hconnected] at hj
        · simp only [State.link_setLink, Function.update_of_ne hji] at hj ⊢
          exact h.unconnected j hj
  | fail hlistening =>
      refine ⟨fun j ↦ ?_, fun j hj ↦ ?_, List.nodup_nil, fun hne ↦ absurd rfl hne⟩
      · exact iff_of_false List.not_mem_nil (s.link j).not_waiting_fail
      · have hj : (s.link j).connected = false := (s.link j).connected_fail.symm.trans hj
        show (s.link j).fail.child = .waiting
        rw [Link.fail_of_unconnected hj]
        exact h.unconnected j hj

theorem queued (h : (forking ι D tryit).Run tr s) : Queued s := by
  refine h.induction (P := fun _ s ↦ Queued s) (fun s hs ↦ ?_) fun _ _ _ _ _ hqueued hs ↦
    hqueued.step (step_iff.mp hs)
  have hs : Init s := hs
  refine ⟨fun i ↦ ?_, fun i _ ↦ (hs.link i).child, ?_, fun _ ↦ hs.listening⟩
  · rw [hs.pending, (hs.link i).connected]
    exact iff_of_false List.not_mem_nil fun hwaits ↦ nomatch hwaits.1
  · rw [hs.pending]
    exact List.nodup_nil

/-- The parent accepts the oldest connection. -/
theorem exists_accept (D : Dictionary) (tryit : Dictrec) {rest : List ι} (h : Queued s)
    (hpending : s.pending = i :: rest) :
    ∃ s', (forking ι D tryit).step s (.accept i) s' ∧ s'.pending = rest ∧
      s'.link i = { s.link i with child := .running false tryit } ∧
      ∀ j ≠ i, s'.link j = s.link j := by
  have hwaits := (h.mem_iff i).mp (hpending ▸ List.mem_cons_self)
  have hlistening := h.listening (hpending ▸ List.cons_ne_nil _ _)
  exact ⟨_, step_iff.mpr (.accept hlistening hpending (if_pos hwaits)), rfl, by simp,
    fun j hj ↦ by simp [hj]⟩

/-- The request as it is received in one piece. -/
def Dictrec.piece (r : Dictrec) : Piece :=
  ⟨r.bytes, r.length_eq ▸ by decide, r.length_eq.le⟩

/-- The child answers the request. -/
theorem exists_served (D : Dictionary) (tryit : Dictrec) {mapped : Bool} {t : Dictrec}
    (hchild : (s.link i).child = .running mapped t)
    (hup : (s.link i).up = (s.link i).sought.bytes) (hdown : (s.link i).down = []) :
    ∃ s', (forking ι D tryit).step s (.child i (.serve (Dictrec.piece (s.link i).sought))) s' ∧
      s'.link i = { s.link i with
        up := [], down := (reply D (s.link i).sought).bytes,
        child := .running true (reply D (s.link i).sought) } := by
  have hnext : (s.link i).childNext D (.serve (Dictrec.piece (s.link i).sought)) =
      some { s.link i with
        up := [], down := (reply D (s.link i).sought).bytes,
        child := .running true (reply D (s.link i).sought) } := by
    simp [Link.childNext, hchild, hup, hdown, Dictrec.piece, serve_eq]
  exact ⟨_, step_iff.mpr (.child hnext), by simp⟩

/-- The client receives the reply. -/
theorem exists_received (D : Dictionary) (tryit : Dictrec) (hpc : (s.link i).pc = .recv)
    (hdown : (s.link i).down = (reply D (s.link i).sought).bytes) :
    ∃ s', (forking ι D tryit).step s (.client i (.recv (reply D (s.link i).sought).bytes)) s' ∧
      (s'.link i).pc = .idle := by
  have hne : (reply D (s.link i).sought).bytes ≠ [] :=
    List.ne_nil_of_length_pos ((Dictrec.length_eq _).symm ▸ by decide)
  have hnext : (s.link i).clientNext (.recv (reply D (s.link i).sought).bytes) =
      some { s.link i with
        pc := .idle, sought := (s.link i).sought.recv (reply D (s.link i).sought).bytes,
        down := (s.link i).down.drop (reply D (s.link i).sought).bytes.length } := by
    refine if_pos ⟨hpc, (Dictrec.length_eq _).le, ?_, fun hnil ↦ absurd hnil hne⟩
    rw [hdown]
  exact ⟨_, step_iff.mpr (.client (nomatch ·) hnext), by simp⟩

/-- A client is connected when it waits for a reply. -/
theorem connected_of_recv (h : (linkage D tryit).Run ops l) :
    l.pc = .recv → l.connected = true := by
  refine h.induction (P := fun _ l ↦ l.pc = .recv → l.connected = true) (fun l hl hpc ↦ ?_)
    fun _ l _ l' _ ih hs ↦ ?_
  · have hl : l.Init := hl
    exact absurd (hl.pc.symm.trans hpc) (by decide)
  · cases LinkStep.of_step hs with
    | call | recv | leave => exact (nomatch ·)
    | connect => exact fun _ ↦ rfl
    | send _ hconnected => exact fun _ ↦ hconnected
    | serve | unavail | stop | accept => exact ih
    | fail =>
        intro hpc
        rw [Link.connected_fail]
        refine ih ?_
        rw [← hpc]
        unfold Link.fail
        split <;> rfl

theorem inFlight (h : (linkage D tryit).Run ops l) (hops : ∀ op ∈ ops, Uncut op)
    (hpc : l.pc = .recv) : InFlight D l := by
  obtain ⟨results, h⟩ := h.exists_observe result?
  exact ((asked h hops).recv hpc).1

/-- The request or its reply is on its way, or a part of one of them, unless the child is gone. -/
theorem size_le_flight (h : (linkage D tryit).Run ops l) :
    l.pc = .recv → l.child ≠ .ended → Dictrec.size ≤ l.up.length + l.down.length := by
  refine h.induction (P := fun _ l ↦ l.pc = .recv → l.child ≠ .ended →
    Dictrec.size ≤ l.up.length + l.down.length) (fun l hl hpc ↦ ?_) fun _ l _ l' _ ih hs ↦ ?_
  · have hl : l.Init := hl
    exact absurd (hl.pc.symm.trans hpc) (by decide)
  · cases LinkStep.of_step hs with
    | call | recv | leave => exact (nomatch ·)
    | connect hpc => exact fun hrecv ↦ absurd (hpc.symm.trans hrecv) (by decide)
    | send =>
        intro _ _
        rw [List.length_append, l.sought.length_eq]
        omega
    | @serve p mapped t rest hchild hup =>
        -- a reply is at least as long as the piece that it answers
        intro hpc _
        have hle := ih hpc (by rw [hchild]; exact (nomatch ·))
        have hpiece := p.length_le
        rw [hup, List.length_append] at hle
        rw [List.length_append, Dictrec.length_eq]
        omega
    | unavail | stop => exact fun _ hended ↦ absurd rfl hended
    | accept _ hchild => exact fun hpc _ ↦ ih hpc (by rw [hchild]; exact (nomatch ·))
    | fail =>
        unfold Link.fail
        split
        · exact fun _ hended ↦ absurd rfl hended
        · exact ih

/-- The lookup of `i` returns after steps of `i`, of its child and of the parent, and what the
connection sees of them satisfies `G`. -/
def Returns (D : Dictionary) (tryit : Dictrec) (i : ι) (G : LinkOp → Prop) (s : State ι) : Prop :=
  ∃ tr t, (forking ι D tryit).Path s tr t ∧ (∀ a ∈ tr, a.By i) ∧
    (∀ op ∈ own i tr, G op) ∧ (t.link i).pc = .idle

variable {G : LinkOp → Prop}

theorem Returns.cons (h : Returns D tryit i G s') (hs : (forking ι D tryit).step s a s')
    (hby : a.By i) (hG : ∀ op, a.view i = some op → G op) : Returns D tryit i G s := by
  obtain ⟨tr, t, hpath, hbys, hGs, hpc⟩ := h
  refine ⟨a :: tr, t, (Lts.Path.single hs).trans hpath, List.forall_mem_cons.mpr ⟨hby, hbys⟩,
    fun op hop ↦ ?_, hpc⟩
  obtain ⟨b, hb, hview⟩ := List.mem_filterMap.mp hop
  rcases List.mem_cons.mp hb with rfl | hb
  · exact hG op hview
  · exact hGs op (List.mem_filterMap.mpr ⟨b, hb, hview⟩)

/-- The lookup returns with the next step. -/
theorem Returns.of_step (hs : (forking ι D tryit).step s a s') (hpc : (s'.link i).pc = .idle)
    (hby : a.By i) (hG : ∀ op, a.view i = some op → G op) : Returns D tryit i G s :=
  Returns.cons ⟨[], s', .nil, by simp, by simp [own], hpc⟩ hs hby hG

theorem returns_of_down (hpc : (s.link i).pc = .recv)
    (hdown : (s.link i).down = (reply D (s.link i).sought).bytes) :
    Returns D tryit i Uncut s := by
  obtain ⟨s', hs, hidle⟩ := exists_received D tryit hpc hdown
  refine Returns.of_step hs hidle rfl fun op hop ↦ ?_
  rw [Label.view, if_pos rfl] at hop
  cases hop
  exact Dictrec.length_eq _

theorem returns_of_running {mapped : Bool} {t : Dictrec}
    (hchild : (s.link i).child = .running mapped t) (hpc : (s.link i).pc = .recv)
    (hflight : InFlight D (s.link i)) : Returns D tryit i Uncut s := by
  rcases hflight with ⟨hup, hdown⟩ | ⟨-, hdown⟩ | ⟨hended, -⟩
  · obtain ⟨s', hs, hlink⟩ := exists_served D tryit hchild hup hdown
    have hpc : (s'.link i).pc = .recv := by rw [hlink, hpc]
    have hdown : (s'.link i).down = (reply D (s'.link i).sought).bytes := by rw [hlink]
    refine (returns_of_down hpc hdown).cons hs rfl fun op hop ↦ ?_
    rw [Label.view, if_pos rfl] at hop
    cases hop
    exact Dictrec.length_eq _
  · exact returns_of_down hpc hdown
  · rw [hchild] at hended
    cases hended

/-- `recv` returns what there is of a reply. -/
theorem returns_of_down_ne_nil (hpc : (s.link i).pc = .recv) (hdown : (s.link i).down ≠ []) :
    Returns D tryit i (fun _ ↦ True) s := by
  have hne : (s.link i).down.take Dictrec.size ≠ [] := by
    rw [Ne, List.take_eq_nil_iff, not_or]
    exact ⟨by decide, hdown⟩
  have hnext : (s.link i).clientNext (.recv ((s.link i).down.take Dictrec.size)) = some _ :=
    if_pos ⟨hpc, List.length_take_le _ _, List.take_prefix _ _, fun hnil ↦ absurd hnil hne⟩
  have hs : Step D tryit s (.client i (.recv ((s.link i).down.take Dictrec.size))) _ :=
    .client (nomatch ·) hnext
  exact Returns.of_step (step_iff.mpr hs) (by simp) rfl fun _ _ ↦ trivial

/-- The child answers what there is of a request. -/
theorem returns_of_bytes {mapped : Bool} {t : Dictrec}
    (hchild : (s.link i).child = .running mapped t) (hpc : (s.link i).pc = .recv)
    (hflight : Dictrec.size ≤ (s.link i).up.length + (s.link i).down.length) :
    Returns D tryit i (fun _ ↦ True) s := by
  by_cases hdown : (s.link i).down = []
  · have hup : Dictrec.size ≤ (s.link i).up.length := by
      rwa [hdown, List.length_nil, Nat.add_zero] at hflight
    have hlength : ((s.link i).up.take Dictrec.size).length = Dictrec.size := by
      rw [List.length_take, Nat.min_eq_left hup]
    let p : Piece := ⟨(s.link i).up.take Dictrec.size, hlength.symm ▸ by decide, hlength.le⟩
    have hnext : (s.link i).childNext D (.serve p) = some { s.link i with
        up := (s.link i).up.drop p.bytes.length
        down := (s.link i).down ++ (reply D (t.recv p.bytes)).bytes
        child := .running true (reply D (t.recv p.bytes)) } := by
      have hprefix : p.bytes <+: (s.link i).up := List.take_prefix _ _
      simp [Link.childNext, hchild, hprefix, serve_eq]
    have hreply : (reply D (t.recv p.bytes)).bytes ≠ [] :=
      List.ne_nil_of_length_pos ((Dictrec.length_eq _).symm ▸ by decide)
    refine (returns_of_down_ne_nil ?_ ?_).cons (step_iff.mpr (.child hnext)) rfl
      fun _ _ ↦ trivial
    · simp [hpc]
    · simp [hreply]
  · exact returns_of_down_ne_nil hpc hdown

/-- The parent accepts the connections in front of that of `i`, and then it. -/
theorem returns_of_pending {pre post : List ι} (h : Queued s)
    (hpending : s.pending = pre ++ i :: post) (hG : G .accept)
    (hnext : ∀ s' : State ι, s'.link i = { s.link i with child := .running false tryit } →
      Returns D tryit i G s') : Returns D tryit i G s := by
  have hview : ∀ j op, Label.view i (.accept j) = some op → G op := by
    rintro j op hop
    obtain ⟨-, hop⟩ := Option.ite_none_right_eq_some.mp hop
    cases hop
    exact hG
  induction pre generalizing s with
  | nil =>
      obtain ⟨s', hs, -, hlink, -⟩ := exists_accept D tryit h hpending
      exact (hnext s' hlink).cons hs trivial (hview i)
  | cons j pre ih =>
      have hij : i ≠ j := by
        have hnodup := h.nodup
        rw [hpending, List.cons_append, List.nodup_cons] at hnodup
        rintro rfl
        exact hnodup.1 (List.mem_append_right _ List.mem_cons_self)
      obtain ⟨s', hs, hrest, -, hlink⟩ := exists_accept D tryit h hpending
      have hlink := hlink i hij
      refine (ih (h.step (step_iff.mp hs)) hrest ?_).cons hs trivial (hview j)
      rw [hlink]
      exact hnext

/-- A client that waits is not left waiting, where `G` lets a child that is running answer. -/
theorem returns_of_recv (h : (forking ι D tryit).Run tr s) (hpc : (s.link i).pc = .recv)
    (hchild : (s.link i).child ≠ .ended) (hG : G .accept)
    (hrunning : ∀ (s' : State ι) (mapped : Bool) (t : Dictrec),
      s'.link i = { s.link i with child := .running mapped t } → Returns D tryit i G s') :
    Returns D tryit i G s := by
  have hqueued := queued h
  rcases hl : (s.link i).child with - | ⟨mapped, t⟩ | -
  · have hmem := (hqueued.mem_iff i).mpr ⟨connected_of_recv (run_link h i) hpc, hl⟩
    obtain ⟨pre, post, hpending⟩ := List.append_of_mem hmem
    exact returns_of_pending hqueued hpending hG fun s' hlink ↦ hrunning s' false tryit hlink
  · refine hrunning s mapped t ?_
    rw [← hl]
  · exact absurd hl hchild

/-- **No client has to wait for another**: where its connection has not been closed, the lookup
returns with steps of its own, of its child and of the parent, whatever has been done before and
however many connections are to be accepted; and where its own records have arrived whole, they
need not be cut for it. -/
theorem answer_comes (h : (forking ι D tryit).Run tr s) (hpc : (s.link i).pc = .recv)
    (hchild : (s.link i).child ≠ .ended) :
    ∃ tr' t, (forking ι D tryit).Path s tr' t ∧ (∀ a ∈ tr', a.By i) ∧
      ((∀ op ∈ own i tr, Uncut op) → ∀ op ∈ own i tr', Uncut op) ∧ (t.link i).pc = .idle := by
  by_cases huncut : ∀ op ∈ own i tr, Uncut op
  · have hflight := inFlight (run_link h i) huncut hpc
    obtain ⟨tr', t, hpath, hby, huncuts, hidle⟩ := returns_of_recv (G := Uncut) h hpc hchild trivial
      fun s' mapped t hlink ↦ returns_of_running (by rw [hlink]) (by rw [hlink, hpc]) (by
        rw [hlink]
        exact hflight.imp_right (Or.imp_right fun hended ↦ absurd hended.1 hchild))
    exact ⟨tr', t, hpath, hby, fun _ ↦ huncuts, hidle⟩
  · have hflight := size_le_flight (run_link h i) hpc hchild
    obtain ⟨tr', t, hpath, hby, -, hidle⟩ := returns_of_recv (G := fun _ ↦ True) h hpc hchild
      trivial fun s' mapped t hlink ↦
        returns_of_bytes (by rw [hlink]) (by rw [hlink, hpc]) (by rw [hlink]; exact hflight)
    exact ⟨tr', t, hpath, hby, fun h ↦ absurd h huncut, hidle⟩

/-! ## Two clients at once -/

/-- A client that has not made a lookup. -/
def fresh : Link := ⟨.idle, .blank, false, [], [], .waiting⟩

/-- Its request for `w` has been sent. -/
def asking (w : Word) : Link :=
  ⟨.recv, Dictrec.blank.setWord w, true, (Dictrec.blank.setWord w).bytes, [], .waiting⟩

/-- The first lookup, up to the reply. -/
def asks (i : ι) (w : Word) : List (Label ι) :=
  [.client i (.call w), .client i .connect, .client i (.send (Dictrec.blank.setWord w))]

theorem exists_asking (D : Dictionary) (tryit : Dictrec) (hlink : s.link i = fresh)
    (hlistening : s.listening = true) (hroom : s.pending.length ≤ backlog) (w : Word) :
    ∃ t, (forking ι D tryit).Path s (asks i w) t ∧ t.listening = true ∧
      t.pending = s.pending ++ [i] ∧ t.link i = asking w ∧ ∀ j ≠ i, t.link j = s.link j := by
  have hcall : (forking ι D tryit).step s (.client i (.call w))
      (s.setLink i ⟨.send, Dictrec.blank.setWord w, false, [], [], .waiting⟩) :=
    step_iff.mpr (.client (by simp) (by rw [hlink]; rfl))
  have hconnect : (forking ι D tryit).step
      (s.setLink i ⟨.send, Dictrec.blank.setWord w, false, [], [], .waiting⟩) (.client i .connect)
      { s.setLink i ⟨.send, Dictrec.blank.setWord w, true, [], [], .waiting⟩ with
        pending := s.pending ++ [i] } := by
    show next D tryit _ _ = some _
    simp [next, Link.clientNext, State.setLink, hlistening, hroom]
  have hsend : (forking ι D tryit).step
      { s.setLink i ⟨.send, Dictrec.blank.setWord w, true, [], [], .waiting⟩ with
        pending := s.pending ++ [i] } (.client i (.send (Dictrec.blank.setWord w)))
      { s.setLink i (asking w) with pending := s.pending ++ [i] } := by
    show next D tryit _ _ = some _
    simp [next, Link.clientNext, State.setLink, asking]
  refine ⟨_, ((Lts.Path.single hcall).trans (.single hconnect)).trans (.single hsend), hlistening,
    rfl, Function.update_self .., fun j hj ↦ by simp [hj]⟩

end

/-- Nobody has asked for anything. -/
def idle : State Bool := ⟨true, [], fun _ ↦ fresh⟩

/-- Both clients have asked, and the server has accepted neither. -/
theorem exists_both_asking : ∃ s, (forking Bool twoWords .blank).Run
    (asks true wordB ++ asks false wordA) s ∧ s.pending = [true, false] ∧
      s.link true = asking wordB ∧ s.link false = asking wordA := by
  have hinit : Init idle := ⟨rfl, rfl, fun _ ↦ ⟨rfl, rfl, rfl, rfl, rfl⟩⟩
  obtain ⟨s, hs, hlistening, hpending, htrue, hlink⟩ :=
    exists_asking (s := idle) (i := true) twoWords .blank rfl rfl (by decide) wordB
  have hroom : s.pending.length ≤ backlog := by rw [hpending]; decide
  obtain ⟨t, ht, -, hpending', hfalse, hlink'⟩ :=
    exists_asking twoWords .blank (hlink false (by decide)) hlistening hroom wordA
  exact ⟨t, (Lts.Run.init hinit).append (hs.trans ht), by rw [hpending', hpending]; rfl,
    (hlink' true (by decide)).trans htrue, hfalse⟩

theorem answer_comes_both : ∃ s, (forking Bool twoWords .blank).Run
    (asks true wordB ++ asks false wordA) s ∧ s.pending = [true, false] ∧
      ∃ tr' t, (forking Bool twoWords .blank).Path s tr' t ∧ (∀ a ∈ tr', a.By false) ∧
        ((∀ op ∈ own false (asks true wordB ++ asks false wordA), Uncut op) →
          ∀ op ∈ own false tr', Uncut op) ∧ (t.link false).pc = .idle := by
  obtain ⟨s, hrun, hpending, -, hfalse⟩ := exists_both_asking
  refine ⟨s, hrun, hpending, answer_comes hrun ?_ ?_⟩
  · rw [hfalse]
    rfl
  · rw [hfalse]
    exact (nomatch ·)

/-- Both ask, their connections are accepted, and the second gets its answer. -/
def bothRun : List (Label Bool) :=
  asks true wordB ++ asks false wordA ++ [.accept true, .accept false,
    .child false (.serve (Dictrec.piece (Dictrec.blank.setWord wordA))),
    .client false (.recv (reply twoWords (Dictrec.blank.setWord wordA)).bytes)]

theorem exists_bothRun : ∃ s, (forking Bool twoWords .blank).Run bothRun s ∧
    (s.link false).pc = .idle := by
  obtain ⟨s₀, hrun, hpending₀, -, hfalse₀⟩ := exists_both_asking
  obtain ⟨s₁, hs₁, hpending₁, -, hlink₁⟩ := exists_accept twoWords .blank (queued hrun) hpending₀
  have hfalse₁ : s₁.link false = asking wordA := (hlink₁ false (by decide)).trans hfalse₀
  obtain ⟨s₂, hs₂, -, hlink₂, -⟩ := exists_accept twoWords .blank (queued (hrun.snoc hs₁)) hpending₁
  rw [hfalse₁] at hlink₂
  obtain ⟨s₃, hs₃, hlink₃⟩ := exists_served twoWords .blank (i := false) (s := s₂)
    (congrArg Link.child hlink₂) (by rw [hlink₂]; rfl) (by rw [hlink₂]; rfl)
  obtain ⟨s₄, hs₄, hidle⟩ := exists_received twoWords .blank (i := false) (s := s₃)
    (by rw [hlink₃, hlink₂]; rfl) (by rw [hlink₃])
  rw [hlink₃, hlink₂] at hs₄
  rw [hlink₂] at hs₃
  exact ⟨s₄, hrun.append ((((Lts.Path.single hs₁).trans (.single hs₂)).trans
    (.single hs₃)).trans (.single hs₄)), hidle⟩

theorem dialogues_bothRun : ∃ s, (forking Bool twoWords .blank).Run bothRun s ∧
    stream (pieces (own false bothRun)) <+: sent (own false bothRun) ∧
      received (own false bothRun) ++ (s.link false).down =
        (dialogue twoWords .blank (pieces (own false bothRun))).flatMap fun x ↦ x.sent.bytes := by
  obtain ⟨s, hrun, -⟩ := exists_bothRun
  exact ⟨s, hrun, dialogues hrun false⟩

theorem all_answered_bothRun : ∃ p,
    ((forking Bool twoWords .blank).observe (resultOf? false)).Run bothRun p ∧
      p.2 = [remote twoWords wordA] := by
  obtain ⟨s, hrun, hidle⟩ := exists_bothRun
  obtain ⟨results, hrun⟩ := hrun.exists_observe (resultOf? false)
  have huncut : ∀ op ∈ own false bothRun, Uncut op := by
    simp [own, bothRun, asks, Label.view, Uncut, Dictrec.piece, Dictrec.length_eq]
  exact ⟨_, hrun, (all_answered hrun huncut).2 hidle⟩

end SysProg.NetDict.Forking
