import SysProg.Lib.Lts
import SysProg.NetDict.Record

/-!
# Stale answers on a stream

`lookup7.c` and `lookup8.c` receive the reply into the record that held the request, and
before it the last answer.  They check that `recv` has not failed, but not how much it
returned.  The client and its peer are a transition system here: the peer answers a
request with the record it likes, or with the beginning of one and the end of the
connection, and `recv` returns some of what has been sent and not received.

* `Honest` is what a caller relies on: `FOUND` comes with a whole reply to its request.
* `Aligned` is the invariant of the runs in which every `recv` returns a whole record, or
  nothing while the text in `*sought` is `"XXXX"` anyway (`Whole`).
* `honest_of_whole` follows, and `not_honest_cutOff` is a run that ends with the
  last answer.
-/

namespace SysProg.NetDict

open SysProg.Lib
open SysProg.ShmDict (Word Code notFoundText wordSize wordA wordB textA)

/-! ## The connection -/

/-- The statements of `lookup`; `idle` is outside of it. -/
inductive ClientPc where
  | idle | send | recv | dead
deriving DecidableEq, Repr

/-- What happens on the connection. -/
inductive StreamOp where
  | /-- `main` asks for `w`. -/ call (w : Word)
  | send
  | /-- `recv` returns `n`. -/ recv (n : Nat)
  | /-- `send` or `recv` fails, and the client exits. -/ die
  | /-- The peer answers the next request, with `n` bytes of `r` if it stops in the middle. -/
    answer (r : Dictrec) (n : Nat)
  | /-- The peer closes the connection. -/ close
deriving DecidableEq

/-- The client, and what the peer has sent. -/
structure Connection where
  pc : ClientPc
  sought : Dictrec
  /-- What the last `lookup` returned. -/
  ret : Option Code
  /-- The bytes that it received. -/
  got : List UInt8
  /-- How many requests have been sent. -/
  asked : Nat
  /-- The replies of the peer to the first requests. -/
  replies : List Dictrec
  /-- What has been sent to the client and not been received. -/
  flow : List UInt8
  closed : Bool
deriving DecidableEq

/-- One step of the client or of its peer. -/
def streamNext (s : Connection) : StreamOp → Option Connection
  | .call w =>
      if s.pc = .idle then
        some { s with pc := .send, sought := s.sought.setWord w, ret := none, got := [] }
      else none
  | .send =>
      if s.pc = .send then some { s with pc := .recv, asked := s.asked + 1 } else none
  | .recv n =>
      if s.pc = .recv ∧ n ≤ Dictrec.size ∧ n ≤ s.flow.length ∧
          (n = 0 → s.flow = [] ∧ s.closed = true) then
        some { s with
          pc := .idle, sought := s.sought.recv (s.flow.take n),
          ret := some (code (s.sought.recv (s.flow.take n))),
          got := s.flow.take n, flow := s.flow.drop n }
      else none
  | .die => if s.pc = .send ∨ s.pc = .recv then some { s with pc := .dead } else none
  | .answer r n =>
      if s.closed = false ∧ s.replies.length < s.asked then
        some { s with
          replies := s.replies ++ [r], flow := s.flow ++ r.bytes.take n,
          closed := decide (n < Dictrec.size) }
      else none
  | .close => some { s with closed := true }

/-- A new connection, with any record to ask with. -/
structure StreamInit (s : Connection) : Prop where
  pc : s.pc = .idle
  ret : s.ret = none
  asked : s.asked = 0
  replies : s.replies = []
  flow : s.flow = []
  closed : s.closed = false

/-- The lookups over one connection. -/
def connection : Lts Connection StreamOp := Lts.ofNext StreamInit streamNext

/-- The rule of each step. -/
inductive StreamStep (s : Connection) : StreamOp → Connection → Prop
  | call (w : Word) (hpc : s.pc = .idle) :
      StreamStep s (.call w)
        { s with pc := .send, sought := s.sought.setWord w, ret := none, got := [] }
  | send (hpc : s.pc = .send) :
      StreamStep s .send { s with pc := .recv, asked := s.asked + 1 }
  | recv {n : Nat} (hpc : s.pc = .recv) (hsize : n ≤ Dictrec.size) (hflow : n ≤ s.flow.length)
      (hend : n = 0 → s.flow = [] ∧ s.closed = true) :
      StreamStep s (.recv n)
        { s with
          pc := .idle, sought := s.sought.recv (s.flow.take n),
          ret := some (code (s.sought.recv (s.flow.take n))),
          got := s.flow.take n, flow := s.flow.drop n }
  | die (hpc : s.pc = .send ∨ s.pc = .recv) : StreamStep s .die { s with pc := .dead }
  | answer (r : Dictrec) (n : Nat) (hopen : s.closed = false)
      (hasked : s.replies.length < s.asked) :
      StreamStep s (.answer r n)
        { s with
          replies := s.replies ++ [r], flow := s.flow ++ r.bytes.take n,
          closed := decide (n < Dictrec.size) }
  | close : StreamStep s .close { s with closed := true }

variable {s t : Connection} {a : StreamOp} {r : Dictrec} {n : Nat}

theorem StreamStep.of_step (h : connection.step s a t) : StreamStep s a t := by
  have h : streamNext s a = some t := h
  cases a with
  | call w =>
      obtain ⟨hpc, h⟩ := Option.ite_none_right_eq_some.mp h
      cases h
      exact .call w hpc
  | send =>
      obtain ⟨hpc, h⟩ := Option.ite_none_right_eq_some.mp h
      cases h
      exact .send hpc
  | recv n =>
      obtain ⟨⟨hpc, hsize, hflow, hend⟩, h⟩ := Option.ite_none_right_eq_some.mp h
      cases h
      exact .recv hpc hsize hflow hend
  | die =>
      obtain ⟨hpc, h⟩ := Option.ite_none_right_eq_some.mp h
      cases h
      exact .die hpc
  | answer r n =>
      obtain ⟨⟨hopen, hasked⟩, h⟩ := Option.ite_none_right_eq_some.mp h
      cases h
      exact .answer r n hopen hasked
  | close =>
      cases h
      exact .close

/-! ## Whole replies -/

/-- `FOUND` has been returned for a whole reply to the last request, and its text is
there. -/
def Honest (s : Connection) : Prop :=
  s.ret = some .FOUND →
    ∃ r, s.replies[s.asked - 1]? = some r ∧ s.got = r.bytes ∧ s.sought.text = r.text

/-- A `recv` returns a whole record, or the end of the connection while the text is the
one that stands for "no such word". -/
def Whole (s : Connection) : StreamOp → Prop
  | .recv n => n = Dictrec.size ∨ n = 0 ∧ s.sought.text = notFoundText.bytes
  | _ => True

/-- There is at most one reply in flight, the one to the last request. -/
structure Aligned (s : Connection) : Prop where
  ret : s.pc ≠ .idle → s.ret = none
  between : s.pc = .idle ∨ s.pc = .send →
    s.flow = [] ∧ (s.closed = true ∨ s.replies.length = s.asked)
  awaiting : s.pc = .recv →
    s.flow = [] ∧ (s.closed = true ∨ s.replies.length + 1 = s.asked) ∨
      ∃ r n, s.replies[s.asked - 1]? = some r ∧ s.replies.length = s.asked ∧
        s.flow = r.bytes.take n
  honest : Honest s

theorem honest_of_ret (h : s.ret = none) : Honest s := by
  intro hfound
  rw [h] at hfound
  cases hfound

/-- What there is of a record is all of it when it is long enough. -/
theorem take_eq_bytes (h : Dictrec.size ≤ (r.bytes.take n).length) : r.bytes.take n = r.bytes := by
  rw [List.length_take, r.length_eq] at h
  exact List.take_of_length_le (by rw [r.length_eq]; omega)

/-- The reply is received as a whole. -/
theorem Aligned.recv_size (h : Aligned s) (hpc : s.pc = .recv)
    (hflow : Dictrec.size ≤ s.flow.length) :
    ∃ r, s.replies[s.asked - 1]? = some r ∧ s.replies.length = s.asked ∧ s.flow = r.bytes := by
  rcases h.awaiting hpc with ⟨hempty, -⟩ | ⟨r, n, hr, hlen, hbytes⟩
  · rw [hempty] at hflow
    exact absurd hflow (by decide)
  · rw [hbytes] at hflow
    exact ⟨r, hr, hlen, hbytes.trans (take_eq_bytes hflow)⟩

theorem Aligned.step (h : Aligned s) (hwhole : Whole s a) (hs : StreamStep s a t) :
    Aligned t := by
  cases hs with
  | call w hpc =>
      exact ⟨fun _ ↦ rfl, fun _ ↦ h.between (.inl hpc), by simp, honest_of_ret rfl⟩
  | send hpc =>
      obtain ⟨hflow, hlen⟩ := h.between (.inr hpc)
      have hret := h.ret (by simp [hpc])
      refine ⟨fun _ ↦ hret, by simp, fun _ ↦ .inl ⟨hflow, ?_⟩, honest_of_ret hret⟩
      exact hlen.imp id fun hlen ↦ congrArg (· + 1) hlen
  | @recv n hpc hsize hflow hend =>
      rcases hwhole with rfl | ⟨rfl, htext⟩
      · obtain ⟨r, hr, hlen, hbytes⟩ := h.recv_size hpc hflow
        have htake : s.flow.take Dictrec.size = r.bytes := by rw [hbytes, r.take_bytes]
        have hdrop : s.flow.drop Dictrec.size = [] := by rw [hbytes, r.drop_bytes]
        refine ⟨by simp, fun _ ↦ ⟨hdrop, .inr hlen⟩, by simp, fun _ ↦ ⟨r, hr, htake, ?_⟩⟩
        simp only [htake, Dictrec.recv_bytes]
      · obtain ⟨hempty, hclosed⟩ := hend rfl
        have hcode : code (s.sought.recv (s.flow.take 0)) = .NOTFOUND := by
          rw [List.take_zero, Dictrec.recv_nil]
          exact if_neg (not_not.mpr htext)
        refine ⟨by simp, fun _ ↦ ⟨by simp [hempty], .inl hclosed⟩, by simp, fun hfound ↦ ?_⟩
        exact absurd (hcode.symm.trans (Option.some.inj hfound)) (by decide)
  | die hpc =>
      have hret : s.ret = none := h.ret (by rcases hpc with hpc | hpc <;> simp [hpc])
      exact ⟨fun _ ↦ hret, by simp, by simp, honest_of_ret hret⟩
  | answer r n hopen hasked =>
      have hopen : s.closed ≠ true := by simp [hopen]
      have hidle : ¬ (s.pc = .idle ∨ s.pc = .send) := by
        intro hpc
        exact Nat.ne_of_lt hasked ((h.between hpc).2.resolve_left hopen)
      have hret : s.ret = none := h.ret (not_or.mp hidle).1
      refine ⟨fun _ ↦ hret, fun hpc ↦ absurd hpc hidle, fun hpc ↦ .inr ?_, honest_of_ret hret⟩
      rcases h.awaiting hpc with ⟨hempty, hlen⟩ | ⟨-, -, -, hlen, -⟩
      · have hlen := hlen.resolve_left hopen
        refine ⟨r, n, ?_, ?_, ?_⟩
        · show (s.replies ++ [r])[s.asked - 1]? = some r
          rw [← hlen, Nat.add_sub_cancel, List.getElem?_concat_length]
        · show (s.replies ++ [r]).length = s.asked
          rw [List.length_append, ← hlen]
          rfl
        · show s.flow ++ r.bytes.take n = r.bytes.take n
          rw [hempty, List.nil_append]
      · exact absurd hlen (Nat.ne_of_lt hasked)
  | close =>
      refine ⟨h.ret, fun hpc ↦ ⟨(h.between hpc).1, .inl rfl⟩, fun hpc ↦ ?_, h.honest⟩
      exact (h.awaiting hpc).imp (fun hempty ↦ ⟨hempty.1, .inl rfl⟩) id

theorem aligned {tr : List StreamOp} (h : (connection.restrict Whole).Run tr s) : Aligned s := by
  refine h.induction (P := fun _ s ↦ Aligned s) (fun s hs ↦ ?_) fun _ _ _ _ _ haligned hs ↦ ?_
  · refine ⟨fun _ ↦ hs.ret, fun _ ↦ ⟨hs.flow, .inr ?_⟩, by simp [hs.pc], honest_of_ret hs.ret⟩
    rw [hs.replies, hs.asked]
    rfl
  · exact haligned.step hs.1 (.of_step hs.2)

/-- **No stale answer**, in a run in which every `recv` returns a whole record, or the end
of the connection while the text is `"XXXX"`. -/
theorem honest_of_whole {tr : List StreamOp} (h : (connection.restrict Whole).Run tr s) :
    Honest s :=
  (aligned h).honest

/-! ## A lookup, and the connection is closed -/

/-- The reply to a request for `a`. -/
def definedA : Dictrec := (Dictrec.blank.setWord wordA).setText textA

theorem code_of_definedA {r : Dictrec} (h : r.text = definedA.text) : code r = .FOUND := by
  rw [code_eq_found, h, definedA, Dictrec.text_setText]
  decide

/-- A client that has not made a lookup. -/
def unasked : Connection := ⟨.idle, .blank, none, [], 0, [], [], false⟩

/-- It has been answered with `r`. -/
def found (r : Dictrec) : Connection := ⟨.idle, r, some (code r), r.bytes, 1, [r], [], false⟩

/-- The peer has closed the connection before it answers the next request, for `w`. -/
def cutOff (r : Dictrec) (w : Word) : Connection :=
  { found r with sought := r.setWord w, ret := some (code (r.setWord w)), got := [], asked := 2,
                 closed := true }

/-- A lookup that is answered. -/
def answeredRun (r : Dictrec) (w : Word) : List StreamOp :=
  [.call w, .send, .answer r Dictrec.size, .recv Dictrec.size]

instance (s : Connection) (a : StreamOp) : Decidable (Whole s a) :=
  match a with
  | .recv n => inferInstanceAs (Decidable (n = Dictrec.size ∨ n = 0 ∧ _))
  | .call _ | .send | .die | .answer _ _ | .close => isTrue trivial

theorem exec_answeredRun (r : Dictrec) (w : Word) :
    Lts.exec (Lts.guarded streamNext Whole) unasked (answeredRun r w) = some (found r) := by
  have hword : wordSize ≠ 0 := by decide
  simp [Lts.exec, Lts.guarded, answeredRun, streamNext, Whole, unasked, found, hword, r.length_eq]

theorem run_found (r : Dictrec) (w : Word) :
    (connection.restrict Whole).Run (answeredRun r w) (found r) :=
  .of_exec_guarded ⟨rfl, rfl, rfl, rfl, rfl, rfl⟩ (exec_answeredRun r w)

theorem run_cutOff (r : Dictrec) (w w' : Word) :
    connection.Run (answeredRun r w ++ [.call w', .send, .close, .recv 0]) (cutOff r w') := by
  refine (run_found r w).of_restrict.append (.of_exec ?_)
  simp [Lts.exec, streamNext, found, cutOff]

/-- `a` has been found. -/
theorem honest_found : (found definedA).ret = some .FOUND ∧ Honest (found definedA) :=
  ⟨congrArg some (code_of_definedA rfl), honest_of_whole (run_found _ wordA)⟩

/-- The second lookup, for `b`, receives nothing and returns the text of `a`. -/
theorem not_honest_cutOff : ∃ tr s, connection.Run tr s ∧ s.ret = some .FOUND ∧ s.got = [] ∧
    s.sought.word = wordB.bytes ∧ s.sought.text = textA.bytes ∧ ¬ Honest s := by
  have hret : (cutOff definedA wordB).ret = some .FOUND :=
    congrArg some (code_of_definedA (Dictrec.text_setWord _ _))
  have htext : (cutOff definedA wordB).sought.text = textA.bytes := by
    rw [cutOff, Dictrec.text_setWord, definedA, Dictrec.text_setText]
  refine ⟨_, _, run_cutOff definedA wordA wordB, hret, rfl,
    Dictrec.word_setWord _ _, htext, fun hhonest ↦ ?_⟩
  obtain ⟨r, hr, -⟩ := hhonest hret
  exact absurd hr (by simp [cutOff, found])

end SysProg.NetDict
