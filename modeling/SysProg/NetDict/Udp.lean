import SysProg.Lib.Lts
import SysProg.NetDict.Record

/-!
# Late replies over UDP

`lookup9.c` sends its record as a datagram and takes the next datagram that comes back for
its answer.  A reply has the word it is about, but nobody compares it with the word that
was asked for.

The network keeps every datagram that has ever been sent, and may hand any of them to its
addressee at any time, and again: this is delay, reordering and duplication, and what it
never hands over is lost.  It does not change the datagrams.  A reply is addressed to the
client whose request the server has answered.

* `reply_of_mem`: what a call takes is a reply to some request of the past, with the answer
  to the word in it.
* `right_iff`: the calls of a run return the text of the word they asked for if and only
  if no reply is taken that is about a word with another text (`Fitting`).
* `not_right_duplicate` is a reply that comes twice, the second time for the next call.
-/

universe u

namespace SysProg.NetDict

open SysProg.Lib
open SysProg.ShmDict (Word Code Dictionary notFoundText answer answer_of_mem
  exists_record_of_answer twoWords wordA wordB textA)

/-! ## The programs and the network -/

/-- The statements of `lookup`; `idle` is outside of it. -/
inductive UdpPc where
  | idle | sendto | recvfrom | dead
deriving DecidableEq, Repr

/-- A client: where it is, its `*sought`, and what its last `lookup` returned. -/
structure UdpClient where
  pc : UdpPc
  sought : Dictrec
  ret : Option Code
deriving DecidableEq

/-- The clients, the record `dr` of the server, and what has been sent by and to whom. -/
structure UdpState (ι : Type u) where
  dr : Dictrec
  requests : List (ι × Dictrec)
  replies : List (ι × Dictrec)
  client : ι → UdpClient

/-- What the processes do. -/
inductive UdpLabel (ι : Type u) where
  | /-- The `main` of client `c` asks for `w`. -/ call (c : ι) (w : Word)
  | sendto (c : ι)
  | /-- A call for `w` takes `r` for its answer. -/ recvfrom (c : ι) (w : List UInt8) (r : Dictrec)
  | /-- `sendto` or `recvfrom` fails, and the client exits. -/ die (c : ι)
  | /-- The server receives the request `q` of client `c` and answers it. -/
    serve (c : ι) (q : Dictrec)
deriving DecidableEq

variable {ι : Type u} [DecidableEq ι]

def UdpState.setClient (s : UdpState ι) (c : ι) (x : UdpClient) : UdpState ι :=
  { s with client := Function.update s.client c x }

/-- One step of a client, or one turn of the loop of `udp_server.c`. -/
def udpNext (D : Dictionary) (s : UdpState ι) : UdpLabel ι → Option (UdpState ι)
  | .call c w =>
      if (s.client c).pc = .idle then
        some (s.setClient c ⟨.sendto, (s.client c).sought.setWord w, none⟩)
      else none
  | .sendto c =>
      if (s.client c).pc = .sendto then
        some { s.setClient c { s.client c with pc := .recvfrom } with
          requests := s.requests ++ [(c, (s.client c).sought)] }
      else none
  | .recvfrom c w r =>
      if (s.client c).pc = .recvfrom ∧ (s.client c).sought.word = w ∧ (c, r) ∈ s.replies then
        let sought := (s.client c).sought.recv r.bytes
        some (s.setClient c ⟨.idle, sought, some (code sought)⟩)
      else none
  | .die c =>
      if (s.client c).pc = .sendto ∨ (s.client c).pc = .recvfrom then
        some (s.setClient c { s.client c with pc := .dead })
      else none
  | .serve c q =>
      if (c, q) ∈ s.requests then
        (serve D (s.dr.recv q.bytes)).map fun sent ↦
          { s with dr := sent, replies := s.replies ++ [(c, sent)] }
      else none

/-- Nothing has been sent, and the clients are outside of `lookup`. -/
structure UdpInit (s : UdpState ι) : Prop where
  requests : s.requests = []
  replies : s.replies = []
  client : ∀ c, (s.client c).pc = .idle ∧ (s.client c).ret = none

/-- The dictionary over UDP. -/
def udp (ι : Type u) [DecidableEq ι] (D : Dictionary) : Lts (UdpState ι) (UdpLabel ι) :=
  Lts.ofNext UdpInit (udpNext D)

/-- The rule of each step. -/
inductive UdpStep (D : Dictionary) (s : UdpState ι) : UdpLabel ι → UdpState ι → Prop
  | call {c : ι} (w : Word) (hpc : (s.client c).pc = .idle) :
      UdpStep D s (.call c w) (s.setClient c ⟨.sendto, (s.client c).sought.setWord w, none⟩)
  | sendto {c : ι} (hpc : (s.client c).pc = .sendto) :
      UdpStep D s (.sendto c)
        { s.setClient c { s.client c with pc := .recvfrom } with
          requests := s.requests ++ [(c, (s.client c).sought)] }
  | recvfrom {c : ι} {r : Dictrec} (hpc : (s.client c).pc = .recvfrom) (hr : (c, r) ∈ s.replies) :
      UdpStep D s (.recvfrom c (s.client c).sought.word r)
        (s.setClient c ⟨.idle, r, some (code r)⟩)
  | die {c : ι} (hpc : (s.client c).pc = .sendto ∨ (s.client c).pc = .recvfrom) :
      UdpStep D s (.die c) (s.setClient c { s.client c with pc := .dead })
  | serve {c : ι} {q : Dictrec} (hq : (c, q) ∈ s.requests) :
      UdpStep D s (.serve c q)
        { s with dr := reply D q, replies := s.replies ++ [(c, reply D q)] }

variable {D : Dictionary} {s t : UdpState ι} {a : UdpLabel ι} {c : ι}

theorem UdpStep.of_step (h : (udp ι D).step s a t) : UdpStep D s a t := by
  have h : udpNext D s a = some t := h
  cases a with
  | call c w =>
      obtain ⟨hpc, h⟩ := Option.ite_none_right_eq_some.mp h
      cases h
      exact .call w hpc
  | sendto c =>
      obtain ⟨hpc, h⟩ := Option.ite_none_right_eq_some.mp h
      cases h
      exact .sendto hpc
  | recvfrom c w r =>
      obtain ⟨⟨hpc, hw, hr⟩, hnext⟩ := Option.ite_none_right_eq_some.mp h
      rw [Dictrec.recv_bytes] at hnext
      cases hnext
      exact hw ▸ .recvfrom hpc hr
  | die c =>
      obtain ⟨hpc, h⟩ := Option.ite_none_right_eq_some.mp h
      cases h
      exact .die hpc
  | serve c q =>
      obtain ⟨hq, h⟩ := Option.ite_none_right_eq_some.mp h
      rw [Dictrec.recv_bytes, serve_eq] at h
      cases h
      exact .serve hq

/-! ## What has been sent -/

/-- The record asks for a word. -/
def Dictrec.Asks (q : Dictrec) : Prop := ∃ w : Word, q.word = w.bytes

/-- The record is a reply: it has the answer to its word. -/
def Dictrec.Answers (D : Dictionary) (r : Dictrec) : Prop :=
  ∃ w : Word, r.word = w.bytes ∧ r.text = (answer D w).bytes

/-- What has been sent are requests for words, and answers to them. -/
structure Traffic (D : Dictionary) (s : UdpState ι) : Prop where
  requests : ∀ p ∈ s.requests, p.2.Asks
  replies : ∀ p ∈ s.replies, p.2.Answers D
  client : ∀ c, (s.client c).pc = .sendto → (s.client c).sought.Asks

/-- A step of a client, which asks for a word if it is about to send. -/
theorem Traffic.move {x : UdpClient} (h : Traffic D s) (hx : x.pc = .sendto → x.sought.Asks) :
    Traffic D (s.setClient c x) where
  requests := h.requests
  replies := h.replies
  client := by
    rw [UdpState.setClient,
      Function.forall_update_iff s.client fun _ y ↦ y.pc = .sendto → y.sought.Asks]
    exact ⟨hx, fun d _ ↦ h.client d⟩

theorem Traffic.step (h : Traffic D s) (hs : UdpStep D s a t) : Traffic D t := by
  cases hs with
  | @call c w hpc => exact h.move fun _ ↦ ⟨w, Dictrec.word_setWord _ w⟩
  | @sendto c hpc =>
      have hmove := h.move (c := c) (x := { s.client c with pc := .recvfrom }) (by simp)
      refine ⟨fun p hp ↦ ?_, hmove.replies, hmove.client⟩
      rcases List.mem_append.mp hp with hp | hp
      · exact h.requests p hp
      · rw [List.mem_singleton.mp hp]
        exact h.client c hpc
  | recvfrom hpc hr => exact h.move (by simp)
  | die hpc => exact h.move (by simp)
  | @serve c q hq =>
      refine ⟨h.requests, fun p hp ↦ ?_, h.client⟩
      rcases List.mem_append.mp hp with hp | hp
      · exact h.replies p hp
      · obtain ⟨w, hw⟩ := h.requests _ hq
        rw [List.mem_singleton.mp hp]
        exact ⟨w, (word_reply D q).trans hw, text_reply hw⟩

theorem traffic {tr : List (UdpLabel ι)} (h : (udp ι D).Run tr s) : Traffic D s := by
  refine h.induction (P := fun _ s ↦ Traffic D s) (fun s hs ↦ ?_) ?_
  · refine ⟨?_, ?_, fun c hc ↦ ?_⟩
    · simp [hs.requests]
    · simp [hs.replies]
    · exact absurd ((hs.client c).1.symm.trans hc) (by simp)
  · exact fun _ _ _ _ _ htraffic hs ↦ htraffic.step (.of_step hs)

/-- What a call takes has the answer to the word in it. -/
theorem reply_of_mem {tr : List (UdpLabel ι)} (h : (udp ι D).Run tr s) :
    ∀ c w r, .recvfrom c w r ∈ tr → r.Answers D := by
  refine h.induction (P := fun tr _ ↦ ∀ c w r, .recvfrom c w r ∈ tr → r.Answers D) ?_ ?_
  · simp
  · intro tr s a t hr ih hs c w r hmem
    rcases List.mem_append.mp hmem with hmem | hmem
    · exact ih c w r hmem
    · obtain rfl := List.mem_singleton.mp hmem
      cases UdpStep.of_step hs with
      | recvfrom hpc hreply => exact (traffic hr).replies _ hreply

/-! ## Which answers are right -/

/-- A call that returns `FOUND` has the text of the word it asked for. -/
def Right (D : Dictionary) : UdpLabel ι → Prop
  | .recvfrom _ w r =>
      code r = .FOUND → ∃ d ∈ D.table, d.word.bytes = w ∧ d.text.bytes = r.text
  | _ => True

/-- If the word of the reply has a record, then the word that was asked for has one with
the same text. -/
def Fitting (D : Dictionary) : UdpLabel ι → Prop
  | .recvfrom _ w r => ∀ d ∈ D.table, d.word.bytes = r.word →
      ∃ d' ∈ D.table, d'.word.bytes = w ∧ d'.text = d.text
  | _ => True

omit [DecidableEq ι] in
theorem right_iff_of_answers {w : List UInt8} {r : Dictrec}
    (hD : ∀ d ∈ D.table, d.text ≠ notFoundText) (hr : r.Answers D) :
    Right D (.recvfrom c w r) ↔ Fitting D (.recvfrom c w r) := by
  obtain ⟨w', hword, htext⟩ := hr
  constructor
  · intro hright d hd hdw
    obtain rfl : d.word = w' := CStr.ext (hdw.trans hword)
    rw [answer_of_mem hd] at htext
    have hcode : code r = .FOUND := by
      rw [code_eq_found, htext]
      exact fun heq ↦ hD d hd (CStr.ext heq)
    obtain ⟨d', hd', hw, htext'⟩ := hright hcode
    exact ⟨d', hd', hw, CStr.ext (htext'.trans htext)⟩
  · intro hfitting hcode
    rw [code_eq_found, htext] at hcode
    obtain ⟨d, hd, rfl, hanswer⟩ := exists_record_of_answer (mt (congrArg CStr.bytes) hcode)
    obtain ⟨d', hd', hw, htext'⟩ := hfitting d hd hword.symm
    exact ⟨d', hd', hw, by rw [htext', hanswer, htext]⟩

/-- **The calls of a run are right** if and only if no call takes a reply about a word
that has another text than its own. -/
theorem right_iff {tr : List (UdpLabel ι)} (hD : ∀ d ∈ D.table, d.text ≠ notFoundText)
    (h : (udp ι D).Run tr s) : (∀ a ∈ tr, Right D a) ↔ ∀ a ∈ tr, Fitting D a := by
  have hiff : ∀ a ∈ tr, (Right D a ↔ Fitting D a) := by
    intro a ha
    cases a with
    | recvfrom c w r => exact right_iff_of_answers hD (reply_of_mem h c w r ha)
    | _ => exact Iff.rfl
  exact forall₂_congr hiff

/-! ## A reply that comes twice -/

/-- Nobody has asked anything. -/
def silent : UdpState ι := ⟨.blank, [], [], fun _ ↦ ⟨.idle, .blank, none⟩⟩

/-- The request of a client that has asked for nothing else. -/
def asking (w : Word) : Dictrec := Dictrec.blank.setWord w

/-- A client asks for `w` and takes the server's reply. -/
def asked (D : Dictionary) (w : Word) : List (UdpLabel Unit) :=
  [.call () w, .sendto (), .serve () (asking w), .recvfrom () w.bytes (reply D (asking w))]

/-- It asks for `w'`, and takes the same reply again. -/
def askedAgain (D : Dictionary) (w w' : Word) : List (UdpLabel Unit) :=
  asked D w ++ [.call () w', .sendto (), .recvfrom () w'.bytes (reply D (asking w))]

theorem exec_asked (D : Dictionary) (w : Word) :
    ∃ s, Lts.exec (udpNext D) silent (asked D w) = some s := by
  simp [Lts.exec, asked, udpNext, silent, UdpState.setClient, asking, serve_eq]

theorem exec_askedAgain (D : Dictionary) (w w' : Word) :
    ∃ s, Lts.exec (udpNext D) silent (askedAgain D w w') = some s := by
  simp [Lts.exec, askedAgain, asked, udpNext, silent, UdpState.setClient, asking, serve_eq]

theorem init_silent : UdpInit (silent : UdpState Unit) := ⟨rfl, rfl, fun _ ↦ ⟨rfl, rfl⟩⟩

omit [DecidableEq ι] in
/-- A reply about the word that was asked for fits. -/
theorem fitting_of_word {w : List UInt8} {r : Dictrec} (h : r.word = w) :
    Fitting D (.recvfrom c w r) :=
  fun d hd hword ↦ ⟨d, hd, hword.trans h, rfl⟩

theorem right_asked : ∃ s, (udp Unit twoWords).Run (asked twoWords wordA) s ∧
    ∀ a ∈ asked twoWords wordA, Right twoWords a := by
  obtain ⟨s, hexec⟩ := exec_asked twoWords wordA
  have hrun : (udp Unit twoWords).Run (asked twoWords wordA) s := .of_exec init_silent hexec
  refine ⟨s, hrun, (right_iff (by decide) hrun).mpr fun a ha ↦ ?_⟩
  cases a with
  | recvfrom c w r =>
      obtain ⟨rfl, rfl⟩ : w = wordA.bytes ∧ r = reply twoWords (asking wordA) := by
        simpa [asked] using ha
      exact fitting_of_word ((word_reply _ _).trans (Dictrec.word_setWord _ _))
  | _ => trivial

/-- The second call asks for `b` and is told the text of `a`. -/
theorem not_right_duplicate : (∀ d ∈ twoWords.table, d.text ≠ notFoundText) ∧
    ∃ s, (udp Unit twoWords).Run (askedAgain twoWords wordA wordB) s ∧
      ¬ ∀ a ∈ askedAgain twoWords wordA wordB, Right twoWords a := by
  refine ⟨by decide, ?_⟩
  obtain ⟨s, hexec⟩ := exec_askedAgain twoWords wordA wordB
  refine ⟨s, .of_exec init_silent hexec, fun hright ↦ ?_⟩
  have htext : (reply twoWords (asking wordA)).text = textA.bytes :=
    text_reply (Dictrec.word_setWord _ _)
  have hcode : code (reply twoWords (asking wordA)) = .FOUND := by
    rw [code_eq_found, htext]
    decide
  have hlast : Right twoWords (.recvfrom () wordB.bytes (reply twoWords (asking wordA))) :=
    hright _ (by simp [askedAgain])
  obtain ⟨d, hd, hword⟩ := hlast hcode
  rw [htext] at hword
  revert d
  decide

end SysProg.NetDict
