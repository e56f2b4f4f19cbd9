import SysProg.Lib.Mail
import SysProg.NetDict.Udp

/-!
# Replies over a network that makes no copies

`lookup9.c` sends one request, and does nothing more until a datagram has come back.  Late and
reordered replies are a danger to it only where the network also makes copies of them
(`not_right_duplicate`): here it keeps each datagram until it hands it over or loses it.

* `udpOnce` is the system of `SysProg.NetDict.Udp` with what is on its way in place of what has
  ever been sent; each of its runs is one of `udp` (`udp_of_once`).
* `whereabouts`: the request of a client that waits, or the reply to it, is the only datagram
  there is for it.
* `once_answers`: every call that returns has the answer to its own word, and a call that waits
  can return if and only if nothing of that client has been lost.
-/

universe u

namespace SysProg.NetDict

open SysProg.Lib
open SysProg.ShmDict (Dictionary twoWords wordA)

variable {ι : Type u} [DecidableEq ι]

/-! ## The network -/

/-- What the processes do, and what the network loses. -/
inductive OnceLabel (ι : Type u) where
  | act (a : UdpLabel ι)
  | loseRequest (c : ι) (q : Dictrec)
  | loseReply (c : ι) (r : Dictrec)
deriving DecidableEq

/-- The datagram that `a` receives is on its way no more. -/
def UdpState.take (t : UdpState ι) : UdpLabel ι → UdpState ι
  | .serve c q => { t with requests := t.requests.erase (c, q) }
  | .recvfrom c _ r => { t with replies := t.replies.erase (c, r) }
  | _ => t

/-- One step, when `requests` and `replies` are the datagrams on their way. -/
def onceNext (D : Dictionary) (s : UdpState ι) : OnceLabel ι → Option (UdpState ι)
  | .act a => (udpNext D s a).map fun t ↦ t.take a
  | .loseRequest c q =>
      if s.requests.contains (c, q) then some { s with requests := s.requests.erase (c, q) }
      else none
  | .loseReply c r =>
      if s.replies.contains (c, r) then some { s with replies := s.replies.erase (c, r) }
      else none

/-- The dictionary over UDP, with a network that makes no copies. -/
def udpOnce (ι : Type u) [DecidableEq ι] (D : Dictionary) : Lts (UdpState ι) (OnceLabel ι) :=
  Lts.ofNext UdpInit (onceNext D)

/-- The rule of each step. -/
inductive OnceStep (D : Dictionary) (s : UdpState ι) : OnceLabel ι → UdpState ι → Prop
  | act {a : UdpLabel ι} {t : UdpState ι} (h : UdpStep D s a t) : OnceStep D s (.act a) (t.take a)
  | loseRequest {c : ι} {q : Dictrec} (hq : (c, q) ∈ s.requests) :
      OnceStep D s (.loseRequest c q) { s with requests := s.requests.erase (c, q) }
  | loseReply {c : ι} {r : Dictrec} (hr : (c, r) ∈ s.replies) :
      OnceStep D s (.loseReply c r) { s with replies := s.replies.erase (c, r) }

variable {D : Dictionary} {s t : UdpState ι} {a : OnceLabel ι} {c : ι} {tr : List (OnceLabel ι)}

theorem OnceStep.of_step (h : (udpOnce ι D).step s a t) : OnceStep D s a t := by
  have h : onceNext D s a = some t := h
  cases a with
  | act a =>
      obtain ⟨t, hnext, rfl⟩ := Option.map_eq_some_iff.mp h
      exact .act (.of_step hnext)
  | loseRequest c q =>
      obtain ⟨hq, h⟩ := Option.ite_none_right_eq_some.mp h
      cases h
      exact .loseRequest (List.contains_iff_mem.mp hq)
  | loseReply c r =>
      obtain ⟨hr, h⟩ := Option.ite_none_right_eq_some.mp h
      cases h
      exact .loseReply (List.contains_iff_mem.mp hr)

/-! ## Less than the network with copies -/

/-- What the processes do. -/
def OnceLabel.act? : OnceLabel ι → Option (UdpLabel ι)
  | .act a => some a
  | _ => none

/-- The processes are where they are in `t`, and what is on its way has been sent in `t`. -/
structure Within (s t : UdpState ι) : Prop where
  dr : t.dr = s.dr
  client : t.client = s.client
  requests : s.requests ⊆ t.requests
  replies : s.replies ⊆ t.replies

variable {u : UdpState ι}

theorem UdpStep.to_step {a : UdpLabel ι} (h : UdpStep D s a t) : (udp ι D).step s a t := by
  cases h with
  | call w hpc => exact if_pos hpc
  | sendto hpc => exact if_pos hpc
  | @recvfrom c r hpc hr =>
      refine (if_pos ⟨hpc, rfl, hr⟩).trans ?_
      rw [Dictrec.recv_bytes]
  | die hpc => exact if_pos hpc
  | serve hq =>
      refine (if_pos hq).trans ?_
      rw [Dictrec.recv_bytes, serve_eq]
      rfl

theorem Within.move (h : Within s u) (c : ι) (x : UdpClient) :
    Within (s.setClient c x) (u.setClient c x) where
  dr := h.dr
  client := by rw [UdpState.setClient, UdpState.setClient, h.client]
  requests := h.requests
  replies := h.replies

theorem Within.step {a : UdpLabel ι} (h : Within s u) (hs : UdpStep D s a t) :
    ∃ u', UdpStep D u a u' ∧ Within t u' := by
  obtain ⟨dr, requests, replies, client⟩ := u
  obtain rfl : client = s.client := h.client
  cases hs with
  | call w hpc => exact ⟨_, .call w hpc, h.move _ _⟩
  | sendto hpc =>
      refine ⟨_, .sendto hpc, h.dr, (h.move _ _).client, ?_, h.replies⟩
      exact List.append_subset.mpr ⟨List.subset_append_of_subset_left _ h.requests,
        List.subset_append_right _ _⟩
  | recvfrom hpc hr => exact ⟨_, .recvfrom hpc (h.replies hr), h.move _ _⟩
  | die hpc => exact ⟨_, .die hpc, h.move _ _⟩
  | serve hq =>
      refine ⟨_, .serve (h.requests hq), rfl, rfl, h.requests, ?_⟩
      exact List.append_subset.mpr ⟨List.subset_append_of_subset_left _ h.replies,
        List.subset_append_right _ _⟩

/-- There is less on its way than has been sent. -/
theorem Within.take (h : Within s u) (a : UdpLabel ι) : Within (s.take a) u := by
  cases a with
  | serve c q => exact ⟨h.dr, h.client, fun _ hp ↦ h.requests (List.mem_of_mem_erase hp), h.replies⟩
  | recvfrom c w r =>
      exact ⟨h.dr, h.client, h.requests, fun _ hp ↦ h.replies (List.mem_of_mem_erase hp)⟩
  | _ => exact h

theorem simulation_within (D : Dictionary) :
    Lts.Simulation (udpOnce ι D) (udp ι D) OnceLabel.act? fun _ s t ↦ Within s t where
  init s hs := ⟨s, hs, rfl, rfl, fun _ hp ↦ hp, fun _ hp ↦ hp⟩
  skip tr s a s' t _ hs hlabel h := by
    cases OnceStep.of_step hs with
    | act => cases hlabel
    | loseRequest hq =>
        exact ⟨h.dr, h.client, fun _ hp ↦ h.requests (List.mem_of_mem_erase hp), h.replies⟩
    | loseReply hr =>
        exact ⟨h.dr, h.client, h.requests, fun _ hp ↦ h.replies (List.mem_of_mem_erase hp)⟩
  sync tr s a s' t b _ hs hlabel h := by
    cases OnceStep.of_step hs with
    | act hstep =>
        cases hlabel
        obtain ⟨t', ht', hwithin⟩ := h.step hstep
        exact ⟨t', ht'.to_step, hwithin.take b⟩
    | loseRequest | loseReply => cases hlabel

/-- What the processes do here they can do over the network with copies. -/
theorem udp_of_once (h : (udpOnce ι D).Run tr s) :
    ∃ t, (udp ι D).Run (tr.filterMap OnceLabel.act?) t ∧ Within s t :=
  (simulation_within D).run h

/-! ## Where the request of a client is -/

/-- Whom a step is about. -/
def UdpLabel.client : UdpLabel ι → ι
  | .call c _ | .sendto c | .recvfrom c _ _ | .die c | .serve c _ => c

/-- Whom a step is about. -/
def OnceLabel.client : OnceLabel ι → ι
  | .act a => a.client
  | .loseRequest c _ | .loseReply c _ => c

/-- A datagram of `c` is lost. -/
def OnceLabel.Loses (c : ι) : OnceLabel ι → Prop
  | .act _ => False
  | .loseRequest d _ | .loseReply d _ => d = c

/-- A datagram of `c` has been lost. -/
def Lost (c : ι) (tr : List (OnceLabel ι)) : Prop := ∃ a ∈ tr, a.Loses c

/-- Where the one datagram of a client is: nowhere outside of a call, and in a call on its way as
a request, on its way as a reply, or lost. -/
inductive Whereabouts (D : Dictionary) (lost : Prop) (x : UdpClient)
    (requests replies : List Dictrec) : Prop
  | nowhere (hpc : x.pc = .idle ∨ x.pc = .sendto) (hrequests : requests = [])
      (hreplies : replies = []) (hlost : ¬ lost)
  | request (hpc : x.pc = .recvfrom) (hrequests : requests = [x.sought])
      (hreplies : replies = []) (hlost : ¬ lost)
  | reply (hpc : x.pc = .recvfrom) (hrequests : requests = [])
      (hreplies : replies = [reply D x.sought]) (hlost : ¬ lost)
  | lost (hpc : x.pc = .recvfrom) (hrequests : requests = []) (hreplies : replies = [])
      (hlost : lost)
  | dead (hpc : x.pc = .dead)

omit [DecidableEq ι] in
theorem lost_concat_iff : Lost c (tr ++ [a]) ↔ Lost c tr ∨ a.Loses c := by
  simp [Lost, or_and_right, exists_or]

omit [DecidableEq ι] in
theorem OnceLabel.client_of_loses (h : a.Loses c) : a.client = c := by
  cases a with
  | act => exact h.elim
  | loseRequest | loseReply => exact h

/-- The whereabouts of the datagram of `c` after the steps `tr`. -/
abbrev At (D : Dictionary) (c : ι) (tr : List (OnceLabel ι)) (s : UdpState ι) : Prop :=
  Whereabouts D (Lost c tr) (s.client c) (mailOf c s.requests) (mailOf c s.replies)

/-- A step about another client. -/
theorem At.other (h : At D c tr s) (hs : OnceStep D s a t) (hc : a.client ≠ c) :
    At D c (tr ++ [a]) t := by
  have hlost : Lost c (tr ++ [a]) ↔ Lost c tr :=
    lost_concat_iff.trans (or_iff_left fun hloses ↦ hc (OnceLabel.client_of_loses hloses))
  have hframe : t.client c = s.client c ∧ mailOf c t.requests = mailOf c s.requests ∧
      mailOf c t.replies = mailOf c s.replies := by
    cases hs with
    | act hs =>
        cases hs with
        | call | die => exact ⟨Function.update_of_ne (Ne.symm hc) _ _, rfl, rfl⟩
        | sendto => exact ⟨Function.update_of_ne (Ne.symm hc) _ _, mailOf_concat_of_ne hc, rfl⟩
        | recvfrom => exact ⟨Function.update_of_ne (Ne.symm hc) _ _, rfl, mailOf_erase_of_ne hc⟩
        | serve => exact ⟨rfl, mailOf_erase_of_ne hc, mailOf_concat_of_ne hc⟩
    | loseRequest => exact ⟨rfl, mailOf_erase_of_ne hc, rfl⟩
    | loseReply => exact ⟨rfl, rfl, mailOf_erase_of_ne hc⟩
  rw [At, hframe.1, hframe.2.1, hframe.2.2, hlost]
  exact h

section

variable {lost : Prop} {x : UdpClient} {requests replies : List Dictrec} {q r : Dictrec}

/-- A client that is not in a call has no datagram. -/
theorem Whereabouts.nowhere_of_pc (h : Whereabouts D lost x requests replies)
    (hpc : x.pc = .idle ∨ x.pc = .sendto) : requests = [] ∧ replies = [] ∧ ¬ lost := by
  cases h with
  | nowhere _ hrequests hreplies hlost => exact ⟨hrequests, hreplies, hlost⟩
  | request h | reply h | lost h | dead h => rcases hpc with hpc | hpc <;> cases hpc.symm.trans h

/-- A request on its way is the only datagram. -/
theorem Whereabouts.of_request (h : Whereabouts D lost x requests replies) (hq : q ∈ requests) :
    x.pc = .dead ∨ x.pc = .recvfrom ∧ q = x.sought ∧ requests = [q] ∧ replies = [] ∧ ¬ lost := by
  cases h with
  | dead hpc => exact .inl hpc
  | request hpc hrequests hreplies hlost =>
      rw [hrequests] at hq ⊢
      obtain rfl := List.mem_singleton.mp hq
      exact .inr ⟨hpc, rfl, rfl, hreplies, hlost⟩
  | nowhere _ hrequests | reply _ hrequests | lost _ hrequests =>
      rw [hrequests] at hq
      cases hq

/-- And so is a reply, which is about the word that was asked for. -/
theorem Whereabouts.of_reply (h : Whereabouts D lost x requests replies) (hr : r ∈ replies) :
    x.pc = .dead ∨
      x.pc = .recvfrom ∧ r = NetDict.reply D x.sought ∧ requests = [] ∧ replies = [r] ∧ ¬ lost := by
  cases h with
  | dead hpc => exact .inl hpc
  | reply hpc hrequests hreplies hlost =>
      rw [hreplies] at hr ⊢
      obtain rfl := List.mem_singleton.mp hr
      exact .inr ⟨hpc, rfl, hrequests, rfl, hlost⟩
  | nowhere _ _ hreplies | request _ _ hreplies | lost _ _ hreplies =>
      rw [hreplies] at hr
      cases hr

end

theorem UdpState.client_setClient (s : UdpState ι) (c : ι) (x : UdpClient) :
    (s.setClient c x).client c = x := by
  simp [UdpState.setClient]

/-- A step of the client or the server. -/
theorem At.act {a : UdpLabel ι} (h : At D a.client tr s) (hs : UdpStep D s a t) :
    At D a.client (tr ++ [.act a]) (t.take a) := by
  have hlost : Lost a.client (tr ++ [.act a]) ↔ Lost a.client tr :=
    lost_concat_iff.trans (or_iff_left id)
  rw [At, hlost]
  cases hs with
  | @call c w hpc =>
      obtain ⟨hrequests, hreplies, hnot⟩ := h.nowhere_of_pc (.inl hpc)
      refine .nowhere (.inr ?_) hrequests hreplies hnot
      exact congrArg UdpClient.pc (s.client_setClient c _)
  | @sendto c hpc =>
      obtain ⟨hrequests, hreplies, hnot⟩ := h.nowhere_of_pc (.inr hpc)
      change Whereabouts D _ ((s.setClient c _).client c) (mailOf c (s.requests ++ [(c, _)])) _
      rw [s.client_setClient]
      exact .request rfl (mailOf_concat_of_nil hrequests) hreplies hnot
  | @recvfrom c r hpc hr =>
      rcases h.of_reply (mem_mailOf.mpr hr) with hdead | ⟨-, -, hrequests, hreplies, hnot⟩
      · cases hpc.symm.trans hdead
      · refine .nowhere (.inl ?_) hrequests (mailOf_erase_eq_nil hreplies) hnot
        exact congrArg UdpClient.pc (s.client_setClient c _)
  | @die c hpc => exact .dead (congrArg UdpClient.pc (s.client_setClient c _))
  | @serve c q hq =>
      rcases h.of_request (mem_mailOf.mpr hq) with hdead | ⟨hpc, hsought, hrequests, hreplies, hnot⟩
      · exact .dead hdead
      · refine .reply hpc (mailOf_erase_eq_nil hrequests) ?_ hnot
        exact hsought ▸ mailOf_concat_of_nil hreplies

theorem At.step (h : At D c tr s) (hs : OnceStep D s a t) : At D c (tr ++ [a]) t := by
  by_cases hc : a.client = c
  · subst hc
    cases hs with
    | act hs => exact h.act hs
    | @loseRequest c q hq =>
        have hlost : Lost c (tr ++ [.loseRequest c q]) := lost_concat_iff.mpr (.inr rfl)
        rcases h.of_request (mem_mailOf.mpr hq) with hdead | ⟨hpc, -, hrequests, hreplies, -⟩
        · exact .dead hdead
        · exact .lost hpc (mailOf_erase_eq_nil hrequests) hreplies hlost
    | @loseReply c r hr =>
        have hlost : Lost c (tr ++ [.loseReply c r]) := lost_concat_iff.mpr (.inr rfl)
        rcases h.of_reply (mem_mailOf.mpr hr) with hdead | ⟨hpc, -, hrequests, hreplies, -⟩
        · exact .dead hdead
        · exact .lost hpc hrequests (mailOf_erase_eq_nil hreplies) hlost
  · exact h.other hs hc

/-- Where the datagram of a client is, in every run. -/
theorem whereabouts (h : (udpOnce ι D).Run tr s) (c : ι) : At D c tr s := by
  refine h.induction (P := fun tr s ↦ At D c tr s) (fun s hs ↦ ?_) ?_
  · refine .nowhere (.inl (hs.client c).1) ?_ ?_ fun ⟨_, hmem, _⟩ ↦ by cases hmem
    · rw [hs.requests, mailOf_nil]
    · rw [hs.replies, mailOf_nil]
  · exact fun _ _ _ _ _ hat hs ↦ hat.step (.of_step hs)

/-! ## What the calls return -/

/-- The reply that a call takes is about the word it asked for. -/
theorem word_of_recvfrom (h : (udpOnce ι D).Run tr s) :
    ∀ c w r, .act (.recvfrom c w r) ∈ tr → r.word = w := by
  refine h.induction (P := fun tr _ ↦ ∀ c w r, .act (.recvfrom c w r) ∈ tr → r.word = w) ?_ ?_
  · simp
  · intro tr s a t hr ih hs c w r hmem
    rcases List.mem_append.mp hmem with hmem | hmem
    · exact ih c w r hmem
    · obtain rfl := List.mem_singleton.mp hmem
      cases OnceStep.of_step hs with
      | act hstep =>
          cases hstep with
          | recvfrom hpc hreply =>
              rcases (whereabouts hr c).of_reply (mem_mailOf.mpr hreply) with hdead | ⟨-, rfl, -⟩
              · cases hpc.symm.trans hdead
              · exact word_reply D _

/-- Where a call can take a reply, nothing of its client has been lost. -/
theorem not_lost_of_recvfrom {w : List UInt8} {r : Dictrec} (h : (udpOnce ι D).Run tr s)
    (hs : (udpOnce ι D).step s (.act (.recvfrom c w r)) t) : ¬ Lost c tr := by
  cases OnceStep.of_step hs with
  | act hstep =>
      cases hstep with
      | recvfrom hpc hreply =>
          rcases (whereabouts h c).of_reply (mem_mailOf.mpr hreply) with hdead | ⟨-, -, -, -, hnot⟩
          · cases hpc.symm.trans hdead
          · exact hnot

/-- Something that the client takes for an answer is received in `tr`. -/
def Returns (c : ι) (tr : List (OnceLabel ι)) : Prop := ∃ w r, .act (.recvfrom c w r) ∈ tr

/-- A client that has lost a datagram never gets an answer. -/
theorem not_returns_of_lost (h : (udpOnce ι D).Run tr s) (hlost : Lost c tr)
    {tr' : List (OnceLabel ι)} (hpath : (udpOnce ι D).Path s tr' t) : ¬ Returns c tr' := by
  induction hpath with
  | nil =>
      rintro ⟨w, r, hmem⟩
      cases hmem
  | @snoc tr' t u a hpath hs ih =>
      rintro ⟨w, r, hmem⟩
      rcases List.mem_append.mp hmem with hmem | hmem
      · exact ih ⟨w, r, hmem⟩
      · obtain rfl := List.mem_singleton.mp hmem
        obtain ⟨b, hb, hloses⟩ := hlost
        exact not_lost_of_recvfrom (h.append hpath) hs ⟨b, List.mem_append_left _ hb, hloses⟩

theorem UdpStep.to_once {a : UdpLabel ι} (h : UdpStep D s a t) :
    (udpOnce ι D).step s (.act a) (t.take a) :=
  Option.map_eq_some_iff.mpr ⟨t, h.to_step, rfl⟩

/-- The server answers the request. -/
theorem exists_serve {q : Dictrec} (hq : (c, q) ∈ s.requests) :
    ∃ t, (udpOnce ι D).step s (.act (.serve c q)) t ∧ t.client = s.client ∧
      mailOf c t.replies = mailOf c s.replies ++ [reply D q] :=
  ⟨_, (UdpStep.serve hq).to_once, rfl, mailOf_concat_self⟩

/-- The reply is there to be taken. -/
theorem exists_path_of_reply {r : Dictrec} (hpc : (s.client c).pc = .recvfrom)
    (hr : mailOf c s.replies = [r]) :
    ∃ t, (udpOnce ι D).step s (.act (.recvfrom c (s.client c).sought.word r)) t := by
  have hmem : (c, r) ∈ s.replies := mem_mailOf.mp (hr ▸ List.mem_singleton_self r)
  exact ⟨_, (UdpStep.recvfrom (D := D) hpc hmem).to_once⟩

/-- A client that has lost nothing can get its answer with a turn of the server. -/
theorem exists_returns (h : (udpOnce ι D).Run tr s) (hpc : (s.client c).pc = .recvfrom)
    (hlost : ¬ Lost c tr) :
    ∃ tr' t, (udpOnce ι D).Path s tr' t ∧ tr'.length ≤ 2 ∧ Returns c tr' := by
  have hat := whereabouts h c
  cases hat with
  | nowhere hidle => rcases hidle with hidle | hidle <;> cases hpc.symm.trans hidle
  | dead hdead => cases hpc.symm.trans hdead
  | lost _ _ _ hlost' => exact absurd hlost' hlost
  | reply _ _ hreplies =>
      obtain ⟨t, ht⟩ := exists_path_of_reply (D := D) hpc hreplies
      exact ⟨_, t, .single ht, Nat.le_succ 1, _, _, List.mem_singleton_self _⟩
  | request _ hrequests hreplies =>
      have hmem : (c, (s.client c).sought) ∈ s.requests :=
        mem_mailOf.mp (hrequests ▸ List.mem_singleton_self _)
      obtain ⟨u, hserve, hclient, hmail⟩ := exists_serve (D := D) hmem
      rw [← hclient] at hpc
      obtain ⟨t, ht⟩ := exists_path_of_reply (D := D) hpc
        (hmail.trans (congrArg (· ++ _) hreplies))
      exact ⟨_, t, (Lts.Path.single hserve).snoc ht, Nat.le_refl 2, _, _,
        List.mem_append_right _ (List.mem_singleton_self _)⟩

/-- **Without copies every answer is the right one.**  In every run a call that returns has the
answer to the word it asked for.  A call that waits can return, with a turn of the server, if
nothing of its client has been lost; otherwise the client waits for good. -/
theorem once_answers (h : (udpOnce ι D).Run tr s) :
    (∀ c w r, .act (.recvfrom c w r) ∈ tr → r.word = w ∧ r.Answers D) ∧
    ∀ c, (s.client c).pc = .recvfrom →
      (¬ Lost c tr → ∃ tr' t, (udpOnce ι D).Path s tr' t ∧ tr'.length ≤ 2 ∧ Returns c tr') ∧
      (Lost c tr → ∀ tr' t, (udpOnce ι D).Path s tr' t → ¬ Returns c tr') := by
  refine ⟨fun c w r hmem ↦ ⟨word_of_recvfrom h c w r hmem, ?_⟩, fun c hpc ↦
    ⟨exists_returns h hpc, fun hlost tr' t hpath ↦ not_returns_of_lost h hlost hpath⟩⟩
  obtain ⟨t, hrun, -⟩ := udp_of_once h
  exact reply_of_mem hrun c w r (List.mem_filterMap.mpr ⟨_, hmem, rfl⟩)

/-- Two clients ask for the same word.  The reply to one is late, and the request of the other is
lost. -/
def oneLost : List (OnceLabel Bool) :=
  [.act (.call true wordA), .act (.call false wordA), .act (.sendto true), .act (.sendto false),
    .act (.serve true (asking wordA)), .loseRequest false (asking wordA)]

/-- Nobody has asked anything. -/
def silentPair : UdpState Bool := ⟨.blank, [], [], fun _ ↦ ⟨.idle, .blank, none⟩⟩

theorem exec_oneLost : ∃ s, Lts.exec (onceNext twoWords) silentPair oneLost = some s ∧
    (s.client true).pc = .recvfrom ∧ (s.client false).pc = .recvfrom := by
  simp [Lts.exec, oneLost, onceNext, udpNext, silentPair, UdpState.setClient, UdpState.take, asking,
    serve_eq]

/-- The first client can have its answer, and the other one waits for good. -/
theorem once_answers_oneLost : ∃ s, (udpOnce Bool twoWords).Run oneLost s ∧
    (∃ tr t, (udpOnce Bool twoWords).Path s tr t ∧ tr.length ≤ 2 ∧ Returns true tr) ∧
    ∀ tr t, (udpOnce Bool twoWords).Path s tr t → ¬ Returns false tr := by
  obtain ⟨s, hexec, htrue, hfalse⟩ := exec_oneLost
  have hrun : (udpOnce Bool twoWords).Run oneLost s :=
    .of_exec ⟨rfl, rfl, fun _ ↦ ⟨rfl, rfl⟩⟩ hexec
  have hanswers := (once_answers hrun).2
  refine ⟨s, hrun, (hanswers true htrue).1 ?_, (hanswers false hfalse).2 ?_⟩
  · simp [Lost, oneLost, OnceLabel.Loses]
  · simp [Lost, oneLost, OnceLabel.Loses]

end SysProg.NetDict
