import SysProg.ShmDict.Undo

/-!
# One client

The client of `lookup6.c` reads the shared record after it has released it, which is
too late when another client's round comes in between (`lookup_stale`).  With one client
there is nobody else: until it asks again the server waits, and the record stays as it is.

* `results_of_run`: what the lookups of a single client return is what the dictionary
  says, query by query.  A text `"XXXX"` cannot be told from a missing word, so it is
  `answered` that says it.
* `exists_return`: a lookup among the first 16383 returns.  Some step of it is always
  possible, and every step lowers `State.rank`.
-/

namespace SysProg.ShmDict

open SysProg.Lib

/-! ## Queries and results -/

/-- What a `lookup` gives its caller: the code it returns, and the text that comes with
`FOUND`. -/
structure Result where
  code : Code
  text : Option (List UInt8)
deriving DecidableEq

/-- The result of a lookup through a text that may stand for "no such word". -/
def answered (D : Dictionary) (w : Word) : Result :=
  if answer D w = notFoundText then ⟨.NOTFOUND, none⟩ else ⟨.FOUND, some (answer D w).bytes⟩

/-- The word that is asked for. -/
def Label.query? : Label Unit → Option Word
  | .client _ (.call w) => some w
  | _ => none

/-- The words asked for in a run. -/
def queries (tr : List (Label Unit)) : List Word := tr.filterMap Label.query?

theorem queries_concat (tr : List (Label Unit)) (a : Label Unit) :
    queries (tr ++ [a]) = queries tr ++ a.query?.toList :=
  Lts.filterMap_concat Label.query? tr a

/-- The result of a lookup that returns in this step. -/
def result? (s : State Unit) : Label Unit → Option Result
  | .client _ .strcmp => if s.shm.text = notFoundText then some ⟨.NOTFOUND, none⟩ else none
  | .client _ .strcpyText => some ⟨.FOUND, some s.shm.text.bytes⟩
  | _ => none

/-- The runs of a single client in which no process ends, with what its lookups
returned. -/
abbrev session (lim : Int → Bool) (D : Dictionary) : Lts (State Unit × List Result) (Label Unit) :=
  (lasting Unit lim D).observe result?

variable {lim : Int → Bool} {D : Dictionary} {s t : State Unit} {a : Label Unit}
  {tr : List (Label Unit)} {results : List Result}

/-! ## What the lookups return -/

/-- The results so far are those of the queries, up to the lookup that is going on. -/
structure Answering (D : Dictionary) (tr : List (Label Unit)) (s : State Unit)
    (results : List Result) : Prop where
  queries : (queries tr).map (answered D) =
    results ++ if (s.client ()).pc = .idle then [] else [answered D (s.client ()).sought.word]
  text : (s.client ()).Reads → s.shm.text = answer D (s.client ()).sought.word
  found : (s.client ()).pc = .strcpyText → answer D (s.client ()).sought.word ≠ notFoundText

/-- Unless the client awaits the server, there is no round. -/
theorem quiet_of_ne_await (h : (lasting Unit lim D).Run tr s) (hpc : (s.client ()).pc ≠ .await) :
    Quiet D s (tr.filter Label.isEvent) := by
  rcases lasting_phase h with hquiet | ⟨c, done, ops, hc, -⟩
  · exact hquiet
  · exact absurd hc hpc

/-- The server does not write while the client reads. -/
theorem text_eq_of_reads {op : ServerOp} (h : (lasting Unit lim D).Run tr s)
    (hreads : (s.client ()).Reads) (hs : Step lim D s (.server op) t) :
    t.shm.text = s.shm.text := by
  have hpc : (s.client ()).pc ≠ .await := by
    rcases hreads with hpc | hpc <;> simp [hpc]
  have hserver := (quiet_of_ne_await h hpc).server
  cases hs with
  | lookupFound hlookup => exact absurd (hserver.symm.trans hlookup) (by simp)
  | strcpy hstrcpy => exact absurd (hserver.symm.trans hstrcpy) (by simp)
  | _ => rfl

/-- There is one client to update. -/
theorem client_of_update {c : Unit} {x : Client} (h : t.client = Function.update s.client c x) :
    t.client () = x := by
  rw [h]
  exact Function.update_self c x s.client

/-- A step of the client within a lookup, which returns nothing. -/
theorem Answering.move {c : Unit} {pc : ClientPc} {x : Client} (h : Answering D tr s results)
    (hpc : (s.client c).pc = pc) (hidle : pc ≠ .idle ∧ x.pc ≠ .idle) (hquery : a.query? = none)
    (hresult : result? s a = none) (hclient : t.client = Function.update s.client c x)
    (hsought : x.sought.word = (s.client c).sought.word)
    (htext : x.Reads → t.shm.text = answer D x.sought.word)
    (hfound : x.pc = .strcpyText → answer D x.sought.word ≠ notFoundText) :
    Answering D (tr ++ [a]) t (results ++ (result? s a).toList) where
  queries := by
    have hqueries := h.queries
    rw [if_neg (hpc ▸ hidle.1)] at hqueries
    rw [queries_concat, hquery, hresult, client_of_update hclient, if_neg hidle.2, hsought]
    simpa using hqueries
  text := by rwa [client_of_update hclient]
  found := by rwa [client_of_update hclient]

/-- The lookup returns, and its result is the right one. -/
theorem Answering.return {c : Unit} {pc : ClientPc} {x : Client} (h : Answering D tr s results)
    (hpc : (s.client c).pc = pc) (hidle : pc ≠ .idle) (hquery : a.query? = none)
    (hresult : result? s a = some (answered D (s.client c).sought.word))
    (hclient : t.client = Function.update s.client c x) (hx : x.pc = .idle) :
    Answering D (tr ++ [a]) t (results ++ (result? s a).toList) where
  queries := by
    have hqueries := h.queries
    rw [if_neg (hpc ▸ hidle)] at hqueries
    rw [queries_concat, hquery, hresult, client_of_update hclient, if_pos hx]
    simpa using hqueries
  text hreads := by
    rw [client_of_update hclient] at hreads
    rcases hreads with hreads | hreads <;> simp [hx] at hreads
  found hfound := by
    rw [client_of_update hclient, hx] at hfound
    cases hfound

/-- A step of the server. -/
theorem Answering.server {op : ServerOp} (h : Answering D tr s results)
    (hrun : (lasting Unit lim D).Run tr s) (hclient : t.client = s.client)
    (hs : Step lim D s (.server op) t) :
    Answering D (tr ++ [.server op]) t (results ++ (result? s (.server op)).toList) where
  queries := by
    rw [queries_concat, hclient]
    simpa [Label.query?, result?] using h.queries
  text hreads := by
    rw [hclient] at hreads ⊢
    rw [text_eq_of_reads hrun hreads hs]
    exact h.text hreads
  found := by
    rw [hclient]
    exact h.found

theorem Answering.step (h : Answering D tr s results) (hrun : (lasting Unit lim D).Run tr s)
    (hend : NoEnd s a) (hs : Step lim D s a t) :
    Answering D (tr ++ [a]) t (results ++ (result? s a).toList) := by
  cases hs with
  | @call c word hpc =>
      have hqueries := h.queries
      rw [if_pos hpc, List.append_nil] at hqueries
      refine ⟨?_, ?_, ?_⟩
      · rw [queries_concat, List.map_append, hqueries]
        simp [Label.query?, result?]
      · simp [Client.Reads]
      · simp
  | grab hpc hsem =>
      exact h.move hpc (by simp) rfl rfl rfl rfl (by simp [Client.Reads]) (by simp)
  | strcpyWord hpc =>
      exact h.move hpc (by simp) rfl rfl rfl rfl (by simp [Client.Reads]) (by simp)
  | alert hpc hsem =>
      exact h.move hpc (by simp) rfl rfl rfl rfl (by simp [Client.Reads]) (by simp)
  | await hpc hsem =>
      exact h.move hpc (by simp) rfl rfl rfl rfl (by simp [Client.Reads]) (by simp)
  | release hpc hsem =>
      have hanswer := text_of_release hrun hpc
      exact h.move hpc (by simp) rfl rfl rfl rfl (fun _ ↦ hanswer) (by simp)
  | strcmpFound hpc hne =>
      have hanswer := h.text (.inl hpc)
      exact h.move hpc (by simp) rfl (if_neg hne) rfl rfl (fun _ ↦ hanswer)
        (fun _ ↦ hanswer ▸ hne)
  | @strcmpNotFound c hpc heq =>
      have hanswer := h.text (.inl hpc)
      have hresult : answered D (s.client c).sought.word = ⟨.NOTFOUND, none⟩ :=
        if_pos (hanswer.symm.trans heq)
      exact h.return hpc (by simp) rfl (hresult ▸ if_pos heq) rfl rfl
  | @strcpyText c hpc =>
      have hanswer := h.text (.inr hpc)
      have hresult : answered D (s.client c).sought.word = ⟨.FOUND, some s.shm.text.bytes⟩ := by
        rw [hanswer]
        exact if_neg (h.found hpc)
      exact h.return hpc (by simp) rfl (congrArg some hresult.symm) rfl rfl
  | exit hpc => cases hend
  | clientDie hpc hsem hfail => cases hend
  | wait hpc hsem hrange => exact h.server hrun rfl (.wait hpc hsem hrange)
  | lookupFound hpc hlookup => exact h.server hrun rfl (.lookupFound hpc hlookup)
  | lookupNotFound hpc hlookup => exact h.server hrun rfl (.lookupNotFound hpc hlookup)
  | strcpy hpc => exact h.server hrun rfl (.strcpy hpc)
  | notify hpc hsem hrange => exact h.server hrun rfl (.notify hpc hsem hrange)
  | serverDie hpc hsem hfail => cases hend

theorem answering (h : (session lim D).Run tr (s, results)) : Answering D tr s results := by
  refine Lts.Run.induction (M := session lim D) (P := fun tr p ↦ Answering D tr p.1 p.2) ?_ ?_ h
  · rintro ⟨s, results⟩ ⟨hinit, rfl⟩
    have hpc : (s.client ()).pc = .idle := (hinit.client ()).1
    refine ⟨?_, ?_, ?_⟩ <;> simp [ShmDict.queries, Client.Reads, hpc]
  · rintro tr ⟨s, results⟩ a ⟨t, results'⟩ hrun hanswering ⟨⟨hend, hs⟩, rfl⟩
    exact hanswering.step hrun.of_observe hend (.of_step hs)

/-- **The lookups of a single client** return what the dictionary says about its
queries, one after the other. -/
theorem results_of_run (h : (session lim D).Run tr (s, results))
    (hpc : (s.client ()).pc = .idle) : results = (queries tr).map (answered D) := by
  have hqueries := (answering h).queries
  rw [if_pos hpc, List.append_nil] at hqueries
  exact hqueries.symm

/-! ## That the lookups return -/

/-- The client has been asked and has not alerted the server yet. -/
def Client.WillAlert (x : Client) : Prop := x.pc = .grab ∨ x.pc = .strcpyWord ∨ x.pc = .alert

instance (x : Client) : Decidable x.WillAlert := inferInstanceAs (Decidable (_ ∨ _))

/-- There is one alert for each query. -/
theorem alerts_eq (h : (lasting Unit lim D).Run tr s) :
    alerts tr + (if (s.client ()).WillAlert then 1 else 0) = (queries tr).length := by
  refine h.induction (P := fun tr s ↦
    alerts tr + (if (s.client ()).WillAlert then 1 else 0) = (queries tr).length) ?_ ?_
  · intro s hs
    simp [alerts, queries, Client.WillAlert, (hs.client ()).1]
  · rintro tr s a t - ih ⟨hend, hs⟩
    rw [queries_concat, List.length_append, ← ih, alerts, List.countP_append]
    cases Step.of_step hs with
    | call word hpc => simp [Client.WillAlert, alerts, Label.isAlert, Label.query?, hpc]
    | grab hpc | strcpyWord hpc | alert hpc | await hpc | release hpc | strcmpFound hpc
    | strcmpNotFound hpc | strcpyText hpc =>
        simp [Client.WillAlert, alerts, Label.isAlert, Label.query?, hpc]
    | exit hpc => cases hend
    | clientDie hpc hsem hfail => cases hend
    | wait | lookupFound | lookupNotFound | strcpy | notify => rfl
    | serverDie hpc hsem hfail => cases hend

/-- How many steps the client is from its return, the server's aside. -/
def ClientPc.rank : ClientPc → Nat
  | .idle | .exited => 0
  | .strcpyText => 1
  | .strcmp => 2
  | .release => 3
  | .await => 4
  | .alert => 5
  | .strcpyWord => 6
  | .grab => 7

/-- How many steps the server is from the end of the round, with `val` in semaphore 1. -/
def ServerPc.rank (val : Int) : ServerPc → Nat
  | .wait => if 0 < val then 4 else 0
  | .lookup => 3
  | .strcpy => 2
  | .notify => 1
  | .dead => 0

/-- A bound on the steps to the return; a round has at most four of the server. -/
def State.rank (s : State Unit) : Nat :=
  5 * (s.client ()).pc.rank + s.server.rank (s.sems.semval 1)

/-- Every step of a lookup lowers the rank. -/
theorem rank_lt (h : (lasting Unit lim D).Run tr s) (hend : NoEnd s a) (hquery : a.query? = none)
    (hs : Step lim D s a t) : t.rank < s.rank := by
  unfold State.rank
  cases hs with
  | call word hpc => cases hquery
  | grab hpc => simp [hpc, grabBuf, ClientPc.rank]
  | alert hpc =>
      have hquiet := quiet_of_ne_await h (by simp [hpc])
      simp [hpc, alertBuf, ClientPc.rank, ServerPc.rank, hquiet.server, hquiet.val]
  | await hpc => simp [hpc, awaitBuf, ClientPc.rank]
  | release hpc => simp [hpc, releaseBuf, ClientPc.rank]
  | strcpyWord hpc | strcmpFound hpc | strcmpNotFound hpc | strcpyText hpc =>
      simp [hpc, ClientPc.rank]
  | exit hpc => cases hend
  | clientDie hpc hsem hfail => cases hend
  | wait hpc hsem =>
      have hpos : 0 ≤ s.sems.semval 1 - 1 := hsem.2
      have hlt : 0 < s.sems.semval 1 := by omega
      simp [hpc, ServerPc.rank, hlt]
  | lookupFound hpc | lookupNotFound hpc | strcpy hpc => simp [hpc, ServerPc.rank]
  | notify hpc =>
      rcases lasting_phase h with hquiet | ⟨c, done, ops, -, -, hprogress, -⟩
      · exact absurd (hquiet.server.symm.trans hpc) (by simp)
      · rw [hpc] at hprogress
        simp [hpc, ServerPc.rank, waitBuf, hprogress.notify_step.1]
  | serverDie hpc hsem hfail => cases hend

/-- The client stays, as no process ends. -/
theorem lasting_client (h : (lasting Unit lim D).Run tr s) : (s.client ()).pc ≠ .exited := by
  refine h.induction (P := fun _ s ↦ (s.client ()).pc ≠ .exited) ?_ ?_
  · intro s hs
    simp [(hs.client ()).1]
  · rintro tr s a t - ih ⟨hend, hs⟩
    cases Step.of_step hs with
    | exit hpc => cases hend
    | clientDie hpc hsem hfail => cases hend
    | serverDie hpc hsem hfail => cases hend
    | wait | lookupFound | lookupNotFound | strcpy | notify => exact ih
    | _ => simp

theorem serverAlive_of_noEnd (h : NoEnd s a) : ServerAlive s a := by
  rintro rfl
  cases h

/-- With at most 16383 alerts no `semop` fails. -/
theorem not_die (h : (lasting Unit linuxAdj D).Run tr s) (hk : alerts tr ≤ 16383)
    (hs : Step linuxAdj D s a t) : a.isDie = false := by
  have hreach := h.of_restrict.reachable
  have htally := tally (h.restrict_mono fun _ _ ↦ serverAlive_of_noEnd)
  exact htally.not_die (lock hreach) (signs hreach) hk hs

section Ready

variable {b : SemBuf (Fin 2)}

/-- So one of the client is carried out if it is not blocked. -/
theorem client_inRange (h : (lasting Unit linuxAdj D).Run tr s) (hk : alerts tr ≤ 16383)
    (hpc : (s.client ()).pc.sembuf = some b) (hready : s.sems.Ready b) :
    s.sems.InRange linuxAdj (some ()) b := by
  by_contra hfail
  have hnone := not_die h hk (.clientDie hpc hready hfail)
  cases hnone

/-- And so is one of the server. -/
theorem server_inRange (h : (lasting Unit linuxAdj D).Run tr s) (hk : alerts tr ≤ 16383)
    (hpc : s.server.sembuf = some b) (hready : s.sems.Ready b) :
    s.sems.InRange linuxAdj none b := by
  by_contra hfail
  have hnone := not_die h hk (.serverDie hpc hready hfail)
  cases hnone

end Ready

/-- Some step of the lookup is possible. -/
def CanGoOn (D : Dictionary) (s : State Unit) : Prop :=
  ∃ a t, NoEnd s a ∧ a.query? = none ∧ Step linuxAdj D s a t

theorem Step.canGoOn (hs : Step linuxAdj D s a t) (hend : NoEnd s a) (hquery : a.query? = none) :
    CanGoOn D s :=
  ⟨a, t, hend, hquery, hs⟩

/-- In a round it is the server's turn. -/
theorem canGoOn_of_progress {ops : List ServerOp} (h : (lasting Unit linuxAdj D).Run tr s)
    (hk : alerts tr ≤ 16383) (hprogress : Progress D s.shm s.server (s.sems.semval 1) ops) :
    CanGoOn D s := by
  have hpos := hprogress.pos
  have hready : s.sems.Ready waitBuf := by
    refine ⟨fun hop ↦ absurd hop (by decide), ?_⟩
    show 0 ≤ s.sems.semval 1 - 1
    omega
  cases hpc : s.server with
  | wait =>
      exact (Step.wait hpc hready (server_inRange h hk (by rw [hpc]; rfl) hready)).canGoOn rfl rfl
  | lookup =>
      cases hlookup : lookup5 D.table s.shm with
      | mk code shm =>
          cases code with
          | FOUND => exact (Step.lookupFound hpc hlookup).canGoOn rfl rfl
          | NOTFOUND =>
              obtain ⟨rfl, -⟩ := lookup5_notfound hlookup
              exact (Step.lookupNotFound hpc hlookup).canGoOn rfl rfl
          | UNAVAIL => exact absurd (congrArg Prod.fst hlookup) (lookup5_ne_unavail _ _)
  | strcpy => exact (Step.strcpy hpc).canGoOn rfl rfl
  | notify =>
      exact (Step.notify hpc hready (server_inRange h hk (by rw [hpc]; rfl) hready)).canGoOn rfl rfl
  | dead => exact absurd hpc (lasting_server h)

/-- **A lookup does not get stuck** before it returns. -/
theorem canGoOn (h : (lasting Unit linuxAdj D).Run tr s) (hk : alerts tr ≤ 16383)
    (hidle : (s.client ()).pc ≠ .idle) : CanGoOn D s := by
  have hmutex := (lock h.of_restrict.reachable).mutex
  have hrange : ∀ b, (s.client ()).pc.sembuf = some b → s.sems.Ready b →
      s.sems.InRange linuxAdj (some ()) b := fun b ↦ client_inRange h hk
  cases hpc : (s.client ()).pc with
  | idle => exact absurd hpc hidle
  | grab =>
      have hval : s.sems.semval 0 = 1 := by
        rcases hmutex.val_eq with ⟨hval, -⟩ | ⟨-, c, hc⟩
        · exact hval
        · exact absurd hc (show ¬ (s.client ()).Holds by simp [Client.Holds, hpc])
      have hready : s.sems.Ready grabBuf := by simp [SemSet.Ready, grabBuf, hval]
      exact (Step.grab hpc hready (hrange _ (by rw [hpc]; rfl) hready)).canGoOn rfl rfl
  | strcpyWord => exact (Step.strcpyWord hpc).canGoOn rfl rfl
  | alert =>
      have hval := (quiet_of_ne_await h (by simp [hpc])).val
      have hready : s.sems.Ready alertBuf := by simp [SemSet.Ready, alertBuf, hval]
      exact (Step.alert hpc hready (hrange _ (by rw [hpc]; rfl) hready)).canGoOn rfl rfl
  | await =>
      rcases lasting_phase h with hquiet | ⟨c, done, ops, -, -, hprogress, -⟩
      · have hready : s.sems.Ready awaitBuf := by simp [SemSet.Ready, awaitBuf, hquiet.val]
        exact (Step.await hpc hready (hrange _ (by rw [hpc]; rfl) hready)).canGoOn rfl rfl
      · exact canGoOn_of_progress h hk hprogress
  | release =>
      have hval := hmutex.val_eq_zero (show (s.client ()).Holds from .inr (.inr (.inr hpc)))
      have hready : s.sems.Ready releaseBuf := by simp [SemSet.Ready, releaseBuf, hval]
      exact (Step.release hpc hready (hrange _ (by rw [hpc]; rfl) hready)).canGoOn rfl rfl
  | strcmp =>
      by_cases htext : s.shm.text = notFoundText
      · exact (Step.strcmpNotFound hpc htext).canGoOn rfl rfl
      · exact (Step.strcmpFound hpc htext).canGoOn rfl rfl
  | strcpyText => exact (Step.strcpyText hpc).canGoOn rfl rfl
  | exited => exact absurd hpc (lasting_client h)

/-- **Every lookup returns**, up to the limit of the adjustments. -/
theorem exists_return (h : (lasting Unit linuxAdj D).Run tr s)
    (hk : (queries tr).length ≤ 16383) : ∃ tr' t, (lasting Unit linuxAdj D).Path s tr' t ∧
      queries (tr ++ tr') = queries tr ∧ (t.client ()).pc = .idle := by
  refine h.exists_path (I := fun tr' _ ↦ queries tr' = queries tr) State.rank ?_ rfl
  intro tr' s' hrun hqueries hidle
  have hcount := alerts_eq hrun
  rw [hqueries] at hcount
  obtain ⟨a, t, hend, hquery, hs⟩ := canGoOn hrun (by omega) hidle
  refine ⟨a, t, ⟨hend, hs.to_step⟩, ?_, rank_lt hrun hend hquery hs⟩
  rw [queries_concat, hquery, hqueries]
  exact List.append_nil _

/-- Any 16383 words can be asked for, one after the other. -/
theorem exists_session (D : Dictionary) {ws : List Word} (hws : ws.length ≤ 16383) :
    ∃ tr s, (lasting Unit linuxAdj D).Run tr s ∧ queries tr = ws ∧ (s.client ()).pc = .idle := by
  induction ws using List.reverseRecOn with
  | nil => exact ⟨[], start, .init init_start, rfl, rfl⟩
  | append_singleton ws w ih =>
      have hle : ws.length ≤ 16383 :=
        Nat.le_trans (List.sublist_append_left ws [w]).length_le hws
      obtain ⟨tr, s, hrun, hqueries, hidle⟩ := ih hle
      have hs : Step linuxAdj D s (.client () (.call w)) _ := .call w hidle
      have hend : NoEnd s (Label.client () (.call w)) := rfl
      have hcall := hrun.snoc ⟨hend, hs.to_step⟩
      have hasked : queries (tr ++ [.client () (.call w)]) = ws ++ [w] := by
        rw [queries_concat, hqueries]
        rfl
      obtain ⟨tr', t, hpath, hsame, ht⟩ := exists_return hcall (by rwa [hasked])
      exact ⟨_, t, hcall.append hpath, hsame.trans hasked, ht⟩

end SysProg.ShmDict
