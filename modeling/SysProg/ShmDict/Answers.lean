import SysProg.ShmDict.Handshake

/-!
# What a lookup returns

The client of `lookup6.c` releases semaphore 0 and reads the answer only then,
with `strcmp` and `strcpy` on the shared record.  The answer is the right one at
the release, by the handshake.  What happens to it afterwards depends on the
server: in the round of another client it writes that client's answer over it.

* `lookup_correct`: as long as what the server writes is also the answer of every
  client that has released the record and not read it yet (`Undisturbed`), every
  lookup returns the dictionary's answer.
* `lookup_stale` is a run in which client 1's answer is written before client 0
  has read its own, and client 0 returns the definition of client 1's word.
-/

universe u

namespace SysProg.ShmDict

open SysProg.Lib

variable {ι : Type u} [DecidableEq ι] {lim : Int → Bool} {D : Dictionary} {s t : State ι}
  {a : Label ι} {c : ι}

/-- The client has released the record, and reads the text next. -/
def Client.Reads (x : Client) : Prop := x.pc = .strcmp ∨ x.pc = .strcpyText

instance (x : Client) : Decidable x.Reads := inferInstanceAs (Decidable (_ ∨ _))

/-- A step that writes a text writes the answer of every client that still reads. -/
def Undisturbed (D : Dictionary) (s : State ι) : Label ι → Prop
  | .server (.lookup .FOUND) | .server .strcpy =>
      ∀ c, (s.client c).Reads → answer D (s.client c).sought.word = answer D s.shm.word
  | _ => True

instance {n : Nat} (D : Dictionary) (s : State (Fin n)) (a : Label (Fin n)) :
    Decidable (Undisturbed D s a) :=
  match a with
  | .server (.lookup .FOUND) | .server .strcpy =>
      inferInstanceAs (Decidable (∀ c, (s.client c).Reads → _ = _))
  | .server (.lookup .NOTFOUND) | .server (.lookup .UNAVAIL) | .server .wait | .server .notify
  | .server .die | .client _ _ => isTrue trivial

/-- No process ends, and no answer is overwritten by a different one before it is read. -/
def Orderly (D : Dictionary) (s : State ι) (a : Label ι) : Prop := NoEnd s a ∧ Undisturbed D s a

instance {n : Nat} (D : Dictionary) (s : State (Fin n)) (a : Label (Fin n)) :
    Decidable (Orderly D s a) :=
  inferInstanceAs (Decidable (_ ∧ _))

/-- What the last call returned is what the dictionary says about its word. -/
def Correct (D : Dictionary) (x : Client) : Prop :=
  (x.ret = some .FOUND → ∃ r ∈ D.table, r.word = x.sought.word ∧ r.text = x.sought.text) ∧
    (x.ret = some .NOTFOUND → ∀ r ∈ D.table, r.word ≠ x.sought.word)

/-- A client that still reads finds its answer in `text`, and has not decided
otherwise. -/
structure Fresh (D : Dictionary) (text : Text) (x : Client) : Prop where
  text : x.Reads → text = answer D x.sought.word
  found : x.pc = .strcpyText → answer D x.sought.word ≠ notFoundText
  correct : Correct D x

/-- A client that does not read keeps what it returned. -/
theorem Fresh.move {text text' : Text} {x y : Client} (h : Fresh D text x) (hy : ¬ y.Reads)
    (hsought : y.sought = x.sought) (hret : y.ret = x.ret) : Fresh D text' y where
  text hreads := absurd hreads hy
  found hpc := absurd (.inr hpc) hy
  correct := by simpa only [Correct, hsought, hret] using h.correct

/-- A client at its release has its answer in the shared record. -/
theorem text_of_release {tr : List (Label ι)} (h : (lasting ι lim D).Run tr s)
    (hc : (s.client c).pc = .release) : s.shm.text = answer D (s.client c).sought.word := by
  rcases lasting_phase h with hquiet | ⟨d, done, ops, hd, -⟩
  · exact hquiet.text c (.inr hc)
  · have hlock := lock h.of_restrict.reachable
    obtain rfl := hlock.mutex.unique c d (.inr (.inr (.inr hc))) (Client.holds_await hd)
    exact absurd (hc.symm.trans hd) (by simp)

/-- The server writes the answer to the word in the record. -/
theorem text_of_strcpy {tr : List (Label ι)} (h : (lasting ι lim D).Run tr s)
    (hpc : s.server = .strcpy) : answer D s.shm.word = notFoundText := by
  rcases lasting_phase h with hquiet | ⟨d, done, ops, -, -, hprogress, -⟩
  · exact absurd (hquiet.server.symm.trans hpc) (by simp)
  · rw [hpc] at hprogress
    exact hprogress.answer_of_strcpy

/-- The text after a step, for whoever still reads. -/
theorem Undisturbed.text_eq {tr : List (Label ι)} (h : (lasting ι lim D).Run tr s)
    (hundisturbed : Undisturbed D s a) (hs : Step lim D s a t) (hc : (s.client c).Reads)
    (htext : s.shm.text = answer D (s.client c).sought.word) :
    t.shm.text = answer D (s.client c).sought.word := by
  cases hs with
  | lookupFound hpc hlookup =>
      have hword := lookup5_word D.table s.shm
      rw [hlookup] at hword
      rw [hundisturbed c hc, ← hword]
      exact answer_of_found hlookup
  | strcpy hpc => exact ((hundisturbed c hc).trans (text_of_strcpy h hpc)).symm
  | _ => exact htext

/-- One step keeps every client's answer fresh. -/
theorem fresh_step {tr : List (Label ι)} (hD : ∀ r ∈ D.table, r.text ≠ notFoundText)
    (h : (lasting ι lim D).Run tr s) (hundisturbed : Undisturbed D s a)
    (hfresh : ∀ c, Fresh D s.shm.text (s.client c)) (hs : Step lim D s a t) :
    ∀ c, Fresh D t.shm.text (t.client c) := by
  have htext : ∀ c, Fresh D t.shm.text (s.client c) := fun c ↦
    { hfresh c with text := fun hc ↦ hundisturbed.text_eq h hs hc ((hfresh c).text hc) }
  have hupdate : ∀ c (x : Client), Fresh D t.shm.text x →
      ∀ d, Fresh D t.shm.text (Function.update s.client c x d) := by
    intro c x hx
    rw [Function.forall_update_iff s.client fun _ y ↦ Fresh D t.shm.text y]
    exact ⟨hx, fun d _ ↦ htext d⟩
  cases hs with
  | @call c word hpc =>
      refine hupdate c _ ⟨?_, ?_, ?_⟩ <;> simp [Client.Reads, Correct]
  | @grab c | @strcpyWord c | @alert c | @await c | @exit c | @clientDie c =>
      exact hupdate c _ ((hfresh c).move (by simp [Client.Reads]) rfl rfl)
  | @release c hpc hsem =>
      have hanswer := text_of_release h hpc
      exact hupdate c _ ⟨fun _ ↦ hanswer, by simp, (hfresh c).correct⟩
  | @strcmpFound c hpc hne =>
      have hanswer := (hfresh c).text (.inl hpc)
      exact hupdate c _ ⟨fun _ ↦ hanswer, fun _ ↦ hanswer ▸ hne, (hfresh c).correct⟩
  | @strcmpNotFound c hpc heq =>
      have hanswer := (hfresh c).text (.inl hpc)
      have hnone := no_record_of_answer hD (hanswer.symm.trans heq)
      exact hupdate c _ ⟨by simp [Client.Reads], by simp, by simp, fun _ ↦ hnone⟩
  | @strcpyText c hpc =>
      have hanswer := (hfresh c).text (.inr hpc)
      have hrecord := exists_record_of_answer ((hfresh c).found hpc)
      rw [← hanswer] at hrecord
      exact hupdate c _ ⟨by simp [Client.Reads], by simp, fun _ ↦ hrecord, by simp⟩
  | wait | lookupFound | lookupNotFound | strcpy | notify | serverDie => exact htext

/-- **Every lookup returns the dictionary's answer**, in a run in which no process
ends and no answer is overwritten by a different one before it is read. -/
theorem lookup_correct {tr : List (Label ι)} (hD : ∀ r ∈ D.table, r.text ≠ notFoundText)
    (h : ((shmDict ι lim D).restrict (Orderly D)).Run tr s) (c : ι) : Correct D (s.client c) := by
  refine (h.induction (P := fun _ s ↦ ∀ c, Fresh D s.shm.text (s.client c)) ?_ ?_ c).correct
  · intro s hs c
    obtain ⟨hpc, hret⟩ := hs.client c
    refine ⟨?_, ?_, ?_⟩ <;> simp [Client.Reads, Correct, hpc, hret]
  · intro tr s a t hr hfresh hs
    have hlasting : (lasting ι lim D).Run tr s := hr.restrict_mono fun _ _ hG ↦ hG.1
    exact fresh_step hD hlasting hs.1.2 hfresh (.of_step hs.2)

/-- What client `c` does in a lookup before it reads the answer. -/
def request (c : ι) (word : Word) : List (Label ι) :=
  [.client c (.call word), .client c .grab, .client c .strcpyWord, .client c .alert]

/-- A whole round for client `c`, whose word the server finds. -/
def served (c : ι) (word : Word) : List (Label ι) :=
  request c word ++ [.server .wait, .server (.lookup .FOUND), .server .notify,
    .client c .await, .client c .release]

/-- Both clients are served, and each reads its answer before the next round. -/
def inTurn : List (Label (Fin 2)) :=
  served 0 wordA ++ [.client 0 .strcmp, .client 0 .strcpyText] ++
    served 1 wordB ++ [.client 1 .strcmp, .client 1 .strcpyText]

theorem lookup_correct_inTurn : ∃ s : State (Fin 2),
    (s.client 0).ret = some .FOUND ∧ (s.client 1).ret = some .FOUND ∧
      ∀ c, Correct twoWords (s.client c) := by
  have hexec : (Lts.exec (Lts.guarded (next linuxAdj twoWords) (Orderly twoWords)) start inTurn).map
      (fun s ↦ ((s.client 0).ret, (s.client 1).ret)) = some (some .FOUND, some .FOUND) := by decide
  obtain ⟨s, hrun, hret⟩ := Lts.exists_restrict_run_of_exec init_start _ _ _ hexec
  obtain ⟨h0, h1⟩ := Prod.mk.inj hret
  exact ⟨s, h0, h1, lookup_correct (by decide) hrun⟩

/-- Client 1 is served between the release of client 0 and its reading. -/
def overtaken : List (Label (Fin 2)) :=
  served 0 wordA ++ served 1 wordB ++ [.client 0 .strcmp, .client 0 .strcpyText]

/-- The server's answer to client 1 is in the record when client 0 reads its own. -/
theorem lookup_stale : (∀ r ∈ twoWords.table, r.text ≠ notFoundText) ∧
    ∃ s, (lasting (Fin 2) linuxAdj twoWords).Run overtaken s ∧
      (s.client 0).ret = some .FOUND ∧ (s.client 0).sought = ⟨wordA, textB⟩ ∧
        ¬ Correct twoWords (s.client 0) := by
  refine ⟨by decide, ?_⟩
  have hexec : (Lts.exec (Lts.guarded (next linuxAdj twoWords) NoEnd) start overtaken).map
      (fun s ↦ ((s.client 0).ret, (s.client 0).sought)) = some (some .FOUND, ⟨wordA, textB⟩) := by
    decide
  obtain ⟨s, hrun, hclient⟩ := Lts.exists_restrict_run_of_exec init_start _ _ _ hexec
  obtain ⟨hret, hsought⟩ := Prod.mk.inj hclient
  refine ⟨s, hrun, hret, hsought, fun hcorrect ↦ ?_⟩
  obtain ⟨r, hr, hword⟩ := hcorrect.1 hret
  rw [hsought] at hword
  revert r
  decide

end SysProg.ShmDict
