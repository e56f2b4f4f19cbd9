import SysProg.Lib.Mutex
import SysProg.ShmDict.Protocol

/-!
# The handshake on the two semaphores

Semaphore 0 is a mutex around the shared record, and a client that holds it and
has sent its alert drives the server through one *round*: it raises semaphore 1 to
`2`, the server decrements it, looks the word up, and decrements it again to
notify the client.  The value of semaphore 1 and the program counter of the server
tell how far the round is, and everything else follows.

* `lock` is the mutex invariant, `signs` gives the signs of the adjustments of
  semaphore 1, and `written` is what a client has put into the shared record when it
  is about to alert.  These hold in every reachable state, with processes ending
  anywhere.
* `Phase` is the state of the current round together with the rounds completed so
  far.  It is an invariant of the runs in which a process with an adjustment of
  semaphore 1 ends only while that semaphore is `0` (`QuietEnd`), and in
  particular of the runs in which no process ends.
* `handshake` reads the handshake off the phase, for the runs in which no process
  ends.
-/

universe u

namespace SysProg.ShmDict

open SysProg.Lib

variable {ι : Type u} [DecidableEq ι] {lim : Int → Bool} {D : Dictionary} {s t : State ι}
  {a : Label ι} {c d : ι}

/-! ## The answer to a query -/

/-- The text of the word's record, or the text that stands for "no such word". -/
def answer (D : Dictionary) (word : Word) : Text :=
  match bsearch (dictCmp word) D.table with
  | some found => found.text
  | none => notFoundText

theorem exists_record_of_answer {word : Word} (h : answer D word ≠ notFoundText) :
    ∃ r ∈ D.table, r.word = word ∧ r.text = answer D word := by
  unfold answer at h ⊢
  split at h
  · next found hfound =>
      obtain ⟨hmem, hcmp⟩ := bsearch_eq_some hfound
      exact ⟨found, hmem, (strcmp_eq_iff.mp hcmp).symm, rfl⟩
  · exact absurd rfl h

theorem no_record_of_answer {word : Word} (hD : ∀ r ∈ D.table, r.text ≠ notFoundText)
    (h : answer D word = notFoundText) : ∀ r ∈ D.table, r.word ≠ word := by
  unfold answer at h
  split at h
  · next found hfound => exact absurd h (hD found (bsearch_eq_some hfound).1)
  · next hnone =>
      exact fun r hr heq ↦
        bsearch_eq_none (ordered_dictCmp D word) hnone r hr (strcmp_eq_iff.mpr heq.symm)

/-- The answer for a word that has a record. -/
theorem answer_of_mem {r : Dictrec} (hr : r ∈ D.table) : answer D r.word = r.text := by
  unfold answer
  split
  · next found hfound =>
      obtain ⟨hmem, hcmp⟩ := bsearch_eq_some hfound
      exact congrArg Dictrec.text (D.eq_of_word_eq hmem hr (strcmp_eq_iff.mp hcmp).symm)
  · next hnone =>
      exact absurd (strcmp_eq_iff.mpr rfl)
        (bsearch_eq_none (ordered_dictCmp D r.word) hnone r hr)

theorem answer_of_found {shm shm' : Dictrec} (h : lookup5 D.table shm = (.FOUND, shm')) :
    shm'.text = answer D shm'.word := by
  unfold lookup5 at h
  unfold answer
  split at h
  · next hfound => cases h; simp [hfound]
  · cases h

theorem answer_of_notfound {shm shm' : Dictrec} (h : lookup5 D.table shm = (.NOTFOUND, shm')) :
    answer D shm.word = notFoundText := by
  unfold lookup5 at h
  unfold answer
  cases hfound : bsearch (dictCmp shm.word) D.table with
  | none => rfl
  | some found =>
      rw [hfound] at h
      cases h

/-! ## The mutex -/

/-- The client is between its grab and its release. -/
def Client.Holds (x : Client) : Prop :=
  x.pc = .strcpyWord ∨ x.pc = .alert ∨ x.pc = .await ∨ x.pc = .release

instance (x : Client) : Decidable x.Holds := inferInstanceAs (Decidable (_ ∨ _))

theorem Client.holds_await {x : Client} (h : x.pc = .await) : x.Holds := .inr (.inr (.inl h))

/-- Semaphore 0 is a mutex, and the server has no part in it. -/
structure Lock (s : State ι) : Prop where
  mutex : Mutex Client.Holds (s.sems.semval 0) (fun c ↦ s.sems.semadj (some c) 0) s.client
  server : s.sems.semadj none 0 = 0

theorem Lock.step (h : Lock s) (hs : Step lim D s a t) : Lock t := by
  obtain ⟨hmutex, hserver⟩ := h
  cases hs with
  | call _ hpc | strcpyWord hpc | strcmpFound hpc | strcmpNotFound hpc | strcpyText hpc =>
      exact ⟨hmutex.stay (by simp [Client.Holds, hpc]) rfl fun _ ↦ rfl, hserver⟩
  | grab hpc hsem =>
      have hpos : 0 ≤ s.sems.semval 0 - 1 := hsem.2
      refine ⟨hmutex.enter hpos (by simp [Client.Holds]) ?_ ?_, ?_⟩ <;>
        simp [grabBuf, hserver, Int.sub_eq_add_neg]
  | alert hpc hsem =>
      refine ⟨hmutex.stay (by simp [Client.Holds, hpc]) ?_ ?_, ?_⟩ <;> simp [alertBuf, hserver]
  | await hpc hsem =>
      refine ⟨hmutex.stay (by simp [Client.Holds, hpc]) ?_ ?_, ?_⟩ <;> simp [awaitBuf, hserver]
  | release hpc hsem =>
      refine ⟨hmutex.release (by simp [Client.Holds, hpc]) (by simp [Client.Holds]) ?_ ?_, ?_⟩ <;>
        simp [releaseBuf, hserver]
  | exit | clientDie =>
      exact ⟨hmutex.undo (by simp [Client.Holds]) rfl (by simp), by simp [hserver]⟩
  | wait | notify => exact ⟨by simpa [waitBuf] using hmutex, by simp [waitBuf, hserver]⟩
  | lookupFound | lookupNotFound | strcpy => exact ⟨hmutex, hserver⟩
  | serverDie hpc hsem hfail =>
      have hclamp : max 0 (min semvmx (s.sems.semval 0)) = s.sems.semval 0 := by
        rcases hmutex.val_eq with ⟨hval, -⟩ | ⟨hval, -⟩ <;> rw [hval] <;> rfl
      exact ⟨by simpa [hserver, hclamp] using hmutex, by simp⟩

omit [DecidableEq ι] in
theorem Lock.init (h : Init s) : Lock s := by
  have hout : ∀ c, ¬ (s.client c).Holds := fun c ↦ by simp [Client.Holds, (h.client c).1]
  refine ⟨⟨fun c d hc ↦ absurd hc (hout c), .inl ⟨h.sem0, hout⟩, fun c ↦ ?_⟩, h.semadj _ _⟩
  rw [if_neg (hout c), h.semadj]

theorem lock (h : (shmDict ι lim D).Reachable s) : Lock s :=
  h.induction (fun _ ↦ Lock.init) fun _ _ _ _ hlock hs ↦ hlock.step (.of_step hs)

/-! ## Adjustments of semaphore 1 -/

/-- Clients raise semaphore 1 and the server lowers it. -/
structure Signs (s : State ι) : Prop where
  client : ∀ c, s.sems.semadj (some c) 1 ≤ 0
  server : 0 ≤ s.sems.semadj none 1

theorem Signs.step (h : Signs s) (hs : Step lim D s a t) : Signs t := by
  obtain ⟨hclient, hserver⟩ := h
  have hdown : ∀ c, s.sems.semadj (some c) 1 - 2 ≤ 0 := fun c ↦ by have := hclient c; omega
  have hup : 0 ≤ s.sems.semadj none 1 + 1 := by omega
  cases hs with
  | call | strcpyWord | strcmpFound | strcmpNotFound | strcpyText | lookupFound
  | lookupNotFound | strcpy => exact ⟨hclient, hserver⟩
  | grab hpc hsem => exact ⟨by simpa [grabBuf] using hclient, by simpa [grabBuf] using hserver⟩
  | @alert c hpc hsem =>
      refine ⟨fun d ↦ ?_, by simpa using hserver⟩
      by_cases hd : d = c <;> simp [alertBuf, hd, hclient, hdown]
  | await hpc hsem => exact ⟨by simpa [awaitBuf] using hclient, by simpa using hserver⟩
  | release hpc hsem =>
      exact ⟨by simpa [releaseBuf] using hclient, by simpa using hserver⟩
  | @exit c | @clientDie c =>
      refine ⟨fun d ↦ ?_, by simpa using hserver⟩
      by_cases hd : d = c <;> simp [hd, hclient]
  | wait | notify => exact ⟨by simpa using hclient, by simpa [waitBuf] using hup⟩
  | serverDie hpc hsem hfail => exact ⟨by simpa using hclient, by simp⟩

theorem signs (h : (shmDict ι lim D).Reachable s) : Signs s :=
  h.induction (fun _ hs ↦ ⟨fun _ ↦ Int.le_of_eq (hs.semadj _ _), Int.le_of_eq (hs.semadj _ _).symm⟩)
    fun _ _ _ _ hsigns hs ↦ hsigns.step (.of_step hs)

/-! ## The word in the shared record -/

/-- A client about to alert the server has its word in the shared record. -/
def Written (s : State ι) : Prop :=
  ∀ c, (s.client c).pc = .alert → s.shm.word = (s.client c).sought.word

theorem Written.step (hlock : Lock s) (h : Written s) (hs : Step lim D s a t) : Written t := by
  have hupdate : ∀ (c : ι) (x : Client), x.pc ≠ .alert →
      ∀ d, (Function.update s.client c x d).pc = .alert →
        s.shm.word = (Function.update s.client c x d).sought.word := by
    intro c x hx
    rw [Function.forall_update_iff s.client fun _ y ↦ y.pc = .alert → s.shm.word = y.sought.word]
    exact ⟨fun hpc ↦ absurd hpc hx, fun d _ ↦ h d⟩
  cases hs with
  | @strcpyWord c hpc =>
      -- nobody else holds the record, so nobody else is about to alert
      intro d hd
      by_cases hdc : d = c
      · simp [hdc]
      · have hdpc : (s.client d).pc = .alert := by simpa [hdc] using hd
        have hc : (s.client c).Holds := .inl hpc
        exact absurd (.inr (.inl hdpc)) (hlock.mutex.unique.not_of_ne hc hdc)
  | call | grab | alert | await | release | strcmpFound | strcmpNotFound | strcpyText | exit
  | clientDie => exact hupdate _ _ (by simp)
  | lookupFound hpc hlookup =>
      have hword := lookup5_word D.table s.shm
      rw [hlookup] at hword
      exact fun c hc ↦ hword.trans (h c hc)
  | wait | lookupNotFound | strcpy | notify | serverDie => exact h

theorem written (h : (shmDict ι lim D).Reachable s) : Written s :=
  h.induction (fun s hs c hc ↦ absurd ((hs.client c).1.symm.trans hc) (by simp))
    fun _ _ _ hr hwritten hs ↦ hwritten.step (lock hr) (.of_step hs)

/-! ## Rounds -/

/-- What the server does in one round. -/
inductive Cycle : List ServerOp → Prop
  | found : Cycle [.wait, .lookup .FOUND, .notify]
  | notfound : Cycle [.wait, .lookup .NOTFOUND, .strcpy, .notify]

/-- The events of the handshake: alerts and what the server does. -/
def Label.isEvent : Label ι → Bool
  | .server _ | .client _ .alert => true
  | _ => false

/-- The alert of client `c` followed by `ops` of the server. -/
def roundOf (c : ι) (ops : List ServerOp) : List (Label ι) :=
  .client c .alert :: ops.map .server

/-- A sequence of complete rounds: one alert, then one cycle of the server. -/
inductive Rounds : List (Label ι) → Prop
  | nil : Rounds []
  | snoc {es : List (Label ι)} {c : ι} {ops : List ServerOp} :
      Rounds es → Cycle ops → Rounds (es ++ roundOf c ops)

/-- The last round is complete, and it is the one of client `c`. -/
def LastRound (c : ι) (es : List (Label ι)) : Prop :=
  ∃ done ops, Rounds done ∧ Cycle ops ∧ es = done ++ roundOf c ops

/-- `Progress D shm pc val ops`: in the middle of a round the server has done `ops`
and is at `pc`, with `val` in semaphore 1 and `shm` in the shared record. -/
inductive Progress (D : Dictionary) (shm : Dictrec) : ServerPc → Int → List ServerOp → Prop
  | wait : Progress D shm .wait 2 []
  | lookup : Progress D shm .lookup 1 [.wait]
  | strcpy (htext : answer D shm.word = notFoundText) :
      Progress D shm .strcpy 1 [.wait, .lookup .NOTFOUND]
  | notifyFound (htext : shm.text = answer D shm.word) :
      Progress D shm .notify 1 [.wait, .lookup .FOUND]
  | notifyNotFound (htext : shm.text = answer D shm.word) :
      Progress D shm .notify 1 [.wait, .lookup .NOTFOUND, .strcpy]

section Progress

variable {shm shm' : Dictrec} {pc : ServerPc} {val : Int} {ops : List ServerOp}

theorem Progress.pos (h : Progress D shm pc val ops) : 0 < val := by
  cases h <;> decide

theorem Progress.le_two (h : Progress D shm pc val ops) : val ≤ 2 := by
  cases h <;> decide

theorem Progress.wait_step (h : Progress D shm .wait val ops) :
    Progress D shm .lookup (val - 1) (ops ++ [.wait]) := by
  cases h
  exact .lookup

theorem Progress.ops_eq_wait (h : Progress D shm .lookup val ops) : ops = [.wait] := by
  cases h
  rfl

theorem Progress.found_step (h : Progress D shm .lookup val ops)
    (hlookup : lookup5 D.table shm = (.FOUND, shm')) :
    Progress D shm' .notify val (ops ++ [.lookup .FOUND]) := by
  cases h
  exact .notifyFound (answer_of_found hlookup)

theorem Progress.notfound_step (h : Progress D shm .lookup val ops)
    (hlookup : lookup5 D.table shm = (.NOTFOUND, shm')) :
    Progress D shm .strcpy val (ops ++ [.lookup .NOTFOUND]) := by
  cases h
  exact .strcpy (answer_of_notfound hlookup)

theorem Progress.answer_of_strcpy (h : Progress D shm .strcpy val ops) :
    answer D shm.word = notFoundText := by
  cases h with
  | strcpy htext => exact htext

theorem Progress.strcpy_step (h : Progress D shm .strcpy val ops) :
    Progress D ⟨shm.word, notFoundText⟩ .notify val (ops ++ [.strcpy]) := by
  have htext := h.answer_of_strcpy
  cases h
  exact .notifyNotFound htext.symm

theorem Progress.notify_step (h : Progress D shm .notify val ops) :
    val = 1 ∧ Cycle (ops ++ [.notify]) ∧ shm.text = answer D shm.word := by
  cases h with
  | notifyFound htext => exact ⟨rfl, .found, htext⟩
  | notifyNotFound htext => exact ⟨rfl, .notfound, htext⟩

/-- What is done in a round is the beginning of a cycle. -/
theorem Progress.extend (h : Progress D shm pc val ops) : ∃ rest, Cycle (ops ++ rest) := by
  cases h with
  | wait | lookup | notifyFound => exact ⟨_, .found⟩
  | strcpy | notifyNotFound => exact ⟨_, .notfound⟩

end Progress

omit [DecidableEq ι] in
theorem roundOf_concat (c : ι) (ops : List ServerOp) (op : ServerOp) :
    roundOf c ops ++ [.server op] = roundOf c (ops ++ [op]) := by
  simp [roundOf]

/-- Between two rounds: the server waits, and a client that has not released the
record yet has its answer there. -/
structure Quiet (D : Dictionary) (s : State ι) (es : List (Label ι)) : Prop where
  server : s.server = .wait
  val : s.sems.semval 1 = 0
  rounds : Rounds es
  last : ∀ c, (s.client c).pc = .await → LastRound c es
  text : ∀ c, (s.client c).pc = .await ∨ (s.client c).pc = .release →
    s.shm.text = answer D (s.client c).sought.word

/-- Where the handshake is, after the events `es`. -/
inductive Phase (D : Dictionary) (s : State ι) (es : List (Label ι)) : Prop
  | /-- Between two rounds. -/ quiet (h : Quiet D s es)
  | /-- In the round of client `c`. -/
    busy {c : ι} {done : List (Label ι)} {ops : List ServerOp} (hc : (s.client c).pc = .await)
      (hword : s.shm.word = (s.client c).sought.word)
      (hprogress : Progress D s.shm s.server (s.sems.semval 1) ops)
      (hrounds : Rounds done) (hes : es = done ++ roundOf c ops)
  | /-- The server has died, and client `c` waits forever. -/
    dead {c : ι} (hpc : s.server = .dead) (hc : (s.client c).pc = .await)
      (hval : 0 < s.sems.semval 1) (hmax : s.sems.semval 1 ≤ semvmx)

/-- A process with an adjustment of semaphore 1 ends only while the semaphore is `0`. -/
def QuietEnd (s : State ι) : Label ι → Prop
  | .client c .exit | .client c .die => s.sems.semadj (some c) 1 ≠ 0 → s.sems.semval 1 = 0
  | _ => True

/-- The undo of a process that ends quietly leaves semaphore 1 alone. -/
theorem undo_eq_self {val adj : Int} (hpos : 0 ≤ val) (hmax : val ≤ semvmx) (hadj : adj ≤ 0)
    (hend : adj ≠ 0 → val = 0) : max 0 (min semvmx (val + adj)) = val := by
  by_cases hzero : adj = 0
  · subst hzero
    omega
  · rw [hend hzero] at hmax ⊢
    omega

/-- **While a client awaits the server, the other clients can do nothing to it.**
They leave the shared record and semaphore 1 alone. -/
theorem Step.frame_of_await {op : ClientOp} (hlock : Lock s) (hsigns : Signs s)
    (hc : (s.client c).pc = .await) (hpos : 0 < s.sems.semval 1) (hmax : s.sems.semval 1 ≤ semvmx)
    (hend : QuietEnd s (.client d op)) (hs : Step lim D s (.client d op) t) :
    t.client c = s.client c ∧ t.shm = s.shm ∧ t.server = s.server ∧
      t.sems.semval 1 = s.sems.semval 1 ∧ (Label.client d op).isEvent = false := by
  have hholds := Client.holds_await hc
  have hzero := hlock.mutex.val_eq_zero hholds
  have hne : ∀ {pc}, (s.client d).pc = pc → pc ≠ .await → c ≠ d := by
    rintro pc hpc hawait rfl
    exact hawait (hpc.symm.trans hc)
  have hout : ∀ {pc}, (s.client d).pc = pc → pc ≠ .await → ¬ (s.client d).Holds :=
    fun hpc hawait ↦ hlock.mutex.unique.not_of_ne hholds (hne hpc hawait).symm
  cases hs with
  | call _ hpc | strcmpFound hpc | strcmpNotFound hpc | strcpyText hpc =>
      simp [hne hpc, Label.isEvent]
  | grab hpc hsem => exact absurd hsem.2 (by simp [grabBuf, hzero])
  | strcpyWord hpc => exact absurd (.inl hpc) (hout hpc (by simp))
  | alert hpc hsem => exact absurd (.inr (.inl hpc)) (hout hpc (by simp))
  | await hpc hsem => exact absurd (hsem.1 rfl) (by simp [awaitBuf]; omega)
  | release hpc hsem => exact absurd (.inr (.inr (.inr hpc))) (hout hpc (by simp))
  | exit hpc =>
      have hval := undo_eq_self (Int.le_of_lt hpos) hmax (hsigns.client d) hend
      simp [hne hpc, hval, Label.isEvent]
  | clientDie hpc hsem hfail =>
      have hval := undo_eq_self (Int.le_of_lt hpos) hmax (hsigns.client d) hend
      have hcd : c ≠ d := by
        rintro rfl
        rw [hc] at hpc
        cases hpc
        exact Int.ne_of_gt hpos (hsem.1 rfl)
      simp [hcd, hval, Label.isEvent]

/-- A client moves to `x`, and this is not the start of a round. -/
theorem Quiet.move {es : List (Label ι)} {x : Client} (h : Quiet D s es)
    (hserver : t.server = s.server) (hval : t.sems.semval 1 = 0) (hshm : t.shm.text = s.shm.text)
    (hclient : t.client = Function.update s.client c x) (hx : x.pc ≠ .await)
    (htext : x.pc = .release → s.shm.text = answer D x.sought.word) (hev : a.isEvent = false) :
    Quiet D t (es ++ [a].filter Label.isEvent) where
  server := hserver.trans h.server
  val := hval
  rounds := by simpa [hev] using h.rounds
  last := by
    rw [hclient, List.filter_cons_of_neg (by simp [hev]), List.filter_nil, List.append_nil,
      Function.forall_update_iff s.client fun d y ↦ y.pc = .await → LastRound d es]
    exact ⟨fun hawait ↦ absurd hawait hx, fun d _ ↦ h.last d⟩
  text := by
    rw [hclient, hshm, Function.forall_update_iff s.client fun _ y ↦
      y.pc = .await ∨ y.pc = .release → s.shm.text = answer D y.sought.word]
    exact ⟨fun hpc ↦ htext (hpc.resolve_left hx), fun d _ ↦ h.text d⟩

/-- A step from between two rounds. -/
theorem Quiet.step {es : List (Label ι)} (hsigns : Signs s) (hwritten : Written s)
    (h : Quiet D s es) (hs : Step lim D s a t) : Phase D t (es ++ [a].filter Label.isEvent) := by
  have hundo : ∀ c, max 0 (min semvmx (s.sems.semval 1 + s.sems.semadj (some c) 1)) = 0 := by
    intro c
    have hadj := hsigns.client c
    rw [h.val]
    simp only [semvmx]
    omega
  cases hs with
  | call | strcpyWord | strcmpFound | strcmpNotFound | strcpyText =>
      exact .quiet (h.move rfl h.val rfl rfl (by simp) (by simp) rfl)
  | grab hpc hsem =>
      exact .quiet (h.move rfl (by simpa [grabBuf] using h.val) rfl rfl (by simp) (by simp) rfl)
  | @alert c hpc hsem =>
      have hes : es ++ [Label.client c .alert].filter Label.isEvent = es ++ roundOf c [] := rfl
      refine .busy (c := c) (by simp) (by simpa using hwritten c hpc) ?_ h.rounds hes
      simpa [h.server, alertBuf, h.val] using Progress.wait
  | await hpc hsem =>
      have htext := h.text _ (.inl hpc)
      exact .quiet (h.move rfl (by simpa [awaitBuf] using h.val) rfl rfl (by simp)
        (fun _ ↦ htext) rfl)
  | release hpc hsem =>
      exact .quiet (h.move rfl (by simpa [releaseBuf] using h.val) rfl rfl (by simp) (by simp) rfl)
  | exit | clientDie => exact .quiet (h.move rfl (hundo _) rfl rfl (by simp) (by simp) rfl)
  | wait hpc hsem => exact absurd hsem.2 (by simp [waitBuf, h.val])
  | lookupFound hpc | lookupNotFound hpc | strcpy hpc | notify hpc =>
      exact absurd (h.server.symm.trans hpc) (by simp)
  | serverDie hpc hsem hfail =>
      rw [h.server] at hpc
      cases hpc
      exact absurd hsem.2 (by simp [waitBuf, h.val])

/-- A step of the server in the round of client `c`. -/
theorem Phase.step_server {op : ServerOp} {done : List (Label ι)} {ops : List ServerOp}
    (hlock : Lock s) (hsigns : Signs s) (hc : (s.client c).pc = .await)
    (hword : s.shm.word = (s.client c).sought.word)
    (hprogress : Progress D s.shm s.server (s.sems.semval 1) ops) (hrounds : Rounds done)
    (hs : Step lim D s (.server op) t) : Phase D t (done ++ roundOf c ops ++ [.server op]) := by
  rw [List.append_assoc, roundOf_concat]
  cases hs with
  | wait hpc hsem =>
      rw [hpc] at hprogress
      refine .busy hc hword ?_ hrounds rfl
      simpa [waitBuf, Int.sub_eq_add_neg] using hprogress.wait_step
  | lookupFound hpc hlookup =>
      rw [hpc] at hprogress
      have hkeep := lookup5_word D.table s.shm
      rw [hlookup] at hkeep
      exact .busy hc (hkeep.trans hword) (hprogress.found_step hlookup) hrounds rfl
  | lookupNotFound hpc hlookup =>
      rw [hpc] at hprogress
      exact .busy hc hword (hprogress.notfound_step hlookup) hrounds rfl
  | strcpy hpc =>
      rw [hpc] at hprogress
      exact .busy hc hword hprogress.strcpy_step hrounds rfl
  | notify hpc hsem =>
      rw [hpc] at hprogress
      obtain ⟨hone, hcycle, htext⟩ := hprogress.notify_step
      have honly : ∀ d, (s.client d).Holds → d = c :=
        fun d hd ↦ hlock.mutex.unique d c hd (Client.holds_await hc)
      refine .quiet ⟨rfl, by simp [waitBuf, hone], .snoc hrounds hcycle, ?_, ?_⟩
      · intro d hd
        obtain rfl := honly d (Client.holds_await hd)
        exact ⟨done, _, hrounds, hcycle, rfl⟩
      · intro d hd
        obtain rfl := honly d (.inr (.inr hd))
        exact htext.trans (congrArg (answer D) hword)
  | serverDie hpc hsem hfail =>
      have hpos := hprogress.pos
      have hserver := hsigns.server
      refine .dead rfl hc ?_ ?_ <;> simp only [exitProc_sems, SemSet.exit_semval, semvmx] <;> omega

theorem Step.server_word {op : ServerOp} (hs : Step lim D s (.server op) t) :
    t.shm.word = s.shm.word := by
  cases hs with
  | lookupFound hpc hlookup => simpa only [hlookup] using lookup5_word D.table s.shm
  | _ => rfl

theorem Step.server_ne_dead {op : ServerOp} (hs : Step lim D s (.server op) t) :
    s.server ≠ .dead := by
  intro hdead
  cases hs <;> simp_all [ServerPc.sembuf]

/-- A step keeps the phase, unless a process ends at the wrong moment. -/
theorem Phase.step {es : List (Label ι)} (hlock : Lock s) (hsigns : Signs s)
    (hwritten : Written s) (h : Phase D s es) (hend : QuietEnd s a) (hs : Step lim D s a t) :
    Phase D t (es ++ [a].filter Label.isEvent) := by
  cases h with
  | quiet h => exact h.step hsigns hwritten hs
  | @busy c done ops hc hword hprogress hrounds hes =>
      subst hes
      cases a with
      | server op => exact Phase.step_server hlock hsigns hc hword hprogress hrounds hs
      | client d op =>
          have hmax : s.sems.semval 1 ≤ semvmx := Int.le_trans hprogress.le_two (by decide)
          obtain ⟨hclient, hshm, hserver, hval, hev⟩ :=
            hs.frame_of_await hlock hsigns hc hprogress.pos hmax hend
          have hes : done ++ roundOf c ops ++ [Label.client d op].filter Label.isEvent =
              done ++ roundOf c ops := by
            simp [hev]
          refine .busy (c := c) (by rwa [hclient]) (by rwa [hclient, hshm]) ?_ hrounds hes
          rwa [hshm, hserver, hval]
  | @dead c hpc hc hpos hmax =>
      cases a with
      | server op => exact absurd hpc hs.server_ne_dead
      | client d op =>
          obtain ⟨hclient, hshm, hserver, hval, hev⟩ :=
            hs.frame_of_await hlock hsigns hc hpos hmax hend
          exact .dead (hserver.trans hpc) (by rwa [hclient]) (by rwa [hval]) (by rwa [hval])

theorem phase {tr : List (Label ι)} (h : ((shmDict ι lim D).restrict QuietEnd).Run tr s) :
    Phase D s (tr.filter Label.isEvent) := by
  refine h.induction (P := fun tr s ↦ Phase D s (tr.filter Label.isEvent)) (fun s hs ↦ ?_) ?_
  · have hidle := fun c ↦ (hs.client c).1
    exact .quiet ⟨hs.server, hs.sem1, .nil, by simp [hidle], by simp [hidle]⟩
  · intro tr s a t hr hphase hs
    have hreach := hr.of_restrict.reachable
    rw [List.filter_append]
    exact hphase.step (lock hreach) (signs hreach) (written hreach) hs.1 (.of_step hs.2)

/-! ## Runs in which no process ends -/

/-- The end of a process. -/
def Label.isEnd : Label ι → Bool
  | .client _ .exit | .client _ .die | .server .die => true
  | _ => false

/-- No process exits and no `semop` fails. -/
def NoEnd (_ : State ι) (a : Label ι) : Prop := a.isEnd = false

instance (s : State ι) (a : Label ι) : Decidable (NoEnd s a) :=
  inferInstanceAs (Decidable (_ = _))

/-- The runs of the dictionary system in which no process ends. -/
abbrev lasting (ι : Type u) [DecidableEq ι] (lim : Int → Bool) (D : Dictionary) :
    Lts (State ι) (Label ι) :=
  (shmDict ι lim D).restrict NoEnd

omit [DecidableEq ι] in
theorem quietEnd_of_noEnd (h : NoEnd s a) : QuietEnd s a := by
  unfold QuietEnd
  split
  · cases h
  · cases h
  · trivial

theorem lasting_server {tr : List (Label ι)} (h : (lasting ι lim D).Run tr s) :
    s.server ≠ .dead := by
  refine h.induction (P := fun _ s ↦ s.server ≠ .dead) (fun s hs ↦ by simp [hs.server]) ?_
  intro tr s a t _ ih hs
  cases Step.of_step hs.2 with
  | serverDie => cases hs.1
  | wait | lookupFound | lookupNotFound | strcpy | notify => simp
  | _ => exact ih

/-- In the runs in which no process ends the server is alive. -/
theorem lasting_phase {tr : List (Label ι)} (h : (lasting ι lim D).Run tr s) :
    Quiet D s (tr.filter Label.isEvent) ∨ ∃ c done ops, (s.client c).pc = .await ∧
      s.shm.word = (s.client c).sought.word ∧
      Progress D s.shm s.server (s.sems.semval 1) ops ∧ Rounds done ∧
      tr.filter Label.isEvent = done ++ roundOf c ops := by
  cases phase (h.restrict_mono fun _ _ ↦ quietEnd_of_noEnd) with
  | quiet h => exact .inl h
  | busy hc hword hprogress hrounds hes =>
      exact .inr ⟨_, _, _, hc, hword, hprogress, hrounds, hes⟩
  | dead hpc => exact absurd hpc (lasting_server h)

/-- Some client has alerted the server, and the server has not notified it yet. -/
def Pending (tr : List (Label ι)) : Prop :=
  ∃ c pre post, tr = pre ++ .client c .alert :: post ∧ .server .notify ∉ post

/-- The history of the handshake: complete rounds, then what there is of the next. -/
def InRounds (es : List (Label ι)) : Prop :=
  Rounds es ∨ ∃ done c ops rest, es = done ++ roundOf c ops ∧ Rounds done ∧ Cycle (ops ++ rest)

/-- What the handshake guarantees after the labels `tr`, in state `s`. -/
structure Handshake (lim : Int → Bool) (D : Dictionary) (tr : List (Label ι)) (s : State ι) :
    Prop where
  sem0 : s.sems.semval 0 = 0 ∨ s.sems.semval 0 = 1
  sem1 : s.sems.semval 1 = 0 ∨ s.sems.semval 1 = 1 ∨ s.sems.semval 1 = 2
  /-- At most one client is between its grab and its release. -/
  mutex : AtMostOne Client.Holds s.client
  /-- The word stays from an alert until the server's second decrement. -/
  word : Pending tr → ∀ a t, (lasting ι lim D).step s a t → t.shm.word = s.shm.word
  /-- Every alert has its own cycle of the server, with one lookup in it. -/
  rounds : InRounds (tr.filter Label.isEvent)
  /-- A lookup belongs to the last alert, and is on the word of the client that sent
  it, which still holds semaphore 0. -/
  lookup : ∀ code t, (lasting ι lim D).step s (.server (.lookup code)) t →
    ∃ c done, tr.filter Label.isEvent = done ++ [.client c .alert, .server .wait] ∧
      (s.client c).Holds ∧ s.shm.word = (s.client c).sought.word
  /-- A client whose await succeeds has its answer in the shared record. -/
  text : ∀ c t, (lasting ι lim D).step s (.client c .await) t →
    s.shm.text = answer D (s.client c).sought.word

omit [DecidableEq ι] in
/-- A complete round ends with the server's second decrement. -/
theorem Rounds.notify_mem {es pre post : List (Label ι)} (h : Rounds es)
    (hes : es = pre ++ .client c .alert :: post) : .server .notify ∈ post := by
  have hlast : es.getLast? = some (.server .notify) := by
    cases h with
    | nil => simp at hes
    | snoc _ hcycle => cases hcycle <;> simp [roundOf]
  rw [hes, List.getLast?_append_cons] at hlast
  cases post with
  | nil => simp at hlast
  | cons b post => exact List.mem_of_getLast? (by simpa using hlast)

/-- **The handshake.**  It holds after every run in which no process ends. -/
theorem handshake {tr : List (Label ι)} (h : (lasting ι lim D).Run tr s) :
    Handshake lim D tr s := by
  have hreach := h.of_restrict.reachable
  have hlock := lock hreach
  have hphase := lasting_phase h
  refine ⟨?_, ?_, hlock.mutex.unique, ?_, ?_, ?_, ?_⟩
  · rcases hlock.mutex.val_eq with ⟨hval, -⟩ | ⟨hval, -⟩
    · exact .inr hval
    · exact .inl hval
  · rcases hphase with hquiet | ⟨c, done, ops, -, -, hprogress, -, -⟩
    · exact .inl hquiet.val
    · have hpos := hprogress.pos
      have hle := hprogress.le_two
      omega
  · rintro ⟨c, pre, post, rfl, hpost⟩ a t hs
    rcases hphase with hquiet | ⟨c', done, ops, hc, -, hprogress, -, -⟩
    · have hnotify := hquiet.rounds.notify_mem
        (by rw [List.filter_append, List.filter_cons_of_pos rfl])
      exact absurd (List.mem_of_mem_filter hnotify) hpost
    · cases a with
      | server op => exact (Step.of_step hs.2).server_word
      | client d op =>
          have hmax : s.sems.semval 1 ≤ semvmx := Int.le_trans hprogress.le_two (by decide)
          obtain ⟨-, hshm, -⟩ := (Step.of_step hs.2).frame_of_await hlock (signs hreach) hc
            hprogress.pos hmax (quietEnd_of_noEnd hs.1)
          rw [hshm]
  · rcases hphase with hquiet | ⟨c, done, ops, -, -, hprogress, hrounds, hes⟩
    · exact .inl hquiet.rounds
    · obtain ⟨rest, hcycle⟩ := hprogress.extend
      exact .inr ⟨done, c, ops, rest, hes, hrounds, hcycle⟩
  · intro code t hs
    have hpc : s.server = .lookup := by cases Step.of_step hs.2 <;> assumption
    rcases hphase with hquiet | ⟨c, done, ops, hc, hword, hprogress, -, hes⟩
    · exact absurd (hquiet.server.symm.trans hpc) (by simp)
    · rw [hpc] at hprogress
      obtain rfl := hprogress.ops_eq_wait
      exact ⟨c, done, hes, Client.holds_await hc, hword⟩
  · intro c t hs
    cases Step.of_step hs.2 with
    | await hpc hsem =>
        have hzero : s.sems.semval 1 = 0 := hsem.1 rfl
        rcases hphase with hquiet | ⟨c', done, ops, -, -, hprogress, -, -⟩
        · exact hquiet.text c (.inl hpc)
        · exact absurd hzero (Int.ne_of_gt hprogress.pos)

/-- Client 0 is answered while client 1 asks for another word and alerts the server. -/
def overlapping : List (Label (Fin 2)) :=
  [.client 0 (.call wordA), .client 1 (.call wordB), .client 0 .grab, .client 0 .strcpyWord,
    .client 0 .alert, .server .wait, .server (.lookup .FOUND), .server .notify, .client 0 .await,
    .client 0 .release, .client 1 .grab, .client 1 .strcpyWord, .client 1 .alert]

theorem handshake_overlapping :
    ∃ s : State (Fin 2), s.sems.semval 1 = 2 ∧ Handshake linuxAdj twoWords overlapping s := by
  have hexec : (Lts.exec (Lts.guarded (next linuxAdj twoWords) NoEnd) start overlapping).map
      (fun s ↦ s.sems.semval 1) = some 2 := by decide
  obtain ⟨s, hrun, hval⟩ := Lts.exists_restrict_run_of_exec init_start _ _ _ hexec
  exact ⟨s, hval, handshake hrun⟩

end SysProg.ShmDict
