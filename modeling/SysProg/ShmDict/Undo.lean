import SysProg.ShmDict.Exit

/-!
# How many queries the server survives

The server lowers semaphore 1 twice a round, with undo, and nothing of it ever
cancels: its adjustment is the number of decrements it has made.  Linux keeps
adjustments in 16 bits.  With `k` alerts so far the server has made at most `2 * k`
decrements, and a client's adjustment is at least `-2 * k` (`Tally`), which gives
room for 16383 queries.  The second decrement of the next one fails.

* `survives_iff`: no `semop` fails in the runs with at most `n` alerts if and only
  if `n ≤ 16383`.
* `exists_home` has the runs of `k` rounds of one client; the run that reaches the
  limit is one round longer.
-/

universe u

namespace SysProg.ShmDict

open SysProg.Lib

variable {ι : Type u} [DecidableEq ι] {lim : Int → Bool} {D : Dictionary} {s t : State ι}
  {a : Label ι} {c : ι} {k : Nat}

/-! ## What the number of alerts bounds -/

def Label.isAlert : Label ι → Bool
  | .client _ .alert => true
  | _ => false

/-- The number of alerts in a run. -/
def alerts (tr : List (Label ι)) : Nat := tr.countP Label.isAlert

/-- What holds after `k` alerts, as long as the server is alive. -/
structure Tally (k : Nat) (s : State ι) : Prop where
  nonneg : 0 ≤ s.sems.semval 1
  idle : (∀ c, (s.client c).pc ≠ .await) → s.sems.semval 1 = 0
  client : ∀ c, -(2 * k : Int) ≤ s.sems.semadj (some c) 1
  server : s.sems.semadj none 1 + s.sems.semval 1 ≤ 2 * k

/-- A client that is not at its await moves. -/
theorem Tally.move {x : Client} (h : Tally k s) (hpc : (s.client c).pc ≠ .await)
    (hval : t.sems.semval 1 = s.sems.semval 1)
    (hadj : ∀ p, t.sems.semadj p 1 = s.sems.semadj p 1)
    (hclient : t.client = Function.update s.client c x) : Tally k t where
  nonneg := hval ▸ h.nonneg
  idle hnone := by
    rw [hclient, Function.forall_update_iff s.client fun _ y ↦ y.pc ≠ .await] at hnone
    refine hval.trans (h.idle fun d ↦ ?_)
    by_cases hd : d = c
    · exact hd ▸ hpc
    · exact hnone.2 d hd
  client d := hadj _ ▸ h.client d
  server := by rw [hadj, hval]; exact h.server

/-- The end of a client takes its adjustment off semaphore 1. -/
theorem Tally.undo (h : Tally k s) (hsigns : Signs s)
    (hpc : (s.client c).pc = .await → s.sems.semval 1 = 0) (x : Client) :
    Tally k ((exitProc s (some c)).setClient c x) := by
  have hadj := hsigns.client c
  have hnonneg := h.nonneg
  have hserver := h.server
  have hle : max 0 (min semvmx (s.sems.semval 1 + s.sems.semadj (some c) 1)) ≤
      s.sems.semval 1 := by omega
  refine ⟨by simp, fun hnone ↦ ?_, fun d ↦ ?_, by simp; omega⟩
  · rw [State.setClient_client, exitProc_client,
      Function.forall_update_iff s.client fun _ y ↦ y.pc ≠ .await] at hnone
    have hzero : s.sems.semval 1 = 0 := by
      by_cases hc : (s.client c).pc = .await
      · exact hpc hc
      · refine h.idle fun d ↦ ?_
        by_cases hd : d = c
        · exact hd ▸ hc
        · exact hnone.2 d hd
    simp only [State.setClient_sems, exitProc_sems, SemSet.exit_semval]
    omega
  · have hd := h.client d
    rw [State.setClient_sems, exitProc_sems, SemSet.exit_semadj]
    split <;> omega

theorem Tally.step (hlock : Lock s) (hsigns : Signs s) (h : Tally k s) (hdie : a ≠ .server .die)
    (hs : Step lim D s a t) : Tally (k + alerts [a]) t := by
  have hserver := h.server
  cases hs with
  | call _ hpc | strcpyWord hpc | strcmpFound hpc | strcmpNotFound hpc | strcpyText hpc =>
      exact h.move (by simp [hpc]) rfl (fun _ ↦ rfl) rfl
  | grab hpc hsem =>
      exact h.move (by simp [hpc]) (by simp [grabBuf]) (by simp [grabBuf]) rfl
  | @alert c hpc hsem =>
      have hzero := h.idle (hlock.no_await hpc)
      refine ⟨by simp [alertBuf, hzero], fun hnone ↦ absurd (hnone c) (by simp), fun d ↦ ?_, ?_⟩
      · have hd := h.client d
        by_cases hdc : d = c
        · subst hdc
          simp [alertBuf, alerts, Label.isAlert]
          omega
        · simp [alertBuf, alerts, Label.isAlert, hdc]
          omega
      · simp [alertBuf, alerts, Label.isAlert]
        omega
  | await hpc hsem =>
      have hzero : s.sems.semval 1 = 0 := hsem.1 rfl
      show Tally k _
      exact ⟨by simp [awaitBuf, hzero], fun _ ↦ by simp [awaitBuf, hzero],
        by simpa [awaitBuf] using h.client, by simpa [awaitBuf] using h.server⟩
  | release hpc hsem =>
      exact h.move (by simp [hpc]) (by simp [releaseBuf]) (by simp [releaseBuf]) rfl
  | exit hpc => exact h.undo hsigns (by simp [hpc]) _
  | clientDie hpc hsem hfail =>
      refine h.undo hsigns (fun hc ↦ ?_) _
      rw [hc] at hpc
      cases hpc
      exact hsem.1 rfl
  | wait hpc hsem | notify hpc hsem =>
      have hpos : 0 ≤ s.sems.semval 1 - 1 := hsem.2
      show Tally k _
      refine ⟨by simp [waitBuf]; omega, fun hnone ↦ ?_, by simpa [waitBuf] using h.client, ?_⟩
      · have hzero := h.idle hnone
        omega
      · simp [waitBuf]
        omega
  | lookupFound | lookupNotFound | strcpy =>
      show Tally k _
      exact ⟨h.nonneg, h.idle, h.client, h.server⟩
  | serverDie => exact absurd rfl hdie

/-- The server has not died. -/
def ServerAlive (_ : State ι) (a : Label ι) : Prop := a ≠ .server .die

theorem tally {tr : List (Label ι)} (h : ((shmDict ι lim D).restrict ServerAlive).Run tr s) :
    Tally (alerts tr) s := by
  refine h.induction (P := fun tr s ↦ Tally (alerts tr) s) (fun s hs ↦ ?_) ?_
  · refine ⟨hs.sem1.ge, fun _ ↦ hs.sem1, fun c ↦ ?_, ?_⟩ <;> simp [alerts, hs.semadj, hs.sem1]
  · intro tr s a t hr htally hs
    have hreach := hr.of_restrict.reachable
    have hstep := htally.step (lock hreach) (signs hreach) hs.1 (.of_step hs.2)
    rwa [alerts, List.countP_append]

/-! ## Enough room for 16383 queries -/

/-- A `semop` has failed. -/
def Label.isDie : Label ι → Bool
  | .client _ .die | .server .die => true
  | _ => false

theorem Tally.not_die (hlock : Lock s) (hsigns : Signs s) (h : Tally k s) (hk : k ≤ 16383)
    (hs : Step linuxAdj D s a t) : a.isDie = false := by
  have hserver := h.server
  cases hs with
  | @clientDie c b hpc hsem hfail =>
      obtain ⟨halert, hrange⟩ := alert_of_die hlock (.clientDie (D := D) hpc hsem hfail)
      have hzero := h.idle (hlock.no_await halert)
      have hlow := h.client c
      have hhigh := hsigns.client c
      refine absurd ⟨?_, fun _ ↦ ?_⟩ hrange
      · simp [alertBuf, hzero, semvmx]
      · simp only [alertBuf, linuxAdj_iff]
        omega
  | @serverDie b hpc hsem hfail =>
      obtain rfl : b = waitBuf := by
        cases hserver : s.server <;> rw [hserver] at hpc <;> cases hpc <;> rfl
      have hpos : 0 ≤ s.sems.semval 1 - 1 := hsem.2
      have hhigh := hsigns.server
      refine absurd ⟨?_, fun _ ↦ ?_⟩ hfail
      · simp only [waitBuf, semvmx]
        omega
      · simp only [waitBuf, linuxAdj_iff]
        omega
  | _ => rfl

/-- No `semop` fails in the runs with at most `n` alerts. -/
def Survives (ι : Type u) [DecidableEq ι] (D : Dictionary) (n : Nat) : Prop :=
  ∀ tr s, (shmDict ι linuxAdj D).Run tr s → alerts tr ≤ n → ∀ a ∈ tr, a.isDie = false

theorem survives_of_le {n : Nat} (hn : n ≤ 16383) : Survives ι D n := by
  suffices h : ∀ tr s, (shmDict ι linuxAdj D).Run tr s → alerts tr ≤ n →
      ((shmDict ι linuxAdj D).restrict ServerAlive).Run tr s ∧ ∀ a ∈ tr, a.isDie = false from
    fun tr s hr hle ↦ (h tr s hr hle).2
  intro tr s hr
  refine hr.induction (P := fun tr s ↦ alerts tr ≤ n →
    ((shmDict ι linuxAdj D).restrict ServerAlive).Run tr s ∧ ∀ a ∈ tr, a.isDie = false) ?_ ?_
  · exact fun s hs _ ↦ ⟨.init hs, by simp⟩
  · intro tr s a t hr ih hs hle
    have hmono : alerts tr ≤ n := by
      rw [alerts, List.countP_append] at hle
      exact Nat.le_of_add_right_le hle
    obtain ⟨halive, hnone⟩ := ih hmono
    have hreach := hr.reachable
    have hdie : a.isDie = false := (tally halive).not_die (lock hreach) (signs hreach)
      (hmono.trans hn) (.of_step hs)
    refine ⟨halive.snoc ⟨?_, hs⟩, ?_⟩
    · rintro rfl
      cases hdie
    · intro b hb
      rcases List.mem_append.mp hb with hb | hb
      · exact hnone b hb
      · exact List.mem_singleton.mp hb ▸ hdie

/-! ## Not enough for one more -/

/-- Where client `c`, the server and the semaphores are. -/
structure At (c : ι) (pc : ClientPc) (server : ServerPc) (val0 val1 adj0 adj1 adjServer : Int)
    (s : State ι) : Prop where
  pc : (s.client c).pc = pc
  server : s.server = server
  val0 : s.sems.semval 0 = val0
  val1 : s.sems.semval 1 = val1
  adj0 : s.sems.semadj (some c) 0 = adj0
  adj1 : s.sems.semadj (some c) 1 = adj1
  adjServer : s.sems.semadj none 1 = adjServer

/-- With `n` alerts the system can get from `s` to a state with `P`. -/
def Leads (D : Dictionary) (n : Nat) (s : State ι) (P : State ι → Prop) : Prop :=
  ∃ tr t, (shmDict ι linuxAdj D).Path s tr t ∧ alerts tr = n ∧ P t

theorem Leads.step {P : State ι → Prop} (hs : Step linuxAdj D s a t) (ht : P t) :
    Leads D (alerts [a]) s P :=
  ⟨[a], t, .single hs.to_step, rfl, ht⟩

theorem Leads.trans {n m : Nat} {P Q : State ι → Prop} (h : Leads D n s P)
    (h' : ∀ t, P t → Leads D m t Q) : Leads D (n + m) s Q := by
  obtain ⟨tr, t, hpath, hn, ht⟩ := h
  obtain ⟨tr', u, hpath', hm, hu⟩ := h' t ht
  refine ⟨tr ++ tr', u, hpath.trans hpath', ?_, hu⟩
  rw [alerts, List.countP_append]
  exact congrArg₂ (· + ·) hn hm

omit [DecidableEq ι] in
theorem ready_and_inRange {p : Proc ι} {b : SemBuf (Fin 2)} {val adj : Int}
    (hval : s.sems.semval b.num = val) (hadj : s.sems.semadj p b.num = adj)
    (hready : (b.op = 0 → val = 0) ∧ 0 ≤ val + b.op)
    (hrange : val + b.op ≤ semvmx ∧ -32768 ≤ adj - b.op ∧ adj - b.op ≤ 32767) :
    s.sems.Ready b ∧ s.sems.InRange linuxAdj p b := by
  subst hval hadj
  exact ⟨hready, hrange.1, fun _ ↦ linuxAdj_iff.mpr hrange.2⟩

section At

variable {server : ServerPc} {val0 val1 adj0 adj1 adjServer : Int}

theorem At.call (h : At c .idle server val0 val1 adj0 adj1 adjServer s) :
    Leads D 0 s (At c .grab server val0 val1 adj0 adj1 adjServer) := by
  refine .step (.call wordA h.pc) ?_
  constructor <;> simp [h.server, h.val0, h.val1, h.adj0, h.adj1, h.adjServer]

theorem At.grab (h : At c .grab server 1 val1 0 adj1 adjServer s) :
    Leads D 0 s (At c .strcpyWord server 0 val1 1 adj1 adjServer) := by
  obtain ⟨hready, hrange⟩ := ready_and_inRange (b := grabBuf) h.val0 h.adj0 (by decide) (by decide)
  refine .step (.grab h.pc hready hrange) ?_
  constructor <;> simp [grabBuf, h.server, h.val0, h.val1, h.adj0, h.adj1, h.adjServer]

theorem At.strcpyWord (h : At c .strcpyWord server val0 val1 adj0 adj1 adjServer s) :
    Leads D 0 s (At c .alert server val0 val1 adj0 adj1 adjServer) := by
  refine .step (.strcpyWord h.pc) ?_
  constructor <;> simp [h.server, h.val0, h.val1, h.adj0, h.adj1, h.adjServer]

theorem At.alert (h : At c .alert server val0 0 adj0 adj1 adjServer s)
    (hrange : -32768 ≤ adj1 - 2 ∧ adj1 - 2 ≤ 32767) :
    Leads D 1 s (At c .await server val0 2 adj0 (adj1 - 2) adjServer) := by
  obtain ⟨hready, hrange⟩ := ready_and_inRange (b := alertBuf) h.val1 h.adj1 (by decide)
    ⟨by decide, hrange⟩
  refine .step (.alert h.pc hready hrange) ?_
  constructor <;> simp [alertBuf, h.server, h.val0, h.val1, h.adj0, h.adj1, h.adjServer]

theorem At.wait (h : At c .await .wait val0 2 adj0 adj1 adjServer s)
    (hrange : -32768 ≤ adjServer + 1 ∧ adjServer + 1 ≤ 32767) :
    Leads D 0 s (At c .await .lookup val0 1 adj0 adj1 (adjServer + 1)) := by
  obtain ⟨hready, hrange⟩ := ready_and_inRange (b := waitBuf) h.val1 h.adjServer (by decide)
    ⟨by decide, hrange⟩
  refine .step (.wait h.server hready hrange) ?_
  constructor <;> simp [waitBuf, h.pc, h.val0, h.val1, h.adj0, h.adj1, h.adjServer]

theorem At.strcpy (h : At c .await .strcpy val0 val1 adj0 adj1 adjServer s) :
    Leads D 0 s (At c .await .notify val0 val1 adj0 adj1 adjServer) := by
  refine .step (.strcpy h.server) ?_
  constructor <;> simp [h.pc, h.val0, h.val1, h.adj0, h.adj1, h.adjServer]

theorem At.lookup (h : At c .await .lookup val0 val1 adj0 adj1 adjServer s) :
    Leads D 0 s (At c .await .notify val0 val1 adj0 adj1 adjServer) := by
  cases hlookup : lookup5 D.table s.shm with
  | mk code shm =>
      cases code with
      | FOUND =>
          refine .step (.lookupFound h.server hlookup) ?_
          constructor <;> simp [h.pc, h.val0, h.val1, h.adj0, h.adj1, h.adjServer]
      | NOTFOUND =>
          obtain ⟨rfl, -⟩ := lookup5_notfound hlookup
          have hstep : Leads D 0 s (At c .await .strcpy val0 val1 adj0 adj1 adjServer) := by
            refine .step (.lookupNotFound h.server hlookup) ?_
            constructor <;> simp [h.pc, h.val0, h.val1, h.adj0, h.adj1, h.adjServer]
          exact hstep.trans fun _ ↦ At.strcpy
      | UNAVAIL => exact absurd (congrArg Prod.fst hlookup) (lookup5_ne_unavail _ _)

theorem At.notify (h : At c .await .notify val0 1 adj0 adj1 adjServer s)
    (hrange : -32768 ≤ adjServer + 1 ∧ adjServer + 1 ≤ 32767) :
    Leads D 0 s (At c .await .wait val0 0 adj0 adj1 (adjServer + 1)) := by
  obtain ⟨hready, hrange⟩ := ready_and_inRange (b := waitBuf) h.val1 h.adjServer (by decide)
    ⟨by decide, hrange⟩
  refine .step (.notify h.server hready hrange) ?_
  constructor <;> simp [waitBuf, h.pc, h.val0, h.val1, h.adj0, h.adj1, h.adjServer]

theorem At.await (h : At c .await server val0 0 adj0 adj1 adjServer s) :
    Leads D 0 s (At c .release server val0 0 adj0 adj1 adjServer) := by
  have hready : s.sems.Ready awaitBuf := ⟨fun _ ↦ h.val1, by simp [awaitBuf, h.val1]⟩
  have hrange : s.sems.InRange linuxAdj (some c) awaitBuf :=
    ⟨by simp [awaitBuf, h.val1, semvmx], fun hundo ↦ absurd hundo (by decide)⟩
  refine .step (.await h.pc hready hrange) ?_
  constructor <;> simp [awaitBuf, h.server, h.val0, h.val1, h.adj0, h.adj1, h.adjServer]

theorem At.release (h : At c .release server 0 val1 1 adj1 adjServer s) :
    Leads D 0 s (At c .strcmp server 1 val1 0 adj1 adjServer) := by
  obtain ⟨hready, hrange⟩ := ready_and_inRange (b := releaseBuf) h.val0 h.adj0 (by decide)
    (by decide)
  refine .step (.release h.pc hready hrange) ?_
  constructor <;> simp [releaseBuf, h.server, h.val0, h.val1, h.adj0, h.adj1, h.adjServer]

theorem At.strcpyText (h : At c .strcpyText server val0 val1 adj0 adj1 adjServer s) :
    Leads D 0 s (At c .idle server val0 val1 adj0 adj1 adjServer) := by
  refine .step (.strcpyText h.pc) ?_
  constructor <;> simp [h.server, h.val0, h.val1, h.adj0, h.adj1, h.adjServer]

theorem At.strcmp (h : At c .strcmp server val0 val1 adj0 adj1 adjServer s) :
    Leads D 0 s (At c .idle server val0 val1 adj0 adj1 adjServer) := by
  by_cases htext : s.shm.text = notFoundText
  · refine .step (.strcmpNotFound h.pc htext) ?_
    constructor <;> simp [h.server, h.val0, h.val1, h.adj0, h.adj1, h.adjServer]
  · have hstep : Leads D 0 s (At c .strcpyText server val0 val1 adj0 adj1 adjServer) := by
      refine .step (.strcmpFound h.pc htext) ?_
      constructor <;> simp [h.server, h.val0, h.val1, h.adj0, h.adj1, h.adjServer]
    exact hstep.trans fun _ ↦ At.strcpyText

end At

/-- Client `c` is outside of `lookup` after `k` rounds, all of them its own. -/
abbrev Home (c : ι) (k : Nat) : State ι → Prop := At c .idle .wait 1 0 0 (-(2 * k)) (2 * k)

/-- The server is about to notify client `c` for the last of `k + 1` rounds. -/
abbrev Answered (c : ι) (k : Nat) : State ι → Prop :=
  At c .await .notify 0 1 1 (-(2 * k) - 2) (2 * k + 1)

theorem Home.ask (h : Home c k s) (hk : k ≤ 16383) : Leads D 1 s (Answered c k) := by
  have halert := ((h.call (D := D)).trans fun _ ↦ At.grab).trans fun _ ↦ At.strcpyWord
  have hwait := halert.trans fun _ h ↦ h.alert (by omega)
  exact (hwait.trans fun _ h ↦ h.wait (by omega)).trans fun _ ↦ At.lookup

theorem Answered.finish (h : Answered c k s) (hk : k < 16383) : Leads D 0 s (Home c (k + 1)) := by
  have hawait := (h.notify (D := D) (by omega)).trans fun _ ↦ At.await
  have hhome := (hawait.trans fun _ ↦ At.release).trans fun _ ↦ At.strcmp
  have hclient : -(2 * k : Int) - 2 = -(2 * (k + 1 : Nat)) := by omega
  have hserver : 2 * (k : Int) + 1 + 1 = 2 * (k + 1 : Nat) := by omega
  rwa [hclient, hserver] at hhome

/-- `k` rounds of client `c`, one after the other. -/
theorem exists_home (c : ι) (hk : k ≤ 16383) :
    ∃ tr s, (shmDict ι linuxAdj D).Run tr s ∧ alerts tr = k ∧ Home c k s := by
  induction k with
  | zero => exact ⟨[], start, .init init_start, rfl, ⟨rfl, rfl, rfl, rfl, rfl, rfl, rfl⟩⟩
  | succ k ih =>
      obtain ⟨tr, s, hrun, hcount, hhome⟩ := ih (by omega)
      obtain ⟨tr', t, hpath, hone, ht⟩ :=
        (hhome.ask (D := D) (by omega)).trans fun _ h ↦ h.finish (by omega)
      refine ⟨tr ++ tr', t, hrun.append hpath, ?_, ht⟩
      rw [alerts, List.countP_append]
      exact congrArg₂ (· + ·) hcount hone

/-- The server cannot notify the client of the last round. -/
theorem Answered.die (h : Answered c 16383 s) :
    (shmDict ι linuxAdj D).Enabled s (.server .die) := by
  have hready : s.sems.Ready waitBuf :=
    ⟨fun hop ↦ absurd hop (by decide), by simp [waitBuf, h.val1]⟩
  have hfail : ¬ s.sems.InRange linuxAdj none waitBuf := by
    rintro ⟨-, hadj⟩
    have hle := (linuxAdj_iff.mp (hadj rfl)).2
    simp only [waitBuf, h.adjServer] at hle
    omega
  exact ⟨_, (Step.serverDie (b := waitBuf) (by rw [h.server]; rfl) hready hfail).to_step⟩

theorem not_survives_of_lt [Inhabited ι] {n : Nat} (hn : 16383 < n) : ¬ Survives ι D n := by
  intro hsurvives
  obtain ⟨tr, s, hrun, hcount, hhome⟩ := exists_home (D := D) (default : ι) (Nat.le_refl 16383)
  obtain ⟨tr', t, hpath, hone, ht⟩ := hhome.ask (D := D) (Nat.le_refl _)
  obtain ⟨u, hu⟩ := ht.die (D := D)
  have hdead := (hrun.append hpath).snoc hu
  have halerts : alerts (tr ++ tr' ++ [.server .die]) = 16384 := by
    rw [alerts, List.countP_append, List.countP_append]
    exact congrArg₂ (· + · + 0) hcount hone
  have hnone := hsurvives _ _ hdead (by omega) (.server .die) (by simp)
  cases hnone

/-- **The server survives 16383 queries and no more.** -/
theorem survives_iff [Inhabited ι] (D : Dictionary) (n : Nat) : Survives ι D n ↔ n ≤ 16383 := by
  constructor
  · intro hsurvives
    by_contra hn
    exact not_survives_of_lt (by omega) hsurvives
  · exact survives_of_le

theorem not_survives_twoWords : ¬ Survives (Fin 1) twoWords 16384 :=
  not_survives_of_lt (by decide)

end SysProg.ShmDict
