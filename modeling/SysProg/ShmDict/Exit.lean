import SysProg.ShmDict.Answers

/-!
# Clients that leave

A client raises semaphore 1 with undo and never lowers it, so its adjustment is
minus twice the number of its lookups, and its exit takes that off the semaphore.
Between two rounds this changes nothing, as the value is `0` and stays there.  In
the middle of the round of another client it takes the value to `0`, which is
what that client is waiting for.

* `await_served`: if a client with an adjustment exits only while semaphore 1 is
  `0`, every await that succeeds comes after the server's lookup for that client.
* `await_unserved` is a run in which client 0 exits after a lookup of its own and
  thereby lets client 1 go on before the server has even woken up.

The undo of a client that dies in a failing `semop` is harmless under the limits of
Linux: the only `semop` of a client that can fail is the alert (`alert_of_die`).
-/

universe u

namespace SysProg.ShmDict

open SysProg.Lib

variable {ι : Type u} [DecidableEq ι] {lim : Int → Bool} {D : Dictionary} {s t : State ι}
  {a : Label ι} {c : ι}

/-- What happened since the last alert of client `c`. -/
def sinceAlert (c : ι) (tr : List (Label ι)) : List (Label ι) :=
  (tr.reverse.takeWhile fun a ↦ a ≠ .client c .alert).reverse

theorem sinceAlert_append {pre post : List (Label ι)} (h : .client c .alert ∉ post) :
    sinceAlert c (pre ++ .client c .alert :: post) = post := by
  have hpost : ∀ a ∈ post.reverse, decide (a ≠ .client c .alert) = true := by
    intro a ha
    have hne : a ≠ .client c .alert := fun heq ↦ h (heq ▸ List.mem_reverse.mp ha)
    simpa using hne
  rw [sinceAlert, List.reverse_append, List.reverse_cons, List.append_assoc,
    List.takeWhile_append_of_pos hpost]
  simp

/-- The server has woken up and finished a lookup. -/
def Served (es : List (Label ι)) : Prop :=
  [.server .wait, .server (.lookup .FOUND)].Sublist es ∨
    [.server .wait, .server (.lookup .NOTFOUND), .server .strcpy].Sublist es

instance (es : List (Label ι)) : Decidable (Served es) := inferInstanceAs (Decidable (_ ∨ _))

omit [DecidableEq ι] in
theorem served_of_cycle {ops : List ServerOp} {es : List (Label ι)} (h : Cycle ops)
    (hes : (ops.map .server).Sublist es) : Served es := by
  cases h with
  | found => exact .inl (.trans (by simp) hes)
  | notfound => exact .inr (.trans (by simp) hes)

/-- Client `c` has sent an alert, and the server has finished a lookup since the
last one. -/
def AlertServed (c : ι) (tr : List (Label ι)) : Prop :=
  .client c .alert ∈ tr ∧ Served (sinceAlert c tr)

instance (c : ι) (tr : List (Label ι)) : Decidable (AlertServed c tr) :=
  inferInstanceAs (Decidable (_ ∧ _))

/-- After a round of client `c`, the server has served its last alert. -/
theorem LastRound.alertServed {tr : List (Label ι)} (h : LastRound c (tr.filter Label.isEvent)) :
    AlertServed c tr := by
  obtain ⟨done, ops, -, hcycle, hes⟩ := h
  obtain ⟨pre, rest, rfl, -, hrest⟩ := List.filter_eq_append_iff.mp hes
  obtain ⟨skipped, post, rfl, -, -, hpost⟩ := List.filter_eq_cons_iff.mp hrest
  have hnone : .client c .alert ∉ post := by
    intro hmem
    have hevent := List.mem_filter.mpr ⟨hmem, show Label.isEvent (.client c .alert) = true from rfl⟩
    rw [hpost] at hevent
    simp at hevent
  rw [← List.append_assoc]
  refine ⟨by simp, ?_⟩
  rw [sinceAlert_append hnone]
  exact served_of_cycle hcycle (hpost ▸ List.filter_sublist)

/-- A client with an adjustment of semaphore 1 exits only while the semaphore is `0`. -/
def QuietExit (s : State ι) : Label ι → Prop
  | .client c .exit => s.sems.semadj (some c) 1 ≠ 0 → s.sems.semval 1 = 0
  | _ => True

instance (s : State ι) (a : Label ι) : Decidable (QuietExit s a) :=
  match a with
  | .client c .exit =>
      inferInstanceAs (Decidable (s.sems.semadj (some c) 1 ≠ 0 → s.sems.semval 1 = 0))
  | .client _ (.call _) | .client _ .grab | .client _ .strcpyWord | .client _ .alert
  | .client _ .await | .client _ .release | .client _ .strcmp | .client _ .strcpyText
  | .client _ .die | .server _ => isTrue trivial

/-- Under the limits of Linux a client can only fail in an alert: the adjustments of
semaphore 0 cancel, and an await has none. -/
theorem alert_of_die (hlock : Lock s) (hs : Step linuxAdj D s (.client c .die) t) :
    (s.client c).pc = .alert ∧ ¬ s.sems.InRange linuxAdj (some c) alertBuf := by
  have hadj := hlock.mutex.adj_eq c
  cases hs with
  | clientDie hpc hsem hfail =>
      cases hc : (s.client c).pc with
      | grab =>
          rw [hc] at hpc
          cases hpc
          have hval := hlock.mutex.val_eq
          rw [if_neg (by simp [Client.Holds, hc])] at hadj
          refine absurd ⟨?_, fun _ ↦ ?_⟩ hfail
          · simp only [grabBuf, semvmx]
            omega
          · simp [grabBuf, hadj, linuxAdj]
      | alert =>
          rw [hc] at hpc
          cases hpc
          exact ⟨rfl, hfail⟩
      | await =>
          rw [hc] at hpc
          cases hpc
          have hzero : s.sems.semval 1 = 0 := hsem.1 rfl
          refine absurd ⟨?_, fun hundo ↦ absurd hundo (by decide)⟩ hfail
          simp [awaitBuf, hzero, semvmx]
      | release =>
          rw [hc] at hpc
          cases hpc
          have hholds : (s.client c).Holds := .inr (.inr (.inr hc))
          rw [if_pos hholds] at hadj
          refine absurd ⟨?_, fun _ ↦ ?_⟩ hfail
          · simp [releaseBuf, hlock.mutex.val_eq_zero hholds, semvmx]
          · simp [releaseBuf, hadj, linuxAdj]
      | _ => rw [hc] at hpc; cases hpc

omit [DecidableEq ι] in
/-- When a client is about to alert the server, nobody awaits it. -/
theorem Lock.no_await (hlock : Lock s) (hc : (s.client c).pc = .alert) (d : ι) :
    (s.client d).pc ≠ .await := by
  intro hd
  obtain rfl := hlock.mutex.unique c d (.inr (.inl hc)) (Client.holds_await hd)
  exact absurd (hc.symm.trans hd) (by simp)

/-- So a client fails only between two rounds. -/
theorem semval_of_die {es : List (Label ι)} (hlock : Lock s) (hphase : Phase D s es)
    (hs : Step linuxAdj D s (.client c .die) t) : s.sems.semval 1 = 0 := by
  have hnone := hlock.no_await (alert_of_die hlock hs).1
  cases hphase with
  | quiet h => exact h.val
  | busy hd => exact absurd hd (hnone _)
  | dead _ hd => exact absurd hd (hnone _)

theorem quietEnd_of_quietExit {tr : List (Label ι)}
    (h : ((shmDict ι linuxAdj D).restrict QuietExit).Run tr s) :
    ((shmDict ι linuxAdj D).restrict QuietEnd).Run tr s := by
  refine h.restrict_of_imp fun tr s a t hr hs hexit ↦ ?_
  unfold QuietEnd
  split
  · exact hexit
  · exact fun _ ↦ semval_of_die (lock hr.of_restrict.reachable) (phase hr) (.of_step hs)
  · trivial

/-- **No await succeeds before its answer is there**, in a run in which a client
with an adjustment exits only while semaphore 1 is `0`. -/
theorem await_served {tr : List (Label ι)}
    (h : ((shmDict ι linuxAdj D).restrict QuietExit).Run tr s)
    (hs : (shmDict ι linuxAdj D).step s (.client c .await) t) : AlertServed c tr := by
  cases Step.of_step hs with
  | await hpc hsem =>
      have hzero : s.sems.semval 1 = 0 := hsem.1 rfl
      cases phase (quietEnd_of_quietExit h) with
      | quiet hquiet => exact (hquiet.last c hpc).alertServed
      | busy _ _ hprogress => exact absurd hzero (Int.ne_of_gt hprogress.pos)
      | dead _ _ hpos => exact absurd hzero (Int.ne_of_gt hpos)

/-- Client 0 leaves after its lookup, before client 1 alerts the server. -/
def leftBefore : List (Label (Fin 2)) :=
  served 0 wordA ++ [.client 0 .strcmp, .client 0 .strcpyText, .client 0 .exit] ++
    request 1 wordB ++ [.server .wait, .server (.lookup .FOUND), .server .notify]

theorem await_served_leftBefore : AlertServed 1 leftBefore := by
  have hexec : (Lts.exec (Lts.guarded (next linuxAdj twoWords) QuietExit) start leftBefore).map
      (fun s ↦ (next linuxAdj twoWords s (.client 1 .await)).isSome) = some true := by decide
  obtain ⟨s, hrun, hsome⟩ := Lts.exists_restrict_run_of_exec init_start _ _ _ hexec
  obtain ⟨t, hs⟩ := Option.isSome_iff_exists.mp hsome
  exact await_served hrun hs

/-- Client 0 leaves after its lookup, when client 1 has just alerted the server. -/
def leftDuring : List (Label (Fin 2)) :=
  served 0 wordA ++ [.client 0 .strcmp, .client 0 .strcpyText] ++ request 1 wordB ++
    [.client 0 .exit]

/-- The undo of client 0 lets the await of client 1 succeed with the server asleep. -/
theorem await_unserved : ∃ s t, (shmDict (Fin 2) linuxAdj twoWords).Run leftDuring s ∧
    (shmDict (Fin 2) linuxAdj twoWords).step s (.client 1 .await) t ∧
      ¬ AlertServed 1 leftDuring := by
  have hexec : (Lts.exec (next linuxAdj twoWords) start leftDuring).map
      (fun s ↦ (next linuxAdj twoWords s (.client 1 .await)).isSome) = some true := by decide
  obtain ⟨s, hrun, hsome⟩ := Lts.exists_run_of_exec init_start _ _ _ hexec
  obtain ⟨t, hs⟩ := Option.isSome_iff_exists.mp hsome
  exact ⟨s, t, hrun, hs, by decide⟩

end SysProg.ShmDict
