import SysProg.Lib.Lts

/-!
# Signals back and forth

A parent and a child of `22_3` exchange `exec_nums` pairs of `SIGUSR1`: the child sends one
and waits for the answer, the parent waits and answers.  The signal is blocked in both from
before the `fork`, so the handler is never called, and nobody else sends it.

A standard signal is pending once at most, so one that is sent while another is pending is
lost.  `getppid` and `kill` are two calls, and the parent may exit in between.

* `exchange` is the program from behind the `fork`.
* `Phase` are the states that it goes through: there is one token, which is with the child,
  with the parent, or pending for one of them.
* `length_eq` and `gone_of_stuck`: the exchange ends, and not before all rounds are done.
-/

namespace SysProg.PingPong

open SysProg.Lib

inductive Proc where
  | parent
  | child
deriving DecidableEq

/-- The one that a process sends the signal to. -/
def Proc.other : Proc → Proc
  | .parent => .child
  | .child => .parent

/-- What the parent does next. -/
inductive ParentPc where
  | sigwaitinfo
  | kill
  | exit
  | gone
deriving DecidableEq

/-- What `getppid` has returned: a child whose parent is gone gets the number of another
process. -/
inductive Target where
  | parent
  | other
deriving DecidableEq

/-- What the child does next. -/
inductive ChildPc where
  | getppid
  | kill (target : Target)
  | sigwaitinfo
  | exit
  | gone
deriving DecidableEq

structure State where
  parent : ParentPc
  child : ChildPc
  /-- `scnt` of the parent -/
  parentScnt : Nat
  /-- `scnt` of the child -/
  childScnt : Nat
  parentPending : Bool
  childPending : Bool
deriving DecidableEq

/-- Whether a `SIGUSR1` is pending for `p`. -/
def State.pending (s : State) : Proc → Bool
  | .parent => s.parentPending
  | .child => s.childPending

/-- The calls of the two processes. -/
inductive Op where
  | getppid
  | kill (p : Proc)
  | sigwaitinfo (p : Proc)
  | exit (p : Proc)
deriving DecidableEq

variable (exec_nums : Nat)

/-- The head of the parent's loop. -/
def parentLoop (scnt : Nat) : ParentPc := if scnt < exec_nums then .sigwaitinfo else .exit

/-- The head of the child's loop. -/
def childLoop (scnt : Nat) : ChildPc := if scnt < exec_nums then .getppid else .exit

/-- One call.  A `kill` that finds nobody ends its process with `errExit`; a child that is
gone has not been waited for, and `kill` succeeds. -/
def next (s : State) : Op → Option State
  | .getppid =>
      if s.child = .getppid then
        some { s with child := .kill (if s.parent = .gone then .other else .parent) }
      else none
  | .kill .child =>
      match s.child with
      | .kill target =>
          if target = .parent ∧ s.parent ≠ .gone then
            some { s with child := .sigwaitinfo, parentPending := true }
          else some { s with child := .exit }
      | _ => none
  | .sigwaitinfo .child =>
      if s.child = .sigwaitinfo ∧ s.childPending then
        some { s with
          child := childLoop exec_nums (s.childScnt + 1),
          childScnt := s.childScnt + 1,
          childPending := false }
      else none
  | .sigwaitinfo .parent =>
      if s.parent = .sigwaitinfo ∧ s.parentPending then
        some { s with parent := .kill, parentPending := false }
      else none
  | .kill .parent =>
      if s.parent = .kill then
        some { s with
          parent := parentLoop exec_nums (s.parentScnt + 1),
          parentScnt := s.parentScnt + 1,
          childPending := s.childPending || decide (s.child ≠ .gone) }
      else none
  | .exit .parent => if s.parent = .exit then some { s with parent := .gone } else none
  | .exit .child => if s.child = .exit then some { s with child := .gone } else none

/-- Behind the `fork`. -/
def start : State := ⟨parentLoop exec_nums 0, childLoop exec_nums 0, 0, 0, false, false⟩

/-- The two processes. -/
def exchange : Lts State Op := Lts.ofNext (· = start exec_nums) (next exec_nums)

theorem init_start : (exchange exec_nums).init (start exec_nums) := rfl

/-- The rule of each step. -/
inductive Step (s : State) : Op → State → Prop
  | getppid (hchild : s.child = .getppid) :
      Step s .getppid
        { s with child := .kill (if s.parent = .gone then .other else .parent) }
  | killParent (hchild : s.child = .kill .parent) (hparent : s.parent ≠ .gone) :
      Step s (.kill .child) { s with child := .sigwaitinfo, parentPending := true }
  | killNobody {target : Target} (hchild : s.child = .kill target)
      (hnobody : ¬ (target = .parent ∧ s.parent ≠ .gone)) :
      Step s (.kill .child) { s with child := .exit }
  | childWaits (hchild : s.child = .sigwaitinfo) (hpending : s.childPending = true) :
      Step s (.sigwaitinfo .child)
        { s with
          child := childLoop exec_nums (s.childScnt + 1),
          childScnt := s.childScnt + 1,
          childPending := false }
  | parentWaits (hparent : s.parent = .sigwaitinfo) (hpending : s.parentPending = true) :
      Step s (.sigwaitinfo .parent) { s with parent := .kill, parentPending := false }
  | killChild (hparent : s.parent = .kill) :
      Step s (.kill .parent)
        { s with
          parent := parentLoop exec_nums (s.parentScnt + 1),
          parentScnt := s.parentScnt + 1,
          childPending := s.childPending || decide (s.child ≠ .gone) }
  | parentExits (hparent : s.parent = .exit) : Step s (.exit .parent) { s with parent := .gone }
  | childExits (hchild : s.child = .exit) : Step s (.exit .child) { s with child := .gone }

variable {exec_nums} {s t : State} {a : Op} {tr : List Op} {k : Nat}

theorem Step.of_step (h : (exchange exec_nums).step s a t) : Step exec_nums s a t := by
  have h : next exec_nums s a = some t := h
  cases a with
  | getppid =>
      obtain ⟨hchild, h⟩ := Option.ite_none_right_eq_some.mp h
      cases h
      exact .getppid hchild
  | kill p =>
      cases p with
      | child =>
          simp only [next] at h
          split at h
          · next target hchild =>
              split at h
              · next hparent =>
                  cases h
                  exact .killParent (hparent.1 ▸ hchild) hparent.2
              · next hnobody =>
                  cases h
                  exact .killNobody hchild hnobody
          · cases h
      | parent =>
          obtain ⟨hparent, h⟩ := Option.ite_none_right_eq_some.mp h
          cases h
          exact .killChild hparent
  | sigwaitinfo p =>
      cases p with
      | child =>
          obtain ⟨⟨hchild, hpending⟩, h⟩ := Option.ite_none_right_eq_some.mp h
          cases h
          exact .childWaits hchild hpending
      | parent =>
          obtain ⟨⟨hparent, hpending⟩, h⟩ := Option.ite_none_right_eq_some.mp h
          cases h
          exact .parentWaits hparent hpending
  | exit p =>
      cases p with
      | child =>
          obtain ⟨hchild, h⟩ := Option.ite_none_right_eq_some.mp h
          cases h
          exact .childExits hchild
      | parent =>
          obtain ⟨hparent, h⟩ := Option.ite_none_right_eq_some.mp h
          cases h
          exact .parentExits hparent

/-! ## The token -/

/-- The parent has done `k` rounds and is not in the middle of another. -/
inductive AtLoop (exec_nums k : Nat) : ParentPc → Prop
  | sigwaitinfo (hk : k < exec_nums) : AtLoop exec_nums k .sigwaitinfo
  | exit (hk : k = exec_nums) : AtLoop exec_nums k .exit
  | gone (hk : k = exec_nums) : AtLoop exec_nums k .gone

/-- The states of the exchange, in the order of a round. -/
inductive Phase (exec_nums : Nat) : State → Prop
  | getppid {k : Nat} (hk : k < exec_nums) :
      Phase exec_nums ⟨.sigwaitinfo, .getppid, k, k, false, false⟩
  | toParent {k : Nat} (hk : k < exec_nums) :
      Phase exec_nums ⟨.sigwaitinfo, .kill .parent, k, k, false, false⟩
  | atParent {k : Nat} (hk : k < exec_nums) :
      Phase exec_nums ⟨.sigwaitinfo, .sigwaitinfo, k, k, true, false⟩
  | toChild {k : Nat} (hk : k < exec_nums) :
      Phase exec_nums ⟨.kill, .sigwaitinfo, k, k, false, false⟩
  | atChild {k : Nat} {parent : ParentPc} (hk : k < exec_nums)
      (hparent : AtLoop exec_nums (k + 1) parent) :
      Phase exec_nums ⟨parent, .sigwaitinfo, k + 1, k, false, true⟩
  | finish {parent : ParentPc} {child : ChildPc} (hparent : parent = .exit ∨ parent = .gone)
      (hchild : child = .exit ∨ child = .gone) :
      Phase exec_nums ⟨parent, child, exec_nums, exec_nums, false, false⟩

theorem atLoop_parentLoop (hk : k ≤ exec_nums) : AtLoop exec_nums k (parentLoop exec_nums k) := by
  unfold parentLoop
  split
  · next hlt => exact .sigwaitinfo hlt
  · next hnot => exact .exit (by omega)

theorem phase_start : Phase exec_nums (start exec_nums) := by
  unfold start parentLoop childLoop
  split
  · next hpos => exact .getppid hpos
  · next hnot =>
      obtain rfl : exec_nums = 0 := by omega
      exact .finish (.inl rfl) (.inl rfl)

theorem phase_step (h : Phase exec_nums s) (hs : Step exec_nums s a t) : Phase exec_nums t := by
  cases hs with
  | getppid hchild =>
      cases h with
      | getppid hk => exact .toParent hk
      | finish _ hexit => rcases hexit with rfl | rfl <;> cases hchild
      | _ => cases hchild
  | killParent hchild =>
      cases h with
      | toParent hk => exact .atParent hk
      | finish _ hexit => rcases hexit with rfl | rfl <;> cases hchild
      | _ => cases hchild
  | killNobody hchild hnobody =>
      cases h with
      | toParent hk =>
          cases hchild
          exact absurd ⟨rfl, nofun⟩ hnobody
      | finish _ hexit => rcases hexit with rfl | rfl <;> cases hchild
      | _ => cases hchild
  | childWaits hchild hpending =>
      cases h with
      | @atChild k parent hk hparent =>
          rw [childLoop]
          cases hparent with
          | sigwaitinfo hlt =>
              rw [if_pos hlt]
              exact .getppid hlt
          | exit hend | gone hend =>
              subst hend
              rw [if_neg (Nat.lt_irrefl _)]
              exact .finish (by simp) (.inl rfl)
      | _ => cases hpending
  | parentWaits hparent hpending =>
      cases h with
      | atParent hk => exact .toChild hk
      | _ => cases hpending
  | killChild hparent =>
      cases h with
      | toChild hk => exact .atChild hk (atLoop_parentLoop hk)
      | atChild _ hloop => cases hloop <;> cases hparent
      | finish hexit => rcases hexit with rfl | rfl <;> cases hparent
      | _ => cases hparent
  | parentExits hparent =>
      cases h with
      | atChild hk hloop =>
          cases hloop with
          | exit hend => exact .atChild hk (.gone hend)
          | _ => cases hparent
      | finish _ hexit => exact .finish (.inr rfl) hexit
      | _ => cases hparent
  | childExits hchild =>
      cases h with
      | finish hexit => exact .finish hexit (.inr rfl)
      | _ => cases hchild

/-- **Every state that is reached** is one of the exchange. -/
theorem phase_of_reachable (h : (exchange exec_nums).Reachable s) : Phase exec_nums s := by
  refine h.induction (fun s hs ↦ ?_) fun _ _ _ _ ih hs ↦ phase_step ih (.of_step hs)
  subst hs
  exact phase_start

/-! ## The signals -/

/-- Both wait, and nothing is pending for either. -/
def State.Deadlock (s : State) : Prop :=
  s.parent = .sigwaitinfo ∧ s.child = .sigwaitinfo ∧ ∀ p, s.pending p = false

/-- No signal is lost, none goes astray, and the two do not wait for each other. -/
structure Sound (exec_nums : Nat) (s : State) : Prop where
  pending : s.parentPending.toNat + s.childPending.toNat ≤ 1
  /-- Nothing is pending for the one a signal is sent to. -/
  receiver : ∀ p t, (exchange exec_nums).step s (.kill p) t → s.pending p.other = false
  /-- The child sends it to its parent, which is there. -/
  target : ∀ t, (exchange exec_nums).step s (.kill .child) t →
    s.child = .kill .parent ∧ s.parent ≠ .gone
  waiting : ¬ s.Deadlock

theorem pending_le_one (h : Phase exec_nums s) :
    s.parentPending.toNat + s.childPending.toNat ≤ 1 := by
  cases h <;> simp

theorem pending_other_of_kill (h : Phase exec_nums s) {p : Proc}
    (hs : Step exec_nums s (.kill p) t) : s.pending p.other = false := by
  cases hs with
  | killParent hchild | killNobody hchild =>
      cases h with
      | atParent => cases hchild
      | _ => rfl
  | killChild hparent =>
      cases h with
      | atChild _ hloop => cases hloop <;> cases hparent
      | _ => rfl

theorem target_of_kill (h : Phase exec_nums s) (hs : Step exec_nums s (.kill .child) t) :
    s.child = .kill .parent ∧ s.parent ≠ .gone := by
  cases hs with
  | killParent hchild hparent => exact ⟨hchild, hparent⟩
  | killNobody hchild =>
      cases h with
      | toParent => exact ⟨rfl, nofun⟩
      | finish _ hexit => rcases hexit with rfl | rfl <;> cases hchild
      | _ => cases hchild

theorem not_deadlock (h : Phase exec_nums s) : ¬ s.Deadlock := by
  rintro ⟨hparent, hchild, hpending⟩
  cases h with
  | getppid | toParent => cases hchild
  | atParent => cases hpending .parent
  | toChild => cases hparent
  | atChild => cases hpending .child
  | finish hexit => rcases hexit with rfl | rfl <;> cases hparent

/-- **In every state that is reached** one signal is pending at most, none is sent to one that
has not taken the last, the child's goes to its parent, and the two do not wait for each other. -/
theorem exchange_sound (exec_nums : Nat) {s : State} (h : (exchange exec_nums).Reachable s) :
    Sound exec_nums s :=
  have hphase := phase_of_reachable h
  ⟨pending_le_one hphase, fun _ _ hs ↦ pending_other_of_kill hphase (.of_step hs),
    fun _ hs ↦ target_of_kill hphase (.of_step hs), not_deadlock hphase⟩

/-- One of two rounds is over, and the child is about to send the signal of the second. -/
theorem exchange_sound_one : Sound 2 ⟨.sigwaitinfo, .kill .parent, 1, 1, false, false⟩ :=
  have hexec : Lts.exec (next 2) (start 2)
      [.getppid, .kill .child, .sigwaitinfo .parent, .kill .parent, .sigwaitinfo .child,
        .getppid] = some ⟨.sigwaitinfo, .kill .parent, 1, 1, false, false⟩ := by decide
  exchange_sound 2 (Lts.Run.of_exec (init_start 2) hexec).reachable

/-! ## The end of the exchange -/

/-- The calls of the parent in a round that has begun, and behind the last. -/
def ParentPc.calls : ParentPc → Nat
  | .sigwaitinfo | .exit => 0
  | .kill | .gone => 1

/-- The calls of the child in a round that has begun, and behind the last. -/
def ChildPc.calls : ChildPc → Nat
  | .getppid | .exit => 0
  | .kill _ | .gone => 1
  | .sigwaitinfo => 2

/-- How many calls there have been. -/
def State.calls (s : State) : Nat :=
  2 * s.parentScnt + s.parent.calls + (3 * s.childScnt + s.child.calls)

theorem calls_parentLoop : (parentLoop exec_nums k).calls = 0 := by
  unfold parentLoop
  split <;> rfl

theorem calls_childLoop : (childLoop exec_nums k).calls = 0 := by
  unfold childLoop
  split <;> rfl

theorem calls_step (h : Phase exec_nums s) (hs : Step exec_nums s a t) :
    t.calls = s.calls + 1 := by
  cases hs with
  | getppid hpc | killParent hpc | parentWaits hpc | parentExits hpc | childExits hpc =>
      simp only [State.calls, hpc, ParentPc.calls, ChildPc.calls]
      omega
  | childWaits hpc =>
      have hwait : ChildPc.sigwaitinfo.calls = 2 := rfl
      simp only [State.calls, hpc, calls_childLoop, hwait]
      omega
  | killChild hpc =>
      have hkill : ParentPc.kill.calls = 1 := rfl
      simp only [State.calls, hpc, calls_parentLoop, hkill]
      omega
  | killNobody hpc hnobody =>
      obtain ⟨hchild, hparent⟩ := target_of_kill h (.killNobody hpc hnobody)
      rw [hchild] at hpc
      cases hpc
      exact absurd ⟨rfl, hparent⟩ hnobody

theorem length_eq (h : (exchange exec_nums).Run tr s) : tr.length = s.calls := by
  refine h.induction (P := fun tr s ↦ tr.length = s.calls) (fun s hs ↦ ?_)
    fun tr s a t hrun ih hs ↦ ?_
  · subst hs
    simp [start, State.calls, calls_parentLoop, calls_childLoop]
  · rw [List.length_append, List.length_singleton, ih]
    exact (calls_step (phase_of_reachable hrun.reachable) (.of_step hs)).symm

/-- No run has more than five calls for each round, and two at the end. -/
theorem length_le (h : (exchange exec_nums).Run tr s) : tr.length ≤ 5 * exec_nums + 2 := by
  rw [length_eq h]
  cases phase_of_reachable h.reachable with
  | getppid | toParent | atParent | toChild =>
      simp only [State.calls, ParentPc.calls, ChildPc.calls]
      omega
  | atChild hk hloop =>
      cases hloop <;> simp only [State.calls, ParentPc.calls, ChildPc.calls] <;> omega
  | finish hparent hchild =>
      rcases hparent with rfl | rfl <;> rcases hchild with rfl | rfl <;>
        simp only [State.calls, ParentPc.calls, ChildPc.calls] <;> omega

/-- **A run does not stop** before both have done all rounds and have left. -/
theorem gone_of_stuck (h : (exchange exec_nums).Reachable s)
    (hstuck : (exchange exec_nums).Stuck s) :
    s = ⟨.gone, .gone, exec_nums, exec_nums, false, false⟩ := by
  have hno : ∀ a t, next exec_nums s a ≠ some t := fun a t hs ↦ hstuck a ⟨t, hs⟩
  cases phase_of_reachable h with
  | getppid => exact absurd rfl (hno .getppid _)
  | toParent => exact absurd rfl (hno (.kill .child) _)
  | atParent => exact absurd rfl (hno (.sigwaitinfo .parent) _)
  | toChild => exact absurd rfl (hno (.kill .parent) _)
  | atChild => exact absurd rfl (hno (.sigwaitinfo .child) _)
  | finish hparent hchild =>
      rcases hparent with rfl | rfl
      · exact absurd rfl (hno (.exit .parent) _)
      · rcases hchild with rfl | rfl
        · exact absurd rfl (hno (.exit .child) _)
        · rfl

end SysProg.PingPong
