import SysProg.SysV.Mask

/-!
# What was in force before

System V `sigset` returns `SIG_HOLD` for a signal that has been blocked, and else the
disposition that it has had; `sigpause` waits with its signal unblocked, and leaves the mask as
it was.  In `22_4` the one returns `handler` for every signal that has not been blocked, and the
other makes a set of its signal alone the mask while it waits.

* `disposition` is what is in force for a signal.  No function installs a handler, so the one
  of a signal is the one that it has had at first.
* `reports_iff`: `mysigset` returns what is required, if and only if the signal is blocked, or
  `handler` is in force for it since the beginning.
* `pauses_iff`: `mysigpause` waits with the right mask, if and only if its signal cannot be
  blocked and no other one is.
-/

universe u

namespace SysProg.SysV

open SysProg.Lib

variable {signals : Signals} {F : Type u}

/-! ## Dispositions -/

/-- What is in force for a signal. -/
inductive Disposition (F : Type u) where
  | SIG_DFL
  | SIG_IGN
  | handler (f : F)
deriving DecidableEq

/-- The disposition of a signal; `handlers` are the functions that are its handlers. -/
def disposition (handlers : Int → F) (p : Process signals) (n : Int) : Disposition F :=
  match p.action n with
  | .SIG_DFL => .SIG_DFL
  | .SIG_IGN => .SIG_IGN
  | .handler => .handler (handlers n)

/-- What `sigset` can say about a signal. -/
inductive Previous (F : Type u) where
  | held
  | inForce (d : Disposition F)
deriving DecidableEq

/-- What `sigset` has to return. -/
def required (handlers : Int → F) (p : Process signals) (sig : Int) : Previous F :=
  if p.mask.blocked sig then .held else .inForce (disposition handlers p sig)

/-- What the pointers say that `mysigset` returns; `own` is the function `handler`. -/
def Sighandler.previous (own : F) : Sighandler → Option (Previous F)
  | .SIG_HOLD => some .held
  | .handler => some (.inForce (.handler own))
  | .error => none

/-- The dispositions that `mysigset` knows. -/
def validDisps : List String := ["SIG_DFL", "SIG_IGNORE", "SIG_HOLD"]

/-- `mysigset` returns what is required. -/
def Reports (own : F) (handlers : Int → F) (p : Process signals) (sig : Int) (disp : String) :
    Prop :=
  (mysigset p sig disp).2.previous own = some (required handlers p sig)

/-- The disposition that a call sets for a signal. -/
def Call.sets (n : Int) : Call → Option Action
  | .sigset sig disp =>
      if sig = n ∧ disp = "SIG_DFL" then some .SIG_DFL
      else if sig = n ∧ disp = "SIG_IGNORE" then some .SIG_IGN
      else none
  | .sigignore sig => if sig = n then some .SIG_IGN else none
  | .sighold _ | .sigrelse _ => none

variable {p : Process signals} {c : Call} {calls : List Call} {sig n : Int} {disp : String}
  {own : F} {handlers : Int → F}

theorem action_sigaction (p : Process signals) (sig n : Int) (act : Action) :
    (p.sigaction sig act).action n = (if sig = n then some act else none).getD (p.action n) := by
  by_cases hn : sig = n
  · rw [if_pos hn]
    exact if_pos hn.symm
  · rw [if_neg hn]
    exact if_neg (Ne.symm hn)

/-- A call sets the disposition of its signal, or leaves it as it is. -/
theorem action_run (p : Process signals) (c : Call) (n : Int) :
    (c.run p).action n = (c.sets n).getD (p.action n) := by
  cases c with
  | sigset sig disp =>
      rw [Call.run, mysigset, Call.sets]
      by_cases hdfl : disp = "SIG_DFL"
      · rw [if_pos hdfl, action_sigaction]
        by_cases hn : sig = n
        · rw [if_pos hn, if_pos ⟨hn, hdfl⟩]
        · rw [if_neg hn, if_neg (hn ∘ And.left), if_neg (hn ∘ And.left)]
      by_cases hign : disp = "SIG_IGNORE"
      · rw [if_neg hdfl, if_pos hign, if_neg (hdfl ∘ And.right), action_sigaction]
        simp only [hign, and_true]
      rw [if_neg hdfl, if_neg hign, if_neg (hdfl ∘ And.right), if_neg (hign ∘ And.right)]
      split <;> rfl
  | sigignore sig => exact action_sigaction p sig n .SIG_IGN
  | sighold sig | sigrelse sig => rfl

theorem sets_ne_handler (c : Call) (n : Int) : c.sets n ≠ some .handler := by
  cases c with
  | sigset sig disp =>
      rw [Call.sets]
      split
      · decide
      · split <;> decide
  | sigignore sig =>
      rw [Call.sets]
      split <;> decide
  | sighold sig | sigrelse sig => exact Option.some_ne_none _ ∘ Eq.symm

/-- **No call installs a handler**: there is one only since the beginning. -/
theorem action_eq_handler_iff : (run p calls).action n = .handler ↔
    p.action n = .handler ∧ ∀ c ∈ calls, c.sets n = none := by
  induction calls using List.reverseRecOn with
  | nil => simp [run]
  | append_singleton calls c ih =>
      have hrun : run p (calls ++ [c]) = c.run (run p calls) := by simp [run]
      rw [hrun, action_run, List.forall_mem_append, List.forall_mem_singleton, ← and_assoc, ← ih]
      cases hsets : c.sets n with
      | none => simp
      | some act =>
          refine iff_of_false (fun hact ↦ ?_) fun h ↦ nomatch h.2
          have hact : act = .handler := hact
          exact sets_ne_handler c n (hact ▸ hsets)

theorem disposition_eq_handler_iff {f : F} :
    disposition handlers p n = .handler f ↔ p.action n = .handler ∧ handlers n = f := by
  rw [disposition]
  cases p.action n <;> simp

/-- One call of `mysigset`. -/
theorem reports_iff_inForce (hdisp : disp ∈ validDisps) : Reports own handlers p sig disp ↔
    p.mask.blocked sig ∨ disposition handlers p sig = .handler own := by
  have hreturns : (mysigset p sig disp).2 =
      if p.mask.blocked sig then .SIG_HOLD else .handler := by
    rw [validDisps, List.mem_cons, List.mem_cons, List.mem_singleton] at hdisp
    rcases hdisp with rfl | rfl | rfl <;> rfl
  rw [Reports, hreturns, required]
  by_cases hblocked : p.mask.blocked sig
  · rw [if_pos hblocked, if_pos hblocked]
    exact iff_of_true rfl (.inl hblocked)
  · rw [if_neg hblocked, if_neg hblocked, or_iff_right hblocked, Sighandler.previous,
      Option.some_inj, Previous.inForce.injEq, eq_comm]

/-- **`mysigset` returns what was in force**, if and only if the signal is blocked, or its handler
has been `handler` from the beginning and no call has set another disposition. -/
theorem reports_iff (own : F) (handlers : Int → F) (p : Process signals) (calls : List Call)
    (sig : Int) (disp : String) (hdisp : disp ∈ validDisps) :
    Reports own handlers (run p calls) sig disp ↔
      (run p calls).mask.blocked sig ∨
        disposition handlers p sig = .handler own ∧ ∀ c ∈ calls, c.sets sig = none := by
  rw [reports_iff_inForce hdisp, disposition_eq_handler_iff, disposition_eq_handler_iff,
    action_eq_handler_iff, and_right_comm]

/-- A signal that has been held. -/
theorem reports_held : Reports () (fun _ ↦ ()) (run unblocked [.sighold 2]) 2 "SIG_DFL" :=
  (reports_iff () (fun _ ↦ ()) unblocked [.sighold 2] 2 "SIG_DFL" (by decide)).mpr (.inl rfl)

/-- `SIGINT` has its default disposition, and `mysigset` returns `handler`. -/
theorem not_reports_default : ¬ ∀ (signals : Signals) (p : Process signals) (calls : List Call)
    (sig : Int) (disp : String), disp ∈ validDisps → blockable signals sig →
      Reports () (fun _ ↦ ()) (run p calls) sig disp := by
  intro h
  have hreports : (mysigset unblocked 2 "SIG_IGNORE").2.previous () =
      some (required (fun _ ↦ ()) unblocked 2) :=
    h linux unblocked [] 2 "SIG_IGNORE" (by decide) rfl
  exact absurd hreports (by decide)

/-! ## Waiting -/

/-- `sigsuspend`: the mask while the process waits, and the process when a handler has returned. -/
def Process.sigsuspend (p : Process signals) (set : SigSet) : Mask signals × Process signals :=
  (p.mask.change .SIG_SETMASK set, p)

def mysigpause (p : Process signals) (sig : Int) : Mask signals × Process signals :=
  p.sigsuspend (sigaddset signals sigemptyset sig)

/-- `sigpause`: the signal is not blocked while the process waits, all others are as before, and
so is the mask in the end. -/
structure Pauses (p : Process signals) (sig : Int) : Prop where
  during : (mysigpause p sig).1.blocked = release p.mask.blocked sig
  after : (mysigpause p sig).2.mask = p.mask

/-- What is blocked while `mysigpause` waits. -/
theorem blocked_sigpause :
    (mysigpause p sig).1.blocked n = (blockable signals n && n == sig) := by
  simp only [mysigpause, Process.sigsuspend, Mask.change, sigaddset, sigemptyset, blockable]
  grind

/-- **`mysigpause` waits as it should**, if and only if its signal cannot be blocked, and no
other one is. -/
theorem pauses_iff (p : Process signals) (sig : Int) :
    Pauses p sig ↔ blockable signals sig = false ∧ ∀ n, p.mask.blocked n = false := by
  constructor
  · intro h
    have hn : ∀ n, (blockable signals n && n == sig) = release p.mask.blocked sig n := by
      intro n
      rw [← h.during, blocked_sigpause]
    have hsig : blockable signals sig = false := by simpa [release] using hn sig
    refine ⟨hsig, fun n ↦ ?_⟩
    by_cases hne : n = sig
    · subst hne
      exact Bool.eq_false_iff.mpr fun hblocked ↦
        Bool.false_ne_true (hsig ▸ p.mask.blockable_of_blocked n hblocked)
    · rw [← release_of_ne hne p.mask.blocked, ← hn n, beq_eq_false_iff_ne.mpr hne, Bool.and_false]
  · rintro ⟨hsig, hnone⟩
    refine ⟨funext fun n ↦ ?_, rfl⟩
    rw [blocked_sigpause, release, hnone n, Bool.false_and, Bool.and_eq_false_imp]
    intro hblockable
    refine beq_eq_false_iff_ne.mpr fun hn ↦ ?_
    rw [hn, hsig] at hblockable
    cases hblockable

/-- `mysigpause(SIGINT)` waits with `SIGINT` blocked. -/
theorem not_pauses_sigint :
    ¬ ∀ (signals : Signals) (p : Process signals) (sig : Int), Pauses p sig := by
  intro h
  have hsigint := congrFun (h linux unblocked 2).during 2
  exact absurd hsigint (by decide)

end SysProg.SysV
