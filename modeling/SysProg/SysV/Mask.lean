import SysProg.Lib.History

/-!
# The signal functions of System V

`22_4` writes `sigset`, `sighold`, `sigrelse` and `sigignore` with `sigprocmask` and
`sigaction`.  What they should do to the set of blocked signals is `reference`: one adds its
signal, another removes it, and no other signal is concerned.

* `Call.run` is what the functions do; all system calls succeed, and `pause` returns.
* `mysigrelse` makes a full set without its signal the new mask, and `mysigset` does not
  unblock a signal whose disposition it sets.  `Faithful` are the masks for which this makes
  no difference.
* `run_mask_iff`: the mask is what it should be along a history of calls, if and only if each
  call finds such a mask.

No process can block `SIGKILL` and `SIGSTOP`, and `sigprocmask` does not say so.
-/

namespace SysProg.SysV

open SysProg.Lib

/-- `sigset_t` -/
abbrev SigSet : Type := Int → Bool

def SIGKILL : Int := 9

def SIGSTOP : Int := 19

/-- The numbers that the library takes for signals. -/
abbrev Signals : Type := Int → Bool

variable (signals : Signals)

/-- The signals that can be blocked. -/
def blockable (n : Int) : Bool := signals n && n != SIGKILL && n != SIGSTOP

def sigemptyset : SigSet := fun _ ↦ false

def sigfillset : SigSet := signals

/-- A number that is no signal is not added. -/
def sigaddset (set : SigSet) (sig : Int) : SigSet := fun n ↦ set n || (n == sig && signals n)

def sigdelset (set : SigSet) (sig : Int) : SigSet := fun n ↦ set n && n != sig

/-- What a process can have blocked. -/
@[ext] structure Mask where
  blocked : SigSet
  blockable_of_blocked : ∀ n, blocked n → blockable signals n

/-- What a signal does. -/
inductive Action where
  | SIG_DFL
  | SIG_IGN
  | handler
deriving DecidableEq

structure Process where
  mask : Mask signals
  action : Int → Action

variable {signals}

/-- `how` in `sigprocmask` -/
inductive How where
  | SIG_BLOCK
  | SIG_SETMASK
deriving DecidableEq

/-- What `sigprocmask` makes of a mask. -/
def Mask.change (mask : Mask signals) (how : How) (set : SigSet) : Mask signals where
  blocked n := blockable signals n && (set n || (how == .SIG_BLOCK && mask.blocked n))
  blockable_of_blocked _ hn := (Bool.and_eq_true_iff.mp hn).1

def Process.sigprocmask (p : Process signals) (how : How) (set : SigSet) : Process signals :=
  { p with mask := p.mask.change how set }

def Process.sigaction (p : Process signals) (sig : Int) (act : Action) : Process signals :=
  { p with action := fun n ↦ if n = sig then act else p.action n }

/-! ## The functions -/

/-- What `mysigset` returns. -/
inductive Sighandler where
  | SIG_HOLD
  | handler
  | /-- `(sighandler_t)-1` -/ error
deriving DecidableEq

/-- `mysigset`, for a signal: with another number `sigaction` fails, and what `sigismember`
returns for it, -1, counts as blocked. -/
def mysigset (p : Process signals) (sig : Int) (disp : String) : Process signals × Sighandler :=
  let before := if p.mask.blocked sig then .SIG_HOLD else .handler
  if disp = "SIG_DFL" then (p.sigaction sig .SIG_DFL, before)
  else if disp = "SIG_IGNORE" then (p.sigaction sig .SIG_IGN, before)
  else if disp = "SIG_HOLD" then
    (p.sigprocmask .SIG_BLOCK (sigaddset signals sigemptyset sig), before)
  else (p, .error)

def mysighold (p : Process signals) (sig : Int) : Process signals :=
  p.sigprocmask .SIG_BLOCK (sigaddset signals sigemptyset sig)

def mysigrelse (p : Process signals) (sig : Int) : Process signals :=
  p.sigprocmask .SIG_SETMASK (sigdelset (sigfillset signals) sig)

def mysigignore (p : Process signals) (sig : Int) : Process signals := p.sigaction sig .SIG_IGN

inductive Call where
  | sigset (sig : Int) (disp : String)
  | sighold (sig : Int)
  | sigrelse (sig : Int)
  | sigignore (sig : Int)
deriving DecidableEq

/-- The signal that a call is about. -/
def Call.sig : Call → Int
  | .sigset sig _ | .sighold sig | .sigrelse sig | .sigignore sig => sig

def Call.run (p : Process signals) : Call → Process signals
  | .sigset sig disp => (mysigset p sig disp).1
  | .sighold sig => mysighold p sig
  | .sigrelse sig => mysigrelse p sig
  | .sigignore sig => mysigignore p sig

/-- A history of calls. -/
def run (p : Process signals) (calls : List Call) : Process signals := calls.foldl Call.run p

/-! ## What is required -/

/-- The signal is not blocked. -/
def release (blocked : SigSet) (sig : Int) : SigSet := fun n ↦ blocked n && n != sig

variable (signals)

/-- The signal is blocked, if it can be. -/
def hold (blocked : SigSet) (sig : Int) : SigSet :=
  fun n ↦ blocked n || (n == sig && blockable signals n)

/-- What System V makes of the blocked signals. -/
def reference (blocked : SigSet) : Call → SigSet
  | .sighold sig => hold signals blocked sig
  | .sigrelse sig => release blocked sig
  | .sigignore _ => blocked
  | .sigset sig disp =>
      if disp = "SIG_DFL" ∨ disp = "SIG_IGNORE" then release blocked sig
      else if disp = "SIG_HOLD" then hold signals blocked sig
      else blocked

/-- The blocked signals for which a call does what is required. -/
def Faithful (blocked : SigSet) : Call → Prop
  | .sigrelse sig => ∀ n, n ≠ sig → blockable signals n → blocked n
  | .sigset sig disp => disp = "SIG_DFL" ∨ disp = "SIG_IGNORE" → blocked sig = false
  | .sighold _ | .sigignore _ => True

variable {signals} {p : Process signals} {c : Call} {sig n : Int} {disp : String}
  {calls : List Call}

theorem hold_of_ne (hn : n ≠ sig) (blocked : SigSet) : hold signals blocked sig n = blocked n := by
  simp [hold, hn]

theorem release_of_ne (hn : n ≠ sig) (blocked : SigSet) : release blocked sig n = blocked n := by
  simp [release, hn]

/-- **The frame**: no call concerns another signal than its own. -/
theorem reference_of_ne (hn : n ≠ c.sig) (blocked : SigSet) :
    reference signals blocked c n = blocked n := by
  cases c with
  | sigset sig disp =>
      rw [reference]
      split
      · exact release_of_ne hn blocked
      · split
        · exact hold_of_ne hn blocked
        · rfl
  | sighold sig => exact hold_of_ne hn blocked
  | sigrelse sig => exact release_of_ne hn blocked
  | sigignore sig => rfl

/-! ## The functions one by one -/

theorem blocked_sighold : (mysighold p sig).mask.blocked = hold signals p.mask.blocked sig := by
  funext n
  have hmask := p.mask.blockable_of_blocked n
  have hsignals : blockable signals n → signals n := by
    intro h
    rw [blockable, Bool.and_assoc, Bool.and_eq_true] at h
    exact h.1
  simp only [mysighold, Process.sigprocmask, Mask.change, sigaddset, sigemptyset, hold]
  grind

/-- What is not blocked before is blocked behind `mysigrelse`. -/
theorem blocked_sigrelse :
    (mysigrelse p sig).mask.blocked n = (blockable signals n && n != sig) := by
  simp only [mysigrelse, Process.sigprocmask, Mask.change, sigdelset, sigfillset, blockable]
  grind

theorem blocked_sigrelse_iff : (mysigrelse p sig).mask.blocked = release p.mask.blocked sig ↔
    ∀ n, n ≠ sig → blockable signals n → p.mask.blocked n := by
  rw [funext_iff]
  refine forall_congr' fun n ↦ ?_
  rw [blocked_sigrelse, release]
  have hmask := p.mask.blockable_of_blocked n
  by_cases hn : n = sig
  · simp [hn]
  · simp only [bne_iff_ne.mpr hn, Bool.and_true, ne_eq, hn, not_false_iff, true_imp_iff]
    exact ⟨fun h hb ↦ h ▸ hb, fun h ↦ Bool.eq_iff_iff.mpr ⟨h, hmask⟩⟩

theorem eq_release_iff (blocked : SigSet) :
    blocked = release blocked sig ↔ blocked sig = false := by
  constructor
  · intro h
    rw [h]
    simp [release]
  · intro h
    funext n
    by_cases hn : n = sig
    · rw [hn, h, release, h, Bool.false_and]
    · exact (release_of_ne hn blocked).symm

/-- **One call** does what is required, if and only if it finds such a mask. -/
theorem run_mask_iff_faithful (p : Process signals) (c : Call) :
    (c.run p).mask.blocked = reference signals p.mask.blocked c ↔
      Faithful signals p.mask.blocked c := by
  cases c with
  | sighold sig => exact iff_of_true blocked_sighold trivial
  | sigrelse sig => exact blocked_sigrelse_iff
  | sigignore sig => exact iff_of_true rfl trivial
  | sigset sig disp =>
      simp only [Call.run, mysigset, reference, Faithful]
      by_cases hdfl : disp = "SIG_DFL"
      · have hrelease : disp = "SIG_DFL" ∨ disp = "SIG_IGNORE" := .inl hdfl
        rw [if_pos hdfl, if_pos hrelease, forall_prop_of_true hrelease]
        exact eq_release_iff _
      by_cases hign : disp = "SIG_IGNORE"
      · have hrelease : disp = "SIG_DFL" ∨ disp = "SIG_IGNORE" := .inr hign
        rw [if_neg hdfl, if_pos hign, if_pos hrelease, forall_prop_of_true hrelease]
        exact eq_release_iff _
      have hother : ¬ (disp = "SIG_DFL" ∨ disp = "SIG_IGNORE") := not_or.mpr ⟨hdfl, hign⟩
      rw [if_neg hdfl, if_neg hign, if_neg hother]
      refine iff_of_true ?_ fun h ↦ absurd h hother
      split
      · exact blocked_sighold
      · rfl

/-! ## Histories -/

/-- **Along a history of calls** the blocked signals are what System V requires, if and only if
`mysigrelse` is called where all other signals are blocked, and `mysigset` for the default or
to ignore a signal where that is not. -/
theorem run_mask_iff (p : Process signals) (calls : List Call) :
    (∀ pre, pre <+: calls →
        (run p pre).mask.blocked = pre.foldl (reference signals) p.mask.blocked) ↔
      EachCall (fun pre c ↦ Faithful signals (pre.foldl (reference signals) p.mask.blocked) c)
        calls :=
  foldl_eq_iff (r := fun p : Process signals ↦ p.mask.blocked) run_mask_iff_faithful p calls

/-- The signals of Linux; the library keeps 32 and 33 to itself. -/
def linux : Signals := fun n ↦ 1 ≤ n && n ≤ 64 && n != 32 && n != 33

/-- A process that has nothing blocked. -/
def unblocked : Process linux := ⟨⟨fun _ ↦ false, nofun⟩, fun _ ↦ .SIG_DFL⟩

/-- `mysigrelse(SIGINT)` blocks `SIGTERM`. -/
theorem run_mask_sigrelse : ¬ ∀ (signals : Signals) (p : Process signals) (calls : List Call),
    ∀ pre, pre <+: calls →
      (run p pre).mask.blocked = pre.foldl (reference signals) p.mask.blocked := by
  intro h
  have hterm := congrFun (h linux unblocked [.sigrelse 2] _ List.prefix_rfl) 15
  exact absurd hterm (by decide)

end SysProg.SysV
