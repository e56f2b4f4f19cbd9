import Mathlib.Logic.Function.Basic

/-!
# System V semaphores with undo

A semaphore set has a value for each semaphore and, for each process and
semaphore, an *adjustment*: minus the sum of the operations the process has done
on it with `SEM_UNDO`.  When a process exits the kernel adds its adjustments
back, clamping each value to `[0, semvmx]`.

`semop` is the kernel's check of one operation: it waits while the value would
become negative (or, for operation `0`, while it is not zero), and fails with
`ERANGE` if the value or the adjustment would leave its range.  The range of the
adjustments is a parameter `lim`; `linuxAdj` is the one of Linux.

`semop_eq_ok` splits `semop` into what it waits for (`Ready`), what it needs
(`InRange`) and what it does (`apply`); the `apply_…` and `exit_…` lemmas compute
the latter, so users never unfold `semop`.
-/

universe u v

namespace SysProg.Lib

/-- `struct sembuf`: the semaphore, the operation, and whether `SEM_UNDO` is set. -/
structure SemBuf (ι : Type u) where
  num : ι
  op : Int
  undo : Bool
deriving DecidableEq

/-- A semaphore set, with the adjustments of every process `π`. -/
structure SemSet (ι : Type u) (π : Type v) where
  semval : ι → Int
  semadj : π → ι → Int

/-- The largest semaphore value (`SEMVMX`). -/
def semvmx : Int := 32767

/-- The adjustments Linux allows: `[-SEMAEM - 1, SEMAEM]`. -/
def linuxAdj (adj : Int) : Bool := -32768 ≤ adj ∧ adj ≤ 32767

theorem linuxAdj_iff {adj : Int} : linuxAdj adj = true ↔ -32768 ≤ adj ∧ adj ≤ 32767 :=
  decide_eq_true_iff

/-- The outcome of `semop`. -/
inductive SemResult (σ : Type u) where
  | ok (sems : σ)
  | /-- The process sleeps. -/ block
  | /-- `-1` with `ERANGE`. -/ erange

namespace SemSet

variable {ι : Type u} {π : Type v} [DecidableEq ι] [DecidableEq π]

/-- The effect of an operation that is carried out. -/
def apply (sems : SemSet ι π) (p : π) (b : SemBuf ι) : SemSet ι π where
  semval := Function.update sems.semval b.num (sems.semval b.num + b.op)
  semadj := if b.undo then
      Function.update sems.semadj p
        (Function.update (sems.semadj p) b.num (sems.semadj p b.num - b.op))
    else sems.semadj

/-- The operation need not wait. -/
def Ready (sems : SemSet ι π) (b : SemBuf ι) : Prop :=
  (b.op = 0 → sems.semval b.num = 0) ∧ 0 ≤ sems.semval b.num + b.op

/-- Neither the value nor the adjustment would leave its range. -/
def InRange (lim : Int → Bool) (sems : SemSet ι π) (p : π) (b : SemBuf ι) : Prop :=
  sems.semval b.num + b.op ≤ semvmx ∧ (b.undo = true → lim (sems.semadj p b.num - b.op) = true)

omit [DecidableEq ι] in
instance (sems : SemSet ι π) (b : SemBuf ι) : Decidable (sems.Ready b) :=
  inferInstanceAs (Decidable (_ ∧ _))

instance (lim : Int → Bool) (sems : SemSet ι π) (p : π) (b : SemBuf ι) :
    Decidable (sems.InRange lim p b) :=
  inferInstanceAs (Decidable (_ ∧ _))

/-- `semop(semid, &b, 1)` by process `p`. -/
def semop (lim : Int → Bool) (sems : SemSet ι π) (p : π) (b : SemBuf ι) : SemResult (SemSet ι π) :=
  if ¬ sems.Ready b then .block
  else if ¬ sems.InRange lim p b then .erange
  else .ok (sems.apply p b)

/-- The exit of process `p`: its adjustments are added back and forgotten. -/
def exit (sems : SemSet ι π) (p : π) : SemSet ι π where
  semval i := max 0 (min semvmx (sems.semval i + sems.semadj p i))
  semadj := Function.update sems.semadj p fun _ ↦ 0

theorem semop_eq_ok {lim : Int → Bool} {sems sems' : SemSet ι π} {p : π} {b : SemBuf ι} :
    sems.semop lim p b = .ok sems' ↔
      sems.Ready b ∧ sems.InRange lim p b ∧ sems' = sems.apply p b := by
  unfold semop
  split
  · simp_all
  · split <;> simp_all [eq_comm]

theorem semop_eq_erange {lim : Int → Bool} {sems : SemSet ι π} {p : π} {b : SemBuf ι} :
    sems.semop lim p b = .erange ↔ sems.Ready b ∧ ¬ sems.InRange lim p b := by
  unfold semop
  split
  · simp_all
  · split <;> simp_all

/-! ## What an operation changes -/

section apply

variable (sems : SemSet ι π) (p q : π) (b : SemBuf ι) (i : ι)

@[simp] theorem apply_semval :
    (sems.apply p b).semval i = if i = b.num then sems.semval i + b.op else sems.semval i := by
  by_cases h : i = b.num
  · subst h
    simp [apply]
  · simp [apply, h]

@[simp] theorem apply_semadj :
    (sems.apply p b).semadj q i =
      if b.undo ∧ q = p ∧ i = b.num then sems.semadj q i - b.op else sems.semadj q i := by
  cases hu : b.undo with
  | false => simp [apply, hu]
  | true =>
      by_cases hq : q = p
      · subst hq
        by_cases hi : i = b.num
        · subst hi
          simp [apply, hu]
        · simp [apply, hu, hi]
      · simp [apply, hu, hq]

omit [DecidableEq ι] in
@[simp] theorem exit_semval :
    (sems.exit p).semval i = max 0 (min semvmx (sems.semval i + sems.semadj p i)) := rfl

omit [DecidableEq ι] in
@[simp] theorem exit_semadj :
    (sems.exit p).semadj q i = if q = p then 0 else sems.semadj q i := by
  by_cases h : q = p
  · subst h
    simp [exit]
  · simp [exit, h]

end apply

end SemSet

end SysProg.Lib
