import SysProg.Lib.Family
import SysProg.Lib.SemV

/-!
# A semaphore used as a mutex

A semaphore that starts at `1`, is taken with operation `-1` and released with
`+1`, both with undo.  `Mutex P val adj f` is the invariant of that use: `P` says
of a process whether it is inside, `val` is the value of the semaphore and `adj`
the adjustments of it.

The lemmas are the four things a process can do: a step that neither enters nor
leaves, entering, leaving, and ending anywhere, where the kernel's undo releases
the mutex for a process that ends inside.
-/

universe u v

namespace SysProg.Lib

variable {ι : Type u} {α : Type v}

/-- The semaphore is `1` with nobody inside or `0` with exactly one process
inside, and who is inside has an adjustment of `1`. -/
structure Mutex (P : α → Prop) [DecidablePred P] (val : Int) (adj : ι → Int) (f : ι → α) :
    Prop where
  unique : AtMostOne P f
  val_eq : val = 1 ∧ (∀ i, ¬ P (f i)) ∨ val = 0 ∧ ∃ i, P (f i)
  adj_eq : ∀ i, adj i = if P (f i) then 1 else 0

namespace Mutex

variable [DecidableEq ι] {P : α → Prop} [DecidablePred P] {val val' : Int} {adj adj' : ι → Int}
  {f : ι → α} {i : ι} {x : α}

omit [DecidableEq ι] in
/-- While somebody is inside the semaphore is `0`. -/
theorem val_eq_zero (h : Mutex P val adj f) (hi : P (f i)) : val = 0 := by
  rcases h.val_eq with ⟨-, hnone⟩ | ⟨hval, -⟩
  · exact absurd hi (hnone i)
  · exact hval

/-- A step that neither enters nor leaves. -/
theorem stay (h : Mutex P val adj f) (hx : P x ↔ P (f i)) (hval : val' = val)
    (hadj : ∀ j, adj' j = adj j) : Mutex P val' adj' (Function.update f i x) := by
  have hiff : ∀ j, P (Function.update f i x j) ↔ P (f j) := by
    rw [Function.forall_update_iff f fun j y ↦ P y ↔ P (f j)]
    exact ⟨hx, fun _ _ ↦ Iff.rfl⟩
  refine ⟨h.unique.update_of_imp hx.mp, ?_, fun j ↦ ?_⟩
  · simpa only [hiff, hval] using h.val_eq
  · simp only [hiff, hadj, h.adj_eq]

/-- Process `i` takes the semaphore, which is not `0`. -/
theorem enter (h : Mutex P val adj f) (hpos : 0 ≤ val - 1) (hx : P x) (hval : val' = val - 1)
    (hadj : ∀ j, adj' j = if j = i then adj j + 1 else adj j) :
    Mutex P val' adj' (Function.update f i x) := by
  obtain ⟨rfl, hnone⟩ : val = 1 ∧ ∀ j, ¬ P (f j) := by
    rcases h.val_eq with hone | ⟨rfl, -⟩
    · exact hone
    · omega
  refine ⟨AtMostOne.update_of_none hnone, .inr ⟨hval, i, by simpa using hx⟩, fun j ↦ ?_⟩
  have hj := h.adj_eq j
  by_cases hji : j = i
  · subst hji
    simp_all
  · simp_all

/-- Process `i` ends up outside, and the semaphore and its adjustment are as if
it had released what it held. -/
theorem leave (h : Mutex P val adj f) (hx : ¬ P x) (hval : val' = val + adj i)
    (hadj : ∀ j, adj' j = if j = i then 0 else adj j) :
    Mutex P val' adj' (Function.update f i x) := by
  have hadj' : ∀ j, adj' j = if P (Function.update f i x j) then 1 else 0 := by
    intro j
    by_cases hji : j = i
    · subst hji
      simp [hadj, hx]
    · simp [hadj, hji, h.adj_eq j]
  refine ⟨h.unique.update_of_imp fun hx' ↦ absurd hx' hx, ?_, hadj'⟩
  have hi := h.adj_eq i
  by_cases hin : P (f i)
  · rw [if_pos hin] at hi
    refine .inl ⟨by rw [hval, hi, h.val_eq_zero hin]; rfl, ?_⟩
    rw [Function.forall_update_iff f fun _ y ↦ ¬ P y]
    exact ⟨hx, fun j hj ↦ h.unique.not_of_ne hin hj⟩
  · rw [if_neg hin] at hi
    rw [hval, hi, Int.add_zero]
    refine h.val_eq.imp (And.imp_right fun hnone ↦ ?_) (And.imp_right ?_)
    · rw [Function.forall_update_iff f fun _ y ↦ ¬ P y]
      exact ⟨hx, fun j _ ↦ hnone j⟩
    · rintro ⟨j, hj⟩
      have hji : j ≠ i := fun heq ↦ hin (heq ▸ hj)
      exact ⟨j, by simpa [hji] using hj⟩

/-- Process `i`, inside, releases the semaphore. -/
theorem release (h : Mutex P val adj f) (hi : P (f i)) (hx : ¬ P x) (hval : val' = val + 1)
    (hadj : ∀ j, adj' j = if j = i then adj j - 1 else adj j) :
    Mutex P val' adj' (Function.update f i x) := by
  have hone : adj i = 1 := (h.adj_eq i).trans (if_pos hi)
  refine h.leave hx (by rw [hone, hval]) fun j ↦ ?_
  by_cases hji : j = i
  · simp [hadj, hji, hone]
  · simp [hadj, hji]

/-- Process `i` ends: the value stays in its range, so the kernel's undo is exact. -/
theorem undo (h : Mutex P val adj f) (hx : ¬ P x)
    (hval : val' = max 0 (min semvmx (val + adj i)))
    (hadj : ∀ j, adj' j = if j = i then 0 else adj j) :
    Mutex P val' adj' (Function.update f i x) := by
  refine h.leave hx (hval.trans ?_) hadj
  rcases (h.leave hx rfl hadj).val_eq with ⟨hval, -⟩ | ⟨hval, -⟩ <;> rw [hval] <;> rfl

end Mutex

end SysProg.Lib
