import Mathlib.Algebra.Order.BigOperators.Group.Finset
import Mathlib.Data.Fintype.BigOperators
import Mathlib.Logic.Function.Basic

/-!
# Families of processes

The states of any number of processes of one kind are a function on an index
type, and a step of process `i` is an update at `i`.  `AtMostOne P f` says that
at most one of them is where `P` holds (has the lock, is in its critical
section); the two update lemmas are the only ways such a fact survives a step.

`length_le_sum_countP` counts a list (a queue, a log) by the processes its elements
belong to.
-/

universe u v

namespace SysProg.Lib

variable {ι : Type u} {α : Type v}

/-- At most one member of the family satisfies `P`. -/
def AtMostOne (P : α → Prop) (f : ι → α) : Prop := ∀ i j, P (f i) → P (f j) → i = j

namespace AtMostOne

variable [DecidableEq ι] {P : α → Prop} {f : ι → α} {i : ι} {x : α}

/-- A step that does not make process `i` satisfy `P`. -/
theorem update_of_imp (h : AtMostOne P f) (hx : P x → P (f i)) :
    AtMostOne P (Function.update f i x) := by
  have himp : ∀ j, P (Function.update f i x j) → P (f j) := by
    intro j hj
    by_cases hji : j = i
    · subst hji
      exact hx (by simpa using hj)
    · simpa [hji] using hj
  exact fun j k hj hk ↦ h j k (himp j hj) (himp k hk)

/-- A step of process `i` while nobody satisfies `P`. -/
theorem update_of_none (h : ∀ j, ¬ P (f j)) : AtMostOne P (Function.update f i x) := by
  have honly : ∀ j, P (Function.update f i x j) → j = i := by
    intro j hj
    by_contra hji
    exact h j (by simpa [hji] using hj)
  exact fun j k hj hk ↦ (honly j hj).trans (honly k hk).symm

omit [DecidableEq ι] in
/-- Whoever satisfies `P`, nobody else does. -/
theorem not_of_ne (h : AtMostOne P f) {j : ι} (hi : P (f i)) (hne : j ≠ i) : ¬ P (f j) :=
  fun hj ↦ hne (h j i hj hi)

end AtMostOne

/-- A step of one of the first `n` processes changes a sum over them by its own summand. -/
theorem sum_range_update {f : α → Nat} {g : Nat → α} {n c : Nat} (h : c < n) (x : α) :
    ∑ i ∈ Finset.range n, f (Function.update g c x i) + f (g c) =
      ∑ i ∈ Finset.range n, f (g i) + f x := by
  have hmem : c ∈ Finset.range n := Finset.mem_range.mpr h
  have hrest : ∑ i ∈ (Finset.range n).erase c, f (Function.update g c x i) =
      ∑ i ∈ (Finset.range n).erase c, f (g i) := by
    refine Finset.sum_congr rfl fun i hi ↦ ?_
    rw [Function.update_of_ne (Finset.ne_of_mem_erase hi)]
  rw [← Finset.add_sum_erase _ _ hmem, ← Finset.add_sum_erase _ (fun i ↦ f (g i)) hmem, hrest,
    Function.update_self]
  omega

/-- Every element of the list belongs to some process. -/
theorem length_le_sum_countP [Fintype ι] (p : ι → α → Bool) {l : List α}
    (h : ∀ x ∈ l, ∃ i, p i x = true) : l.length ≤ ∑ i, l.countP (p i) := by
  induction l with
  | nil => simp
  | cons x l ih =>
      obtain ⟨i, hi⟩ := h x List.mem_cons_self
      have hone : 1 ≤ ∑ i, if p i x then 1 else 0 :=
        le_of_eq_of_le (by simp [hi]) (Finset.single_le_sum (fun _ _ ↦ Nat.zero_le _)
          (Finset.mem_univ i))
      have htail := ih fun y hy ↦ h y (List.mem_cons_of_mem _ hy)
      simp only [List.countP_cons, Finset.sum_add_distrib, List.length_cons]
      omega

end SysProg.Lib
