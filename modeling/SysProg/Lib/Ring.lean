import Mathlib.Data.Int.Cast.Basic
import Mathlib.Data.Nat.ModEq
import Mathlib.Logic.Function.Basic

/-!
# A ring of slots

Numbers are written one after the other, `x` to slot `x % b`.  A slot keeps what was
written to it last: of the first `k` numbers, the last `b` are there (`Recent`), and `v`
is still in its slot if and only if no number `v + b` has been written (`Recent.eq_iff`).
Whatever was in the slots before does not matter.
-/

namespace SysProg.Lib

/-- The last `b` of the numbers below `k` are in their slots. -/
def Recent (b k : Nat) (slot : Nat → Int) : Prop := ∀ x < k, k ≤ x + b → slot (x % b) = x

namespace Recent

variable {b k v : Nat} {slot : Nat → Int}

theorem zero (b : Nat) (slot : Nat → Int) : Recent b 0 slot :=
  fun _ hx ↦ absurd hx (Nat.not_lt_zero _)

/-- Less than one round apart, two numbers are in different slots. -/
theorem mod_ne {x : Nat} (hx : x < k) (hk : k < x + b) : x % b ≠ k % b := by
  intro h
  have hdvd : b ∣ k - x := (Nat.modEq_iff_dvd' hx.le).mp h
  have hle := Nat.le_of_dvd (Nat.sub_pos_of_lt hx) hdvd
  omega

/-- The next number is written. -/
theorem write (h : Recent b k slot) : Recent b (k + 1) (Function.update slot (k % b) k) := by
  intro x hx hk
  rcases Nat.lt_succ_iff_lt_or_eq.mp hx with hx | rfl
  · rw [Function.update_of_ne (mod_ne hx hk)]
    exact h x hx ((Nat.le_succ k).trans hk)
  · exact Function.update_self _ _ _

/-- The number that is in the slot of `v`. -/
theorem exists_last (hb : 0 < b) (hv : v < k) :
    ∃ y, y % b = v % b ∧ y < k ∧ k ≤ y + b := by
  refine ⟨v + b * ((k - 1 - v) / b), Nat.add_mul_mod_self_left _ _ _, ?_, ?_⟩
  · have hle : b * ((k - 1 - v) / b) ≤ k - 1 - v := Nat.mul_div_le _ _
    omega
  · have hlt : k - 1 - v < b * ((k - 1 - v) / b) + b := Nat.lt_mul_div_succ _ hb
    omega

/-- **A number stays in its slot** until the one that is `b` higher is written. -/
theorem eq_iff (h : Recent b k slot) (hb : 0 < b) (hv : v < k) :
    slot (v % b) = v ↔ k ≤ v + b := by
  constructor
  · intro hslot
    obtain ⟨y, hmod, hy, hk⟩ := exists_last hb hv
    have hlast := h y hy hk
    rw [hmod, hslot] at hlast
    rwa [Int.ofNat_inj.mp hlast]
  · exact h v hv

end Recent

end SysProg.Lib
