import SysProg.Lib.Lts
import Mathlib.Data.Int.Order.Basic
import Mathlib.Logic.Function.Basic

/-!
# A counter without a lock

Processes increment a shared counter, each in two steps: it loads the value, and it stores
what `inc` makes of it.  `inc` never adds more than one; at the end of its range it may do
something else.

* `value_le`: the counter is never ahead of the number of stores.
* `value_eq_iff`: it is the number of stores if and only if each of them found the value
  that had been loaded, and added one to it.
-/

universe u

namespace SysProg.Lib

/-- A shared counter, and what the processes have loaded that are about to store. -/
structure Counter (ι : Type u) where
  value : Int
  loaded : ι → Option Int

inductive CounterOp (ι : Type u) where
  | load (p : ι)
  | /-- Process `p`, which had loaded `x`, overwrites `y`. -/ store (p : ι) (x y : Int)

namespace Counter

variable {ι : Type u} [DecidableEq ι] {inc : Int → Int}

/-- The processes that increment a counter. -/
inductive Step (inc : Int → Int) (s : Counter ι) : CounterOp ι → Counter ι → Prop
  | load (p : ι) :
      Step inc s (.load p) { s with loaded := Function.update s.loaded p (some s.value) }
  | store {p : ι} {x : Int} (h : s.loaded p = some x) :
      Step inc s (.store p x s.value) ⟨inc x, Function.update s.loaded p none⟩

def system (ι : Type u) [DecidableEq ι] (inc : Int → Int) : Lts (Counter ι) (CounterOp ι) where
  init s := s.value = 0 ∧ ∀ p, s.loaded p = none
  step := Step inc

omit [DecidableEq ι] in
/-- The operation is a store. -/
def isStore : CounterOp ι → Bool
  | .load _ => false
  | .store _ _ _ => true

/-- A store that finds what had been loaded, and adds one. -/
def Exact (inc : Int → Int) : CounterOp ι → Prop
  | .load _ => True
  | .store _ x y => y = x ∧ inc x = x + 1

/-- Neither the counter nor what has been loaded of it is above `n`. -/
structure Below (n : Int) (s : Counter ι) : Prop where
  value : s.value ≤ n
  loaded : ∀ p x, s.loaded p = some x → x ≤ n

variable {s t : Counter ι} {a : CounterOp ι} {n : Int}

theorem Below.load (h : Below n s) (p : ι) :
    Below n { s with loaded := Function.update s.loaded p (some s.value) } where
  value := h.value
  loaded := by
    rw [Function.forall_update_iff s.loaded fun _ y ↦ ∀ x, y = some x → x ≤ n]
    refine ⟨fun x hx ↦ ?_, fun q _ ↦ h.loaded q⟩
    cases hx
    exact h.value

theorem Below.store {m : Int} (h : Below n s) {p : ι} {x : Int} (hx : inc x ≤ m) (hnm : n ≤ m) :
    Below m ⟨inc x, Function.update s.loaded p none⟩ where
  value := hx
  loaded := by
    rw [Function.forall_update_iff s.loaded fun _ y ↦ ∀ x, y = some x → x ≤ m]
    exact ⟨by simp, fun q _ y hy ↦ Int.le_trans (h.loaded q y hy) hnm⟩

/-- The counter after some operations, all of them exact or not. -/
structure Counted (inc : Int → Int) (tr : List (CounterOp ι)) (s : Counter ι) : Prop where
  below : Below (tr.countP isStore) s
  exact : (∀ a ∈ tr, Exact inc a) → s.value = tr.countP isStore
  behind : (¬ ∀ a ∈ tr, Exact inc a) → Below (tr.countP isStore - 1) s

variable {tr : List (CounterOp ι)}

theorem Counted.step (hinc : ∀ x, inc x ≤ x + 1) (h : Counted inc tr s) (hs : Step inc s a t) :
    Counted inc (tr ++ [a]) t := by
  cases hs with
  | load p =>
      have hcount : (tr ++ [CounterOp.load p]).countP isStore = tr.countP isStore := by
        simp [isStore]
      have hexact : (∀ a ∈ tr ++ [.load p], Exact inc a) ↔ ∀ a ∈ tr, Exact inc a := by
        simp [or_imp, forall_and, Exact]
      refine ⟨?_, ?_, ?_⟩
      · rw [hcount]
        exact h.below.load p
      · rw [hcount, hexact]
        exact h.exact
      · rw [hcount, hexact]
        exact fun hnot ↦ (h.behind hnot).load p
  | @store p x hx =>
      have hcount : ((tr ++ [CounterOp.store p x s.value]).countP isStore : Int) =
          tr.countP isStore + 1 := by
        simp [isStore]
      have hexact : (∀ a ∈ tr ++ [.store p x s.value], Exact inc a) ↔
          (∀ a ∈ tr, Exact inc a) ∧ s.value = x ∧ inc x = x + 1 := by
        simp [or_imp, forall_and, Exact]
      have hone := hinc x
      have hle := h.below.loaded p x hx
      refine ⟨?_, ?_, ?_⟩
      · rw [hcount]
        exact h.below.store (by omega) (by omega)
      · rw [hcount, hexact]
        rintro ⟨hall, hvalue, hinc⟩
        have hcounted := h.exact hall
        exact hinc.trans (by omega)
      · rw [hcount, hexact]
        intro hnot
        by_cases hall : ∀ a ∈ tr, Exact inc a
        · -- the first store that is not exact adds nothing to the counter
          have hcounted := h.exact hall
          have hlast : ¬ (s.value = x ∧ inc x = x + 1) := fun hlast ↦ hnot ⟨hall, hlast⟩
          exact h.below.store (by omega) (by omega)
        · have hbehind := h.behind hall
          have hle := hbehind.loaded p x hx
          exact hbehind.store (by omega) (by omega)

theorem counted (hinc : ∀ x, inc x ≤ x + 1) (h : (system ι inc).Run tr s) : Counted inc tr s := by
  refine h.induction (P := Counted inc) (fun s hs ↦ ?_) fun _ _ _ _ _ hcounted hs ↦ ?_
  · obtain ⟨hvalue, hloaded⟩ := hs
    refine ⟨⟨Int.le_of_eq hvalue, fun p x hx ↦ ?_⟩, fun _ ↦ hvalue, fun hnot ↦ ?_⟩
    · rw [hloaded] at hx
      cases hx
    · exact absurd (by simp) hnot
  · exact hcounted.step hinc hs

/-- **The counter is never ahead** of the stores. -/
theorem value_le (hinc : ∀ x, inc x ≤ x + 1) (h : (system ι inc).Run tr s) :
    s.value ≤ tr.countP isStore :=
  (counted hinc h).below.value

/-- **It counts them** if and only if they are all exact. -/
theorem value_eq_iff (hinc : ∀ x, inc x ≤ x + 1) (h : (system ι inc).Run tr s) :
    s.value = tr.countP isStore ↔ ∀ a ∈ tr, Exact inc a := by
  refine ⟨fun hvalue ↦ ?_, (counted hinc h).exact⟩
  by_contra hnot
  have hbehind := ((counted hinc h).behind hnot).value
  omega

/-! ## One increment after the other -/

omit [DecidableEq ι] in
/-- Whose operation it is. -/
def process : CounterOp ι → ι
  | .load p => p
  | .store p _ _ => p

/-- Nobody gets between a load and its store. -/
def Undisturbed (s : Counter ι) (a : CounterOp ι) : Prop :=
  ∀ p x, s.loaded p = some x → process a = p

/-- What has been loaded is still there. -/
def Fresh (s : Counter ι) : Prop := ∀ p x, s.loaded p = some x → s.value = x

theorem Fresh.step (h : Fresh s) (hund : Undisturbed s a) (hs : Step inc s a t) : Fresh t := by
  cases hs with
  | load p =>
      rw [Fresh, Function.forall_update_iff s.loaded fun _ y ↦ ∀ x, y = some x → s.value = x]
      exact ⟨fun x hx ↦ Option.some.inj hx, fun q _ ↦ h q⟩
  | @store p x hx =>
      rw [Fresh, Function.forall_update_iff s.loaded fun _ y ↦ ∀ z, y = some z → inc x = z]
      refine ⟨by simp, fun q hq y hy ↦ ?_⟩
      exact absurd (hund q y hy).symm hq

theorem fresh (h : ((system ι inc).restrict Undisturbed).Run tr s) : Fresh s := by
  refine h.induction (P := fun _ s ↦ Fresh s) (fun s hs p x hx ↦ ?_) fun _ _ _ _ _ hfresh hs ↦ ?_
  · rw [hs.2] at hx
    cases hx
  · exact hfresh.step hs.1 hs.2

/-- **Undisturbed increments** find what they have loaded. -/
theorem found_eq (h : ((system ι inc).restrict Undisturbed).Run tr s) :
    ∀ p x y, .store p x y ∈ tr → y = x := by
  refine h.induction (P := fun tr _ ↦ ∀ p x y, .store p x y ∈ tr → y = x) (by simp) ?_
  intro tr s a t hrun ih hs p x y hmem
  rcases List.mem_append.mp hmem with hmem | hmem
  · exact ih p x y hmem
  · obtain rfl := List.mem_singleton.mp hmem
    cases hs.2 with
    | store hx => exact fresh hrun p x hx

end Counter

end SysProg.Lib
