import SysProg.Lib.Memory

/-!
# Comparing strings in memory

`strcmp` is given two addresses, and no sizes.  It reads the bytes from there on, until they are
different or both NUL.

* `strcmpFrom` is its sign, and the number of bytes that it reads of each string.  The sign is
  that of the strings (`strcmpFrom_fst`).
* `strcmpFrom_snd_le`: it reads no more than one of the strings and its NUL.
* `strcmpFrom_congr`: what it does not read makes no difference.
-/

namespace SysProg.Lib

/-- `strcmp`, on the bytes from two addresses on; where the memory ends is taken for a NUL. -/
def strcmpFrom : List UInt8 → List UInt8 → Ordering × Nat
  | [], [] => (.eq, 1)
  | x :: _, [] => (compare x 0, 1)
  | [], y :: _ => (compare 0 y, 1)
  | x :: a, y :: b =>
      if x = y ∧ x ≠ 0 then ((strcmpFrom a b).1, (strcmpFrom a b).2 + 1) else (compare x y, 1)

variable {a a' b b' : List UInt8} {x y : UInt8} {n : Nat}

theorem compare_zero_of_ne (hx : x ≠ 0) : compare x 0 = .gt ∧ compare 0 x = .lt := by
  have hlt : 0 < x := UInt8.pos_iff_ne_zero.mpr hx
  exact ⟨Std.compare_eq_gt.mpr hlt, Std.compare_eq_lt.mpr hlt⟩

theorem cstring_cons_of_ne (hx : x ≠ 0) (a : List UInt8) : cstring (x :: a) = x :: cstring a :=
  List.takeWhile_cons_of_pos (by simpa using hx)

theorem cstring_cons_zero (a : List UInt8) : cstring (0 :: a) = [] :=
  List.takeWhile_cons_of_neg (by simp)

/-- **The sign** is that of the strings. -/
theorem strcmpFrom_fst (a b : List UInt8) :
    (strcmpFrom a b).1 = compare (cstring a) (cstring b) := by
  induction a, b using strcmpFrom.induct with
  | case1 => rfl
  | case2 x a =>
      by_cases hx : x = 0
      · subst hx
        rfl
      · rw [cstring_cons_of_ne hx, strcmpFrom, (compare_zero_of_ne hx).1]
        rfl
  | case3 y b =>
      by_cases hy : y = 0
      · subst hy
        rfl
      · rw [cstring_cons_of_ne hy, strcmpFrom, (compare_zero_of_ne hy).2]
        rfl
  | case4 x a y b h ih =>
      obtain ⟨rfl, hx⟩ := h
      rw [strcmpFrom, if_pos ⟨rfl, hx⟩, cstring_cons_of_ne hx, cstring_cons_of_ne hx,
        List.compare_cons_cons, Std.compare_self]
      exact ih
  | case5 x a y b h =>
      rw [strcmpFrom, if_neg h]
      by_cases hx : x = 0
      · subst hx
        rw [cstring_cons_zero]
        by_cases hy : y = 0
        · subst hy
          rw [cstring_cons_zero]
          rfl
        · rw [cstring_cons_of_ne hy, (compare_zero_of_ne hy).2]
          rfl
      · rw [cstring_cons_of_ne hx]
        by_cases hy : y = 0
        · subst hy
          rw [cstring_cons_zero, (compare_zero_of_ne hx).1]
          rfl
        · have hne : compare x y ≠ .eq := fun heq ↦ h ⟨Std.compare_eq_iff_eq.mp heq, hx⟩
          rw [cstring_cons_of_ne hy, List.compare_cons_cons]
          cases hcompare : compare x y with
          | eq => exact absurd hcompare hne
          | lt | gt => rfl

/-- **The second string and its NUL** are all that is read. -/
theorem strcmpFrom_snd_le (a b : List UInt8) : (strcmpFrom a b).2 ≤ (cstring b).length + 1 := by
  induction a, b using strcmpFrom.induct with
  | case1 | case2 x a | case3 y b => exact Nat.le_add_left 1 _
  | case4 x a y b h ih =>
      obtain ⟨rfl, hx⟩ := h
      rw [strcmpFrom, if_pos ⟨rfl, hx⟩, cstring_cons_of_ne hx, List.length_cons]
      exact Nat.succ_le_succ ih
  | case5 x a y b h =>
      rw [strcmpFrom, if_neg h]
      exact Nat.le_add_left 1 _

theorem take_succ_eq_take_succ (h : a'.take (n + 1) = a.take (n + 1)) :
    (a = [] ∧ a' = []) ∨ ∃ x s s', a = x :: s ∧ a' = x :: s' ∧ s'.take n = s.take n := by
  cases a with
  | nil => exact .inl ⟨rfl, by simpa using h⟩
  | cons x s =>
      cases a' with
      | nil => simp at h
      | cons x' s' =>
          rw [List.take_succ_cons, List.take_succ_cons, List.cons_eq_cons] at h
          obtain ⟨rfl, hs⟩ := h
          exact .inr ⟨x', s, s', rfl, rfl, hs⟩

theorem strcmpFrom_snd_pos (a b : List UInt8) : 0 < (strcmpFrom a b).2 := by
  cases a with
  | nil => cases b <;> exact Nat.one_pos
  | cons x a =>
      cases b with
      | nil => exact Nat.one_pos
      | cons y b =>
          rw [strcmpFrom]
          split <;> exact Nat.succ_pos _

/-- **What is not read** makes no difference. -/
theorem strcmpFrom_congr (hn : (strcmpFrom a b).2 ≤ n) (ha : a'.take n = a.take n)
    (hb : b'.take n = b.take n) : strcmpFrom a' b' = strcmpFrom a b := by
  induction n generalizing a a' b b' with
  | zero => exact absurd (strcmpFrom_snd_pos a b) (Nat.not_lt.mpr hn)
  | succ n ih =>
      rcases take_succ_eq_take_succ ha with ⟨rfl, rfl⟩ | ⟨x, s, s', rfl, rfl, hs⟩
      · rcases take_succ_eq_take_succ hb with ⟨rfl, rfl⟩ | ⟨y, t, t', rfl, rfl, -⟩ <;> rfl
      rcases take_succ_eq_take_succ hb with ⟨rfl, rfl⟩ | ⟨y, t, t', rfl, rfl, ht⟩
      · rfl
      rw [strcmpFrom] at hn ⊢
      rw [strcmpFrom]
      split
      · next h =>
          rw [if_pos h] at hn
          rw [ih (Nat.le_of_succ_le_succ hn) hs ht]
      · rfl

end SysProg.Lib
