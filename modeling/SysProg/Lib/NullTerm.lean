import Mathlib.Data.List.Basic

/-!
# Arrays that end with NULL

An array of pointers is a list of slots, where `none` is NULL.  Its entries are those
before the first NULL, and what comes after does not matter to a reader (`Holds`).
-/

universe u

namespace SysProg.Lib

variable {α : Type u} {l l' : List α} {v : List (Option α)} {a : α}

/-- The array of some entries and NULL. -/
def nullTerm (l : List α) : List (Option α) := l.map some ++ [none]

/-- The entries before the first NULL. -/
def entries : List (Option α) → List α
  | some a :: v => a :: entries v
  | _ => []

/-- Store NULL in every slot up to the first that has it. -/
def clear : List (Option α) → List (Option α)
  | some _ :: v => none :: clear v
  | v => v

/-- The array has these entries and then NULL. -/
def Holds (v : List (Option α)) (l : List α) : Prop := ∃ rest, v = l.map some ++ none :: rest

theorem holds_nullTerm (l : List α) : Holds (nullTerm l) l := ⟨[], rfl⟩

theorem Holds.cons (h : Holds v l) (a : α) : Holds (some a :: v) (a :: l) := by
  obtain ⟨rest, rfl⟩ := h
  exact ⟨rest, rfl⟩

theorem holds_nil_none (v : List (Option α)) : Holds (none :: v) [] := ⟨v, rfl⟩

/-- The first slot, if the array has an entry. -/
theorem Holds.exists_cons (h : Holds v (a :: l)) : ∃ v', v = some a :: v' ∧ Holds v' l := by
  obtain ⟨rest, rfl⟩ := h
  exact ⟨_, rfl, rest, rfl⟩

theorem Holds.exists_nil (h : Holds v []) : ∃ v', v = none :: v' := h

theorem Holds.entries_eq (h : Holds v l) : entries v = l := by
  induction l generalizing v with
  | nil =>
      obtain ⟨v', rfl⟩ := h.exists_nil
      rfl
  | cons a l ih =>
      obtain ⟨v', rfl, hv'⟩ := h.exists_cons
      rw [entries, ih hv']

@[simp] theorem entries_nullTerm (l : List α) : entries (nullTerm l) = l :=
  (holds_nullTerm l).entries_eq

/-- Entries without a NULL behind them. -/
theorem entries_map (l : List α) : entries (l.map some) = l := by
  induction l with
  | nil => rfl
  | cons a l ih => exact congrArg (a :: ·) ih

/-- The slots behind some entries. -/
theorem getElem?_map_some_append (l : List α) (v : List (Option α)) (k : Nat) :
    (l.map some ++ v)[l.length + k]? = v[k]? := by
  rw [List.getElem?_append_right (by rw [List.length_map]; exact Nat.le_add_right _ k),
    List.length_map, Nat.add_sub_cancel_left]

theorem nullTerm_append (l l' : List α) : nullTerm (l ++ l') = l.map some ++ nullTerm l' := by
  rw [nullTerm, List.map_append, List.append_assoc, nullTerm]

@[simp] theorem nullTerm_cons (a : α) (l : List α) : nullTerm (a :: l) = some a :: nullTerm l := rfl

/-- Every slot up to the NULL. -/
theorem join_getElem?_nullTerm (l : List α) (i : Nat) : (nullTerm l)[i]?.join = l[i]? := by
  induction l generalizing i with
  | nil => cases i <;> rfl
  | cons a l ih => cases i with
    | zero => rfl
    | succ i => exact ih i

/-- Clearing from an entry on leaves none. -/
theorem holds_clear (a : α) (v : List (Option α)) : Holds (clear (some a :: v)) [] :=
  holds_nil_none _

end SysProg.Lib
