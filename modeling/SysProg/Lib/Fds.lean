import Mathlib.Logic.Function.Basic

/-!
# Descriptor tables

A process refers to its open files by small numbers.  A table is the list of what is behind the
numbers; what is opened next gets the lowest one that is free.

* `ref` is what a descriptor refers to; each operation is an update of it.
* `attach` opens a file, makes a given descriptor refer to it, and closes the new one: nothing else
  changes if that descriptor was open (`ref_attach`).
* `pipe` opens the two ends of a pipe, and `keep` moves one of them to a given descriptor and closes
  what is left of the other (`ref_keep_write`, `ref_keep_read`).
-/

universe u

namespace SysProg.Lib

/-- What is behind the descriptors of a process. -/
abbrev Fds (α : Type u) := List (Option α)

namespace Fds

variable {α : Type u} {t : Fds α} {fd std : Nat} {x y : α}

/-- What a descriptor refers to, if it is open. -/
def ref (t : Fds α) (fd : Nat) : Option α := t[fd]?.join

/-- The lowest descriptor that is free. -/
def lowest (t : Fds α) : Nat := t.findIdx Option.isNone

/-- The descriptor refers to `x`, or is closed. -/
def assign (t : Fds α) (fd : Nat) (x : Option α) : Fds α :=
  if fd < t.length then t.set fd x else t ++ List.replicate (fd - t.length) none ++ [x]

/-- `dup2(fd, std)`, when `fd` is open. -/
def dup2 (t : Fds α) (fd std : Nat) : Fds α := t.assign std (t.ref fd)

/-- `close(fd)` -/
def close (t : Fds α) (fd : Nat) : Fds α := t.assign fd none

theorem ref_assign (t : Fds α) (fd : Nat) (x : Option α) :
    (t.assign fd x).ref = Function.update t.ref fd x := by
  funext i
  rw [assign]
  split
  · next hlt =>
    by_cases hi : i = fd
    · subst hi
      rw [Function.update_self, ref, List.getElem?_set_self hlt]
      rfl
    · rw [Function.update_of_ne hi, ref, List.getElem?_set_ne (Ne.symm hi)]
      rfl
  · next hge =>
    have hlen : (t ++ List.replicate (fd - t.length) none).length = fd := by
      rw [List.length_append, List.length_replicate]
      omega
    rcases Nat.lt_trichotomy i fd with hlt | rfl | hgt
    · rw [Function.update_of_ne (Nat.ne_of_lt hlt), ref, ref,
        List.getElem?_append_left (hlen.symm ▸ hlt)]
      by_cases hi : i < t.length
      · rw [List.getElem?_append_left hi]
      · rw [List.getElem?_append_right (Nat.le_of_not_lt hi), List.getElem?_replicate,
          List.getElem?_eq_none (Nat.le_of_not_lt hi)]
        split <;> rfl
    · rw [Function.update_self, ref, List.getElem?_append_right (Nat.le_of_eq hlen), hlen,
        Nat.sub_self]
      rfl
    · rw [Function.update_of_ne (Nat.ne_of_gt hgt), ref, ref,
        List.getElem?_eq_none (by rw [List.length_append, hlen, List.length_singleton]; exact hgt),
        List.getElem?_eq_none (by omega)]

/-- The lowest free descriptor is free. -/
theorem ref_lowest (t : Fds α) : t.ref t.lowest = none := by
  rw [ref]
  by_cases hlt : t.lowest < t.length
  · have hnone := List.findIdx_getElem (w := hlt)
    rw [List.getElem?_eq_getElem hlt]
    exact Option.isNone_iff_eq_none.mp hnone
  · rw [List.getElem?_eq_none (Nat.le_of_not_lt hlt)]
    rfl

theorem ne_lowest (h : t.ref fd ≠ none) : fd ≠ t.lowest := by
  rintro rfl
  exact h t.ref_lowest

/-! ## Files -/

/-- A file is opened, `std` is made to refer to it, and the new descriptor is closed. -/
def attach (t : Fds α) (x : α) (std : Nat) : Fds α :=
  ((t.assign t.lowest (some x)).dup2 t.lowest std).close t.lowest

/-- **Only `std` changes**, if it was open before. -/
theorem ref_attach (h : t.ref std ≠ none) (x : α) :
    (t.attach x std).ref = Function.update t.ref std (some x) := by
  have hne := ne_lowest h
  rw [attach, close, dup2, ref_assign, ref_assign, ref_assign, Function.update_self,
    Function.update_comm hne, Function.update_idem, ← t.ref_lowest, Function.update_eq_self]

/-! ## Pipes -/

/-- The two ends of a pipe, and the table with them. -/
structure Pipe (α : Type u) where
  read : Nat
  write : Nat
  fds : Fds α

/-- `pipe`, with what is to be behind the two ends. -/
def pipe (t : Fds α) (x y : α) : Pipe α :=
  let read := t.lowest
  let t := t.assign read (some x)
  ⟨read, t.lowest, t.assign t.lowest (some y)⟩

/-- One end of a pipe is closed, `std` is made to refer to the other, which is then closed. -/
def keep (t : Fds α) (other own std : Nat) : Fds α := ((t.close other).dup2 own std).close own

/-- **Only `std` changes** by it, if `std` was open and the two ends were not. -/
theorem ref_keep {ends : Fds α} {other own : Nat} {z : Option α}
    (hends : ends.ref = Function.update (Function.update t.ref other z) own (some x))
    (hother : t.ref other = none) (hown : t.ref own = none) (hne : own ≠ other)
    (hstd : t.ref std ≠ none) :
    (ends.keep other own std).ref = Function.update t.ref std (some x) := by
  have hso : std ≠ own := fun heq ↦ hstd (heq ▸ hown)
  have hclosed : (ends.close other).ref = Function.update t.ref own (some x) := by
    rw [close, ref_assign, hends, Function.update_comm hne.symm, Function.update_idem,
      Function.update_eq_self_iff, Function.update_of_ne hne.symm, hother]
  rw [keep, close, dup2, ref_assign, ref_assign, hclosed, Function.update_self,
    Function.update_comm hso, Function.update_idem, ← hown, Function.update_eq_self]

/-- The two ends are new, and different. -/
theorem ref_pipe (t : Fds α) (x y : α) :
    (t.pipe x y).fds.ref = Function.update (Function.update t.ref (t.pipe x y).read (some x))
        (t.pipe x y).write (some y) ∧
      t.ref (t.pipe x y).read = none ∧ t.ref (t.pipe x y).write = none ∧
      (t.pipe x y).read ≠ (t.pipe x y).write := by
  have hwrite : (t.assign t.lowest (some x)).ref (t.assign t.lowest (some x)).lowest = none :=
    ref_lowest _
  have hne : t.lowest ≠ (t.assign t.lowest (some x)).lowest := by
    intro heq
    rw [← heq, ref_assign, Function.update_self] at hwrite
    cases hwrite
  rw [ref_assign, Function.update_of_ne hne.symm] at hwrite
  refine ⟨?_, t.ref_lowest, hwrite, hne⟩
  rw [pipe, ref_assign, ref_assign]

/-- Who keeps the write end. -/
theorem ref_keep_write (h : t.ref std ≠ none) (x y : α) :
    ((t.pipe x y).fds.keep (t.pipe x y).read (t.pipe x y).write std).ref =
      Function.update t.ref std (some y) := by
  obtain ⟨hends, hread, hwrite, hne⟩ := t.ref_pipe x y
  exact ref_keep hends hread hwrite hne.symm h

/-- Who keeps the read end. -/
theorem ref_keep_read (h : t.ref std ≠ none) (x y : α) :
    ((t.pipe x y).fds.keep (t.pipe x y).write (t.pipe x y).read std).ref =
      Function.update t.ref std (some x) := by
  obtain ⟨hends, hread, hwrite, hne⟩ := t.ref_pipe x y
  exact ref_keep (hends.trans (Function.update_comm hne _ _ _)) hwrite hread hne h

end Fds

end SysProg.Lib
