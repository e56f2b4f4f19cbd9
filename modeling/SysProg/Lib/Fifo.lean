import Mathlib.Data.List.Basic

/-!
# Named pipes

A FIFO counts the processes that have it open for reading and for writing, and a
process blocked in `open` counts already.  `opened` counts the opens for writing
over the life of the FIFO: a blocked reader goes on when a writer is there, or when
one has come and gone in the meantime.

The data are whole messages, as reads and writes of at most `PIPE_BUF` bytes of one
size never split them.  An operation that would block has no result; the functions
that can fail return `none` for their failure.
-/

universe u

namespace SysProg.Lib

/-- A FIFO that carries messages of type `α`. -/
structure Fifo (α : Type u) where
  /-- There is a directory entry. -/
  linked : Bool
  readers : Nat
  writers : Nat
  opened : Nat
  data : List α
deriving DecidableEq, Repr

namespace Fifo

variable {α : Type u}

/-- `mkfifo`, which leaves a FIFO that exists alone (`EEXIST`). -/
def mkfifo (f : Fifo α) : Fifo α := { f with linked := true }

/-- `open(O_RDONLY)` begins: the process is counted, and notes what it has seen. -/
def beginRead (f : Fifo α) : Fifo α := { f with readers := f.readers + 1 }

/-- `open(O_RDONLY)` of a process that has seen `seen` opens for writing returns. -/
def CanRead (f : Fifo α) (seen : Nat) : Prop := 0 < f.writers ∨ f.opened ≠ seen

instance (f : Fifo α) (seen : Nat) : Decidable (f.CanRead seen) :=
  inferInstanceAs (Decidable (_ ∨ _))

/-- `open(O_WRONLY | O_NONBLOCK)`: `ENOENT` without an entry, `ENXIO` without a reader. -/
def openNonblock (f : Fifo α) : Option (Fifo α) :=
  if f.linked ∧ 0 < f.readers then
    some { f with writers := f.writers + 1, opened := f.opened + 1 }
  else none

/-- `write` of one message, which fails with `EPIPE` when there is no reader. -/
def write (f : Fifo α) (x : α) : Option (Fifo α) :=
  if 0 < f.readers then some { f with data := f.data ++ [x] } else none

/-- The writer closes its descriptor. -/
def closeWrite (f : Fifo α) : Fifo α := { f with writers := f.writers - 1 }

/-- The reader closes its descriptor and removes the entry. -/
def closeRead (f : Fifo α) : Fifo α := { f with readers := f.readers - 1, linked := false }

theorem openNonblock_eq_some {f g : Fifo α} : f.openNonblock = some g ↔
    (f.linked = true ∧ 0 < f.readers) ∧
      { f with writers := f.writers + 1, opened := f.opened + 1 } = g := by
  rw [openNonblock, Option.ite_none_right_eq_some, Option.some.injEq]

theorem openNonblock_eq_none {f : Fifo α} :
    f.openNonblock = none ↔ ¬ (f.linked = true ∧ 0 < f.readers) := by
  simp [openNonblock]

theorem write_eq_some {f g : Fifo α} {x : α} :
    f.write x = some g ↔ 0 < f.readers ∧ { f with data := f.data ++ [x] } = g := by
  rw [write, Option.ite_none_right_eq_some, Option.some.injEq]

theorem write_eq_none {f : Fifo α} {x : α} : f.write x = none ↔ f.readers = 0 := by
  simp [write]

end Fifo

end SysProg.Lib
