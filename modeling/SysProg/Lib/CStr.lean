import Mathlib.Data.List.Basic

/-!
# C strings in fixed-size fields

A `char field[n]` that holds a string is a list of bytes shorter than `n`, none
of them NUL; the terminating NUL is the end of the list.  `strcpy` between two
such fields of the same size is then plain assignment, and cannot run over.

`strcmp` compares bytes as `unsigned char`.  Ending first compares smaller,
because the terminating NUL is smaller than every other byte: this is the
lexicographic order on lists.
-/

namespace SysProg.Lib

/-- The string in a `char` array of `n` bytes, without its terminating NUL. -/
structure CStr (n : Nat) where
  bytes : List UInt8
  zero_notMem : 0 ∉ bytes
  length_lt : bytes.length < n
deriving DecidableEq

variable {n : Nat}

@[ext] theorem CStr.ext {a b : CStr n} (h : a.bytes = b.bytes) : a = b := by
  cases a
  cases b
  cases h
  rfl

/-- The sign of `strcmp(a, b)`. -/
def strcmp (a b : CStr n) : Ordering := compare a.bytes b.bytes

theorem strcmp_eq_iff {a b : CStr n} : strcmp a b = .eq ↔ a = b := by
  rw [strcmp, Std.compare_eq_iff_eq, CStr.ext_iff]

theorem strcmp_lt_trans {a b c : CStr n} (h : strcmp a b = .lt) (h' : strcmp b c = .lt) :
    strcmp a c = .lt := by
  unfold strcmp at *
  exact Std.TransCmp.lt_trans h h'

theorem strcmp_gt_iff_lt {a b : CStr n} : strcmp a b = .gt ↔ strcmp b a = .lt := by
  unfold strcmp
  exact Std.OrientedCmp.gt_iff_lt

end SysProg.Lib
