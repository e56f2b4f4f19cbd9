import SysProg.Lib.Lines
import SysProg.Lib.Memory

/-!
# A file, string by string

`mycat.c` of `SP_HW5/Part1` reads a file with `fgets` into a buffer of 1024 bytes, and prints what
it has got with `%s`.  So the buffer does not matter, but NULs do.

`mycat_prints`: of each line, cut into pieces of 1023 bytes, what precedes the first NUL of a piece
is printed, and this is the file if and only if there is no NUL in it.
-/

namespace SysProg.Part1

open SysProg.Lib

/-- The size of `line`. -/
def lineSize : Nat := 1024

def newline (c : UInt8) : Bool := c = 10

/-- What `mycat` prints of a file: the loop over `fgets` and `printf`. -/
def mycat (file : List UInt8) : List UInt8 := (reads newline lineSize file).flatMap cstring

/-- What is printed of the lines. -/
theorem mycat_eq (file : List UInt8) :
    mycat file =
      (lines newline file).flatMap fun l ↦ (chunks (lineSize - 1) l).flatMap cstring := by
  rw [mycat, reads_eq (by decide), List.flatMap_assoc]

/-- **What `mycat` prints**: of each piece of a line what precedes its first NUL, which is the whole
file if and only if it has no NUL. -/
theorem mycat_prints (file : List UInt8) :
    mycat file = ((lines newline file).flatMap fun l ↦
      (chunks (lineSize - 1) l).flatMap cstring) ∧
    (mycat file = file ↔ 0 ∉ file) := by
  have h := flatMap_cstring_eq_iff (reads newline lineSize file)
  rw [flatten_reads (by decide)] at h
  exact ⟨mycat_eq file, h⟩

end SysProg.Part1
