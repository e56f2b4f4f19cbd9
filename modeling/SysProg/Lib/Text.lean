import Mathlib.Data.Nat.Digits.Lemmas

/-!
# Texts as programs print them

Literal texts, and the numbers that `printf` writes with `%d`, `%o` and `%x`.
-/

namespace SysProg.Lib

/-- The bytes of a literal text. -/
def ascii (s : String) : List UInt8 := s.toList.map fun c ↦ UInt8.ofNat c.toNat

/-- The byte for a digit below `16`. -/
def digitByte (d : Nat) : UInt8 := if d < 10 then UInt8.ofNat (48 + d) else UInt8.ofNat (87 + d)

/-- A number in base `b`, most significant digit first. -/
def printed (b n : Nat) : List UInt8 :=
  if n = 0 then [48] else (Nat.digits b n).reverse.map digitByte

/-- `%d` -/
def decimal (v : Int) : List UInt8 :=
  if v < 0 then 45 :: printed 10 v.natAbs else printed 10 v.natAbs

theorem printed_ne_nil (b n : Nat) : printed b n ≠ [] := by
  rw [printed]
  split
  · exact List.cons_ne_nil _ _
  · next hn => simpa using Nat.digits_ne_nil_iff_ne_zero.mpr hn

end SysProg.Lib
