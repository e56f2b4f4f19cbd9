import SysProg.Lib.Memory

/-!
# Files with an offset

A file that has been opened has an offset, where `write` begins, and which `lseek` moves.  It may
be behind the end of the file: the bytes between are zero when something is written there.

`write_of_le` is about writing at the end or behind it, and `foldl_write_seek` about pieces that
are written with gaps between them.
-/

namespace SysProg.Lib

/-- The bytes of a file, and where it is written next. -/
structure OpenFile where
  bytes : List UInt8
  offset : Nat
deriving DecidableEq

namespace OpenFile

variable {f : OpenFile} {s : List UInt8} {pieces : List (List UInt8)}

/-- `lseek(fd, n, SEEK_CUR)` -/
def seek (f : OpenFile) (n : Nat) : OpenFile := { f with offset := f.offset + n }

/-- `write`; nothing is done for no bytes. -/
def write (f : OpenFile) (s : List UInt8) : OpenFile :=
  if s = [] then f
  else ⟨overwrite (f.bytes ++ List.replicate (f.offset + s.length - f.bytes.length) 0) f.offset s,
    f.offset + s.length⟩

@[simp] theorem write_nil (f : OpenFile) : f.write [] = f := rfl

/-- **At the end of a file, or behind it**, the gap is filled with zeros. -/
theorem write_of_le (h : f.bytes.length ≤ f.offset) (hs : s ≠ []) :
    f.write s = ⟨f.bytes ++ List.replicate (f.offset - f.bytes.length) 0 ++ s,
      f.offset + s.length⟩ := by
  have hroom : List.replicate (f.offset + s.length - f.bytes.length) (0 : UInt8) =
      List.replicate (f.offset - f.bytes.length) 0 ++ List.replicate s.length 0 := by
    rw [List.replicate_append_replicate, Nat.sub_add_comm h]
  have hoffset : (f.bytes ++ List.replicate (f.offset - f.bytes.length) (0 : UInt8)).length =
      f.offset := by
    rw [List.length_append, List.length_replicate, Nat.add_sub_cancel' h]
  have hwrite := overwrite_append (b := List.replicate s.length 0) (c := []) hoffset
    List.length_replicate.symm
  rw [List.append_nil, List.append_nil] at hwrite
  rw [write, if_neg hs, hroom, ← List.append_assoc, hwrite]

/-- A piece at the end of a file, and a gap behind it. -/
theorem seek_write (h : f.bytes.length ≤ f.offset) (hs : s ≠ []) (gap : Nat) :
    ((f.write s).seek gap).bytes.length ≤ ((f.write s).seek gap).offset ∧
      ((f.write s).seek gap).offset - ((f.write s).seek gap).bytes.length = gap := by
  have hlength : (f.write s).bytes.length = f.offset + s.length := by
    rw [write_of_le h hs, List.length_append, List.length_append, List.length_replicate,
      Nat.add_sub_cancel' h]
  have hoffset : (f.write s).offset = f.offset + s.length := by rw [write_of_le h hs]
  rw [seek, hlength, hoffset]
  exact ⟨Nat.le_add_right _ _, Nat.add_sub_cancel_left _ _⟩

/-- **Pieces with gaps between them**; there is none behind the last. -/
theorem foldl_write_seek (hne : ∀ s ∈ pieces, s ≠ []) (h : f.bytes.length ≤ f.offset)
    (hpieces : pieces ≠ []) (gap : Nat) :
    (pieces.foldl (fun f s ↦ (f.write s).seek gap) f).bytes =
      f.bytes ++ List.replicate (f.offset - f.bytes.length) 0 ++
        (List.replicate gap 0).intercalate pieces := by
  induction pieces generalizing f with
  | nil => exact absurd rfl hpieces
  | cons s pieces ih =>
      have hs := hne s List.mem_cons_self
      have hbytes : ((f.write s).seek gap).bytes =
          f.bytes ++ List.replicate (f.offset - f.bytes.length) 0 ++ s := by
        rw [seek, write_of_le h hs]
      rw [List.foldl_cons]
      cases pieces with
      | nil => rw [List.foldl_nil, hbytes, List.intercalate_singleton]
      | cons s' pieces =>
          obtain ⟨hle, hgap⟩ := seek_write h hs gap
          rw [ih (fun t ht ↦ hne t (List.mem_cons_of_mem s ht)) hle (List.cons_ne_nil _ _), hgap,
            hbytes, List.intercalate_cons_cons]
          simp only [List.append_assoc]

end OpenFile

end SysProg.Lib
