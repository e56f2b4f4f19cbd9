import SysProg.Lib.Lts
import SysProg.Lib.Memory

/-!
# Upper case over two pipes

The parent of `44_1.c` reads a chunk from its standard input, writes it to the first pipe,
reads once from the second pipe, and writes what it got to its standard output.  The child
converts what it reads from the first pipe as a string, and writes the string to the
second.

Parent and child are one transition system.  A `read` returns at most `BUFSIZ` bytes of
what is there, and nothing only at the end of the input.  A `write` to a pipe may take
several steps, between which it waits for room, or the other process goes on.  All calls
succeed; what the child writes after the parent has ended is read by nobody.  The child
clears its buffer before it reads; what comes behind the buffer is whatever is in memory
there when the child converts.
-/

namespace SysProg.PipeFilter

open SysProg.Lib

/-- `BUFSIZ`, as `stdio.h` has it -/
def BUFSIZ : Nat := 8192

/-- `toupper` in the C locale -/
def toupper (b : UInt8) : UInt8 := if 97 ≤ b ∧ b ≤ 122 then b - 32 else b

/-- Where the parent is. -/
inductive ParentPc where
  | read
  | /-- `rest` is to be written to the first pipe. -/ write (rest : List UInt8)
  | readBack
  | output (piece : List UInt8)
  | done
deriving DecidableEq

/-- Where the child is. -/
inductive ChildPc where
  | read
  | /-- `piece` is in the buffer. -/ convert (piece : List UInt8)
  | /-- `rest` is to be written to the second pipe. -/ write (rest : List UInt8)
  | done
deriving DecidableEq

structure State where
  stdin : List UInt8
  parent : ParentPc
  pipe1 : List UInt8
  child : ChildPc
  pipe2 : List UInt8
  stdout : List UInt8
deriving DecidableEq

/-- What the two processes do; `n` is what the call returns. -/
inductive Op where
  | /-- The parent reads its standard input. -/ read (n : Nat)
  | write (n : Nat)
  | /-- It reads the second pipe. -/ readBack (n : Nat)
  | output
  | childRead (n : Nat)
  | /-- `behind` is in memory behind the buffer of the child. -/ convert (behind : List UInt8)
  | childWrite (n : Nat)
deriving DecidableEq

/-- What the child makes of a piece that it has read into its cleared buffer. -/
def upper (piece behind : List UInt8) : List UInt8 :=
  (cstring (piece ++ List.replicate (BUFSIZ - piece.length) 0 ++ behind)).map toupper

/-- `read` may return the next `n` bytes. -/
def CanRead (src : List UInt8) (n : Nat) : Prop := n ≤ BUFSIZ ∧ n ≤ src.length

/-- `write` may write the next `n` bytes; there may be none to write. -/
def CanWrite (rest : List UInt8) (n : Nat) : Prop := n ≤ rest.length ∧ (n = 0 → rest = [])

instance (src : List UInt8) (n : Nat) : Decidable (CanRead src n) :=
  inferInstanceAs (Decidable (_ ∧ _))

instance (rest : List UInt8) (n : Nat) : Decidable (CanWrite rest n) :=
  inferInstanceAs (Decidable (_ ∧ (_ → _)))

/-- One step of the parent or of the child. -/
def next (s : State) : Op → Option State
  | .read n =>
      if s.parent = .read ∧ CanRead s.stdin n ∧ (n = 0 → s.stdin = []) then
        some { s with
          stdin := s.stdin.drop n,
          parent := if n = 0 then .done else .write (s.stdin.take n) }
      else none
  | .write n =>
      match s.parent with
      | .write rest =>
          if CanWrite rest n then
            some { s with
              pipe1 := s.pipe1 ++ rest.take n,
              parent := if rest.drop n = [] then .readBack else .write (rest.drop n) }
          else none
      | _ => none
  | .readBack n =>
      if s.parent = .readBack ∧ CanRead s.pipe2 n ∧ 0 < n then
        some { s with pipe2 := s.pipe2.drop n, parent := .output (s.pipe2.take n) }
      else none
  | .output =>
      match s.parent with
      | .output piece => some { s with stdout := s.stdout ++ piece, parent := .read }
      | _ => none
  | .childRead n =>
      if s.child = .read ∧ CanRead s.pipe1 n ∧ (n = 0 → s.pipe1 = [] ∧ s.parent = .done) then
        some { s with
          pipe1 := s.pipe1.drop n,
          child := if n = 0 then .done else .convert (s.pipe1.take n) }
      else none
  | .convert behind =>
      match s.child with
      | .convert piece => some { s with child := .write (upper piece behind) }
      | _ => none
  | .childWrite n =>
      match s.child with
      | .write rest =>
          if CanWrite rest n then
            some { s with
              pipe2 := s.pipe2 ++ rest.take n,
              child := if rest.drop n = [] then .read else .write (rest.drop n) }
          else none
      | _ => none

/-- Nothing has been read of `input`. -/
def start (input : List UInt8) : State := ⟨input, .read, [], .read, [], []⟩

/-- The two processes, on the standard input `input`. -/
def filter (input : List UInt8) : Lts State Op := Lts.ofNext (· = start input) next

theorem init_start (input : List UInt8) : (filter input).init (start input) := rfl

/-- The rule of each step. -/
inductive Step (s : State) : Op → State → Prop
  | eof (hparent : s.parent = .read) (hstdin : s.stdin = []) :
      Step s (.read 0) { s with parent := .done }
  | read {n : Nat} (hparent : s.parent = .read) (hn : n ≠ 0) (hread : CanRead s.stdin n) :
      Step s (.read n) { s with stdin := s.stdin.drop n, parent := .write (s.stdin.take n) }
  | write {rest : List UInt8} {n : Nat} (hparent : s.parent = .write rest)
      (hwrite : CanWrite rest n) :
      Step s (.write n)
        { s with
          pipe1 := s.pipe1 ++ rest.take n,
          parent := if rest.drop n = [] then .readBack else .write (rest.drop n) }
  | readBack {n : Nat} (hparent : s.parent = .readBack) (hread : CanRead s.pipe2 n)
      (hn : 0 < n) :
      Step s (.readBack n)
        { s with pipe2 := s.pipe2.drop n, parent := .output (s.pipe2.take n) }
  | output {piece : List UInt8} (hparent : s.parent = .output piece) :
      Step s .output { s with stdout := s.stdout ++ piece, parent := .read }
  | childEof (hchild : s.child = .read) (hpipe : s.pipe1 = []) (hparent : s.parent = .done) :
      Step s (.childRead 0) { s with child := .done }
  | childRead {n : Nat} (hchild : s.child = .read) (hn : n ≠ 0) (hread : CanRead s.pipe1 n) :
      Step s (.childRead n)
        { s with pipe1 := s.pipe1.drop n, child := .convert (s.pipe1.take n) }
  | convert {piece : List UInt8} (hchild : s.child = .convert piece) (behind : List UInt8) :
      Step s (.convert behind) { s with child := .write (upper piece behind) }
  | childWrite {rest : List UInt8} {n : Nat} (hchild : s.child = .write rest)
      (hwrite : CanWrite rest n) :
      Step s (.childWrite n)
        { s with
          pipe2 := s.pipe2 ++ rest.take n,
          child := if rest.drop n = [] then .read else .write (rest.drop n) }

variable {input : List UInt8} {s t : State} {a : Op}

theorem Step.of_step (h : (filter input).step s a t) : Step s a t := by
  have h : next s a = some t := h
  cases a with
  | read n =>
      obtain ⟨⟨hparent, hread, hend⟩, h⟩ := Option.ite_none_right_eq_some.mp h
      cases h
      by_cases hn : n = 0
      · subst hn
        exact .eof hparent (hend rfl)
      · rw [if_neg hn]
        exact .read hparent hn hread
  | write n =>
      rw [next] at h
      split at h
      · next rest hparent =>
          obtain ⟨hwrite, h⟩ := Option.ite_none_right_eq_some.mp h
          cases h
          exact .write hparent hwrite
      · cases h
  | readBack n =>
      obtain ⟨⟨hparent, hread, hn⟩, h⟩ := Option.ite_none_right_eq_some.mp h
      cases h
      exact .readBack hparent hread hn
  | output =>
      rw [next] at h
      split at h
      · next piece hparent =>
          cases h
          exact .output hparent
      · cases h
  | childRead n =>
      obtain ⟨⟨hchild, hread, hend⟩, h⟩ := Option.ite_none_right_eq_some.mp h
      cases h
      by_cases hn : n = 0
      · subst hn
        exact .childEof hchild (hend rfl).1 (hend rfl).2
      · rw [if_neg hn]
        exact .childRead hchild hn hread
  | convert behind =>
      rw [next] at h
      split at h
      · next piece hchild =>
          cases h
          exact .convert hchild behind
      · cases h
  | childWrite n =>
      rw [next] at h
      split at h
      · next rest hchild =>
          obtain ⟨hwrite, h⟩ := Option.ite_none_right_eq_some.mp h
          cases h
          exact .childWrite hchild hwrite
      · cases h

/-! ## What the child makes of a piece -/

variable {piece behind : List UInt8}

theorem toupper_ne_zero {b : UInt8} (h : b ≠ 0) : toupper b ≠ 0 := by
  unfold toupper
  split
  · next hlower =>
      intro hzero
      obtain rfl : b = 32 := by rw [← UInt8.sub_add_cancel b 32, hzero]; rfl
      exact absurd hlower.1 (by decide)
  · exact h

theorem zero_notMem_map_toupper (h : 0 ∉ piece) : 0 ∉ piece.map toupper := by
  rintro hzero
  obtain ⟨b, hb, hup⟩ := List.mem_map.mp hzero
  exact toupper_ne_zero (fun heq ↦ h (heq ▸ hb)) hup

/-- A string has no NUL. -/
theorem zero_notMem_upper (piece behind : List UInt8) : 0 ∉ upper piece behind :=
  zero_notMem_map_toupper (zero_notMem_cstring _)

/-- A piece without NULs, and what is behind it if it fills the buffer. -/
theorem upper_eq (h : 0 ∉ piece) (hle : piece.length ≤ BUFSIZ) : upper piece behind =
    (piece ++ if piece.length = BUFSIZ then cstring behind else []).map toupper := by
  rw [upper, List.append_assoc, cstring_append h]
  congr 2
  split
  · next hfull => rw [hfull, Nat.sub_self, List.replicate_zero, List.nil_append]
  · next hshort =>
      obtain ⟨k, hk⟩ := Nat.exists_eq_succ_of_ne_zero
        (Nat.sub_ne_zero_of_lt (Nat.lt_of_le_of_ne hle hshort))
      rw [hk, List.replicate_succ]
      rfl

end SysProg.PipeFilter
