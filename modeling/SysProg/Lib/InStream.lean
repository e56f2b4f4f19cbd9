import SysProg.Lib.Lines

/-!
# Buffered input from an inherited file

A stream of `stdio` reads its file in blocks, and what is asked for is taken out of its buffer.
Processes that have inherited the open file share its offset, but each has a buffer of its own.
Another process can move the offset by reading and by seeking, and it does so when it calls `exit`
with something in its copy of the buffer: that is given back, if the file can be sought.  The stream
goes on from the offset when its own buffer is empty.

* `fgets_rest`: `fgets` is that of `Lines`, on what is in the buffer and behind the offset.
* `left_eq`: which processes leave the stream as it is.
-/

universe u

namespace SysProg.Lib

variable {α : Type u} {eol : α → Bool} {size : Nat → Nat} {n : Nat}

/-- An input stream; `eof` is its end-of-file indicator. -/
structure InStream (α : Type u) where
  file : List α
  /-- Whether `lseek` can move the offset, which it cannot on a pipe or a terminal. -/
  seekable : Bool
  offset : Nat
  buffer : List α
  eof : Bool
deriving DecidableEq

namespace InStream

/-- What the stream would give if nobody else moved the offset. -/
def rest (inp : InStream α) : List α :=
  inp.buffer ++ if inp.eof then [] else inp.file.drop inp.offset

/-! ## Reading -/

/-- Fill an empty buffer with one `read`.  At the offset `o` this gives at most `size o + 1`
elements, and none only at the end of the file, where there are no more reads then. -/
def underflow (size : Nat → Nat) (inp : InStream α) : InStream α :=
  if inp.buffer.isEmpty && !inp.eof then
    let piece := (inp.file.drop inp.offset).take (size inp.offset + 1)
    { inp with offset := inp.offset + piece.length, buffer := piece, eof := piece.isEmpty }
  else inp

/-- At most `k` elements, up to the end of the line. -/
def getLine (eol : α → Bool) (size : Nat → Nat) : Nat → InStream α → List α × InStream α
  | 0, inp => ([], inp)
  | k + 1, inp => match (inp.underflow size).buffer with
      | [] => ([], inp.underflow size)
      | c :: buffer =>
          let inp := { inp.underflow size with buffer }
          if eol c then ([c], inp)
          else (c :: (getLine eol size k inp).1, (getLine eol size k inp).2)

/-- `fgets` with a buffer of `n` elements. -/
def fgets (eol : α → Bool) (size : Nat → Nat) (n : Nat) (inp : InStream α) :
    Option (List α × InStream α) :=
  match (inp.underflow size).buffer with
  | [] => none
  | _ :: _ => some (inp.getLine eol size (n - 1))

variable {inp inp' : InStream α} {l : List α}

@[simp] theorem rest_underflow (size : Nat → Nat) (inp : InStream α) :
    (inp.underflow size).rest = inp.rest := by
  obtain ⟨file, seekable, offset, buffer, eof⟩ := inp
  cases buffer with
  | cons c buffer => rfl
  | nil =>
      cases eof with
      | true => rfl
      | false =>
          have hdrop : (file.drop (offset + ((file.drop offset).take (size offset + 1)).length)) =
              (file.drop offset).drop (size offset + 1) := by
            rw [List.length_take, ← List.drop_drop]
            rcases Nat.le_total (size offset + 1) (file.drop offset).length with h | h
            · rw [Nat.min_eq_left h]
            · rw [Nat.min_eq_right h, List.drop_of_length_le h, List.drop_length]
          show (file.drop offset).take (size offset + 1) ++
            (if ((file.drop offset).take (size offset + 1)).isEmpty then []
              else file.drop (offset + ((file.drop offset).take (size offset + 1)).length)) =
            [] ++ file.drop offset
          rw [hdrop, List.nil_append]
          cases hfile : file.drop offset with
          | nil => rfl
          | cons c rest => exact List.take_append_drop (size offset + 1) (c :: rest)

theorem buffer_underflow_eq_nil_iff (size : Nat → Nat) (inp : InStream α) :
    (inp.underflow size).buffer = [] ↔ inp.rest = [] := by
  obtain ⟨file, seekable, offset, buffer, eof⟩ := inp
  cases buffer with
  | cons c buffer => exact iff_of_false (List.cons_ne_nil _ _) (List.cons_ne_nil _ _)
  | nil =>
      cases eof with
      | true => exact iff_of_true rfl rfl
      | false =>
          show (file.drop offset).take (size offset + 1) = [] ↔ [] ++ file.drop offset = []
          rw [List.take_eq_nil_iff, List.nil_append, or_iff_right (Nat.succ_ne_zero _)]

@[simp] theorem seekable_underflow (size : Nat → Nat) (inp : InStream α) :
    (inp.underflow size).seekable = inp.seekable := by
  unfold underflow
  split <;> rfl

/-- What is read is the beginning of the rest. -/
theorem getLine_rest (eol : α → Bool) (size : Nat → Nat) (k : Nat) (inp : InStream α) :
    (inp.getLine eol size k).1 = (Lib.getLine eol k inp.rest).1 ∧
      (inp.getLine eol size k).2.rest = (Lib.getLine eol k inp.rest).2 ∧
      (inp.getLine eol size k).2.seekable = inp.seekable := by
  induction k generalizing inp with
  | zero => exact ⟨rfl, rfl, rfl⟩
  | succ k ih =>
      have hrest := rest_underflow size inp
      rw [getLine]
      cases hbuffer : (inp.underflow size).buffer with
      | nil =>
          have hnil := (buffer_underflow_eq_nil_iff size inp).mp hbuffer
          rw [hnil]
          exact ⟨rfl, hrest.trans hnil, seekable_underflow size inp⟩
      | cons c buffer =>
          have hcons : inp.rest = c :: rest { inp.underflow size with buffer } := by
            rw [← hrest, rest, hbuffer]
            rfl
          rw [hcons, Lib.getLine]
          dsimp only
          split
          · exact ⟨rfl, rfl, seekable_underflow size inp⟩
          · obtain ⟨hfst, hsnd, hseekable⟩ := ih { inp.underflow size with buffer }
            exact ⟨congrArg (c :: ·) hfst, hsnd, hseekable.trans (seekable_underflow size inp)⟩

/-- **`fgets` reads the rest of the stream.** -/
theorem fgets_rest (eol : α → Bool) (size : Nat → Nat) (n : Nat) (inp : InStream α) :
    (inp.fgets eol size n).map (fun p ↦ (p.1, p.2.rest)) = Lib.fgets eol n inp.rest := by
  have hnil := buffer_underflow_eq_nil_iff size inp
  rw [fgets]
  cases hbuffer : (inp.underflow size).buffer with
  | nil =>
      rw [hnil.mp hbuffer]
      rfl
  | cons c buffer =>
      have hne : inp.rest ≠ [] := fun h ↦ List.cons_ne_nil c buffer (hbuffer ▸ hnil.mpr h)
      obtain ⟨hfst, hsnd, -⟩ := getLine_rest eol size (n - 1) inp
      rw [Lib.fgets]
      · exact congrArg some (Prod.ext hfst hsnd)
      · exact hne

theorem seekable_of_fgets (h : inp.fgets eol size n = some (l, inp')) :
    inp'.seekable = inp.seekable := by
  rw [fgets] at h
  split at h
  · cases h
  · have hseekable := (getLine_rest eol size (n - 1) inp).2.2
    rwa [Option.some.inj h] at hseekable

/-! ## Other processes -/

/-- How a process ends that has inherited the stream. -/
inductive Leave where
  | /-- As another program, which may read from the file and seek in it. -/
    program (move : Nat → Nat)
  | /-- With `exit`, and the buffer that it has inherited. -/ exit

/-- The offset after a process that has ended so. -/
def leave (inp : InStream α) (offset : Nat) : Leave → Nat
  | .program move => move offset
  | .exit =>
      if inp.seekable && inp.buffer.length ≤ offset then offset - inp.buffer.length else offset

/-- The stream when some processes have ended, in this order. -/
def left (inp : InStream α) (leaves : List Leave) : InStream α :=
  { inp with offset := leaves.foldl inp.leave inp.offset }

/-- The process leaves the offset where it is. -/
def Leave.Keeps (seekable : Bool) : Leave → Prop
  | .program move => ∀ offset, move offset = offset
  | .exit => seekable = false

theorem leave_eq {leave : Leave} (h : leave.Keeps inp.seekable) (offset : Nat) :
    inp.leave offset leave = offset := by
  cases leave with
  | program move => exact h offset
  | exit =>
      have hseekable : inp.seekable = false := h
      rw [InStream.leave, hseekable]
      rfl

/-- **Which processes leave the stream as it is.** -/
theorem left_eq {leaves : List Leave} (h : ∀ l ∈ leaves, l.Keeps inp.seekable) :
    inp.left leaves = inp := by
  have hoffset : leaves.foldl inp.leave inp.offset = inp.offset := by
    induction leaves with
    | nil => rfl
    | cons l leaves ih =>
        obtain ⟨hl, hleaves⟩ := List.forall_mem_cons.mp h
        rw [List.foldl_cons, leave_eq hl, ih hleaves]
  rw [left, hoffset]

end InStream

end SysProg.Lib
