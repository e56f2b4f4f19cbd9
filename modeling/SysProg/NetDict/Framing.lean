import SysProg.NetDict.Record

/-!
# Requests on a byte stream

A connection is a byte stream, and `recv` returns as much of it as has arrived.  The child
of `isock_server.c` looks a word up after every `recv` and does not look at the number of
bytes it has got, so the records of the stream are the records it looks up only as long as
the kernel cuts the stream the same way.

* `framed_of_full` is that case.  What the child does then depends on the stream only.
* `length_eq_of_framed` counts: there are as many lookups as pieces, and as many records as
  512 goes into the length of the stream.
* `framed_iff` puts them together, and `not_framed_cut` is one request in two pieces.
-/

namespace SysProg.NetDict

open SysProg.Lib
open SysProg.ShmDict (Dictionary twoWords wordA)

/-! ## The stream and its records -/

/-- What one `recv` of a `Dictrec` returns, other than the end of the stream. -/
structure Piece where
  bytes : List UInt8
  length_pos : 0 < bytes.length
  length_le : bytes.length ≤ Dictrec.size

/-- The stream that has been cut into `pieces`. -/
def stream (pieces : List Piece) : List UInt8 := pieces.flatMap Piece.bytes

/-- The complete consecutive records of a stream. -/
def records (s : List UInt8) : List Dictrec :=
  if h : Dictrec.size ≤ s.length then
    ⟨s.take Dictrec.size, List.length_take_of_le h⟩ :: records (s.drop Dictrec.size)
  else []
termination_by s.length
decreasing_by
  rw [List.length_drop]
  exact Nat.sub_lt (Nat.lt_of_lt_of_le (by decide) h) (by decide)

variable {D : Dictionary} {tryit : Dictrec} {pieces : List Piece} {s : List UInt8}

theorem records_append (r : Dictrec) (s : List UInt8) :
    records (r.bytes ++ s) = r :: records s := by
  have hlen : r.bytes.length = Dictrec.size := r.length_eq
  have hle : Dictrec.size ≤ (r.bytes ++ s).length := by
    rw [List.length_append, hlen]
    exact Nat.le_add_right _ _
  rw [records, dif_pos hle]
  congr 1
  · exact Dictrec.ext (List.take_left' hlen)
  · rw [List.drop_left' hlen]

theorem length_records (s : List UInt8) : Dictrec.size * (records s).length ≤ s.length := by
  induction s using records.induct with
  | case1 s h ih =>
      rw [records, dif_pos h, List.length_cons, Nat.mul_succ]
      rw [List.length_drop] at ih
      omega
  | case2 s h =>
      rw [records, dif_neg h]
      exact Nat.zero_le _

/-! ## The child -/

/-- One turn of the child: the record it looked up, and the record it sent. -/
structure Turn where
  request : Dictrec
  sent : Dictrec
deriving DecidableEq

/-- The client dialogue of `isock_server.c`, to the end of the connection or to the
child's. -/
def dialogue (D : Dictionary) : Dictrec → List Piece → List Turn
  | _, [] => []
  | tryit, piece :: pieces =>
      match serve D (tryit.recv piece.bytes) with
      | some sent => ⟨tryit.recv piece.bytes, sent⟩ :: dialogue D sent pieces
      | none => []

/-- The turn that a request deserves. -/
def Turn.of (D : Dictionary) (r : Dictrec) : Turn := ⟨r, reply D r⟩

/-- One lookup and one reply for each complete record of the stream, on its contents. -/
def Framed (D : Dictionary) (tryit : Dictrec) (pieces : List Piece) : Prop :=
  dialogue D tryit pieces = (records (stream pieces)).map (Turn.of D)

theorem dialogue_cons (tryit : Dictrec) (piece : Piece) (pieces : List Piece) :
    dialogue D tryit (piece :: pieces) =
      Turn.of D (tryit.recv piece.bytes) ::
        dialogue D (reply D (tryit.recv piece.bytes)) pieces := by
  simp only [dialogue, serve_eq]
  rfl

/-- The child looks a word up for every piece. -/
theorem length_dialogue (D : Dictionary) (tryit : Dictrec) (pieces : List Piece) :
    (dialogue D tryit pieces).length = pieces.length := by
  induction pieces generalizing tryit with
  | nil => rfl
  | cons piece pieces ih => rw [dialogue_cons, List.length_cons, ih, List.length_cons]

/-- A stream cut at its records: whatever was in `tryit`, every record is looked up. -/
theorem framed_of_full (D : Dictionary) (tryit : Dictrec)
    (h : ∀ p ∈ pieces, p.bytes.length = Dictrec.size) : Framed D tryit pieces := by
  unfold Framed stream
  induction pieces generalizing tryit with
  | nil => rw [List.flatMap_nil, records, dif_neg (by decide)]; rfl
  | cons piece pieces ih =>
      obtain ⟨hpiece, hpieces⟩ := List.forall_mem_cons.mp h
      obtain ⟨r, hr⟩ : ∃ r : Dictrec, r.bytes = piece.bytes := ⟨⟨piece.bytes, hpiece⟩, rfl⟩
      rw [dialogue_cons, List.flatMap_cons, ← hr, records_append, Dictrec.recv_bytes,
        List.map_cons, ih _ hpieces]

/-- Pieces that are as long together as full ones are full. -/
theorem full_of_length_le (h : Dictrec.size * pieces.length ≤ (stream pieces).length) :
    ∀ p ∈ pieces, p.bytes.length = Dictrec.size := by
  have hle : ∀ ps : List Piece, (stream ps).length ≤ Dictrec.size * ps.length := by
    intro ps
    induction ps with
    | nil => exact Nat.zero_le _
    | cons p ps ih =>
        have hp := p.length_le
        rw [stream, List.flatMap_cons, List.length_append, List.length_cons, Nat.mul_succ]
        exact (Nat.add_le_add hp ih).trans (Nat.add_comm _ _).le
  induction pieces with
  | nil => simp
  | cons piece pieces ih =>
      have hpiece := piece.length_le
      have hrest := hle pieces
      rw [stream, List.flatMap_cons, List.length_append, List.length_cons, Nat.mul_succ] at h
      change _ ≤ piece.bytes.length + (stream pieces).length at h
      refine List.forall_mem_cons.mpr ⟨by omega, ih (by omega)⟩

theorem full_of_framed (h : Framed D tryit pieces) :
    ∀ p ∈ pieces, p.bytes.length = Dictrec.size := by
  have hcount := congrArg List.length h
  rw [length_dialogue, List.length_map] at hcount
  refine full_of_length_le ?_
  rw [hcount]
  exact length_records (stream pieces)

/-- **The child keeps the record boundaries** of the stream if and only if every `recv`
returns a whole record. -/
theorem framed_iff (D : Dictionary) (tryit : Dictrec) (pieces : List Piece) :
    Framed D tryit pieces ↔ ∀ p ∈ pieces, p.bytes.length = Dictrec.size :=
  ⟨full_of_framed, framed_of_full D tryit⟩

/-- A record that arrives in two pieces, the first of `n` bytes. -/
def cut (r : Dictrec) (n : Nat) (hpos : 0 < n) (hlt : n < Dictrec.size) : List Piece :=
  have htake : (r.bytes.take n).length = n :=
    List.length_take_of_le (hlt.le.trans r.length_eq.ge)
  have hdrop : (r.bytes.drop n).length = Dictrec.size - n := by rw [List.length_drop, r.length_eq]
  [⟨r.bytes.take n, by omega, by omega⟩, ⟨r.bytes.drop n, by omega, by omega⟩]

theorem not_framed_of_cut (r : Dictrec) {n : Nat} (hpos : 0 < n) (hlt : n < Dictrec.size) :
    ¬ Framed D tryit (cut r n hpos hlt) := by
  intro h
  have hfull : (r.bytes.take n).length = Dictrec.size := full_of_framed h _ List.mem_cons_self
  rw [List.length_take, r.length_eq] at hfull
  omega

/-- The request for `a` arrives as 100 bytes and the other 412. -/
theorem not_framed_cut : ¬ Framed twoWords Dictrec.blank
    (cut (Dictrec.blank.setWord wordA) 100 (by decide) (by decide)) :=
  not_framed_of_cut _ _ _

end SysProg.NetDict
