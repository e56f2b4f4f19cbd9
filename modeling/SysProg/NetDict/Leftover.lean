import SysProg.NetDict.Record

/-!
# What a reply tells of earlier datagrams

`udp_server.c` receives every datagram into the one record `dr`, which it never clears.  A
datagram that is shorter than a record leaves the rest of `dr` to whoever was answered
before, and the reply is the whole of `dr`.

* `udpServer` is the loop, over the datagrams it receives one after the other;
  `getLast?_udpServer` is its reply to the last of them.
* `unmixed_iff`: the replies to a datagram are the same after all histories if and only if
  the datagram and the text of its word fill the record (`Covered`).
* `not_unmixed_short` is a datagram that is answered with bytes of the one before it.
-/

universe u

namespace SysProg.NetDict

open SysProg.Lib
open SysProg.ShmDict (Dictionary wordSize textSize notFoundText ordered_dictCmp twoWords wordB)

variable {ι : Type u}

/-! ## The server -/

/-- A datagram that `recvfrom` returns a positive count for.  An empty one only sends the
server round its outer loop. -/
structure Datagram (ι : Type u) where
  client : ι
  bytes : List UInt8
  ne_nil : bytes ≠ []

/-- The loop of `udp_server.c`, with `dr` as it is before the first of the datagrams: the
replies, and whom they go to. -/
def udpServer (D : Dictionary) : Dictrec → List (Datagram ι) → List (ι × Dictrec)
  | _, [] => []
  | dr, d :: ds =>
      match serve D (dr.recv d.bytes) with
      | some dr => (d.client, dr) :: udpServer D dr ds
      | none => []

/-- The record after the datagrams have been answered. -/
def afterwards (D : Dictionary) : Dictrec → List (Datagram ι) → Dictrec
  | dr, [] => dr
  | dr, d :: ds => afterwards D (reply D (dr.recv d.bytes)) ds

variable {D : Dictionary} {dr dr' tryit : Dictrec} {d : Datagram ι}

theorem udpServer_concat (D : Dictionary) (dr : Dictrec) (ds : List (Datagram ι))
    (d : Datagram ι) : udpServer D dr (ds ++ [d]) =
      udpServer D dr ds ++ [(d.client, reply D ((afterwards D dr ds).recv d.bytes))] := by
  induction ds generalizing dr with
  | nil => simp [udpServer, afterwards, serve_eq]
  | cons e ds ih => simp [udpServer, afterwards, serve_eq, ih]

/-- **Every datagram is answered**, to whom it is from. -/
theorem getLast?_udpServer (D : Dictionary) (dr : Dictrec) (ds : List (Datagram ι))
    (d : Datagram ι) : (udpServer D dr (ds ++ [d])).getLast? =
      some (d.client, reply D ((afterwards D dr ds).recv d.bytes)) := by
  rw [udpServer_concat, List.getLast?_concat]

/-- The reply to `d` is the same after all histories. -/
def Unmixed (D : Dictionary) (dr : Dictrec) (d : Datagram ι) : Prop :=
  ∀ ds ds' : List (Datagram ι),
    (udpServer D dr (ds ++ [d])).getLast? = (udpServer D dr (ds' ++ [d])).getLast?

theorem unmixed_iff_reply : Unmixed D dr d ↔ ∀ ds ds' : List (Datagram ι),
    reply D ((afterwards D dr ds).recv d.bytes) = reply D ((afterwards D dr ds').recv d.bytes) := by
  refine forall₂_congr fun ds ds' ↦ ?_
  rw [getLast?_udpServer, getLast?_udpServer, Option.some_inj, Prod.mk_right_inj]

/-! ## Which bytes of a reply are new -/

/-- The string in the word of a datagram. -/
def wordOf (bytes : List UInt8) : List UInt8 := str bytes 0 wordSize

/-- The datagram is a whole record, or has a word whose text in the dictionary is as long as
a text can be. -/
def Covered (D : Dictionary) (bytes : List UInt8) : Prop :=
  Dictrec.size ≤ bytes.length ∨
    wordSize ≤ bytes.length ∧
      ∃ r ∈ D.table, r.word.bytes = wordOf bytes ∧ r.text.bytes.length + 1 = textSize

/-- The text of a record is what the server replies to its word. -/
theorem replyText_of_mem {r : ShmDict.Dictrec} (hr : r ∈ D.table)
    (h : r.word.bytes = tryit.word) : replyText D tryit = r.text :=
  (replyText_of_word h.symm).trans (ShmDict.answer_of_mem hr)

/-- What fills the text is from a record of the dictionary. -/
theorem exists_record_of_replyText (h : (replyText D tryit).bytes.length + 1 = textSize) :
    ∃ r ∈ D.table, r.word.bytes = tryit.word ∧ r.text.bytes.length + 1 = textSize := by
  rw [replyText] at h
  cases hfound : bsearch (dictCmp tryit) D.table with
  | none =>
      rw [hfound] at h
      exact absurd h (by decide)
  | some r =>
      rw [hfound] at h
      obtain ⟨hr, hcmp⟩ := bsearch_eq_some hfound
      exact ⟨r, hr, (Std.compare_eq_iff_eq.mp hcmp).symm, h⟩

/-- A word without a NUL is in no dictionary. -/
theorem replyText_of_full (h : tryit.word.length = wordSize) :
    replyText D tryit = notFoundText := by
  rw [replyText]
  cases hfound : bsearch (dictCmp tryit) D.table with
  | none => rfl
  | some r =>
      obtain ⟨-, hcmp⟩ := bsearch_eq_some hfound
      have hword : tryit.word = r.word.bytes := Std.compare_eq_iff_eq.mp hcmp
      exact absurd r.word.length_lt (by rw [← hword, h]; exact Nat.lt_irrefl _)

theorem word_recv (h : wordSize ≤ d.bytes.length) : (dr.recv d.bytes).word = wordOf d.bytes := by
  have htake : (dr.recv d.bytes).bytes.take wordSize = d.bytes.take wordSize :=
    take_overwrite_zero h (by rw [dr.length_eq]; decide)
  rw [Dictrec.word, wordOf, str, str, List.drop_zero, List.drop_zero, htake]

/-- Behind a datagram the record is what it was. -/
theorem getElem?_recv {i : Nat} (h : d.bytes.length ≤ i) (hfit : d.bytes.length ≤ Dictrec.size) :
    (dr.recv d.bytes).bytes[i]? = dr.bytes[i]? :=
  getElem?_overwrite_of_ge (by omega) (by rw [dr.length_eq]; omega)

/-- And so it is before and behind the text of the reply. -/
theorem getElem?_reply {i : Nat}
    (h : i < wordSize ∨ wordSize + ((replyText D tryit).bytes.length + 1) ≤ i) :
    (reply D tryit).bytes[i]? = tryit.bytes[i]? := by
  have hlen : ((replyText D tryit).bytes ++ [0]).length = (replyText D tryit).bytes.length + 1 := by
    rw [List.length_append, List.length_singleton]
  have hsize := tryit.length_eq
  have htext := (replyText D tryit).length_lt
  rcases h with h | h
  · exact getElem?_overwrite_of_lt h (by rw [hsize]; decide)
  · have hfit : wordSize + ((replyText D tryit).bytes.length + 1) ≤ Dictrec.size :=
      Nat.add_le_add_left htext wordSize
    exact getElem?_overwrite_of_ge (by rw [hlen]; exact h) (by rw [hlen, hsize]; exact hfit)

/-- A text of full length leaves only the word of the request. -/
theorem bytes_setText {t : ShmDict.Text} (h : t.bytes.length + 1 = textSize) :
    (tryit.setText t).bytes = tryit.bytes.take wordSize ++ (t.bytes ++ [0]) := by
  have hlen : (t.bytes ++ [0]).length = textSize := by
    rw [List.length_append, List.length_singleton, h]
  have hdrop : tryit.bytes.drop (wordSize + textSize) = [] :=
    List.drop_of_length_le tryit.length_eq.le
  have htake : (t.bytes ++ [0]).take (Dictrec.size - wordSize) = t.bytes ++ [0] :=
    List.take_of_length_le hlen.le
  change overwrite tryit.bytes wordSize (t.bytes ++ [0]) = _
  rw [overwrite, hlen, hdrop, tryit.length_eq, htake, List.append_nil]

/-! ## Covered datagrams -/

theorem reply_recv_congr (h : Covered D d.bytes) :
    reply D (dr.recv d.bytes) = reply D (dr'.recv d.bytes) := by
  rcases h with hsize | ⟨hword, r, hr, hrword, hrtext⟩
  · have hrecv : dr.recv d.bytes = dr'.recv d.bytes := by
      refine Dictrec.ext ?_
      change overwrite dr.bytes 0 d.bytes = overwrite dr'.bytes 0 d.bytes
      rw [overwrite_of_length_le (dr.length_eq.trans_le hsize),
        overwrite_of_length_le (dr'.length_eq.trans_le hsize), dr.length_eq, dr'.length_eq]
    rw [hrecv]
  · have hreply : ∀ q : Dictrec, reply D (q.recv d.bytes) = (q.recv d.bytes).setText r.text := by
      intro q
      rw [reply, replyText_of_mem hr (hrword.trans (word_recv hword).symm)]
    have htake : ∀ q : Dictrec, (q.recv d.bytes).bytes.take wordSize = d.bytes.take wordSize :=
      fun q ↦ take_overwrite_zero hword (by rw [q.length_eq]; decide)
    refine Dictrec.ext ?_
    rw [hreply, hreply, bytes_setText hrtext, bytes_setText hrtext, htake, htake]

/-! ## Datagrams that are not -/

/-- A whole record with `x` in every byte. -/
def fill (c : ι) (x : UInt8) : Datagram ι where
  client := c
  bytes := List.replicate Dictrec.size x
  ne_nil := List.ne_nil_of_length_pos (by rw [List.length_replicate]; decide)

theorem bytes_recv_fill (dr : Dictrec) (c : ι) (x : UInt8) :
    (dr.recv (fill c x).bytes).bytes = List.replicate Dictrec.size x :=
  overwrite_of_length (List.length_replicate.trans dr.length_eq.symm)

variable {c : ι} {x : UInt8} {i : Nat}

theorem replyText_fill (hx : x ≠ 0) :
    replyText D (dr.recv (fill c x).bytes) = notFoundText := by
  refine replyText_of_full ?_
  have hmin : min wordSize Dictrec.size = wordSize := rfl
  rw [Dictrec.word, bytes_recv_fill, str, List.drop_zero, List.take_replicate, hmin, cstring,
    List.takeWhile_replicate]
  simp [hx]

/-- Its bytes stay in the record. -/
theorem getElem?_fill (hx : x ≠ 0) (hi : i < wordSize ∨ wordSize + 5 ≤ i)
    (hsize : i < Dictrec.size) : (afterwards D dr [fill c x]).bytes[i]? = some x := by
  have hreply : i < wordSize ∨
      wordSize + ((replyText D (dr.recv (fill c x).bytes)).bytes.length + 1) ≤ i := by
    rw [replyText_fill hx]
    exact hi
  rw [afterwards, afterwards, getElem?_reply hreply, bytes_recv_fill,
    List.getElem?_replicate_of_lt hsize]

/-- **What is left over**: a byte of the reply that the datagram before has put there. -/
theorem exists_leftover (h : ¬ Covered D d.bytes) : ∃ i : Nat, ∀ x : UInt8, x ≠ 0 →
    (reply D ((afterwards D dr [fill d.client x]).recv d.bytes)).bytes[i]? = some x := by
  obtain ⟨hsize, hword⟩ := not_or.mp h
  have hfit : d.bytes.length ≤ Dictrec.size := (Nat.lt_of_not_le hsize).le
  by_cases hshort : d.bytes.length < wordSize
  · refine ⟨wordSize - 1, fun x hx ↦ ?_⟩
    rw [getElem?_reply (.inl (by decide)), getElem?_recv (Nat.le_sub_one_of_lt hshort) hfit]
    exact getElem?_fill hx (.inl (by decide)) (by decide)
  · have hlen := Nat.le_of_not_lt hshort
    refine ⟨Dictrec.size - 1, fun x hx ↦ ?_⟩
    have htext : (replyText D ((afterwards D dr [fill d.client x]).recv d.bytes)).bytes.length + 1
        ≠ textSize := by
      intro hfull
      obtain ⟨r, hr, hrword, hrtext⟩ := exists_record_of_replyText hfull
      exact hword ⟨hlen, r, hr, hrword.trans (word_recv hlen), hrtext⟩
    have hlt := Nat.lt_of_le_of_ne (CStr.length_lt _) htext
    have hbehind : d.bytes.length ≤ Dictrec.size - 1 :=
      Nat.le_sub_one_of_lt (Nat.lt_of_not_le hsize)
    rw [getElem?_reply (.inr (Nat.le_sub_one_of_lt (Nat.add_lt_add_left hlt wordSize))),
      getElem?_recv hbehind hfit]
    exact getElem?_fill hx (.inr (by decide)) (by decide)

theorem reply_ne_of_not_covered (h : ¬ Covered D d.bytes) :
    reply D ((afterwards D dr [fill d.client 1]).recv d.bytes) ≠
      reply D ((afterwards D dr [fill d.client 2]).recv d.bytes) := by
  intro heq
  obtain ⟨i, hi⟩ := @exists_leftover _ D dr d h
  have hbyte : some 1 = some (2 : UInt8) := by
    rw [← hi 1 (by decide), heq, hi 2 (by decide)]
  exact absurd hbyte (by decide)

/-- **Clients are not mixed** in the reply to a datagram if and only if the datagram and the
text of its word fill the record. -/
theorem unmixed_iff (D : Dictionary) (dr : Dictrec) (d : Datagram ι) :
    Unmixed D dr d ↔ Covered D d.bytes := by
  rw [unmixed_iff_reply]
  constructor
  · intro hunmixed
    by_contra h
    exact reply_ne_of_not_covered h (hunmixed _ _)
  · intro h ds ds'
    exact reply_recv_congr h

/-! ## A short request -/

/-- The word `b` and its NUL. -/
def short : Datagram Unit := ⟨(), wordB.bytes ++ [0], List.concat_ne_nil _ _⟩

theorem not_covered_short : ¬ Covered twoWords short.bytes := by
  rintro (hsize | ⟨hword, -⟩)
  · exact absurd hsize (by decide)
  · exact absurd hword (by decide)

/-- It is answered with bytes of the datagram before. -/
theorem not_unmixed_short : ¬ Unmixed twoWords .blank short ∧
    (udpServer twoWords .blank ([fill () 1] ++ [short])).getLast? ≠
      (udpServer twoWords .blank ([fill () 2] ++ [short])).getLast? := by
  have hne : (udpServer twoWords .blank ([fill () 1] ++ [short])).getLast? ≠
      (udpServer twoWords .blank ([fill () 2] ++ [short])).getLast? := by
    rw [getLast?_udpServer, getLast?_udpServer]
    intro heq
    exact reply_ne_of_not_covered not_covered_short (Prod.mk_right_inj.mp (Option.some.inj heq))
  exact ⟨fun hunmixed ↦ hne (hunmixed _ _), hne⟩

end SysProg.NetDict
