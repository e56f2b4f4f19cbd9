import SysProg.Lib.Memory
import SysProg.ShmDict.Handshake

/-!
# Records as they cross a socket

The socket versions of the dictionary send and receive the 512 bytes of a `Dictrec`,
whatever is in them: the caller's own record is not cleared before a query, and a short
`recv` leaves the rest of the record as it was.  So a `Dictrec` is its bytes here, with
the two strings read out of them, and the table of the dictionary file is the one of
`SysProg.ShmDict.Record`.

* `lookup` is the server's `lookup5.c` on such a record, and `serve` one turn of the
  servers' loops, between `recv` and `send`.
* `serve_eq` says what a turn replies: the request with its text replaced by
  `replyText`, which for a word of a record is `answer`.
* `code` is what `lookup7.c`, `lookup8.c` and `lookup9.c` make of a reply.
-/

namespace SysProg.NetDict

open SysProg.Lib
open SysProg.ShmDict (Word Text Code Dictionary wordSize textSize notFoundText answer)

/-! ## Records -/

/-- `sizeof(Dictrec)`. -/
abbrev Dictrec.size : Nat := wordSize + textSize

/-- The bytes of a `Dictrec`. -/
structure Dictrec where
  bytes : List UInt8
  length_eq : bytes.length = Dictrec.size
deriving DecidableEq

namespace Dictrec

@[ext] theorem ext {r r' : Dictrec} (h : r.bytes = r'.bytes) : r = r' := by
  cases r
  cases r'
  cases h
  rfl

/-- A record nothing has been written to. -/
def blank : Dictrec := ⟨List.replicate size 0, List.length_replicate⟩

variable (r : Dictrec)

/-- The string in `word`.  No word of the dictionary fills its field, so a comparison
with one reads no more than this even if there is no NUL. -/
def word : List UInt8 := str r.bytes 0 wordSize

/-- The string in `text`. -/
def text : List UInt8 := str r.bytes wordSize textSize

/-- The record after `bytes` have been copied to the offset `off`. -/
def copy (off : Nat) (bytes : List UInt8) : Dictrec :=
  ⟨overwrite r.bytes off bytes, (length_overwrite r.bytes off bytes).trans r.length_eq⟩

/-- `strcpy` to the word. -/
def setWord (w : Word) : Dictrec := r.copy 0 (w.bytes ++ [0])

/-- `strcpy` to the text. -/
def setText (t : Text) : Dictrec := r.copy wordSize (t.bytes ++ [0])

/-- What `recv` into the record does when it returns `piece`. -/
def recv (piece : List UInt8) : Dictrec := r.copy 0 piece

@[simp] theorem word_setWord (w : Word) : (r.setWord w).word = w.bytes :=
  str_overwrite w.zero_notMem w.length_lt (by rw [r.length_eq]; decide)

@[simp] theorem text_setWord (w : Word) : (r.setWord w).text = r.text := by
  have hlen : (w.bytes ++ [0]).length ≤ wordSize := by
    rw [List.length_append, List.length_singleton]
    exact w.length_lt
  exact str_overwrite_of_ge ((Nat.zero_add _).trans_le hlen) (by rw [r.length_eq]; decide)

@[simp] theorem text_setText (t : Text) : (r.setText t).text = t.bytes :=
  str_overwrite t.zero_notMem t.length_lt (by rw [r.length_eq])

@[simp] theorem word_setText (t : Text) : (r.setText t).word = r.word :=
  str_overwrite_of_le (by decide) (by rw [r.length_eq]; decide)

@[simp] theorem take_bytes : r.bytes.take size = r.bytes :=
  List.take_of_length_le r.length_eq.le

@[simp] theorem drop_bytes : r.bytes.drop size = [] := List.drop_of_length_le r.length_eq.le

/-- Nothing is left of the record when a whole one has been received. -/
@[simp] theorem recv_bytes (r' : Dictrec) : r.recv r'.bytes = r' :=
  ext (overwrite_of_length (r'.length_eq.trans r.length_eq.symm))

@[simp] theorem recv_nil : r.recv [] = r := ext (overwrite_nil r.bytes 0)

end Dictrec

/-! ## The server -/

/-- Compare the word of a record with that of a record of the table. -/
def dictCmp (sought : Dictrec) (r : ShmDict.Dictrec) : Ordering :=
  compare sought.word r.word.bytes

/-- `lookup(sought, resource)` of `lookup5.c`, with `resource` already mapped, and no more
records in it than an `int` can count. -/
def lookup (D : Dictionary) (sought : Dictrec) : Code × Dictrec :=
  match bsearch (dictCmp sought) D.table with
  | some found => (.FOUND, sought.setText found.text)
  | none => (.NOTFOUND, sought)

/-- A server's `switch (lookup(&tryit, argv[1]))`: the record it sends back, and nothing
if it does `DIE(argv[1])`. -/
def serve (D : Dictionary) (tryit : Dictrec) : Option Dictrec :=
  match lookup D tryit with
  | (.FOUND, tryit) => some tryit
  | (.NOTFOUND, tryit) => some (tryit.setText notFoundText)
  | (.UNAVAIL, _) => none

/-- The text a server puts into its reply. -/
def replyText (D : Dictionary) (tryit : Dictrec) : Text :=
  match bsearch (dictCmp tryit) D.table with
  | some found => found.text
  | none => notFoundText

/-- The reply to a request. -/
def reply (D : Dictionary) (tryit : Dictrec) : Dictrec := tryit.setText (replyText D tryit)

variable {D : Dictionary} {tryit : Dictrec} {w : Word}

/-- **A server answers every request**, and with one record. -/
theorem serve_eq (D : Dictionary) (tryit : Dictrec) : serve D tryit = some (reply D tryit) := by
  unfold serve reply replyText lookup
  cases bsearch (dictCmp tryit) D.table <;> rfl

theorem dictCmp_eq_of_word (h : tryit.word = w.bytes) : dictCmp tryit = ShmDict.dictCmp w := by
  funext r
  rw [dictCmp, h]
  rfl

theorem replyText_of_word (h : tryit.word = w.bytes) : replyText D tryit = answer D w := by
  have hcmp : bsearch (dictCmp tryit) D.table = bsearch (ShmDict.dictCmp w) D.table := by
    rw [dictCmp_eq_of_word h]
  unfold replyText answer
  cases hfound : bsearch (ShmDict.dictCmp w) D.table <;> simp [hcmp, hfound]

@[simp] theorem word_reply (D : Dictionary) (tryit : Dictrec) :
    (reply D tryit).word = tryit.word := by
  simp [reply]

theorem text_reply (h : tryit.word = w.bytes) : (reply D tryit).text = (answer D w).bytes := by
  rw [reply, Dictrec.text_setText, replyText_of_word h]

/-! ## The client -/

/-- What the remote versions of `lookup` return for what is in `sought`:
`strcmp(sought->text, "XXXX")` tells. -/
def code (sought : Dictrec) : Code :=
  if sought.text ≠ notFoundText.bytes then .FOUND else .NOTFOUND

theorem code_eq_found {sought : Dictrec} :
    code sought = .FOUND ↔ sought.text ≠ notFoundText.bytes := by
  unfold code
  split <;> simp_all

end SysProg.NetDict
