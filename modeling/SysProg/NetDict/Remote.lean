import SysProg.NetDict.Record
import SysProg.ShmDict.Alone

/-!
# Remote and local lookups

The same `main` is linked with the local `lookup5.c` and with the versions that ask a
server: `lookup7.c` (`usock_server.c`), `lookup8.c` (`isock_server.c`), `lookup9.c`
(`udp_server.c`) and `lookup6.c` (`shm_server.c`).  A remote answer has no place for the
code, so "not found" crosses as the text `"XXXX"`.  Here every record arrives whole and
in order; what happens otherwise is in the modules on streams and datagrams.

* `main_local` and `main_exchange` are the sessions of `main` with the two kinds of
  `lookup`, whatever is in the records before.
* `remote_lookups`: every remote version gives its caller what the local one gives,
  except for a word whose text is `"XXXX"`, which it reports as not found.
* `remote_ne_local` is a dictionary with such a word.
-/

universe u

namespace SysProg.NetDict

open SysProg.Lib
open SysProg.ShmDict (Word Text Code Dictionary Result notFoundText answer answered
  session queries result? results_of_run exists_session wordA)

/-! ## The programs -/

/-- A `lookup` that has returned: its code, what is in `sought`, and the state of what is
behind it. -/
structure Returned (σ : Type u) where
  code : Code
  sought : Dictrec
  behind : σ

/-- What `main` makes of it: it prints the text, or that the word was not found, and with
`UNAVAIL` it does `DIE(argv[1])`. -/
def Returned.result {σ : Type u} (ret : Returned σ) : Option Result :=
  match ret.code with
  | .FOUND => some ⟨.FOUND, some ret.sought.text⟩
  | .NOTFOUND => some ⟨.NOTFOUND, none⟩
  | .UNAVAIL => none

/-- The loop of `main.c` over the words it reads, with one `tryit` for all of them. -/
def main {σ : Type u} (lookup : σ → Dictrec → Option (Returned σ)) :
    σ → Dictrec → List Word → Option (List Result)
  | _, _, [] => some []
  | s, tryit, w :: ws =>
      (lookup s (tryit.setWord w)).bind fun ret ↦
        ret.result.bind fun result ↦
          (main lookup ret.behind ret.sought ws).map (result :: ·)

/-- `lookup5.c`, called directly. -/
def lookup5 (D : Dictionary) (_ : Unit) (sought : Dictrec) : Option (Returned Unit) :=
  some ⟨(lookup D sought).1, (lookup D sought).2, ()⟩

/-- A request and its reply: the record goes into the server's `tryit`, and what the
server sends comes back into `sought`. -/
def exchange (D : Dictionary) (tryit sought : Dictrec) : Option (Returned Dictrec) :=
  (serve D (tryit.recv sought.bytes)).map fun tryit ↦
    let sought := sought.recv tryit.bytes
    ⟨code sought, sought, tryit⟩

/-- `lookup7.c` with a child of `usock_server.c`. -/
abbrev lookup7 := exchange
/-- `lookup8.c` with a child of `isock_server.c`. -/
abbrev lookup8 := exchange
/-- `lookup9.c` with `udp_server.c`. -/
abbrev lookup9 := exchange

/-! ## Sessions -/

/-- A `lookup` whose result depends on the word only. -/
theorem main_eq_map {σ : Type u} {lookup : σ → Dictrec → Option (Returned σ)} {f : Word → Result}
    (h : ∀ s (tryit : Dictrec) (w : Word),
      ∃ ret, lookup s (tryit.setWord w) = some ret ∧ ret.result = some (f w))
    (s : σ) (tryit : Dictrec) (ws : List Word) : main lookup s tryit ws = some (ws.map f) := by
  induction ws generalizing s tryit with
  | nil => rfl
  | cons w ws ih =>
      obtain ⟨ret, hlookup, hresult⟩ := h s tryit w
      rw [main, hlookup, Option.bind_some, hresult, Option.bind_some, ih]
      rfl

/-- What the dictionary file says about a word. -/
def direct (D : Dictionary) (w : Word) : Result :=
  match bsearch (ShmDict.dictCmp w) D.table with
  | some found => ⟨.FOUND, some found.text.bytes⟩
  | none => ⟨.NOTFOUND, none⟩

variable {D : Dictionary}

theorem main_local (D : Dictionary) (tryit : Dictrec) (ws : List Word) :
    main (lookup5 D) () tryit ws = some (ws.map (direct D)) := by
  refine main_eq_map (fun _ tryit w ↦ ⟨_, rfl, ?_⟩) () tryit ws
  have hcmp : dictCmp (tryit.setWord w) = ShmDict.dictCmp w :=
    dictCmp_eq_of_word (tryit.word_setWord w)
  cases hfound : bsearch (ShmDict.dictCmp w) D.table with
  | some found => simp [Returned.result, lookup, direct, hcmp, hfound]
  | none => simp [Returned.result, lookup, direct, hcmp, hfound]

/-- The result of a lookup that has received the reply. -/
theorem result_of_text {w : Word} {r child : Dictrec} (h : r.text = (answer D w).bytes) :
    (⟨code r, r, child⟩ : Returned Dictrec).result = some (answered D w) := by
  by_cases hnone : answer D w = notFoundText
  · have hcode : code r = .NOTFOUND := if_neg (not_not.mpr (h.trans (congrArg CStr.bytes hnone)))
    rw [Returned.result, answered, if_pos hnone, hcode]
  · have hcode : code r = .FOUND := if_pos fun heq ↦ hnone (CStr.ext (h.symm.trans heq))
    rw [Returned.result, answered, if_neg hnone, hcode, h]

theorem main_exchange (D : Dictionary) (child tryit : Dictrec) (ws : List Word) :
    main (exchange D) child tryit ws = some (ws.map (answered D)) := by
  refine main_eq_map (fun child tryit w ↦ ?_) child tryit ws
  have htext : (reply D (tryit.setWord w)).text = (answer D w).bytes :=
    text_reply (tryit.word_setWord w)
  refine ⟨⟨_, _, reply D (tryit.setWord w)⟩, ?_, result_of_text htext⟩
  rw [exchange, Dictrec.recv_bytes, serve_eq, Option.map_some, Dictrec.recv_bytes]

/-! ## The two compared -/

/-- The text of the word is the one that stands for "no such word". -/
def Marked (D : Dictionary) (w : Word) : Prop :=
  ∃ r ∈ D.table, r.word = w ∧ r.text = notFoundText

instance (D : Dictionary) (w : Word) : Decidable (Marked D w) :=
  inferInstanceAs (Decidable (∃ r ∈ D.table, _ ∧ _))

/-- What a remote lookup is to give: what the local one gives, but for a marked word. -/
def remote (D : Dictionary) (w : Word) : Result :=
  if Marked D w then ⟨.NOTFOUND, none⟩ else direct D w

theorem marked_of_mem {w : Word} {r : ShmDict.Dictrec} (hr : r ∈ D.table) (hw : r.word = w) :
    Marked D w ↔ r.text = notFoundText := by
  constructor
  · rintro ⟨r', hr', hw', htext⟩
    rwa [D.eq_of_word_eq hr hr' (hw.trans hw'.symm)]
  · exact fun htext ↦ ⟨r, hr, hw, htext⟩

theorem answered_eq_remote (D : Dictionary) (w : Word) : answered D w = remote D w := by
  unfold answered answer remote direct
  cases hfound : bsearch (ShmDict.dictCmp w) D.table with
  | some found =>
      obtain ⟨hmem, hcmp⟩ := bsearch_eq_some hfound
      simp only [marked_of_mem hmem (strcmp_eq_iff.mp hcmp).symm]
  | none => simp

/-- **A remote lookup gives what the local one gives**, over any sequence of queries, but
for the words whose text is `"XXXX"`.  The queries of `lookup6` are those of the client in
its run; it returns from the first 16383 of them. -/
theorem remote_lookups (D : Dictionary) (ws : List Word) :
    (∀ tryit, main (lookup5 D) () tryit ws = some (ws.map (direct D))) ∧
    (∀ child tryit, main (lookup7 D) child tryit ws = some (ws.map (remote D)) ∧
      main (lookup8 D) child tryit ws = some (ws.map (remote D)) ∧
      main (lookup9 D) child tryit ws = some (ws.map (remote D))) ∧
    (∀ lim tr s results, (session lim D).Run tr (s, results) → queries tr = ws →
      (s.client ()).pc = .idle → results = ws.map (remote D)) ∧
    (ws.length ≤ 16383 → ∃ tr s results, (session linuxAdj D).Run tr (s, results) ∧
      queries tr = ws ∧ (s.client ()).pc = .idle) := by
  have hanswered : answered D = remote D := funext (answered_eq_remote D)
  refine ⟨fun tryit ↦ main_local D tryit ws, ?_, ?_, ?_⟩
  · intro child tryit
    have hmain := main_exchange D child tryit ws
    rw [hanswered] at hmain
    exact ⟨hmain, hmain, hmain⟩
  · rintro lim tr s results hrun rfl hpc
    rw [results_of_run hrun hpc, hanswered]
  · intro hws
    obtain ⟨tr, s, hrun, hqueries, hpc⟩ := exists_session D hws
    obtain ⟨results, hrun⟩ := hrun.exists_observe result?
    exact ⟨tr, s, results, hrun, hqueries, hpc⟩

/-- A dictionary that defines `a` as `XXXX`. -/
def markedWord : Dictionary := ⟨[⟨wordA, notFoundText⟩], by decide⟩

/-- The remote lookup does not find the word that the local one finds. -/
theorem remote_ne_local :
    main (lookup7 markedWord) Dictrec.blank Dictrec.blank [wordA] ≠
      main (lookup5 markedWord) () Dictrec.blank [wordA] := by
  rw [main_exchange, main_local]
  decide

end SysProg.NetDict
