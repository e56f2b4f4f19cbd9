import SysProg.Lib.Lines
import SysProg.NetDict.Record

/-!
# The words at the prompt

The `main.c` of the dictionary programs is the same everywhere: it reads a word into the field of
a `Dictrec` with `fgets`, takes its last character off and looks it up.  That character is the
newline if the line has one, and fits into the field.

* `promptLoop` is the loop, for any `lookup`; `line` is what the field has been filled with.
* `passed_promptLoop`: what `lookup` is called with are the pieces that `fgets` gives, each without
  its last character.
* `faithful_iff`: these are the lines, if and only if each ends with a newline and fits.
-/

namespace SysProg.NetDict

open SysProg.Lib
open SysProg.ShmDict (Code wordSize textSize)

/-! ## The loop -/

def newline : UInt8 := 10

/-- `" : "` -/
def colon : List UInt8 := [32, 58, 32]

/-- `"Not Found!\n"` -/
def notFound : List UInt8 := [78, 111, 116, 32, 70, 111, 117, 110, 100, 33, 10]

/-- `fgets(tryit.word, sizeof(tryit.word), stdin)` when it has read `line`. -/
def Dictrec.gets (tryit : Dictrec) (line : List UInt8) : Dictrec := tryit.copy 0 (line ++ [0])

/-- `tryit.word[strlen(tryit.word)-1]='\0'`; before an empty word there is nothing of the
record. -/
def Dictrec.chop (tryit : Dictrec) : Dictrec :=
  if tryit.word = [] then tryit else tryit.copy (tryit.word.length - 1) [0]

/-- What has happened before the program ends. -/
structure Session where
  /-- The words that `lookup` has been called with. -/
  passed : List (List UInt8)
  stdout : List UInt8
  /-- The loop has come to the end of the input; else there has been a `DIE(argv[1])`. -/
  ended : Bool
deriving DecidableEq

/-- The loop.  `lookup` may keep something of type `σ` from call to call. -/
def promptLoop {σ : Type} (lookup : σ → Dictrec → Code × Dictrec × σ) :
    σ → Dictrec → List (List UInt8) → Session
  | _, _, [] => ⟨[], [], true⟩
  | s, tryit, line :: lines =>
      let tryit := (tryit.gets line).chop
      match lookup s tryit with
      | (.FOUND, found, s) =>
          let rest := promptLoop lookup s found lines
          ⟨tryit.word :: rest.passed, found.word ++ colon ++ found.text ++ rest.stdout, rest.ended⟩
      | (.NOTFOUND, tryit', s) =>
          let rest := promptLoop lookup s tryit' lines
          ⟨tryit.word :: rest.passed, tryit'.word ++ colon ++ notFound ++ rest.stdout, rest.ended⟩
      | (.UNAVAIL, _, _) => ⟨[tryit.word], [], false⟩

/-- The program, on its standard input. -/
def promptMain {σ : Type} (lookup : σ → Dictrec → Code × Dictrec × σ) (s : σ) (tryit : Dictrec)
    (stdin : List UInt8) : Session :=
  promptLoop lookup s tryit (reads (· = newline) wordSize stdin)

/-- A line without its newline. -/
def chomp (l : List UInt8) : List UInt8 := l.takeWhile (· ≠ newline)

/-- Whatever `lookup` does, it is called with the lines of the input, one after the other, to the
end of the input; only an `UNAVAIL` ends the program before. -/
def Faithful (stdin : List UInt8) : Prop :=
  ∀ (σ : Type) (lookup : σ → Dictrec → Code × Dictrec × σ) (s : σ) (tryit : Dictrec),
    let run := promptMain lookup s tryit stdin
    run.passed <+: (lines (· = newline) stdin).map chomp ∧
      (run.ended → run.passed = (lines (· = newline) stdin).map chomp) ∧
      ((∀ s tryit, (lookup s tryit).1 ≠ .UNAVAIL) → run.ended)

variable {σ : Type} {lookup : σ → Dictrec → Code × Dictrec × σ} {s : σ} {tryit : Dictrec}
  {line stdin : List UInt8} {pieces : List (List UInt8)}

theorem Dictrec.word_of_bytes {w rest : List UInt8} (h : tryit.bytes = w ++ 0 :: rest)
    (hw : 0 ∉ w) (hlen : w.length < wordSize) : tryit.word = w := by
  obtain ⟨k, hk⟩ := Nat.exists_eq_add_of_lt hlen
  rw [word, str, List.drop_zero, h, List.take_append, List.take_of_length_le hlen.le, hk,
    Nat.add_assoc, Nat.add_sub_cancel_left, List.take_succ_cons]
  exact cstring_append_zero hw _

/-- The word is the line without its last character. -/
theorem word_chop_gets (hzero : 0 ∉ line) (hne : line ≠ []) (hlen : line.length < wordSize)
    (tryit : Dictrec) : (tryit.gets line).chop.word = line.dropLast := by
  obtain ⟨w, c, rfl⟩ := (List.eq_nil_or_concat' line).resolve_left hne
  obtain ⟨rest, hbytes⟩ : ∃ rest, (tryit.gets (w ++ [c])).bytes = w ++ ([c] ++ 0 :: rest) := by
    have hfit : (w ++ [c] ++ [0]).length ≤ tryit.bytes.length := by
      rw [List.length_append, List.length_singleton, tryit.length_eq]
      exact hlen.trans_le (Nat.le_add_right _ _)
    refine ⟨tryit.bytes.drop (w ++ [c] ++ [0]).length, (overwrite_chunk hfit).trans ?_⟩
    simp
  have hword : (tryit.gets (w ++ [c])).word = w ++ [c] :=
    Dictrec.word_of_bytes (hbytes.trans (List.append_assoc _ _ _).symm) hzero hlen
  have hchop : (tryit.gets (w ++ [c])).chop.bytes = w ++ ([0] ++ 0 :: rest) := by
    rw [Dictrec.chop, hword, if_neg hne, List.length_append, List.length_singleton,
      Nat.add_sub_cancel]
    change overwrite (tryit.gets (w ++ [c])).bytes w.length [0] = _
    rw [hbytes]
    exact overwrite_append rfl rfl
  rw [List.length_append, List.length_singleton] at hlen
  rw [List.dropLast_concat]
  exact Dictrec.word_of_bytes hchop (fun h ↦ hzero (List.mem_append_left _ h))
    (Nat.lt_of_succ_lt hlen)

/-- **What `lookup` is called with.** -/
theorem passed_promptLoop (hpieces : ∀ l ∈ pieces, 0 ∉ l ∧ l ≠ [] ∧ l.length < wordSize) :
    (promptLoop lookup s tryit pieces).passed <+: pieces.map List.dropLast ∧
      ((promptLoop lookup s tryit pieces).ended →
        (promptLoop lookup s tryit pieces).passed = pieces.map List.dropLast) := by
  induction pieces generalizing s tryit with
  | nil => exact ⟨List.prefix_refl [], fun _ ↦ rfl⟩
  | cons line pieces ih =>
      obtain ⟨⟨hzero, hne, hlen⟩, hpieces⟩ := List.forall_mem_cons.mp hpieces
      rw [promptLoop, List.map_cons, ← word_chop_gets hzero hne hlen tryit]
      split
      · obtain ⟨hpassed, hended⟩ := ih hpieces
        exact ⟨List.cons_prefix_cons.mpr ⟨rfl, hpassed⟩, fun h ↦ congrArg _ (hended h)⟩
      · obtain ⟨hpassed, hended⟩ := ih hpieces
        exact ⟨List.cons_prefix_cons.mpr ⟨rfl, hpassed⟩, fun h ↦ congrArg _ (hended h)⟩
      · exact ⟨List.cons_prefix_cons.mpr ⟨rfl, List.nil_prefix⟩, fun h ↦ absurd h (by simp)⟩

/-- The loop goes on to the end of the input if `lookup` is always available. -/
theorem ended_promptLoop (hlookup : ∀ s tryit, (lookup s tryit).1 ≠ .UNAVAIL) (s : σ)
    (tryit : Dictrec) (pieces : List (List UInt8)) : (promptLoop lookup s tryit pieces).ended := by
  induction pieces generalizing s tryit with
  | nil => rfl
  | cons line pieces ih =>
      rw [promptLoop]
      split
      · exact ih _ _
      · exact ih _ _
      · next hunavail => exact absurd (congrArg Prod.fst hunavail) (hlookup _ _)

/-! ## The lines of the input -/

/-- What `fgets` gives is a word in the field, if there is no NUL. -/
theorem mem_reads (hstdin : 0 ∉ stdin) :
    ∀ l ∈ reads (· = newline) wordSize stdin, 0 ∉ l ∧ l ≠ [] ∧ l.length < wordSize := by
  intro l hl
  rw [reads_eq (by decide)] at hl
  obtain ⟨l', hl', hchunk⟩ := List.mem_flatMap.mp hl
  obtain ⟨hne, hlen, hsub⟩ := mem_chunks hchunk
  refine ⟨fun hzero ↦ hstdin ?_, hne, Nat.lt_of_le_of_lt hlen (by decide)⟩
  have hmem := List.mem_flatten_of_mem hl' (hsub hzero)
  rwa [flatten_lines] at hmem

/-- The last character of a line is the newline, if it has one. -/
theorem dropLast_eq_chomp_iff (hline : line ∈ lines (· = newline) stdin) :
    line.dropLast = chomp line ↔ line.getLast? = some newline := by
  rcases ended_or_of_mem_lines hline with ⟨w, c, hw, hc, rfl⟩ | ⟨hne, hnewline⟩
  · obtain rfl : c = newline := by simpa using hc
    have hchomp : chomp (w ++ [newline]) = w := by
      have hpos : ∀ x ∈ w, decide (x ≠ newline) = true := by simpa using hw
      rw [chomp, List.takeWhile_append_of_pos hpos, List.takeWhile_cons_of_neg (by simp),
        List.append_nil]
    exact iff_of_true (by rw [hchomp, List.dropLast_concat]) (by simp)
  · have hchomp : chomp line = line := List.takeWhile_eq_self_iff.mpr (by simpa using hnewline)
    refine iff_of_false ?_ ?_
    · intro heq
      have hlen := congrArg List.length (heq.trans hchomp)
      have hpos := List.length_pos_of_ne_nil hne
      rw [List.length_dropLast] at hlen
      omega
    · intro hlast
      exact absurd (hnewline newline (List.mem_of_getLast? hlast)) (by simp)

/-- A lookup that knows no word hears of every line. -/
theorem lines_of_faithful (hstdin : 0 ∉ stdin) (h : Faithful stdin) :
    ∀ l ∈ lines (· = newline) stdin, l.getLast? = some newline ∧ l.length < wordSize := by
  have hended : (promptMain (fun () tryit ↦ (.NOTFOUND, tryit, ())) () Dictrec.blank stdin).ended :=
    ended_promptLoop (fun _ _ ↦ by simp) () _ _
  have hall := (h Unit _ () Dictrec.blank).2.1 hended
  rw [promptMain, (passed_promptLoop (mem_reads hstdin)).2 hended] at hall
  have hlength := congrArg List.length hall
  rw [List.length_map, List.length_map] at hlength
  have hfit := length_lt_of_reads (by decide) hlength.le
  rw [reads_eq_lines (by decide) hfit] at hall
  intro l hl
  exact ⟨(dropLast_eq_chomp_iff hl).mp (List.map_inj_left.mp hall l hl), hfit l hl⟩

/-- **The lines are looked up** as they are, if and only if each ends with a newline and fits into
the field. -/
theorem faithful_iff (stdin : List UInt8) (hstdin : 0 ∉ stdin) : Faithful stdin ↔
    ∀ l ∈ lines (· = newline) stdin, l.getLast? = some newline ∧ l.length < wordSize := by
  constructor
  · exact lines_of_faithful hstdin
  · intro h σ lookup s tryit
    have hreads : reads (· = newline) wordSize stdin = lines (· = newline) stdin :=
      reads_eq_lines (by decide) fun l hl ↦ (h l hl).2
    have hmap : (lines (· = newline) stdin).map List.dropLast =
        (lines (· = newline) stdin).map chomp :=
      List.map_congr_left fun l hl ↦ (dropLast_eq_chomp_iff hl).mpr (h l hl).1
    rw [promptMain, ← hmap, ← hreads]
    obtain ⟨hpassed, hended⟩ := passed_promptLoop (mem_reads hstdin)
    exact ⟨hpassed, hended, fun hlookup ↦ ended_promptLoop hlookup s tryit _⟩

/-- The word `a`, with its newline. -/
theorem faithful_a : Faithful [97, newline] ↔
    ∀ l ∈ lines (· = newline) [97, newline], l.getLast? = some newline ∧ l.length < wordSize :=
  faithful_iff [97, newline] (by decide)

/-- And without one: an empty word is looked up. -/
theorem not_faithful_a : ¬ ∀ stdin : List UInt8, 0 ∉ stdin → Faithful stdin := by
  intro h
  have hall := lines_of_faithful (by decide) (h [97] (by decide))
  exact absurd (hall [97] (by decide)).1 (by decide)

end SysProg.NetDict
