import SysProg.Lib.Memory
import SysProg.Lib.Runs
import SysProg.Shell.Vectors

/-!
# The vector of a line

`parse` of `SP_HW5` takes the tokens of a line one by one and makes `newArgv` one slot larger for
each, and for the NULL behind the last.  A call for memory that fails ends the shell.

* `parse_ok_iff`: the vector is that of the words in `Shell.parse`, if there is memory.
* `fill_slot`: it has these words and then NULL.
* `parse_exact`: no vector for a line without words, else one of its maximal runs; and words
  with delimiters between them are found again.
-/

namespace SysProg.Shell

open SysProg.Lib

namespace Heap

/-- Which calls for memory succeed: those for a slot in `newArgv`, and those for what a slot
points to. -/
structure Mallocs where
  newArgv : Nat → Bool
  entry : Nat → Bool

/-- The calls for `n` slots succeed, from slot `i` on. -/
def Mallocs.Enough (m : Mallocs) (i n : Nat) : Prop := ∀ k < n, m.newArgv (i + k) ∧ m.entry (i + k)

/-- A call for memory; without it the shell ends with a message. -/
def need (succeeds : Bool) (message : String) : Except String Unit :=
  if succeeds then .ok () else .error message

/-- `newArgv` with slot `count`, and memory for what is to be there. -/
def room (m : Mallocs) (newArgv : Block) (count : Nat) : Except String Block := do
  need (m.newArgv count) "realloc newArgv failed"
  need (m.entry count) s!"malloc newArgv[{count}] failed"
  return newArgv.realloc (count + 1)

/-- `while(token)`, and the NULL behind it. -/
def loop (m : Mallocs) (newArgv : Block) (count : Nat) (line : Word) : Except String Block :=
  match _h : strtok delim line with
  | none => do
      let newArgv ← room m newArgv count
      return newArgv.store count none
  | some (token, line) => do
      let newArgv ← room m newArgv count
      loop m (newArgv.store count (some token)) (count + 1) line
termination_by line.length
decreasing_by exact strtok_length _h

/-- `parse` of `SP_HW5`, for a pointer to the bytes of a line. -/
def parse (m : Mallocs) : Option Word → Except String (Option Block)
  | none => return none
  | some line =>
      if cstring line = ascii "\n" then return none
      else match strtok delim (cstring line) with
        | none => return none
        | some (token, rest) => do
            need (m.newArgv 0) "malloc newArgv failed"
            need (m.entry 0) "malloc newArgv[0] failed"
            let newArgv ← loop m ((Block.malloc 1).store 0 (some token)) 1 rest
            return some newArgv

/-- What the loop stores, from slot `i` on. -/
def fill (b : Block) (i : Nat) : List Word → Block
  | [] => (b.realloc (i + 1)).store i none
  | w :: ws => fill ((b.realloc (i + 1)).store i (some w)) (i + 1) ws

variable {m : Mallocs} {b v : Block} {i n : Nat} {line w : Word} {ws : List Word}

/-! ## Memory -/

theorem enough_succ : m.Enough i (n + 1) ↔ (m.newArgv i ∧ m.entry i) ∧ m.Enough (i + 1) n := by
  rw [Mallocs.Enough, Nat.forall_lt_succ_left]
  refine and_congr_right fun _ ↦ forall₂_congr fun k _ ↦ ?_
  rw [Nat.add_assoc, Nat.add_comm 1 k]

theorem need_bind_iff {α : Type} {f : Unit → Except String α} {succeeds : Bool} {message : String}
    {r : α} : (need succeeds message >>= f) = .ok r ↔ succeeds ∧ f () = .ok r := by
  cases succeeds with
  | false => exact iff_of_false nofun fun h ↦ Bool.false_ne_true h.1
  | true => exact (and_iff_right rfl).symm

theorem room_bind_iff {α : Type} {f : Block → Except String α} {r : α} :
    (room m b i >>= f) = .ok r ↔
      (m.newArgv i ∧ m.entry i) ∧ f (b.realloc (i + 1)) = .ok r := by
  rw [room, bind_assoc, need_bind_iff, bind_assoc, need_bind_iff, pure_bind, and_assoc]

/-! ## What is stored -/

theorem fill_size (b : Block) (i : Nat) (ws : List Word) :
    (fill b i ws).size = i + ws.length + 1 := by
  induction ws generalizing b i with
  | nil => rfl
  | cons w ws ih =>
      rw [fill, ih, List.length_cons, Nat.add_assoc i 1, Nat.add_comm 1]

/-- Slots before the first that is stored. -/
theorem fill_slot_of_lt {j : Nat} (hj : j < i) (b : Block) (ws : List Word) :
    (fill b i ws).slot j = b.slot j := by
  induction ws generalizing b i with
  | nil => rw [fill, Block.slot_store, if_neg hj.ne, Block.slot_realloc]
  | cons w ws ih =>
      rw [fill, ih (Nat.lt_succ_of_lt hj), Block.slot_store, if_neg hj.ne, Block.slot_realloc]

/-- **The words and NULL**, from slot `i` on. -/
theorem fill_slot {k : Nat} (hk : k < (nullTerm ws).length) (b : Block) (i : Nat) :
    (fill b i ws).slot (i + k) = (nullTerm ws)[k]? := by
  induction ws generalizing b i k with
  | nil =>
      obtain rfl : k = 0 := Nat.lt_one_iff.mp hk
      rw [Nat.add_zero, fill, Block.slot_store, if_pos rfl]
      rfl
  | cons w ws ih =>
      cases k with
      | zero =>
          rw [Nat.add_zero, fill, fill_slot_of_lt (Nat.lt_add_one i), Block.slot_store, if_pos rfl]
          rfl
      | succ k =>
          rw [fill, Nat.add_comm k, ← Nat.add_assoc, ih (Nat.lt_of_succ_lt_succ hk), nullTerm_cons,
            Nat.add_comm 1, List.getElem?_cons_succ]

theorem exact_fill (b : Block) (ws : List Word) : (fill b 0 ws).Exact ws := by
  intro k hk
  have hslot := fill_slot hk b 0
  rwa [Nat.zero_add] at hslot

/-- The loop stores the words, if there is memory for all of them and the NULL. -/
theorem loop_ok_iff : loop m b i line = .ok v ↔
    m.Enough i ((words delim line).length + 1) ∧ v = fill b i (words delim line) := by
  induction line using tokens.induct delim generalizing b i with
  | case1 line hs =>
      rw [loop]
      split
      · rw [room_bind_iff, words_of_blank (blank_of_strtok hs), List.length_nil, enough_succ]
        have hnone : m.Enough (i + 1) 0 := fun k hk ↦ absurd hk (Nat.not_lt_zero k)
        rw [and_iff_left hnone, fill]
        exact and_congr_right fun _ ↦ ⟨fun h ↦ (Except.ok.inj h).symm, congrArg _ ∘ Eq.symm⟩
      · next hs' => cases hs.symm.trans hs'
  | case2 line token rest hs ih =>
      rw [loop]
      split
      · next hs' => cases hs.symm.trans hs'
      · next hs' =>
          cases hs.symm.trans hs'
          rw [room_bind_iff, ih, words_of_strtok hs, List.length_cons, enough_succ (i := i), fill,
            ← and_assoc]

/-! ## The vector -/

theorem return_some_iff {f : Except String Block} {r : Option Block} :
    (do let newArgv ← f; return some newArgv) = Except.ok r ↔ ∃ v, f = .ok v ∧ r = some v := by
  cases f with
  | error message => exact iff_of_false nofun nofun
  | ok v =>
      constructor
      · rintro ⟨⟩
        exact ⟨v, rfl, rfl⟩
      · rintro ⟨_, ⟨⟩, rfl⟩
        rfl

/-- **The vector of the words**, if there is memory for it. -/
theorem parse_ok_iff {r : Option Block} : parse m (some line) = .ok r ↔
    match Shell.parse (cstring line) with
    | none => r = none
    | some ws => m.Enough 0 (ws.length + 1) ∧ r = some (fill (Block.malloc 1) 0 ws) := by
  have hnone : (return none : Except String (Option Block)) = .ok r ↔ r = none :=
    ⟨fun h ↦ (Except.ok.inj h).symm, fun h ↦ congrArg _ h.symm⟩
  rw [parse, Shell.parse]
  split
  · exact hnone
  · cases hs : strtok delim (cstring line) with
    | none => exact hnone
    | some p =>
        obtain ⟨token, rest⟩ := p
        dsimp only
        rw [need_bind_iff, need_bind_iff, return_some_iff, List.length_cons, enough_succ, and_assoc,
          and_assoc, tokens_eq_words]
        refine and_congr_right fun _ ↦ and_congr_right fun _ ↦ ?_
        constructor
        · rintro ⟨v, hv, rfl⟩
          obtain ⟨henough, rfl⟩ := loop_ok_iff.mp hv
          exact ⟨henough, rfl⟩
        · rintro ⟨henough, rfl⟩
          exact ⟨_, loop_ok_iff.mpr ⟨henough, rfl⟩, rfl⟩

/-- What `parse` makes of a line with these words: their vector, or the end of the shell when
there is no memory for it. -/
def Makes (m : Mallocs) (line : Word) (ws : List Word) : Prop :=
  (m.Enough 0 (ws.length + 1) →
    ∃ v, parse m (some line) = .ok (some v) ∧ v.size = ws.length + 1 ∧ v.Exact ws) ∧
  (¬ m.Enough 0 (ws.length + 1) → ∃ message, parse m (some line) = .error message)

theorem makes_words (m : Mallocs) (h : ¬ Blank delim (cstring line)) :
    Makes m line (words delim (cstring line)) := by
  have hparse : Shell.parse (cstring line) = some (words delim (cstring line)) := by
    rw [parse_eq, if_neg (mt words_eq_nil_iff.mp h)]
  have hok (r : Option Block) : parse m (some line) = .ok r ↔
      m.Enough 0 ((words delim (cstring line)).length + 1) ∧
        r = some (fill (Block.malloc 1) 0 (words delim (cstring line))) := by
    rw [parse_ok_iff, hparse]
  refine ⟨fun henough ↦ ⟨_, (hok _).mpr ⟨henough, rfl⟩, ?_, exact_fill _ _⟩, fun henough ↦ ?_⟩
  · rw [fill_size, Nat.zero_add]
  · cases hr : parse m (some line) with
    | error message => exact ⟨message, rfl⟩
    | ok r => exact absurd ((hok r).mp hr).1 henough

theorem parse_none_iff : parse m (some line) = .ok none ↔ Blank delim (cstring line) := by
  rw [parse_ok_iff, parse_eq, ← words_eq_nil_iff]
  by_cases h : words delim (cstring line) = []
  · rw [if_pos h]
    exact iff_of_true rfl h
  · rw [if_neg h]
    exact iff_of_false (fun hparse ↦ nomatch hparse.2) h

/-! ## Round trip -/

theorem notMem_of_blank {s : Word} (h : Blank delim s) : 0 ∉ s := by
  intro hzero
  cases h 0 hzero

/-- A word: not empty, and without delimiters and NUL. -/
def IsWord (w : Word) : Prop := w ≠ [] ∧ ∀ c ∈ w, delim c = false ∧ c ≠ 0

instance : Decidable (IsWord w) := @instDecidableAnd _ _ inferInstance (List.decidableBAll _ w)

/-- Delimiters that separate two words. -/
def IsGap (d : Word) : Prop := d ≠ [] ∧ Blank delim d

instance {d : Word} : Decidable (IsGap d) := inferInstanceAs (Decidable (_ ∧ Blank delim d))

theorem notMem_join {w : Word} {ps : List (Word × Word)} (hw : IsWord w)
    (hps : ∀ p ∈ ps, IsGap p.1 ∧ IsWord p.2) : 0 ∉ join w ps := by
  rw [join, List.mem_append, List.mem_flatMap]
  rintro (hzero | ⟨p, hp, hzero⟩)
  · exact (hw.2 0 hzero).2 rfl
  · obtain ⟨hgap, hword⟩ := hps p hp
    rcases List.mem_append.mp hzero with hzero | hzero
    · exact notMem_of_blank hgap.2 hzero
    · exact (hword.2 0 hzero).2 rfl

/-- **Words joined by delimiters** are what `parse` makes of the line. -/
theorem makes_join (m : Mallocs) {lead trail w : Word} {ps : List (Word × Word)}
    (hlead : Blank delim lead) (htrail : Blank delim trail) (hw : IsWord w)
    (hps : ∀ p ∈ ps, IsGap p.1 ∧ IsWord p.2) (behind : Word) :
    Makes m (lead ++ join w ps ++ trail ++ 0 :: behind) (w :: ps.map Prod.snd) := by
  have hnul : 0 ∉ lead ++ join w ps ++ trail := by
    intro hzero
    rcases List.mem_append.mp hzero with hzero | hzero
    · rcases List.mem_append.mp hzero with hzero | hzero
      · exact notMem_of_blank hlead hzero
      · exact notMem_join hw hps hzero
    · exact notMem_of_blank htrail hzero
  have hwords : words delim (lead ++ join w ps ++ trail) = w :: ps.map Prod.snd := by
    rw [words_append_blank _ htrail, words_append_of_blank hlead,
      words_join ⟨hw.1, fun c hc ↦ (hw.2 c hc).1⟩]
    exact fun p hp ↦ ⟨(hps p hp).1, (hps p hp).2.1, fun c hc ↦ ((hps p hp).2.2 c hc).1⟩
  have hcstring := cstring_append_zero hnul behind
  have hblank : ¬ Blank delim (cstring (lead ++ join w ps ++ trail ++ 0 :: behind)) := by
    rw [hcstring, ← words_eq_nil_iff, hwords]
    exact List.cons_ne_nil _ _
  have hmakes := makes_words m hblank
  rwa [hcstring, hwords] at hmakes

/-- **The tokeniser.**  There is no vector if and only if the line has nothing but delimiters;
else it has the maximal runs of other characters, in order, and NULL.  Words that are joined by
delimiters are found again. -/
theorem parse_exact (m : Mallocs) :
    (∀ line, parse m (some line) = .ok none ↔ Blank delim (cstring line)) ∧
    (∀ line, ¬ Blank delim (cstring line) → ∃ ws, Runs delim (cstring line) ws ∧ Makes m line ws) ∧
    ∀ (lead trail w behind : Word) (ps : List (Word × Word)), Blank delim lead →
      Blank delim trail → IsWord w → (∀ p ∈ ps, IsGap p.1 ∧ IsWord p.2) →
        Makes m (lead ++ join w ps ++ trail ++ 0 :: behind) (w :: ps.map Prod.snd) :=
  ⟨fun _ ↦ parse_none_iff, fun line h ↦ ⟨_, runs_words (cstring line), makes_words m h⟩,
    fun _ _ _ behind _ hlead htrail hw hps ↦ makes_join m hlead htrail hw hps behind⟩

/-- A line of one word, and one of two with a space in front and a newline behind. -/
theorem parse_exact_ls :
    (∃ ws, Runs delim (ascii "ls") ws ∧ Makes ⟨fun _ ↦ true, fun _ ↦ true⟩ (ascii "ls") ws) ∧
    ∃ v, parse ⟨fun _ ↦ true, fun _ ↦ true⟩ (some (ascii " ls  -l\n" ++ [0])) = .ok (some v) ∧
      v.size = 3 ∧ v.Exact [ascii "ls", ascii "-l"] := by
  obtain ⟨-, hruns, hjoin⟩ := parse_exact ⟨fun _ ↦ true, fun _ ↦ true⟩
  obtain ⟨hmakes, -⟩ := hjoin (ascii " ") (ascii "\n") (ascii "ls") [] [(ascii "  ", ascii "-l")]
    (by decide) (by decide) (by decide) (by decide)
  exact ⟨hruns (ascii "ls") (by decide), hmakes fun _ _ ↦ ⟨rfl, rfl⟩⟩

end Heap

end SysProg.Shell
