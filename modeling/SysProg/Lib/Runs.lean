import SysProg.Lib.Token

/-!
# Maximal runs

The positions where something holds fall into runs.  `IsRun f i j` is one of them: `f` holds
from `i` to before `j`, neither right before `i` nor at `j`.

* `Runs`: these strings are all the maximal runs without a delimiter, in order.
* `runs_words`: the words are.
* `words_join`: words with delimiters between them are found again.
-/

universe u

namespace SysProg.Lib

/-- A longest stretch of positions where `f` holds. -/
structure IsRun (f : Nat → Bool) (i j : Nat) : Prop where
  lt : i < j
  inside : ∀ k, i ≤ k → k < j → f k
  before : ∀ k, k + 1 = i → f k = false
  after : f j = false

section

variable {f g : Nat → Bool} {i j m n : Nat}

/-- Behind a position where `f` does not hold, its runs are those of the rest. -/
theorem isRun_add_iff (hn : f n = false) (hrest : ∀ k, f (n + 1 + k) = g k) :
    IsRun f (n + 1 + i) (n + 1 + j) ↔ IsRun g i j := by
  constructor
  · intro h
    refine ⟨Nat.lt_of_add_lt_add_left h.lt, fun k hik hkj ↦ ?_, fun k hk ↦ ?_, ?_⟩
    · rw [← hrest]
      exact h.inside _ (Nat.add_le_add_left hik _) (Nat.add_lt_add_left hkj _)
    · rw [← hrest]
      exact h.before _ (by omega)
    · rw [← hrest]
      exact h.after
  · intro h
    refine ⟨Nat.add_lt_add_left h.lt _, fun k hik hkj ↦ ?_, fun k hk ↦ ?_, ?_⟩
    · obtain ⟨k, rfl⟩ := Nat.exists_eq_add_of_le (Nat.le_trans (Nat.le_add_right _ _) hik)
      rw [hrest]
      exact h.inside k (Nat.le_of_add_le_add_left hik) (Nat.lt_of_add_lt_add_left hkj)
    · cases i with
      | zero =>
          obtain rfl : k = n := Nat.succ.inj hk
          exact hn
      | succ i =>
          obtain ⟨k, rfl⟩ := Nat.exists_eq_add_of_le (show n + 1 ≤ k by omega)
          rw [hrest]
          exact h.before k (by omega)
    · rw [hrest]
      exact h.after

/-- **The first run**, and behind it those of the rest. -/
theorem isRun_iff (hlt : m < n) (hbefore : ∀ k < m, f k = false)
    (hinside : ∀ k, m ≤ k → k < n → f k) (hafter : f n = false)
    (hrest : ∀ k, f (n + 1 + k) = g k) :
    IsRun f i j ↔ (i = m ∧ j = n) ∨ ∃ i' j', IsRun g i' j' ∧ i = n + 1 + i' ∧ j = n + 1 + j' := by
  constructor
  · intro h
    have hi : f i := h.inside i (Nat.le_refl i) h.lt
    rcases Nat.lt_or_ge n i with hni | hin
    · obtain ⟨i', rfl⟩ := Nat.exists_eq_add_of_le hni
      obtain ⟨j', rfl⟩ := Nat.exists_eq_add_of_le (Nat.le_trans hni h.lt.le)
      exact .inr ⟨i', j', (isRun_add_iff hafter hrest).mp h, rfl, rfl⟩
    · -- up to `n` there is no other run
      have hmi : m ≤ i := by
        by_contra him
        exact Bool.false_ne_true (hbefore i (Nat.lt_of_not_le him) ▸ hi)
      have hne : i ≠ n := by
        rintro rfl
        exact Bool.false_ne_true (hafter ▸ hi)
      have him : i = m := by
        by_contra him
        have hbefore' := h.before (i - 1) (by omega)
        rw [hinside (i - 1) (by omega) (by omega)] at hbefore'
        cases hbefore'
      have hjn : j ≤ n := by
        by_contra hjn
        exact Bool.false_ne_true (hafter ▸ h.inside n hin (Nat.lt_of_not_le hjn))
      refine .inl ⟨him, Nat.le_antisymm hjn (Nat.le_of_not_lt fun hlt ↦ ?_)⟩
      have hj : f j := hinside j (Nat.le_trans hmi h.lt.le) hlt
      exact Bool.false_ne_true (h.after ▸ hj)
  · rintro (⟨rfl, rfl⟩ | ⟨i', j', h, rfl, rfl⟩)
    · exact ⟨hlt, hinside, fun k hk ↦ hbefore k (Nat.lt_of_succ_le hk.le), hafter⟩
    · exact (isRun_add_iff hafter hrest).mpr h

end

variable {α : Type u} {delim : α → Bool} {s t : List α} {ws : List (List α)}

/-- There is a character at a position, and it is no delimiter. -/
def wordChar (delim : α → Bool) (s : List α) (k : Nat) : Bool := s[k]?.any (! delim ·)

/-- What stands from a position to before another. -/
def slice (s : List α) (p : Nat × Nat) : List α := (s.drop p.1).take (p.2 - p.1)

/-- These are the maximal runs without a delimiter, all of them and in order. -/
def Runs (delim : α → Bool) (s : List α) (ws : List (List α)) : Prop :=
  ∃ ps : List (Nat × Nat), ps.Pairwise (fun p q ↦ p.1 < q.1) ∧
    (∀ p, p ∈ ps ↔ IsRun (wordChar delim s) p.1 p.2) ∧ ps.map (slice s) = ws

theorem wordChar_append_add (b s : List α) (k : Nat) :
    wordChar delim (b ++ s) (b.length + k) = wordChar delim s k := by
  rw [wordChar, List.getElem?_append_right (Nat.le_add_right _ k), Nat.add_sub_cancel_left,
    wordChar]

theorem wordChar_append_of_lt {k : Nat} (hk : k < s.length) (t : List α) :
    wordChar delim (s ++ t) k = ! delim s[k] := by
  rw [wordChar, List.getElem?_append_left hk, List.getElem?_eq_getElem hk, Option.any_some]

theorem slice_append_add (b s : List α) (i j : Nat) :
    slice (b ++ s) (b.length + i, b.length + j) = slice s (i, j) := by
  show ((b ++ s).drop (b.length + i)).take (b.length + j - (b.length + i)) = _
  rw [List.drop_length_add_append, Nat.add_sub_add_left]
  rfl

/-! ## Words are runs -/

theorem runs_of_blank (h : Blank delim s) : Runs delim s [] := by
  refine ⟨[], .nil, fun p ↦ iff_of_false List.not_mem_nil fun hp ↦ ?_, rfl⟩
  obtain ⟨c, hc, hword⟩ := (Option.any_eq_true _ _).mp (hp.inside p.1 (Nat.le_refl _) hp.lt)
  rw [h c (List.mem_of_getElem? hc)] at hword
  cases hword

section

variable {b rest : List α} (hb : Blank delim b) (hne : t ≠ []) (ht : ∀ c ∈ t, delim c = false)
  (hrest : ∀ c ∈ rest.head?, delim c)

include hb hne ht hrest

/-- The runs of delimiters, a word and the rest. -/
theorem isRun_wordChar_iff (i j : Nat) :
    IsRun (wordChar delim (b ++ (t ++ rest))) i j ↔
      (i = b.length ∧ j = b.length + t.length) ∨
        ∃ i' j', IsRun (wordChar delim (rest.drop 1)) i' j' ∧
          i = b.length + t.length + 1 + i' ∧ j = b.length + t.length + 1 + j' := by
  refine isRun_iff ?_ (fun k hk ↦ ?_) (fun k hbk hk ↦ ?_) ?_ fun k ↦ ?_
  · exact Nat.lt_add_of_pos_right (List.length_pos_iff.mpr hne)
  · rw [wordChar_append_of_lt hk, hb _ (List.getElem_mem hk)]
    rfl
  · obtain ⟨k, rfl⟩ := Nat.exists_eq_add_of_le hbk
    have hk' : k < t.length := Nat.lt_of_add_lt_add_left hk
    rw [wordChar_append_add, wordChar_append_of_lt hk', ht _ (List.getElem_mem hk')]
    rfl
  · -- a delimiter or the end of the string
    rw [wordChar_append_add, ← Nat.add_zero t.length, wordChar_append_add, wordChar,
      ← List.head?_eq_getElem?]
    cases hhead : rest.head? with
    | none => rfl
    | some c => simpa using hrest c hhead
  · rw [Nat.add_assoc, Nat.add_assoc, wordChar_append_add, wordChar_append_add, wordChar, wordChar,
      List.getElem?_drop]

theorem runs_cons (h : Runs delim (rest.drop 1) ws) : Runs delim (b ++ (t ++ rest)) (t :: ws) := by
  obtain ⟨ps, hps, hmem, rfl⟩ := h
  refine ⟨(b.length, b.length + t.length) ::
    ps.map (fun p ↦ (b.length + t.length + 1 + p.1, b.length + t.length + 1 + p.2)), ?_, ?_, ?_⟩
  · refine List.pairwise_cons.mpr ⟨fun p hp ↦ ?_, List.pairwise_map.mpr (hps.imp fun hlt ↦ ?_)⟩
    · obtain ⟨q, -, rfl⟩ := List.mem_map.mp hp
      show b.length < b.length + t.length + 1 + q.1
      omega
    · exact Nat.add_lt_add_left hlt _
  · rintro ⟨i, j⟩
    rw [isRun_wordChar_iff hb hne ht hrest, List.mem_cons, List.mem_map, Prod.mk.injEq]
    refine or_congr_right ⟨?_, ?_⟩
    · rintro ⟨q, hq, heq⟩
      cases heq
      exact ⟨q.1, q.2, (hmem q).mp hq, rfl, rfl⟩
    · rintro ⟨i', j', h, rfl, rfl⟩
      exact ⟨(i', j'), (hmem _).mpr h, rfl⟩
  · rw [List.map_cons, List.map_map]
    refine congrArg₂ List.cons ?_ (List.map_congr_left fun p _ ↦ ?_)
    · rw [← Nat.add_zero b.length, Nat.add_assoc, slice_append_add, Nat.zero_add]
      exact List.take_left
    · rw [Function.comp_apply, Nat.add_assoc, Nat.add_assoc, Nat.add_assoc, Nat.add_assoc,
        slice_append_add, slice_append_add]
      show ((rest.drop (1 + p.1)).take _) = _
      rw [Nat.add_sub_add_left, ← List.drop_drop]
      rfl

end

/-- **The words of a string are its maximal runs.** -/
theorem runs_words (s : List α) : Runs delim s (words delim s) := by
  induction s using tokens.induct delim with
  | case1 s hs =>
      have hblank := blank_of_strtok hs
      rw [words_of_blank hblank]
      exact runs_of_blank hblank
  | case2 s t rest hs ih =>
      rw [words_of_strtok hs]
      obtain ⟨b, hb, hne, ht, ⟨rfl, rfl⟩ | ⟨c, hc, rfl⟩⟩ := exists_of_strtok hs
      · have hcons : Runs delim (b ++ (t ++ [])) (t :: words delim []) :=
          runs_cons hb hne ht (fun d hd ↦ absurd hd (Option.not_mem_none d)) ih
        rwa [List.append_nil] at hcons
      · exact runs_cons hb hne ht (fun d hd ↦ by cases hd; exact hc) ih

/-! ## Joining words -/

/-- A word, and others with what stands in front of each. -/
def join (w : List α) (ps : List (List α × List α)) : List α := w ++ ps.flatMap fun p ↦ p.1 ++ p.2

theorem join_cons (w d v : List α) (ps : List (List α × List α)) :
    join w ((d, v) :: ps) = w ++ (d ++ join v ps) := by
  rw [join, List.flatMap_cons, List.append_assoc, join]

/-- **Words with delimiters between them** are found again. -/
theorem words_join {w : List α} {ps : List (List α × List α)}
    (hw : w ≠ [] ∧ ∀ c ∈ w, delim c = false)
    (hps : ∀ p ∈ ps, (p.1 ≠ [] ∧ Blank delim p.1) ∧ p.2 ≠ [] ∧ ∀ c ∈ p.2, delim c = false) :
    words delim (join w ps) = w :: ps.map Prod.snd := by
  induction ps generalizing w with
  | nil =>
      rw [join, List.flatMap_nil, List.append_nil]
      exact words_word hw.2 hw.1
  | cons p ps ih =>
      obtain ⟨d, v⟩ := p
      obtain ⟨⟨⟨hne, hd⟩, hv⟩, hps'⟩ := List.forall_mem_cons.mp hps
      obtain ⟨c, d, rfl⟩ := List.exists_cons_of_ne_nil hne
      obtain ⟨hc, hd⟩ := List.forall_mem_cons.mp hd
      rw [join_cons, List.cons_append, words_word_append hw.2 hw.1 hc, words_append_of_blank hd,
        ih hv hps']
      rfl

end SysProg.Lib
