import Mathlib.Data.List.TakeWhile

/-!
# Tokens

What the C function `strtok` makes of a string.  `strtok` is one call, which gives a
token and the rest of the string, and `tokens` is the loop that calls it until there is
none.  `words` says what the tokens are, without the loop: the longest stretches without
a delimiter (`tokens_eq_words`).
-/

universe u

namespace SysProg.Lib

variable {α : Type u} {delim : α → Bool} {s t : List α} {c : α}

/-- One call: the next token and what comes after the delimiter that ends it, or `none`
when only delimiters are left. -/
def strtok (delim : α → Bool) (s : List α) : Option (List α × List α) :=
  match s.dropWhile delim with
  | [] => none
  | c :: s => some (c :: s.takeWhile (! delim ·), (s.dropWhile (! delim ·)).drop 1)

theorem strtok_length {rest : List α} (h : strtok delim s = some (t, rest)) :
    rest.length < s.length := by
  unfold strtok at h
  split at h
  · cases h
  · next c s' hs =>
      cases h
      have hdrop : (c :: s').length ≤ s.length := hs ▸ (List.dropWhile_suffix delim).length_le
      have hrest : (s'.dropWhile (! delim ·)).length ≤ s'.length :=
        (List.dropWhile_suffix _).length_le
      rw [List.length_cons] at hdrop
      rw [List.length_drop]
      omega

/-- All tokens, in order. -/
def tokens (delim : α → Bool) (s : List α) : List (List α) :=
  match _h : strtok delim s with
  | none => []
  | some (t, rest) => t :: tokens delim rest
termination_by s.length
decreasing_by exact strtok_length _h

/-- The longest stretches without a delimiter. -/
def words (delim : α → Bool) (s : List α) : List (List α) :=
  (s.splitOnP delim).filter (! ·.isEmpty)

/-- Nothing but delimiters. -/
def Blank (delim : α → Bool) (s : List α) : Prop := ∀ c ∈ s, delim c

instance : Decidable (Blank delim s) := inferInstanceAs (Decidable (∀ c ∈ s, delim c))

/-! ## Words -/

@[simp] theorem words_nil : words delim [] = [] := by
  rw [words, List.splitOnP_nil]
  rfl

theorem words_cons_delim (hc : delim c) (s : List α) : words delim (c :: s) = words delim s := by
  unfold words
  rw [List.splitOnP_cons_eq_if_modifyHead, if_pos hc]
  exact List.filter_cons_of_neg Bool.false_ne_true

/-- A word with no delimiter after it. -/
theorem words_word (ht : ∀ c ∈ t, delim c = false) (hne : t ≠ []) : words delim t = [t] := by
  unfold words
  rw [List.splitOnP_eq_singleton ht]
  exact List.filter_cons_of_pos (by simpa using hne)

/-- A word and a delimiter. -/
theorem words_word_append (ht : ∀ c ∈ t, delim c = false) (hne : t ≠ []) (hc : delim c)
    (s : List α) : words delim (t ++ c :: s) = t :: words delim s := by
  unfold words
  rw [List.splitOnP_append_cons_of_forall_mem ht c hc]
  exact List.filter_cons_of_pos (by simpa using hne)

/-- Delimiters in front of a string add no words. -/
theorem words_append_of_blank (h : Blank delim s) (t : List α) :
    words delim (s ++ t) = words delim t := by
  induction s with
  | nil => rfl
  | cons c s ih =>
      obtain ⟨hc, hs⟩ := List.forall_mem_cons.mp h
      rw [List.cons_append, words_cons_delim hc, ih hs]

theorem words_of_blank (h : Blank delim s) : words delim s = [] := by
  rw [← List.append_nil s, words_append_of_blank h, words_nil]

/-! ## Tokens are words -/

theorem blank_takeWhile (s : List α) : Blank delim (s.takeWhile delim) :=
  fun _ hc ↦ List.mem_takeWhile_imp hc

/-- What stops `dropWhile`. -/
theorem eq_false_of_dropWhile {p : α → Bool} (h : s.dropWhile p = c :: t) : p c = false := by
  have hhead := List.head?_dropWhile_not p s
  rw [h] at hhead
  exact hhead

theorem blank_of_strtok (h : strtok delim s = none) : Blank delim s := by
  unfold strtok at h
  split at h
  · next hs => exact List.dropWhile_eq_nil_iff.mp hs
  · cases h

/-- A call of `strtok` takes delimiters, a word, and one more delimiter, if there is any. -/
theorem exists_of_strtok {rest : List α} (h : strtok delim s = some (t, rest)) :
    ∃ b, Blank delim b ∧ t ≠ [] ∧ (∀ c ∈ t, delim c = false) ∧
      ((s = b ++ t ∧ rest = []) ∨ ∃ c, delim c ∧ s = b ++ (t ++ c :: rest)) := by
  unfold strtok at h
  split at h
  · cases h
  · next c s' hs =>
      cases h
      have hsplit : s.takeWhile delim ++ c :: s' = s := by
        rw [← hs]
        exact List.takeWhile_append_dropWhile
      have hsplit' := List.takeWhile_append_dropWhile (p := (! delim ·)) (l := s')
      refine ⟨s.takeWhile delim, blank_takeWhile s, List.cons_ne_nil _ _, ?_, ?_⟩
      · rintro x (- | ⟨-, hx⟩)
        · exact eq_false_of_dropWhile hs
        · simpa using List.mem_takeWhile_imp hx
      · cases hrest : s'.dropWhile (! delim ·) with
        | nil =>
            rw [hrest, List.append_nil] at hsplit'
            left
            rw [hsplit', hsplit]
            exact ⟨rfl, rfl⟩
        | cons d rest =>
            rw [hrest] at hsplit'
            have hd : delim d := by simpa using eq_false_of_dropWhile hrest
            refine .inr ⟨d, hd, ?_⟩
            rw [List.cons_append, List.drop_one, List.tail_cons, hsplit', hsplit]

/-- What `strtok` gives is the first word. -/
theorem words_of_strtok {rest : List α} (h : strtok delim s = some (t, rest)) :
    words delim s = t :: words delim rest := by
  obtain ⟨b, hb, hne, ht, ⟨rfl, rfl⟩ | ⟨c, hc, rfl⟩⟩ := exists_of_strtok h
  · rw [words_append_of_blank hb, words_word ht hne, words_nil]
  · rw [words_append_of_blank hb, words_word_append ht hne hc]

/-- **The loop finds the words.** -/
theorem tokens_eq_words (s : List α) : tokens delim s = words delim s := by
  induction s using tokens.induct delim with
  | case1 s hs =>
      rw [words_of_blank (blank_of_strtok hs), tokens]
      split
      · rfl
      · next hs' => cases hs.symm.trans hs'
  | case2 s t rest hs ih =>
      rw [words_of_strtok hs, ← ih, tokens]
      split
      · next hs' => cases hs.symm.trans hs'
      · next hs' => cases hs.symm.trans hs'; rfl

/-! ## Blank strings -/

theorem words_eq_nil_iff : words delim s = [] ↔ Blank delim s := by
  refine ⟨fun h ↦ ?_, words_of_blank⟩
  cases hs : strtok delim s with
  | none => exact blank_of_strtok hs
  | some p => cases (words_of_strtok hs).symm.trans h

/-- Delimiters at the end of a string add no words. -/
theorem words_append_blank (s : List α) (h : Blank delim t) :
    words delim (s ++ t) = words delim s := by
  induction s using tokens.induct delim with
  | case1 s hs => rw [words_append_of_blank (blank_of_strtok hs), words_of_blank h,
      words_of_blank (blank_of_strtok hs)]
  | case2 s w rest hs ih =>
      rw [words_of_strtok hs]
      obtain ⟨b, hb, hne, hw, ⟨rfl, rfl⟩ | ⟨c, hc, rfl⟩⟩ := exists_of_strtok hs
      · rw [List.append_assoc, words_append_of_blank hb, words_nil]
        cases t with
        | nil => rw [List.append_nil, words_word hw hne]
        | cons d t =>
            obtain ⟨hd, ht⟩ := List.forall_mem_cons.mp h
            rw [words_word_append hw hne hd, words_of_blank ht]
      · rw [List.append_assoc, words_append_of_blank hb, List.append_assoc, List.cons_append,
          words_word_append hw hne hc, ih]

/-! ## Strings in pieces -/

/-- The words of each string that has any. -/
def phrases (delim : α → Bool) (ss : List (List α)) : List (List (List α)) :=
  (ss.map (words delim)).filter (! ·.isEmpty)

/-- How many strings have words. -/
def countWordy (delim : α → Bool) (ss : List (List α)) : Nat :=
  ss.countP fun s ↦ ! decide (Blank delim s)

variable {ss ls : List (List α)}

theorem phrases_append (ss ss' : List (List α)) :
    phrases delim (ss ++ ss') = phrases delim ss ++ phrases delim ss' := by
  rw [phrases, List.map_append, List.filter_append]
  rfl

theorem phrases_cons_of_blank (h : Blank delim s) (ss : List (List α)) :
    phrases delim (s :: ss) = phrases delim ss := by
  rw [phrases, List.map_cons, words_of_blank h]
  exact List.filter_cons_of_neg Bool.false_ne_true

theorem phrases_cons_of_not_blank (h : ¬ Blank delim s) (ss : List (List α)) :
    phrases delim (s :: ss) = words delim s :: phrases delim ss := by
  rw [phrases, List.map_cons]
  exact List.filter_cons_of_pos (by simpa [words_eq_nil_iff] using h)

theorem countWordy_cons_of_blank (h : Blank delim s) (ss : List (List α)) :
    countWordy delim (s :: ss) = countWordy delim ss :=
  List.countP_cons_of_neg (by simpa using h)

theorem countWordy_cons_of_not_blank (h : ¬ Blank delim s) (ss : List (List α)) :
    countWordy delim (s :: ss) = countWordy delim ss + 1 :=
  List.countP_cons_of_pos (by simpa using h)

theorem length_phrases (ss : List (List α)) :
    (phrases delim ss).length = countWordy delim ss := by
  induction ss with
  | nil => rfl
  | cons s ss ih =>
      by_cases h : Blank delim s
      · rw [phrases_cons_of_blank h, countWordy_cons_of_blank h, ih]
      · rw [phrases_cons_of_not_blank h, countWordy_cons_of_not_blank h, List.length_cons, ih]

theorem blank_append_iff : Blank delim (s ++ t) ↔ Blank delim s ∧ Blank delim t :=
  List.forall_mem_append

/-- Without words in any piece there is none in the whole. -/
theorem blank_flatten_of_countWordy (h : countWordy delim ss = 0) : Blank delim ss.flatten := by
  induction ss with
  | nil => exact fun c hc ↦ absurd hc List.not_mem_nil
  | cons s ss ih =>
      by_cases hs : Blank delim s
      · rw [countWordy_cons_of_blank hs] at h
        exact blank_append_iff.mpr ⟨hs, ih h⟩
      · rw [countWordy_cons_of_not_blank hs] at h
        cases h

/-- **Cutting a string where it does not matter**: with at most one piece that has words,
the pieces have the words of the whole. -/
theorem phrases_of_countWordy_le_one (h : countWordy delim ss ≤ 1) :
    phrases delim ss = phrases delim [ss.flatten] := by
  induction ss with
  | nil => rw [List.flatten_nil, phrases_cons_of_blank fun c hc ↦ absurd hc List.not_mem_nil]
  | cons s ss ih =>
      rw [List.flatten_cons]
      by_cases hs : Blank delim s
      · rw [countWordy_cons_of_blank hs] at h
        rw [phrases_cons_of_blank hs, ih h, phrases, phrases, List.map_singleton,
          List.map_singleton, words_append_of_blank hs]
      · rw [countWordy_cons_of_not_blank hs] at h
        have hzero : countWordy delim ss = 0 := Nat.le_zero.mp (Nat.le_of_succ_le_succ h)
        have hnil : phrases delim ss = [] := by
          rw [← List.length_eq_zero_iff, length_phrases, hzero]
        have hrest : Blank delim ss.flatten := blank_flatten_of_countWordy hzero
        have hwhole : ¬ Blank delim (s ++ ss.flatten) := fun hb ↦ hs (blank_append_iff.mp hb).1
        rw [phrases_cons_of_not_blank hs, phrases_cons_of_not_blank hwhole, hnil,
          words_append_blank s hrest]
        rfl

/-- The whole never has more phrases than its pieces. -/
theorem length_phrases_flatten_le (ss : List (List α)) :
    (phrases delim [ss.flatten]).length ≤ (phrases delim ss).length := by
  by_cases h : countWordy delim ss ≤ 1
  · rw [phrases_of_countWordy_le_one h]
  · rw [length_phrases, length_phrases]
    have hone : countWordy delim [ss.flatten] ≤ 1 := List.countP_le_length
    omega

section

variable {cut : List α → List (List α)} (hcut : ∀ l, (cut l).flatten = l)

include hcut

/-- A string that is cut has no fewer pieces with words. -/
theorem length_phrases_le_cut (l : List α) :
    (phrases delim [l]).length ≤ (phrases delim (cut l)).length := by
  have hlen : (phrases delim [(cut l).flatten]).length ≤ _ := length_phrases_flatten_le (cut l)
  rwa [hcut] at hlen

theorem length_phrases_le_flatMap (ls : List (List α)) :
    (phrases delim ls).length ≤ (phrases delim (ls.flatMap cut)).length := by
  induction ls with
  | nil => exact Nat.le_refl 0
  | cons l ls ih =>
      rw [List.flatMap_cons, ← List.singleton_append, phrases_append, phrases_append,
        List.length_append, List.length_append]
      exact Nat.add_le_add (length_phrases_le_cut hcut l) ih

end

/-- **Strings cut into pieces, one by one**, have the same phrases as the whole strings if and
only if each has at most one piece with words. -/
theorem phrases_flatMap_iff (cut : List α → List (List α)) (hcut : ∀ l, (cut l).flatten = l) :
    phrases delim (ls.flatMap cut) = phrases delim ls ↔
      ∀ l ∈ ls, countWordy delim (cut l) ≤ 1 := by
  induction ls with
  | nil => exact iff_of_true rfl fun l hl ↦ absurd hl List.not_mem_nil
  | cons l ls ih =>
      rw [List.flatMap_cons, ← List.singleton_append, phrases_append, phrases_append,
        List.singleton_append, List.forall_mem_cons]
      refine Iff.trans ?_ (and_congr_right fun _ ↦ ih)
      constructor
      · intro h
        -- the first string has as few pieces with words as the whole, because the rest has enough
        have hlen := congrArg List.length h
        rw [List.length_append, List.length_append] at hlen
        have hfirst : (phrases delim [l]).length ≤ (phrases delim (cut l)).length :=
          length_phrases_le_cut hcut l
        have hrest : (phrases delim ls).length ≤ (phrases delim (ls.flatMap cut)).length :=
          length_phrases_le_flatMap hcut ls
        have hlen' : (phrases delim (cut l)).length = (phrases delim [l]).length := by omega
        obtain ⟨-, heq⟩ := List.append_inj h hlen'
        refine ⟨?_, heq⟩
        rw [← length_phrases, hlen', length_phrases]
        exact List.countP_le_length
      · rintro ⟨hone, heq⟩
        rw [phrases_of_countWordy_le_one hone, hcut, heq]

end SysProg.Lib
