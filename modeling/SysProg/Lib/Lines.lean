import Mathlib.Data.List.Basic

/-!
# Lines and fixed-size buffers

`lines` cuts a stream at its end-of-line characters, which stay with their lines.  `fgets`
is the C function: it reads no further than the end of the line, and no more than fits in
the buffer, so a long line takes several calls.  `reads` is the loop that calls it until
the end of the stream, and `reads_eq` says what it gets: each line in pieces that fill
the buffer.
-/

universe u v w

namespace SysProg.Lib

variable {α : Type u} {β : Type v} {γ : Type w} {eol : α → Bool} {s l : List α}
  {ls : List (List α)} {k n : Nat} {c : α}

/-! ## Lines -/

/-- Put a character before the first of some lines. -/
def consFirst (c : α) : List (List α) → List (List α)
  | [] => [[c]]
  | l :: ls => (c :: l) :: ls

/-- The lines of a stream.  Each ends with its end-of-line character, but for what comes
after the last of these. -/
def lines (eol : α → Bool) : List α → List (List α)
  | [] => []
  | c :: s => if eol c then [c] :: lines eol s else consFirst c (lines eol s)

/-- Put a line before others, unless it is empty. -/
def consLine (l : List α) (ls : List (List α)) : List (List α) :=
  if l.isEmpty then ls else l :: ls

theorem lines_eq_nil_iff : lines eol s = [] ↔ s = [] := by
  cases s with
  | nil => exact iff_of_true rfl rfl
  | cons c s =>
      refine iff_of_false ?_ (List.cons_ne_nil c s)
      rw [lines]
      split
      · exact List.cons_ne_nil _ _
      · cases lines eol s <;> exact List.cons_ne_nil _ _

theorem ne_nil_of_mem_lines (h : l ∈ lines eol s) : l ≠ [] := by
  induction s generalizing l with
  | nil => cases h
  | cons c s ih =>
      rw [lines] at h
      split at h
      · rcases List.mem_cons.mp h with rfl | h
        · exact List.cons_ne_nil c []
        · exact ih h
      · cases hs : lines eol s with
        | nil =>
            rw [hs] at h
            rw [List.mem_singleton.mp h]
            exact List.cons_ne_nil c []
        | cons l' ls =>
            rw [hs] at h
            rcases List.mem_cons.mp h with rfl | h
            · exact List.cons_ne_nil c l'
            · exact ih (hs ▸ List.mem_cons_of_mem l' h)

@[simp] theorem consLine_nil (ls : List (List α)) : consLine [] ls = ls := rfl

theorem consLine_of_ne_nil (h : l ≠ []) (ls : List (List α)) : consLine l ls = l :: ls :=
  if_neg (by simpa using h)

/-- The first line begins with the first character, and goes on unless that ends it. -/
theorem lines_cons (h : lines eol (c :: s) = l :: ls) :
    ∃ l', l = c :: l' ∧ lines eol s = consLine l' ls ∧ (l' = [] → eol c ∨ s = []) ∧
      (eol c → l' = []) := by
  rw [lines] at h
  split at h
  · next hc =>
      cases h
      exact ⟨[], rfl, rfl, fun _ ↦ .inl hc, fun _ ↦ rfl⟩
  · next hc =>
      cases hs : lines eol s with
      | nil =>
          rw [hs] at h
          cases h
          exact ⟨[], rfl, rfl, fun _ ↦ .inr (lines_eq_nil_iff.mp hs), fun hc' ↦ absurd hc' hc⟩
      | cons l' ls' =>
          rw [hs] at h
          cases h
          have hne : l' ≠ [] := ne_nil_of_mem_lines (hs ▸ List.mem_cons_self)
          exact ⟨l', rfl, (consLine_of_ne_nil hne ls).symm, fun hnil ↦ absurd hnil hne,
            fun hc' ↦ absurd hc' hc⟩

theorem flatten_lines (s : List α) : (lines eol s).flatten = s := by
  induction s with
  | nil => rfl
  | cons c s ih =>
      rw [lines]
      split
      · rw [List.flatten_cons, ih, List.singleton_append]
      · cases hs : lines eol s with
        | nil => rw [lines_eq_nil_iff.mp hs]; rfl
        | cons l ls =>
            rw [hs] at ih
            rw [consFirst, List.flatten_cons, List.cons_append, ← List.flatten_cons, ih]

/-! ## Pieces -/

/-- Pieces of `k` elements, the last one perhaps shorter. -/
def chunks (k : Nat) (s : List α) : List (List α) :=
  if _h : 0 < k ∧ 0 < s.length then s.take k :: chunks k (s.drop k) else []
termination_by s.length
decreasing_by
  rw [List.length_drop]
  omega

@[simp] theorem chunks_nil (k : Nat) : chunks k ([] : List α) = [] := by
  rw [chunks, dif_neg fun h ↦ Nat.lt_irrefl 0 h.2]

theorem chunks_eq (hk : 0 < k) (hs : s ≠ []) : chunks k s = s.take k :: chunks k (s.drop k) := by
  rw [chunks, dif_pos ⟨hk, List.length_pos_of_ne_nil hs⟩]

/-- What fits is one piece. -/
theorem chunks_of_length_le (hs : s ≠ []) (hle : s.length ≤ k) : chunks k s = [s] := by
  have hk : 0 < k := Nat.lt_of_lt_of_le (List.length_pos_of_ne_nil hs) hle
  rw [chunks_eq hk hs, List.take_of_length_le hle, List.drop_of_length_le hle, chunks_nil]

theorem flatten_chunks (hk : 0 < k) (s : List α) : (chunks k s).flatten = s := by
  induction s using chunks.induct k with
  | case1 s h ih =>
      rw [chunks_eq hk (List.ne_nil_of_length_pos h.2), List.flatten_cons, ih,
        List.take_append_drop]
  | case2 s h =>
      obtain rfl : s = [] := by
        by_contra hne
        exact h ⟨hk, List.length_pos_of_ne_nil hne⟩
      rw [chunks_nil, List.flatten_nil]

/-- A piece is not empty, and is a part of what has been cut. -/
theorem mem_chunks (h : l ∈ chunks k s) : l ≠ [] ∧ l.length ≤ k ∧ l ⊆ s := by
  induction s using chunks.induct k with
  | case1 s hs ih =>
      rw [chunks_eq hs.1 (List.ne_nil_of_length_pos hs.2)] at h
      rcases List.mem_cons.mp h with rfl | h
      · refine ⟨?_, List.length_take_le k s, List.take_subset k s⟩
        exact List.ne_nil_of_length_pos (by rw [List.length_take]; exact Nat.lt_min.mpr hs)
      · obtain ⟨hne, hlen, hsub⟩ := ih h
        exact ⟨hne, hlen, List.Subset.trans hsub (List.drop_subset k s)⟩
  | case2 s hs =>
      rw [chunks, dif_neg hs] at h
      cases h

/-- What is one piece fits. -/
theorem length_chunks_le_one_iff (hk : 0 < k) (hs : s ≠ []) :
    (chunks k s).length ≤ 1 ↔ s.length ≤ k := by
  constructor
  · intro h
    rw [chunks_eq hk hs, List.length_cons] at h
    have hnil : chunks k (s.drop k) = [] := List.eq_nil_of_length_eq_zero (by omega)
    have hdrop := flatten_chunks hk (s.drop k)
    rw [hnil, List.flatten_nil] at hdrop
    exact List.drop_eq_nil_iff.mp hdrop.symm
  · intro h
    rw [chunks_of_length_le hs h]
    exact Nat.le_refl 1

/-! ## Reading -/

/-- At most `k` characters, up to the end of the line, and what is left of the stream. -/
def getLine (eol : α → Bool) : Nat → List α → List α × List α
  | 0, s => ([], s)
  | _ + 1, [] => ([], [])
  | k + 1, c :: s =>
      if eol c then ([c], s) else (c :: (getLine eol k s).1, (getLine eol k s).2)

/-- `fgets` with a buffer of `n` characters, one of which is for the NUL. -/
def fgets (eol : α → Bool) (n : Nat) : List α → Option (List α × List α)
  | [] => none
  | s => some (getLine eol (n - 1) s)

/-- What `fgets` gives, call after call, until the end of the stream; a buffer with no room
gives nothing. -/
def reads (eol : α → Bool) (n : Nat) (s : List α) : List (List α) :=
  match fgets eol n s with
  | none => []
  | some (l, rest) => if rest.length < s.length then l :: reads eol n rest else []
termination_by s.length

/-- The first line, as far as it fits; the rest of it is then the first line. -/
theorem getLine_eq (h : lines eol s = l :: ls) (k : Nat) :
    ∃ rest, getLine eol k s = (l.take k, rest) ∧ lines eol rest = consLine (l.drop k) ls ∧
      rest.length + (l.take k).length = s.length := by
  induction k generalizing s l with
  | zero =>
      have hne : l ≠ [] := ne_nil_of_mem_lines (h ▸ List.mem_cons_self)
      exact ⟨s, rfl, by rw [h, List.drop_zero, consLine_of_ne_nil hne], rfl⟩
  | succ k ih =>
      cases s with
      | nil => cases h
      | cons c s =>
          obtain ⟨l', rfl, hs, hend, heol⟩ := lines_cons h
          rw [List.take_succ_cons, List.drop_succ_cons, getLine]
          cases l' with
          | nil =>
              rw [List.take_nil, List.drop_nil, consLine_nil]
              split
              · exact ⟨s, rfl, hs, rfl⟩
              · next hc =>
                  obtain rfl := (hend rfl).resolve_left hc
                  have hnil : getLine eol k ([] : List α) = ([], []) := by cases k <;> rfl
                  rw [hnil]
                  exact ⟨[], rfl, hs, rfl⟩
          | cons d l' =>
              rw [if_neg fun hc ↦ List.cons_ne_nil d l' (heol hc)]
              rw [consLine_of_ne_nil (List.cons_ne_nil d l')] at hs
              obtain ⟨rest, hget, hrest, hlength⟩ := ih hs
              refine ⟨rest, by rw [hget], hrest, ?_⟩
              rw [List.length_cons, List.length_cons, ← hlength]
              omega

/-- `fgets` takes something from the stream. -/
theorem length_lt_of_fgets {rest : List α} (hn : 1 < n) (h : fgets eol n s = some (l, rest)) :
    rest.length < s.length := by
  cases hs : lines eol s with
  | nil =>
      rw [lines_eq_nil_iff.mp hs] at h
      cases h
  | cons first ls =>
      have hne : first ≠ [] := ne_nil_of_mem_lines (hs ▸ List.mem_cons_self)
      obtain ⟨rest', hget, -, hlength⟩ := getLine_eq hs (n - 1)
      have hfgets : fgets eol n s = some (first.take (n - 1), rest') := by
        cases s with
        | nil => cases hs
        | cons c s => rw [fgets, hget]; exact List.cons_ne_nil c s
      obtain ⟨-, rfl⟩ := Prod.mk.inj (Option.some.inj (hfgets.symm.trans h))
      have hpos : 0 < (first.take (n - 1)).length := by
        rw [List.length_take]
        exact Nat.lt_min.mpr ⟨Nat.sub_pos_of_lt hn, List.length_pos_of_ne_nil hne⟩
      omega

/-- **What a loop over `fgets` sees**: each line, cut into pieces that fill the buffer. -/
theorem reads_eq (hn : 1 < n) (s : List α) :
    reads eol n s = (lines eol s).flatMap (chunks (n - 1)) := by
  induction hlen : s.length using Nat.strongRecOn generalizing s with
  | ind m ih =>
      rw [reads]
      cases hl : lines eol s with
      | nil =>
          obtain rfl := lines_eq_nil_iff.mp hl
          rfl
      | cons l ls =>
          have hne : l ≠ [] := ne_nil_of_mem_lines (hl ▸ List.mem_cons_self)
          have hk : 0 < n - 1 := by omega
          obtain ⟨rest, hget, hrest, -⟩ := getLine_eq hl (n - 1)
          have hfgets : fgets eol n s = some (l.take (n - 1), rest) := by
            cases s with
            | nil => cases hl
            | cons c s => rw [fgets, hget]; exact List.cons_ne_nil c s
          have hlt := length_lt_of_fgets hn hfgets
          rw [hfgets]
          show (if rest.length < s.length then _ else _) = _
          rw [if_pos hlt, ih _ (hlen ▸ hlt) rest rfl, hrest, List.flatMap_cons, chunks_eq hk hne,
            List.cons_append]
          by_cases hdrop : l.drop (n - 1) = []
          · rw [hdrop, consLine_nil, chunks_nil, List.nil_append]
          · rw [consLine_of_ne_nil hdrop, List.flatMap_cons]

/-- It loses nothing. -/
theorem flatten_reads (hn : 1 < n) (s : List α) : (reads eol n s).flatten = s := by
  have hchunks : List.flatten ∘ chunks (n - 1) = (id : List α → List α) :=
    funext fun l ↦ flatten_chunks (by omega) l
  rw [reads_eq hn, List.flatMap_def, List.flatten_flatten, List.map_map, hchunks, List.map_id,
    flatten_lines]

/-- When every line fits, the loop sees the lines. -/
theorem reads_eq_lines (hn : 1 < n) (h : ∀ l ∈ lines eol s, l.length < n) :
    reads eol n s = lines eol s := by
  rw [reads_eq hn]
  have hall : ∀ ls ⊆ lines eol s, ls.flatMap (chunks (n - 1)) = ls := by
    intro ls hls
    induction ls with
    | nil => rfl
    | cons l ls ih =>
        obtain ⟨hl, hls⟩ := List.cons_subset.mp hls
        have hle : l.length ≤ n - 1 := Nat.le_sub_one_of_lt (h l hl)
        rw [List.flatMap_cons, chunks_of_length_le (ne_nil_of_mem_lines hl) hle, ih hls]
        rfl
  exact hall _ (List.Subset.refl _)

theorem length_flatMap_le {f : α → List β} {g : α → List γ}
    (h : ∀ x ∈ l, (f x).length ≤ (g x).length) : (l.flatMap f).length ≤ (l.flatMap g).length := by
  induction l with
  | nil => exact Nat.le_refl 0
  | cons x l ih =>
      obtain ⟨hx, hl⟩ := List.forall_mem_cons.mp h
      rw [List.flatMap_cons, List.flatMap_cons, List.length_append, List.length_append]
      exact Nat.add_le_add hx (ih hl)

/-- Where one list of pieces is nowhere the longer one, and as long as the other, it is as long
everywhere. -/
theorem length_le_of_flatMap {f : α → List β} {g : α → List γ}
    (h : ∀ x ∈ l, (f x).length ≤ (g x).length)
    (hle : (l.flatMap g).length ≤ (l.flatMap f).length) :
    ∀ x ∈ l, (g x).length ≤ (f x).length := by
  induction l with
  | nil => simp
  | cons x l ih =>
      obtain ⟨hx, hl⟩ := List.forall_mem_cons.mp h
      have hrest := length_flatMap_le hl
      rw [List.flatMap_cons, List.flatMap_cons, List.length_append, List.length_append] at hle
      exact List.forall_mem_cons.mpr ⟨by omega, ih hl (by omega)⟩

/-- If there are no more reads than lines, every line fits. -/
theorem length_lt_of_reads (hn : 1 < n) (h : (reads eol n s).length ≤ (lines eol s).length) :
    ∀ l ∈ lines eol s, l.length < n := by
  intro l hl
  have hk : 0 < n - 1 := Nat.sub_pos_of_lt hn
  have hpos : ∀ l ∈ lines eol s, [l].length ≤ (chunks (n - 1) l).length := by
    intro l hl
    rw [chunks_eq hk (ne_nil_of_mem_lines hl)]
    exact Nat.succ_le_succ (Nat.zero_le _)
  rw [reads_eq hn] at h
  have hone := length_le_of_flatMap hpos (by rwa [List.flatMap_singleton']) l hl
  have hfit := (length_chunks_le_one_iff hk (ne_nil_of_mem_lines hl)).mp hone
  omega

/-- A line that is ended. -/
theorem lines_append_eol (hl : ∀ x ∈ l, eol x = false) (hc : eol c) (s : List α) :
    lines eol (l ++ c :: s) = (l ++ [c]) :: lines eol s := by
  induction l with
  | nil => rw [List.nil_append, lines, if_pos hc]; rfl
  | cons x l ih =>
      obtain ⟨hx, hl⟩ := List.forall_mem_cons.mp hl
      rw [List.cons_append, lines, if_neg (by simp [hx]), ih hl]
      rfl

/-- A line that is not ended. -/
theorem lines_of_forall (hl : ∀ x ∈ l, eol x = false) : lines eol l = consLine l [] := by
  induction l with
  | nil => rfl
  | cons x l ih =>
      obtain ⟨hx, hl⟩ := List.forall_mem_cons.mp hl
      rw [lines, if_neg (by simp [hx]), ih hl]
      cases l <;> rfl

/-- A text whose lines are all ended. -/
theorem lines_flatten (hc : eol c) (h : ∀ l ∈ ls, ∀ x ∈ l, eol x = false) :
    lines eol ((ls.map (· ++ [c])).flatten) = ls.map (· ++ [c]) := by
  induction ls with
  | nil => rfl
  | cons l ls ih =>
      obtain ⟨hl, hls⟩ := List.forall_mem_cons.mp h
      rw [List.map_cons, List.flatten_cons, List.append_assoc, List.singleton_append,
        lines_append_eol hl hc, ih hls]

/-! ## The last line -/

/-- A line that has its end. -/
def Ended (eol : α → Bool) (l : List α) : Prop :=
  ∃ l' c, (∀ x ∈ l', eol x = false) ∧ eol c ∧ l = l' ++ [c]

theorem Ended.countP_eq_one (h : Ended eol l) : l.countP eol = 1 := by
  obtain ⟨l', c, hl', hc, rfl⟩ := h
  have hzero : l'.countP eol = 0 := List.countP_eq_zero.mpr (by simpa using hl')
  rw [List.countP_append, hzero, List.countP_singleton, if_pos hc]

theorem Ended.ne_nil (h : Ended eol l) : l ≠ [] := by
  obtain ⟨l', c, -, -, rfl⟩ := h
  exact List.concat_ne_nil c l'

theorem countP_flatten_of_ended (h : ∀ l ∈ ls, Ended eol l) :
    ls.flatten.countP eol = ls.length := by
  induction ls with
  | nil => rfl
  | cons l ls ih =>
      obtain ⟨hl, hls⟩ := List.forall_mem_cons.mp h
      rw [List.flatten_cons, List.countP_append, hl.countP_eq_one, ih hls, List.length_cons,
        Nat.add_comm]

/-- They end with an end-of-line character. -/
theorem exists_flatten_eq (h : ∀ l ∈ ls, Ended eol l) (hne : ls ≠ []) :
    ∃ s c, eol c ∧ ls.flatten = s ++ [c] := by
  obtain ⟨ls, l, rfl⟩ := (List.eq_nil_or_concat' ls).resolve_left hne
  obtain ⟨l', c, -, hc, rfl⟩ := h l (by simp)
  exact ⟨ls.flatten ++ l', c, hc, by simp⟩

/-- The lines and the last one, joined. -/
theorem flatten_append_consLine (ls : List (List α)) (r : List α) :
    (ls ++ consLine r []).flatten = ls.flatten ++ r := by
  cases r with
  | nil => rw [consLine_nil, List.append_nil, List.append_nil]
  | cons c r => rw [consLine_of_ne_nil (List.cons_ne_nil c r), List.flatten_concat]

theorem eq_of_lines_eq {r : List α} (h : lines eol s = ls ++ consLine r []) :
    s = ls.flatten ++ r := by
  rw [← flatten_append_consLine, ← h, flatten_lines]

/-- All lines but the last one have their ends. -/
theorem exists_lines_eq (eol : α → Bool) (s : List α) : ∃ ls r,
    lines eol s = ls ++ consLine r [] ∧ (∀ l ∈ ls, Ended eol l) ∧ ∀ x ∈ r, eol x = false := by
  induction s with
  | nil => exact ⟨[], [], rfl, by simp, by simp⟩
  | cons c s ih =>
      obtain ⟨ls, r, hs, hls, hr⟩ := ih
      by_cases hc : eol c
      · have hended : Ended eol [c] := ⟨[], c, by simp, hc, rfl⟩
        refine ⟨[c] :: ls, r, ?_, List.forall_mem_cons.mpr ⟨hended, hls⟩, hr⟩
        rw [lines, if_pos hc, hs, List.cons_append]
      rw [lines, if_neg hc, hs]
      have hc : eol c = false := by simpa using hc
      cases ls with
      | nil =>
          refine ⟨[], c :: r, ?_, hls, List.forall_mem_cons.mpr ⟨hc, hr⟩⟩
          cases r <;> rfl
      | cons l ls =>
          obtain ⟨⟨l', d, hl', hd, rfl⟩, hls'⟩ := List.forall_mem_cons.mp hls
          have hended : Ended eol (c :: (l' ++ [d])) :=
            ⟨c :: l', d, List.forall_mem_cons.mpr ⟨hc, hl'⟩, hd, rfl⟩
          exact ⟨(c :: (l' ++ [d])) :: ls, r, rfl, List.forall_mem_cons.mpr ⟨hended, hls'⟩, hr⟩

/-- And such lines are those of their text. -/
theorem lines_flatten_append {r : List α} (hls : ∀ l ∈ ls, Ended eol l)
    (hr : ∀ x ∈ r, eol x = false) : lines eol (ls.flatten ++ r) = ls ++ consLine r [] := by
  induction ls with
  | nil => exact lines_of_forall hr
  | cons l ls ih =>
      obtain ⟨⟨l', c, hl', hc, rfl⟩, hls'⟩ := List.forall_mem_cons.mp hls
      rw [List.flatten_cons, List.append_assoc, List.append_assoc, List.singleton_append,
        lines_append_eol hl' hc, ih hls', List.cons_append]

theorem ended_or_of_mem_lines (h : l ∈ lines eol s) :
    Ended eol l ∨ l ≠ [] ∧ ∀ x ∈ l, eol x = false := by
  obtain ⟨ls, r, hs, hls, hr⟩ := exists_lines_eq eol s
  rw [hs] at h
  rcases List.mem_append.mp h with h | h
  · exact .inl (hls l h)
  · by_cases hnil : r = []
    · rw [hnil] at h
      cases h
    · rw [consLine_of_ne_nil hnil] at h
      rw [List.mem_singleton.mp h]
      exact .inr ⟨hnil, hr⟩

/-- A text ends with an end-of-line character if and only if its last line does. -/
theorem getLast?_flatten {r : List α} (hls : ∀ l ∈ ls, Ended eol l) (hr : ∀ x ∈ r, eol x = false) :
    (∃ c ∈ (ls.flatten ++ r).getLast?, eol c) ↔ r = [] ∧ ls ≠ [] := by
  rcases List.eq_nil_or_concat' r with rfl | ⟨r', c, rfl⟩
  · rw [List.append_nil]
    by_cases hne : ls = []
    · simp [hne]
    · obtain ⟨s, c, hc, hflatten⟩ := exists_flatten_eq hls hne
      exact iff_of_true ⟨c, by simp [hflatten], hc⟩ ⟨rfl, hne⟩
  · refine iff_of_false ?_ fun h ↦ List.concat_ne_nil c r' h.1
    rintro ⟨d, hd, heol⟩
    obtain rfl : c = d := by simpa using hd
    simp [hr c (by simp)] at heol

/-! ## Reading lines that fit -/

/-- A line that fits is read at once. -/
theorem reads_append_eol (hl : ∀ x ∈ l, eol x = false) (hc : eol c) (hlen : l.length + 1 < n)
    (s : List α) : reads eol n (l ++ c :: s) = (l ++ [c]) :: reads eol n s := by
  have hn : 1 < n := Nat.lt_of_le_of_lt (Nat.le_add_left 1 l.length) hlen
  have hchunk : chunks (n - 1) (l ++ [c]) = [l ++ [c]] := by
    refine chunks_of_length_le (List.concat_ne_nil c l) ?_
    rw [List.length_append, List.length_singleton]
    exact Nat.le_sub_one_of_lt hlen
  rw [reads_eq hn, lines_append_eol hl hc, List.flatMap_cons, hchunk, ← reads_eq hn]
  rfl

/-- So are several, one after the other. -/
theorem reads_flatMap_eol (hls : ∀ l ∈ ls, (∀ x ∈ l, eol x = false) ∧ l.length + 1 < n)
    (hc : eol c) (s : List α) : reads eol n (ls.flatMap (· ++ [c]) ++ s) =
      ls.map (· ++ [c]) ++ reads eol n s := by
  induction ls with
  | nil => rfl
  | cons l ls ih =>
      obtain ⟨⟨hl, hlen⟩, hls⟩ := List.forall_mem_cons.mp hls
      rw [List.flatMap_cons, List.append_assoc, List.append_assoc, List.singleton_append,
        reads_append_eol hl hc hlen, ih hls, List.map_cons, List.cons_append]

end SysProg.Lib
