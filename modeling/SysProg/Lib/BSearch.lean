import Mathlib.Data.List.Basic

/-!
# `bsearch`

The C library's binary search, as the usual loop over a half-open window
`[lo, hi)`.  `cmp` stands for the comparison of the key with an element.  The
loop has a budget of one iteration for each element, which is more than it
needs, so running out of it is not a separate outcome.

The C standard asks that the array hold first the elements the key is greater
than, then those it equals, then those it is less than: `Ordered cmp table`.
On such a table `bsearch_eq_none` says that a miss is a real miss; that a hit is
a real hit (`bsearch_eq_some`) needs no order.

`probes` are the elements that the key is compared with, and `bsearch_map` is about a
search in what stands for the elements.
-/

universe u v

namespace SysProg.Lib

variable {α : Type u}

/-- The search loop on the window `[lo, hi)`. -/
def bsearchFrom (cmp : α → Ordering) (table : List α) : Nat → Nat → Nat → Option α
  | 0, _, _ => none
  | budget + 1, lo, hi =>
      if lo < hi then
        match table[(lo + hi) / 2]? with
        | none => none
        | some p => match cmp p with
          | .lt => bsearchFrom cmp table budget lo ((lo + hi) / 2)
          | .gt => bsearchFrom cmp table budget ((lo + hi) / 2 + 1) hi
          | .eq => some p
      else none

/-- `bsearch(key, table, nmemb, size, compar)`. -/
def bsearch (cmp : α → Ordering) (table : List α) : Option α :=
  bsearchFrom cmp table table.length 0 table.length

/-- The order the C standard requires of the table. -/
def Ordered (cmp : α → Ordering) (table : List α) : Prop :=
  table.Pairwise fun a b ↦ (cmp a = .lt → cmp b = .lt) ∧ (cmp b = .gt → cmp a = .gt)

theorem bsearchFrom_eq_some {cmp : α → Ordering} {table : List α} {budget lo hi : Nat} {p : α}
    (h : bsearchFrom cmp table budget lo hi = some p) : p ∈ table ∧ cmp p = .eq := by
  induction budget generalizing lo hi with
  | zero => cases h
  | succ budget ih =>
      rw [bsearchFrom] at h
      split at h
      · split at h
        · cases h
        · next q hq =>
            split at h
            · exact ih h
            · exact ih h
            · next heq =>
                cases h
                exact ⟨List.mem_of_getElem? hq, heq⟩
      · cases h

/-- What is found is in the table and compares equal. -/
theorem bsearch_eq_some {cmp : α → Ordering} {table : List α} {p : α}
    (h : bsearch cmp table = some p) : p ∈ table ∧ cmp p = .eq :=
  bsearchFrom_eq_some h

/-- In an ordered table, an element the key is less than has only such elements
after it, and one the key is greater than has only such elements before it. -/
theorem Ordered.getElem? {cmp : α → Ordering} {table : List α} (h : Ordered cmp table)
    {i j : Nat} (hij : i < j) {a b : α} (ha : table[i]? = some a) (hb : table[j]? = some b) :
    (cmp a = .lt → cmp b = .lt) ∧ (cmp b = .gt → cmp a = .gt) := by
  obtain ⟨hi, rfl⟩ := List.getElem?_eq_some_iff.mp ha
  obtain ⟨hj, rfl⟩ := List.getElem?_eq_some_iff.mp hb
  exact List.pairwise_iff_getElem.mp h i j hi hj hij

/-- The loop invariant: an equal element of the window is not missed. -/
theorem bsearchFrom_ne_none {cmp : α → Ordering} {table : List α} (h : Ordered cmp table)
    {budget lo hi k : Nat} (hbudget : hi - lo ≤ budget) (hhi : hi ≤ table.length)
    (hlok : lo ≤ k) (hkhi : k < hi) {p : α} (hk : table[k]? = some p) (hp : cmp p = .eq) :
    bsearchFrom cmp table budget lo hi ≠ none := by
  induction budget generalizing lo hi with
  | zero => omega
  | succ budget ih =>
      have hlt : lo < hi := Nat.lt_of_le_of_lt hlok hkhi
      obtain ⟨q, hq⟩ : ∃ q, table[(lo + hi) / 2]? = some q :=
        ⟨_, List.getElem?_eq_getElem (by omega)⟩
      rw [bsearchFrom, if_pos hlt, hq]
      cases hc : cmp q with
      | eq => simp [hc]
      | lt =>
          -- the key is less than the middle, so the equal element is below it
          have hkmid : k < (lo + hi) / 2 := by
            rcases Nat.lt_trichotomy k ((lo + hi) / 2) with hlt | heq | hgt
            · exact hlt
            · rw [heq, hq] at hk
              cases hk
              simp [hp] at hc
            · have hlt := (h.getElem? hgt hq hk).1 hc
              simp [hp] at hlt
          simpa [hc] using ih (by omega) (by omega) hlok hkmid
      | gt =>
          have hkmid : (lo + hi) / 2 + 1 ≤ k := by
            rcases Nat.lt_trichotomy k ((lo + hi) / 2) with hlt | heq | hgt
            · have hgt := (h.getElem? hlt hk hq).2 hc
              simp [hp] at hgt
            · rw [heq, hq] at hk
              cases hk
              simp [hp] at hc
            · exact hgt
          simpa [hc] using ih (by omega) hhi hkmid hkhi

/-- In an ordered table nothing is found only if nothing compares equal. -/
theorem bsearch_eq_none {cmp : α → Ordering} {table : List α} (h : Ordered cmp table)
    (hnone : bsearch cmp table = none) : ∀ p ∈ table, cmp p ≠ .eq := by
  intro p hp heq
  obtain ⟨k, hk⟩ := List.mem_iff_getElem?.mp hp
  exact bsearchFrom_ne_none h (by omega) (Nat.le_refl _) (Nat.zero_le k)
    (List.getElem?_eq_some_iff.mp hk).1 hk heq hnone

/-! ## Probes -/

/-- The elements that `bsearchFrom` compares the key with. -/
def probesFrom (cmp : α → Ordering) (table : List α) : Nat → Nat → Nat → List α
  | 0, _, _ => []
  | budget + 1, lo, hi =>
      if lo < hi then
        match table[(lo + hi) / 2]? with
        | none => []
        | some p => p :: match cmp p with
          | .lt => probesFrom cmp table budget lo ((lo + hi) / 2)
          | .gt => probesFrom cmp table budget ((lo + hi) / 2 + 1) hi
          | .eq => []
      else []

/-- Those of `bsearch`. -/
def probes (cmp : α → Ordering) (table : List α) : List α :=
  probesFrom cmp table table.length 0 table.length

theorem mem_of_mem_probesFrom {cmp : α → Ordering} {table : List α} {budget lo hi : Nat} {p : α}
    (h : p ∈ probesFrom cmp table budget lo hi) : p ∈ table := by
  induction budget generalizing lo hi with
  | zero => cases h
  | succ budget ih =>
      rw [probesFrom] at h
      split at h
      · split at h
        · cases h
        · next q hq =>
            rcases List.mem_cons.mp h with rfl | h
            · exact List.mem_of_getElem? hq
            · split at h
              · exact ih h
              · exact ih h
              · cases h
      · cases h

/-- **Only elements of the table** are compared with the key. -/
theorem mem_of_mem_probes {cmp : α → Ordering} {table : List α} {p : α}
    (h : p ∈ probes cmp table) : p ∈ table :=
  mem_of_mem_probesFrom h

/-- The first one is in the middle. -/
theorem mem_probes_of_getElem? {cmp : α → Ordering} {table : List α} {p : α}
    (h : table[table.length / 2]? = some p) : p ∈ probes cmp table := by
  have hpos : 0 < table.length := Nat.zero_lt_of_lt (List.getElem?_eq_some_iff.mp h).1
  obtain ⟨budget, hbudget⟩ := Nat.exists_eq_succ_of_ne_zero (Nat.ne_of_gt hpos)
  rw [probes, hbudget, probesFrom, if_pos (Nat.succ_pos _), Nat.zero_add, ← hbudget, h]
  exact List.mem_cons_self

theorem bsearchFrom_map {β : Type v} {cmp : β → Ordering} {cmp' : α → Ordering} {f : α → β}
    {table : List α} (h : ∀ p ∈ table, cmp (f p) = cmp' p) (budget lo hi : Nat) :
    bsearchFrom cmp (table.map f) budget lo hi =
      (bsearchFrom cmp' table budget lo hi).map f := by
  induction budget generalizing lo hi with
  | zero => rfl
  | succ budget ih =>
      rw [bsearchFrom, bsearchFrom, List.getElem?_map]
      split
      · cases hp : table[(lo + hi) / 2]? with
        | none => rfl
        | some p =>
            simp only [Option.map_some, h p (List.mem_of_getElem? hp)]
            cases cmp' p with
            | lt => exact ih _ _
            | gt => exact ih _ _
            | eq => rfl
      · rfl

/-- A search in what stands for the elements. -/
theorem bsearch_map {β : Type v} {cmp : β → Ordering} {cmp' : α → Ordering} {f : α → β}
    {table : List α} (h : ∀ p ∈ table, cmp (f p) = cmp' p) :
    bsearch cmp (table.map f) = (bsearch cmp' table).map f := by
  rw [bsearch, List.length_map]
  exact bsearchFrom_map h _ _ _

/-- What the C standard promises of `bsearch(key, array, nmemb, size, compar)`, for an array that
has `nmemb` elements in order. -/
structure MeetsStandard (search : (α → Ordering) → List α → Nat → Option α) : Prop where
  found : ∀ {cmp : α → Ordering} {array : List α} {nmemb : Nat} {p : α}, nmemb ≤ array.length →
    Ordered cmp (array.take nmemb) → search cmp array nmemb = some p →
      p ∈ array.take nmemb ∧ cmp p = .eq
  notFound : ∀ {cmp : α → Ordering} {array : List α} {nmemb : Nat}, nmemb ≤ array.length →
    Ordered cmp (array.take nmemb) → search cmp array nmemb = none →
      ∀ p ∈ array.take nmemb, cmp p ≠ .eq

theorem meetsStandard_bsearch :
    MeetsStandard fun (cmp : α → Ordering) array nmemb ↦ bsearch cmp (array.take nmemb) where
  found := fun _ _ h ↦ bsearch_eq_some h
  notFound := fun _ hordered h ↦ bsearch_eq_none hordered h

end SysProg.Lib
