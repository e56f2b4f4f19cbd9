import Mathlib.Data.List.Basic

/-!
# Mail

Letters on their way, each with the one it is from or for.  They are handed over in any order,
and each of them once: what is handed over is erased from the list.

* `mailOf` are the letters of one of them, and the lemmas say what posting a letter and taking
  one away do to it.
-/

universe u v

namespace SysProg.Lib

variable {ι : Type u} {α : Type v} [DecidableEq ι] [DecidableEq α] {c d : ι} {x : α}
  {post : List (ι × α)}

/-- The letters of `c`. -/
def mailOf (c : ι) (post : List (ι × α)) : List α :=
  (post.filter fun letter ↦ decide (letter.1 = c)).map Prod.snd

omit [DecidableEq α] in
theorem mem_mailOf : x ∈ mailOf c post ↔ (c, x) ∈ post := by
  rw [mailOf, List.mem_map]
  constructor
  · rintro ⟨⟨d, y⟩, hmem, rfl⟩
    obtain ⟨hpost, hd⟩ := List.mem_filter.mp hmem
    cases of_decide_eq_true hd
    exact hpost
  · intro hmem
    exact ⟨(c, x), List.mem_filter.mpr ⟨hmem, decide_eq_true rfl⟩, rfl⟩

omit [DecidableEq α] in
@[simp] theorem mailOf_nil : mailOf c ([] : List (ι × α)) = [] := rfl

omit [DecidableEq α] in
@[simp] theorem mailOf_cons_self : mailOf c ((c, x) :: post) = x :: mailOf c post := by
  simp [mailOf]

omit [DecidableEq α] in
theorem mailOf_cons_of_ne (h : d ≠ c) : mailOf c ((d, x) :: post) = mailOf c post := by
  simp [mailOf, h]

omit [DecidableEq α] in
theorem mailOf_append (c : ι) (post post' : List (ι × α)) :
    mailOf c (post ++ post') = mailOf c post ++ mailOf c post' := by
  rw [mailOf, List.filter_append, List.map_append, mailOf, mailOf]

omit [DecidableEq α] in
@[simp] theorem mailOf_concat_self : mailOf c (post ++ [(c, x)]) = mailOf c post ++ [x] := by
  rw [mailOf_append, mailOf_cons_self, mailOf_nil]

omit [DecidableEq α] in
theorem mailOf_concat_of_nil (h : mailOf c post = []) : mailOf c (post ++ [(c, x)]) = [x] := by
  rw [mailOf_concat_self, h, List.nil_append]

omit [DecidableEq α] in
theorem mailOf_concat_of_ne (h : d ≠ c) : mailOf c (post ++ [(d, x)]) = mailOf c post := by
  rw [mailOf_append, mailOf_cons_of_ne h, mailOf_nil, List.append_nil]

@[simp] theorem mailOf_erase_self : mailOf c (post.erase (c, x)) = (mailOf c post).erase x := by
  induction post with
  | nil => rfl
  | cons letter post ih =>
      obtain ⟨d, y⟩ := letter
      by_cases hd : d = c
      · subst hd
        by_cases hy : y = x
        · subst hy
          rw [List.erase_cons_head, mailOf_cons_self, List.erase_cons_head]
        · rw [List.erase_cons_tail (by simpa using hy), mailOf_cons_self, mailOf_cons_self,
            List.erase_cons_tail (by simpa using hy), ih]
      · rw [List.erase_cons_tail (by simp [hd]), mailOf_cons_of_ne hd, mailOf_cons_of_ne hd, ih]

theorem mailOf_erase_eq_nil (h : mailOf c post = [x]) : mailOf c (post.erase (c, x)) = [] := by
  rw [mailOf_erase_self, h, List.erase_cons_head]

theorem mailOf_erase_of_ne (h : d ≠ c) : mailOf c (post.erase (d, x)) = mailOf c post := by
  rw [mailOf, mailOf, ← List.erase_filter, List.erase_of_not_mem]
  exact fun hmem ↦ h (of_decide_eq_true (List.mem_filter.mp hmem).2)

end SysProg.Lib
