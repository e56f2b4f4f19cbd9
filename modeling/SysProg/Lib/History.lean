import Mathlib.Data.List.Induction

/-!
# Conditions on a call history

A sequential component is exercised by a list of calls, oldest first.  What a
caller promises, and what the component guarantees, are usually statements about
each call *given the calls before it*; `EachCall` is that shape, and
`eachCall_concat` is the induction step every proof about it uses.
-/

universe u v w

namespace SysProg.Lib

variable {α : Type u}

/-- Every call `c` of the history satisfies `P pre c`, where `pre` is what was
called before it. -/
def EachCall (P : List α → α → Prop) (calls : List α) : Prop :=
  ∀ pre c, pre ++ [c] <+: calls → P pre c

@[simp] theorem eachCall_nil (P : List α → α → Prop) : EachCall P [] := by
  intro pre c h
  simpa using List.prefix_nil.mp h

/-- One more call: the earlier calls meet the condition, and so does the last. -/
@[simp] theorem eachCall_concat {P : List α → α → Prop} {calls : List α} {c : α} :
    EachCall P (calls ++ [c]) ↔ EachCall P calls ∧ P calls c := by
  constructor
  · intro h
    exact ⟨fun pre d hd ↦ h pre d (hd.trans (List.prefix_append _ _)), h calls c List.prefix_rfl⟩
  · rintro ⟨h, hc⟩ pre d hd
    rcases List.prefix_concat_iff.mp hd with heq | hd
    · obtain ⟨rfl, hdc⟩ := List.append_inj' heq rfl
      obtain rfl := List.singleton_inj.mp hdc
      exact hc
    · exact h pre d hd

theorem EachCall.of_isPrefix {P : List α → α → Prop} {pre calls : List α}
    (h : EachCall P calls) (hp : pre <+: calls) : EachCall P pre :=
  fun pre' c hc ↦ h pre' c (hc.trans hp)

theorem eachCall_iff_take {P : List α → α → Prop} {calls : List α} :
    EachCall P calls ↔ ∀ k : Fin calls.length, P (calls.take k) calls[k] := by
  constructor
  · exact fun h k ↦ h _ _ (by simpa using List.take_prefix (k + 1) calls)
  · rintro h pre c ⟨post, rfl⟩
    simpa using h ⟨pre.length, by simp⟩

/-- A condition on what a function sees of the calls. -/
theorem eachCall_map {β : Type v} {P : List β → β → Prop} {f : α → β} {calls : List α} :
    EachCall P (calls.map f) ↔ EachCall (fun pre c ↦ P (pre.map f) (f c)) calls := by
  induction calls using List.reverseRecOn with
  | nil => simp
  | append_singleton calls c ih =>
      rw [List.map_append, List.map_singleton, eachCall_concat, eachCall_concat, ih]

/-- What holds of all histories up to this one, and at its beginning. -/
theorem forall_prefix_concat {P : List α → Prop} {calls : List α} {c : α} :
    (∀ pre, pre <+: calls ++ [c] → P pre) ↔ (∀ pre, pre <+: calls → P pre) ∧ P (calls ++ [c]) := by
  simp only [List.prefix_concat_iff, or_imp, forall_and, forall_eq]
  exact and_comm

/-- **Two machines stay together** on a history, if and only if each call is one on which
they agree; `r` is what the second sees of the first, and `P` says which calls those are. -/
theorem foldl_eq_iff {σ : Type v} {τ : Type w} {f : σ → α → σ} {g : τ → α → τ} {r : σ → τ}
    {P : τ → α → Prop} (agree : ∀ s c, r (f s c) = g (r s) c ↔ P (r s) c) (s : σ)
    (calls : List α) :
    (∀ pre, pre <+: calls → r (pre.foldl f s) = pre.foldl g (r s)) ↔
      EachCall (fun pre c ↦ P (pre.foldl g (r s)) c) calls := by
  induction calls using List.reverseRecOn with
  | nil => simp
  | append_singleton calls c ih =>
      rw [forall_prefix_concat, eachCall_concat, ih]
      refine and_congr_right fun hcalls ↦ ?_
      have heq := ih.mpr hcalls calls List.prefix_rfl
      rw [List.foldl_append, List.foldl_append, ← heq]
      exact agree _ c

/-- A decidable condition is decidable along a history. -/
instance {P : List α → α → Prop} [∀ pre c, Decidable (P pre c)] (calls : List α) :
    Decidable (EachCall P calls) := decidable_of_iff' _ eachCall_iff_take

end SysProg.Lib
