import Mathlib
import SysProg.Lib.History
import SysProg.Lib.Lts

/-!
# Dispensers of consecutive ranges

A dispenser is a counter that each request takes and moves on by a length: the
fetch-and-add behind sequence numbers, log offsets and bump allocation.  What it
gives out is determined by the lengths alone: `dispenser_start` says that each
request gets the sum of the lengths before its own.

The second half is about counters of finite width.  `wrap H` is the two's complement
reading of an integer modulo `2 * H`.  `pairwise_disjoint_iff` says exactly when the
ranges that such a counter gives out for lengths in `[0, H)` are disjoint: as long as
the lengths sum to at most `2 * H`.
-/

universe u

namespace SysProg.Lib

/-- One request at a dispenser: the length it asks for and the start it gets. -/
structure Grant (G : Type u) where
  start : G
  length : G
deriving DecidableEq

section

variable {G : Type u} [AddMonoid G]

/-- The dispenser that starts at `0`. -/
def dispenser (G : Type u) [AddMonoid G] : Lts G (Grant G) where
  init next := next = 0
  step next grant next' := grant.start = next ∧ next' = next + grant.length

/-- The counter is the sum of the lengths so far. -/
theorem dispenser_next {grants : List (Grant G)} {next : G}
    (h : (dispenser G).Run grants next) : next = (grants.map Grant.length).sum := by
  refine h.induction (P := fun grants next ↦ next = (grants.map Grant.length).sum)
    (fun _ hs ↦ hs) ?_
  rintro grants next grant next' - ih ⟨-, rfl⟩
  simp [ih]

/-- **A request gets the sum of the lengths before its own.** -/
theorem dispenser_start {grants : List (Grant G)} {next : G}
    (h : (dispenser G).Run grants next) :
    EachCall (fun pre grant ↦ grant.start = (pre.map Grant.length).sum) grants := by
  refine h.induction (P := fun grants _ ↦
    EachCall (fun pre grant ↦ grant.start = (pre.map Grant.length).sum) grants)
    (fun _ _ ↦ eachCall_nil _) ?_
  rintro grants next grant next' hr ih ⟨hstart, -⟩
  exact eachCall_concat.mpr ⟨ih, hstart.trans (dispenser_next hr)⟩

end

/-! ## Counters of finite width -/

/-- Two's complement with `2 * H` values. -/
def wrap (H : ℤ) (x : ℤ) : ℤ := (x + H) % (2 * H) - H

theorem wrap_of_lt {H x : ℤ} (hx : 0 ≤ x) (hlt : x < H) : wrap H x = x := by
  rw [wrap, Int.emod_eq_of_lt (by omega) (by omega)]
  omega

theorem wrap_of_le {H x : ℤ} (hx : H ≤ x) (hle : x ≤ 2 * H) (hH : 0 < H) :
    wrap H x = x - 2 * H := by
  have hshift : x + H = (x - H) + 2 * H := by omega
  rw [wrap, hshift, Int.add_emod_right, Int.emod_eq_of_lt (by omega) (by omega)]
  omega

/-- Ranges that follow each other and end within `2 * H` are disjoint when wrapped. -/
theorem wrap_disjoint {H x a y b : ℤ} (hH : 0 < H) (hx : 0 ≤ x) (ha : 0 ≤ a) (hb : 0 ≤ b)
    (hxy : x + a ≤ y) (hy : y + b ≤ 2 * H) :
    min (wrap H x + a) (wrap H y + b) ≤ max (wrap H x) (wrap H y) := by
  rcases lt_or_ge y H with hyH | hyH
  · rw [wrap_of_lt hx (by omega), wrap_of_lt (by omega) hyH]
    omega
  · rw [wrap_of_le hyH (by omega) hH]
    rcases lt_or_ge x H with hxH | hxH
    · rw [wrap_of_lt hx hxH]
      omega
    · rw [wrap_of_le hxH (by omega) hH]
      omega

/-- The integers a request gets. -/
def Grant.range (grant : Grant ℤ) : Set ℤ := Set.Ico grant.start (grant.start + grant.length)

theorem Grant.disjoint_iff {g g' : Grant ℤ} : Disjoint g.range g'.range ↔
    min (g.start + g.length) (g'.start + g'.length) ≤ max g.start g'.start :=
  Set.Ico_disjoint_Ico

instance (g g' : Grant ℤ) : Decidable (Disjoint g.range g'.range) :=
  decidable_of_iff' _ Grant.disjoint_iff

/-- The sum of the lengths of the first `k` requests. -/
def offset (grants : List (Grant ℤ)) (k : ℕ) : ℤ := ((grants.take k).map Grant.length).sum

/-- A counter of finite width gives out the sums of the lengths, wrapped. -/
def Wrapped (H : ℤ) (grants : List (Grant ℤ)) : Prop :=
  EachCall (fun pre grant ↦ grant.start = wrap H (pre.map Grant.length).sum) grants

section

variable {H : ℤ} {grants : List (Grant ℤ)}

@[simp] theorem offset_zero : offset grants 0 = 0 := rfl

theorem offset_length : offset grants grants.length = (grants.map Grant.length).sum := by
  rw [offset, List.take_length]

theorem offset_succ {k : ℕ} (hk : k < grants.length) :
    offset grants (k + 1) = offset grants k + grants[k].length := by
  rw [offset, List.take_succ_eq_append_getElem hk, List.map_append, List.sum_append]
  simp [offset]

theorem offset_mono (hpos : ∀ grant ∈ grants, 0 ≤ grant.length) {j k : ℕ} (hjk : j ≤ k) :
    offset grants j ≤ offset grants k := by
  obtain ⟨n, rfl⟩ := Nat.exists_eq_add_of_le hjk
  rw [offset, offset, List.take_add, List.map_append, List.sum_append]
  refine le_add_of_nonneg_right (List.sum_nonneg fun x hx ↦ ?_)
  obtain ⟨grant, hgrant, rfl⟩ := List.mem_map.mp hx
  exact hpos grant (List.mem_of_mem_drop (List.mem_of_mem_take hgrant))

/-- The request with which the lengths get beyond `m`. -/
theorem exists_crossing (grants : List (Grant ℤ)) {m : ℤ} (hm : 0 ≤ m)
    (hlt : m < (grants.map Grant.length).sum) :
    ∃ k, ∃ hk : k < grants.length,
      offset grants k ≤ m ∧ m < offset grants k + grants[k].length := by
  induction grants using List.reverseRecOn with
  | nil => simp only [List.map_nil, List.sum_nil] at hlt; omega
  | append_singleton grants grant ih =>
      by_cases hbefore : m < (grants.map Grant.length).sum
      · obtain ⟨k, hk, hle, hgt⟩ := ih hbefore
        have hoffset : offset (grants ++ [grant]) k = offset grants k := by
          rw [offset, List.take_append_of_le_length hk.le, offset]
        refine ⟨k, by simp; omega, by rwa [hoffset], ?_⟩
        rwa [hoffset, List.getElem_append_left hk]
      · refine ⟨grants.length, by simp, ?_, ?_⟩
        · simpa [offset] using hbefore
        · simpa [offset] using hlt

theorem Wrapped.start_eq (h : Wrapped H grants) {k : ℕ} (hk : k < grants.length) :
    grants[k].start = wrap H (offset grants k) :=
  eachCall_iff_take.mp h ⟨k, hk⟩

/-- Within the width of the counter the ranges are disjoint. -/
theorem Wrapped.pairwise_disjoint (h : Wrapped H grants) (hH : 0 < H)
    (hpos : ∀ grant ∈ grants, 0 ≤ grant.length)
    (hsum : (grants.map Grant.length).sum ≤ 2 * H) :
    grants.Pairwise fun g g' ↦ Disjoint g.range g'.range := by
  rw [List.pairwise_iff_getElem]
  intro j k hj hk hjk
  rw [Grant.disjoint_iff, h.start_eq hj, h.start_eq hk]
  refine wrap_disjoint hH ?_ (hpos _ (List.getElem_mem hj)) (hpos _ (List.getElem_mem hk)) ?_ ?_
  · exact offset_mono hpos (Nat.zero_le j)
  · rw [← offset_succ hj]
    exact offset_mono hpos hjk
  · rw [← offset_succ hk]
    refine (offset_mono hpos (Nat.succ_le_of_lt hk)).trans ?_
    rwa [offset_length]

/-- Beyond the width the range that crosses it contains `0`, as the first one does. -/
theorem Wrapped.sum_le_of_pairwise (h : Wrapped H grants) (hH : 0 < H)
    (hpos : ∀ grant ∈ grants, 0 ≤ grant.length) (hlt : ∀ grant ∈ grants, grant.length < H)
    (hpair : grants.Pairwise fun g g' ↦ Disjoint g.range g'.range) :
    (grants.map Grant.length).sum ≤ 2 * H := by
  by_contra hsum
  obtain ⟨j, hj, hjle, hjgt⟩ := exists_crossing grants le_rfl (by omega)
  obtain ⟨k, hk, hkle, hkgt⟩ := exists_crossing grants (m := 2 * H) (by omega) (by omega)
  have hjlt := hlt _ (List.getElem_mem hj)
  have hklt := hlt _ (List.getElem_mem hk)
  have hj0 := offset_mono hpos (Nat.zero_le j)
  have hjk : j < k := by
    by_contra hkj
    have hmono := offset_mono hpos (not_lt.mp hkj)
    rw [offset_zero] at hj0
    omega
  have hdisjoint := List.pairwise_iff_getElem.mp hpair j k hj hk hjk
  rw [Grant.disjoint_iff, h.start_eq hj, h.start_eq hk, wrap_of_lt hj0 (by omega),
    wrap_of_le (by omega) hkle hH] at hdisjoint
  rw [offset_zero] at hj0
  omega

/-- **The ranges of a counter with `2 * H` values are disjoint exactly as long as the
lengths sum to at most that.** -/
theorem Wrapped.pairwise_disjoint_iff (h : Wrapped H grants) (hH : 0 < H)
    (hpos : ∀ grant ∈ grants, 0 ≤ grant.length) (hlt : ∀ grant ∈ grants, grant.length < H) :
    (grants.Pairwise fun g g' ↦ Disjoint g.range g'.range) ↔
      (grants.map Grant.length).sum ≤ 2 * H :=
  ⟨h.sum_le_of_pairwise hH hpos hlt, h.pairwise_disjoint hH hpos⟩

end

end SysProg.Lib
