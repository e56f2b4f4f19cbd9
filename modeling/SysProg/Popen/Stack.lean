import Mathlib.Data.List.Induction
import Mathlib.Data.List.Nodup
import SysProg.Lib.History
import SysProg.Popen.Table

/-!
# When the stream table keeps its invariant

`my_pclose` clears the slot of the stream it closes and decrements
`popen_count`, but does not move the entries above that slot down.  Closing the
stream opened last keeps the table packed; closing any other one leaves a hole
and pushes the newest stream out of the counted range, where no later
`my_pclose` looks.

`live` is the reference: the streams opened and not yet closed, computed from
the calls and the answers of the system without looking at the table.
`TableInv` is what the table owes to it, `Stacked` the stronger invariant that
carries the induction: entry `k` of `live` sits in slot `k`.  The result is
`tableInv_iff_stackOrder`: a history keeps `TableInv` all along exactly when it
closes in stack order.
-/

namespace SysProg.Popen

open SysProg.Lib

/-! ## The reference -/

/-- The streams opened and not yet closed, oldest first, each with its child. -/
abbrev Live := List (Nat × Pid)

def Live.step (live : Live) : Call → Live
  | .popen os _ mode =>
      if live.length < maxPopen ∧ (mode = "r" ∨ mode = "w") then
        match os.fdopen, os.fork with
        | some f, some pid => live ++ [(f, pid)]
        | _, _ => live
      else live
  | .pclose _ stream => live.filter fun e ↦ some e.1 ≠ stream

def live (calls : List Call) : Live := calls.foldl Live.step []

@[simp] theorem live_concat (calls : List Call) (c : Call) :
    live (calls ++ [c]) = (live calls).step c := by simp [live]

/-- Every system call succeeds, and `fdopen` returns a pointer no live stream has. -/
def LegalCall (calls : List Call) : Call → Prop
  | .popen os _ _ => os.pipe ≠ none ∧ os.fork ≠ none ∧ os.fdopen ≠ none ∧
      os.fdopen ∉ (live calls).map fun e ↦ some e.1
  | .pclose os _ => os ≠ none

/-- A close is of the stream opened last, or of a pointer that is no live stream. -/
def StackCall (calls : List Call) : Call → Prop
  | .popen .. => True
  | .pclose _ stream => stream = (live calls).getLast?.map Prod.fst ∨
      stream ∉ (live calls).map fun e ↦ some e.1

instance (calls : List Call) : ∀ c, Decidable (LegalCall calls c)
  | .popen .. => inferInstanceAs (Decidable (_ ∧ _ ∧ _ ∧ _))
  | .pclose .. => inferInstanceAs (Decidable (_ ≠ _))

instance (calls : List Call) : ∀ c, Decidable (StackCall calls c)
  | .popen .. => inferInstanceAs (Decidable True)
  | .pclose .. => inferInstanceAs (Decidable (_ ∨ _))

/-- What the table owes to the live streams. -/
structure TableInv (live : Live) (p : Parent) : Prop where
  /-- The counter counts them. -/
  count : p.popenCount = live.length
  /-- Each sits, with its own child, in exactly one counted slot. -/
  slot : ∀ e ∈ live, ∃ i : Fin maxPopen,
    (i < p.popenCount ∧ p.popenStreams i = some e.1 ∧ p.popenPids i = e.2) ∧
      ∀ j : Fin maxPopen, j < p.popenCount → p.popenStreams j = some e.1 → j = i
  /-- Closing it finds it and waits for that child. -/
  close : ∀ e ∈ live, ∀ stat, (myPclose (some stat) (some e.1) p).1 = .waited e.2 stat

/-! ## Searching the table -/

theorem mem_slots {p : Parent} {i : Fin maxPopen} : i ∈ p.slots ↔ i < p.popenCount := by
  simp only [Parent.slots, List.mem_map, List.mem_finRange, true_and]
  constructor
  · rintro ⟨j, rfl⟩
    exact j.2
  · exact fun h ↦ ⟨⟨i, h⟩, rfl⟩

theorem findSlot_eq_none {p : Parent} {stream : FilePtr} :
    findSlot stream p = none ↔
      ∀ i : Fin maxPopen, i < p.popenCount → p.popenStreams i ≠ stream := by
  simp [findSlot, mem_slots]

theorem findSlot_eq_some {p : Parent} {stream : FilePtr} {i : Fin maxPopen}
    (h : findSlot stream p = some i) : i < p.popenCount ∧ p.popenStreams i = stream :=
  ⟨mem_slots.mp (List.mem_of_find?_eq_some h), by simpa using List.find?_some h⟩

/-- A stream that sits in one counted slot is found there. -/
theorem findSlot_of_unique {p : Parent} {stream : FilePtr} {i : Fin maxPopen}
    (hi : i < p.popenCount) (hs : p.popenStreams i = stream)
    (hu : ∀ j : Fin maxPopen, j < p.popenCount → p.popenStreams j = stream → j = i) :
    findSlot stream p = some i := by
  cases h : findSlot stream p with
  | none => exact absurd hs (findSlot_eq_none.mp h i hi)
  | some j =>
      obtain ⟨hj, hjs⟩ := findSlot_eq_some h
      rw [hu j hj hjs]

/-! ## The packed table -/

/-- Entry `k` of the live streams sits in slot `k`, and nothing is counted above. -/
structure Stacked (live : Live) (p : Parent) : Prop where
  count : p.popenCount = live.length
  slot : ∀ (i : Fin maxPopen) (e : Nat × Pid), live[(i : Nat)]? = some e →
    p.popenStreams i = some e.1 ∧ p.popenPids i = e.2
  nodup : (live.map Prod.fst).Nodup

namespace Stacked

variable {l : Live} {p : Parent}

theorem init : Stacked [] Parent.init := ⟨rfl, by simp, by simp⟩

/-- What a counted slot holds. -/
theorem getElem (h : Stacked l p) {i : Fin maxPopen} (hi : i < p.popenCount) :
    ∃ e, l[(i : Nat)]? = some e ∧ p.popenStreams i = some e.1 ∧ p.popenPids i = e.2 := by
  have hlt : (i : Nat) < l.length := h.count ▸ hi
  exact ⟨l[(i : Nat)], List.getElem?_eq_getElem hlt, h.slot i _ (List.getElem?_eq_getElem hlt)⟩

/-- The slot of a live stream. -/
theorem slotOf (h : Stacked l p) {e : Nat × Pid} (he : e ∈ l) :
    ∃ i : Fin maxPopen, l[(i : Nat)]? = some e ∧ i < p.popenCount := by
  obtain ⟨k, hk⟩ := List.mem_iff_getElem?.mp he
  have hlt : k < p.popenCount := h.count ▸ (List.getElem?_eq_some_iff.mp hk).1
  exact ⟨⟨k, Nat.lt_of_lt_of_le hlt p.popenCount_le⟩, hk, hlt⟩

/-- Two counted slots do not hold the same stream. -/
theorem slot_inj (h : Stacked l p) {i j : Fin maxPopen} {e : Nat × Pid}
    (hi : l[(i : Nat)]? = some e) (hj : j < p.popenCount)
    (hs : p.popenStreams j = some e.1) : j = i := by
  obtain ⟨e', he', hs', -⟩ := h.getElem hj
  have hfst : e'.1 = e.1 := Option.some.inj (hs'.symm.trans hs)
  have hmap : (l.map Prod.fst)[(j : Nat)]? = (l.map Prod.fst)[(i : Nat)]? := by
    simp [he', hi, hfst]
  have hlt : (j : Nat) < (l.map Prod.fst).length := by
    rw [List.length_map, ← h.count]
    exact hj
  exact Fin.ext ((List.getElem?_inj hlt h.nodup).mp hmap)

theorem findSlot_eq (h : Stacked l p) {i : Fin maxPopen} {e : Nat × Pid}
    (hi : l[(i : Nat)]? = some e) : findSlot (some e.1) p = some i :=
  findSlot_of_unique (h.count ▸ (List.getElem?_eq_some_iff.mp hi).1) (h.slot i e hi).1
    fun _ hj hs ↦ h.slot_inj hi hj hs

/-- A pointer that is no live stream is in no counted slot; `NULL` is one. -/
theorem findSlot_eq_none_of_notMem (h : Stacked l p) {stream : FilePtr}
    (hs : stream ∉ l.map fun e ↦ some e.1) : findSlot stream p = none := by
  refine Popen.findSlot_eq_none.mpr fun i hi heq ↦ hs ?_
  obtain ⟨e, he, hse, -⟩ := h.getElem hi
  exact List.mem_map.mpr ⟨e, List.mem_of_getElem? he, hse.symm.trans heq⟩

theorem tableInv (h : Stacked l p) : TableInv l p where
  count := h.count
  slot e he := by
    obtain ⟨i, hi, hlt⟩ := h.slotOf he
    exact ⟨i, ⟨hlt, h.slot i e hi⟩, fun j hj hs ↦ h.slot_inj hi hj hs⟩
  close e he stat := by
    obtain ⟨i, hi, -⟩ := h.slotOf he
    simp [myPclose, h.findSlot_eq hi, (h.slot i e hi).2]

/-- A successful `my_popen` puts the new stream on top. -/
theorem popen (h : Stacked l p) {os : PopenOs} (command mode : String)
    (hpipe : os.pipe ≠ none) (hfork : os.fork ≠ none) (hfdopen : os.fdopen ≠ none)
    (hfresh : os.fdopen ∉ l.map fun e ↦ some e.1) :
    Stacked (l.step (.popen os command mode)) (p.call (.popen os command mode)) := by
  obtain ⟨pfd, hpfd⟩ := Option.ne_none_iff_exists'.mp hpipe
  obtain ⟨pid, hpid⟩ := Option.ne_none_iff_exists'.mp hfork
  obtain ⟨f, hf⟩ := Option.ne_none_iff_exists'.mp hfdopen
  by_cases hroom : l.length < maxPopen ∧ (mode = "r" ∨ mode = "w")
  · have hpush : Pushed p (p.call (.popen os command mode)) os.fdopen pid :=
      myPopen_pushed hpfd hpid hroom.2 (h.count ▸ hroom.1) command
    have hlive : l.step (.popen os command mode) = l ++ [(f, pid)] := by
      simp [Live.step, hroom, hf, hpid]
    rw [hlive]
    refine ⟨by simp [hpush.count, h.count], fun i e hi ↦ ?_, ?_⟩
    · rw [hpush.streams, hpush.pids, h.count]
      rw [List.getElem?_append] at hi
      split at hi
      · next hlt =>
          simpa [Nat.ne_of_lt hlt] using h.slot i e hi
      · next hge =>
          obtain ⟨hz, rfl⟩ : (i : Nat) - l.length = 0 ∧ (f, pid) = e := by
            simpa [List.getElem?_singleton] using hi
          have htop : (i : Nat) = l.length := by omega
          simp [htop, hf]
    · have hnotin : f ∉ l.map Prod.fst := by simpa [hf] using hfresh
      rw [List.map_append, List.nodup_append_comm]
      exact List.nodup_cons.mpr ⟨hnotin, h.nodup⟩
  · have hcall : p.call (.popen os command mode) = p :=
      myPopen_refused (h.count ▸ (not_and_or.mp hroom).imp_left Nat.le_of_not_lt) os command
    have hlive : l.step (.popen os command mode) = l := by simp [Live.step, hroom]
    rw [hcall, hlive]
    exact h

/-- Closing a pointer that is no live stream finds nothing. -/
theorem pclose_notMem (h : Stacked l p) {stream : FilePtr}
    (hs : stream ∉ l.map fun e ↦ some e.1) (os : Option Int) :
    Stacked (l.step (.pclose os stream)) (p.call (.pclose os stream)) := by
  have hlive : l.step (.pclose os stream) = l :=
    List.filter_eq_self.mpr fun e he ↦ by
      simpa using fun heq ↦ hs (List.mem_map.mpr ⟨e, he, heq⟩)
  have hcall : p.call (.pclose os stream) = p := by
    simp [Parent.call, myPclose, h.findSlot_eq_none_of_notMem hs]
  rw [hlive, hcall]
  exact h

/-- Closing the stream in slot `i` clears that slot and drops the counter. -/
theorem pclose_call (h : Stacked l p) {i : Fin maxPopen} {e : Nat × Pid}
    (hi : l[(i : Nat)]? = some e) (stat : Int) :
    (p.call (.pclose (some stat) (some e.1))).popenCount = p.popenCount - 1 ∧
      (p.call (.pclose (some stat) (some e.1))).popenStreams =
        Function.update p.popenStreams i none ∧
      (p.call (.pclose (some stat) (some e.1))).popenPids =
        Function.update p.popenPids i 0 := by
  simp [Parent.call, myPclose, h.findSlot_eq hi, Parent.close]

/-- Closing the stream on top leaves the packed table of the others. -/
theorem pclose_top {e : Nat × Pid} (h : Stacked (l ++ [e]) p) (stat : Int) :
    Stacked ((l ++ [e]).step (.pclose (some stat) (some e.1)))
      (p.call (.pclose (some stat) (some e.1))) := by
  have hlen : l.length < maxPopen := by
    have := h.count ▸ p.popenCount_le
    simp only [List.length_append, List.length_singleton] at this
    omega
  have hnodup := h.nodup
  rw [List.map_append, List.nodup_append_comm] at hnodup
  obtain ⟨hnotin, hnodup⟩ := List.nodup_cons.mp hnodup
  have hlive : (l ++ [e]).step (.pclose (some stat) (some e.1)) = l := by
    rw [Live.step, List.filter_append, List.filter_eq_self.mpr]
    · simp
    · intro e' he'
      simpa using fun heq ↦ hnotin (List.mem_map.mpr ⟨e', he', heq⟩)
  obtain ⟨hc, hs, hp⟩ := h.pclose_call (i := ⟨l.length, hlen⟩) (e := e) (by simp) stat
  rw [hlive]
  refine ⟨by simp [hc, h.count], fun i e' hi ↦ ?_, hnodup⟩
  have hlt : (i : Nat) < l.length := (List.getElem?_eq_some_iff.mp hi).1
  have hne : i ≠ ⟨l.length, hlen⟩ := fun heq ↦ by simp [heq] at hlt
  rw [hs, hp, Function.update_of_ne hne, Function.update_of_ne hne]
  exact h.slot i e' (by rw [List.getElem?_append_left hlt, hi])

/-- Closing any other live stream leaves the newest one in the slot just above
the counter. -/
theorem not_tableInv_of_pclose (h : Stacked l p) {e : Nat × Pid} (he : e ∈ l)
    (hlast : some e.1 ≠ l.getLast?.map Prod.fst) (stat : Int) :
    ¬ TableInv (l.step (.pclose (some stat) (some e.1)))
      (p.call (.pclose (some stat) (some e.1))) := by
  intro hinv
  obtain ⟨i, hi, -⟩ := h.slotOf he
  obtain ⟨hc, hs, -⟩ := h.pclose_call hi stat
  obtain ⟨l₀, top, rfl⟩ : ∃ l₀ top, l = l₀ ++ [top] :=
    ⟨_, _, (List.dropLast_append_getLast (List.ne_nil_of_mem he)).symm⟩
  have hne : e.1 ≠ top.1 := by simpa using hlast
  have htop : top ∈ Live.step (l₀ ++ [top]) (.pclose (some stat) (some e.1)) := by
    simpa [Live.step] using Or.inr (Ne.symm hne)
  obtain ⟨j, ⟨hj, hjs, -⟩, -⟩ := hinv.slot top htop
  rw [hc] at hj
  rw [hs] at hjs
  have hji : j ≠ i := by
    rintro rfl
    simp at hjs
  rw [Function.update_of_ne hji] at hjs
  have hlen : l₀.length < maxPopen := by
    have := h.count ▸ p.popenCount_le
    simp only [List.length_append, List.length_singleton] at this
    omega
  have hj' : j = ⟨l₀.length, hlen⟩ :=
    h.slot_inj (e := top) (by simp) (Nat.lt_of_lt_of_le hj (Nat.sub_le _ _)) hjs
  simp [hj', h.count] at hj

end Stacked

/-! ## Histories -/

/-- **The packed table is kept by closing in stack order.** -/
theorem stacked_of_stackOrder {calls : List Call} (hlegal : EachCall LegalCall calls)
    (hstack : EachCall StackCall calls) : Stacked (live calls) (table calls) := by
  induction calls using List.reverseRecOn with
  | nil => exact Stacked.init
  | append_singleton calls c ih =>
      obtain ⟨hlegal, hc⟩ := eachCall_concat.mp hlegal
      obtain ⟨hstack, hs⟩ := eachCall_concat.mp hstack
      have h := ih hlegal hstack
      rw [live_concat, table_concat]
      cases c with
      | popen os command mode => exact h.popen command mode hc.1 hc.2.1 hc.2.2.1 hc.2.2.2
      | pclose os stream =>
          obtain ⟨stat, rfl⟩ := Option.ne_none_iff_exists'.mp hc
          by_cases hmem : stream ∈ (live calls).map fun e ↦ some e.1
          · obtain ⟨e, he, rfl⟩ := List.mem_map.mp hmem
            obtain ⟨l₀, top, hl⟩ : ∃ l₀ top, live calls = l₀ ++ [top] :=
              ⟨_, _, (List.dropLast_append_getLast (List.ne_nil_of_mem he)).symm⟩
            have htop : e.1 = top.1 := by
              simpa [hl] using hs.resolve_right (not_not.mpr hmem)
            rw [htop, hl]
            exact Stacked.pclose_top (hl ▸ h) stat
          · exact h.pclose_notMem hmem (some stat)

/-- **A history keeps the table invariant all along exactly when it closes in
stack order.**  One close out of order is enough to lose the newest stream. -/
theorem tableInv_iff_stackOrder (calls : List Call) (hlegal : EachCall LegalCall calls) :
    (∀ pre, pre <+: calls → TableInv (live pre) (table pre)) ↔ EachCall StackCall calls := by
  constructor
  · intro h
    induction calls using List.reverseRecOn with
    | nil => exact eachCall_nil _
    | append_singleton calls c ih =>
        obtain ⟨hl, hc⟩ := eachCall_concat.mp hlegal
        have hs := ih hl fun pre hpre ↦ h pre (hpre.trans (List.prefix_append _ _))
        refine eachCall_concat.mpr ⟨hs, ?_⟩
        cases c with
        | popen os command mode => trivial
        | pclose os stream =>
            obtain ⟨stat, rfl⟩ := Option.ne_none_iff_exists'.mp hc
            by_contra hnot
            obtain ⟨hlast, hmem⟩ := not_or.mp hnot
            obtain ⟨e, he, rfl⟩ := List.mem_map.mp (not_not.mp hmem)
            have hinv := h _ List.prefix_rfl
            rw [live_concat, table_concat] at hinv
            exact (stacked_of_stackOrder hl hs).not_tableInv_of_pclose he hlast stat hinv
  · intro hstack pre hpre
    exact (stacked_of_stackOrder (hlegal.of_isPrefix hpre) (hstack.of_isPrefix hpre)).tableInv

/-- `my_popen` of a shell command in mode `mode`, getting the stream `f` and the
child `pid`. -/
def opened (f : Nat) (pid : Pid) (mode : String) : Call :=
  .popen ⟨some (3, 4), some pid, some f⟩ "cat" mode

/-- Two sessions, the second nested in the first and followed by a third. -/
def nested : List Call :=
  [opened 0xa0 11 "r", opened 0xb0 12 "w", .pclose (some 0) (some 0xb0),
    opened 0xc0 13 "r", .pclose (some 0) (some 0xc0), .pclose (some 0) (some 0xa0)]

theorem tableInv_nested : live nested = [] ∧
    ∀ pre, pre <+: nested → TableInv (live pre) (table pre) :=
  ⟨by decide, (tableInv_iff_stackOrder _ (by decide)).mpr (by decide)⟩

/-- Two streams open, the older one is closed. -/
def oldestFirst : List Call :=
  [opened 0xa0 11 "r", opened 0xb0 12 "w", .pclose (some 0) (some 0xa0)]

/-- The other stream, still open, is not found any more. -/
theorem tableInv_fails_oldest_first :
    EachCall LegalCall oldestFirst ∧ live oldestFirst = [(0xb0, 12)] ∧
      ¬ TableInv (live oldestFirst) (table oldestFirst) ∧
      (myPclose (some 0) (some 0xb0) (table oldestFirst)).1.ret = some (-1) := by
  refine ⟨by decide, by decide, fun h ↦ ?_, by decide⟩
  exact absurd (h.close (0xb0, 12) (by decide) 0) (by decide)

end SysProg.Popen
