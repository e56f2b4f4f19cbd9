import Mathlib.Logic.Function.Basic
import SysProg.Shell.Pipeline

/-!
# The vectors of a pipe

For a `|` in the middle, `pipe_and_exec` copies the words before it to `left_argv` and those
behind it to `right_argv`.  Behind each of the two loops `i` is the number of the words, and
NULL is stored at `i+1`.

* `leftVector` and `rightVector` are the two loops; a block keeps what has been stored in it,
  also behind its end.
* `leftVector_slot` and `rightVector_slot`: the words, a slot that is not set, and NULL.
* `not_exact`: so neither vector is ever what it should be.
* `read_vectors`: they are what `pipeAndExec` hands over, with what is in the slot by chance, unless
  the NULL has emptied a word;
  and by `size_vectors` the slot is behind the end of the block.
-/

namespace SysProg.Shell

open SysProg.Lib

/-- A block of pointers. -/
structure Block where
  /-- How many have been allocated. -/
  size : Nat
  /-- What has been stored, if anything has been. -/
  slot : Nat → Option (Option Word)

def Block.malloc (size : Nat) : Block := ⟨size, fun _ ↦ none⟩

def Block.realloc (b : Block) (size : Nat) : Block := { b with size := size }

def Block.store (b : Block) (i : Nat) (pointer : Option Word) : Block :=
  { b with slot := Function.update b.slot i (some pointer) }

/-- `for(i=0;i<p;i++)`, with the copy of each word. -/
def copyLeft (argv : Argv) (b : Block) : Nat → Block
  | 0 => b
  | i + 1 => (copyLeft argv b i).store i argv[i]?.join

/-- `left_argv` for a `|` at `p`. -/
def leftVector (argv : Argv) (p : Nat) : Block :=
  (copyLeft argv (Block.malloc p) p).store (p + 1) none

/-- `while(myArgv[i+p+1]!=NULL)`, from index `i` on, and the NULL behind it. -/
def copyRight (b : Block) (i : Nat) : Argv → Block
  | some w :: argv => copyRight ((b.realloc (i + 1)).store i (some w)) (i + 1) argv
  | _ => b.store (i + 1) none

/-- `right_argv` for a `|` at `p`. -/
def rightVector (argv : Argv) (p : Nat) : Block :=
  copyRight (Block.malloc 1) 0 (argv.drop (p + 1))

/-- The block begins with these words and NULL. -/
def Block.Exact (b : Block) (ws : List Word) : Prop :=
  ∀ i < (nullTerm ws).length, b.slot i = (nullTerm ws)[i]?

variable {b : Block} {ws left rest : List Word} {argv : Argv} {w : Word} {i j p : Nat}

@[simp] theorem Block.slot_store (b : Block) (i j : Nat) (pointer : Option Word) :
    (b.store i pointer).slot j = if j = i then some pointer else b.slot j :=
  Function.update_apply ..

@[simp] theorem Block.slot_realloc (b : Block) (size : Nat) : (b.realloc size).slot = b.slot := rfl

/-! ## The loops -/

theorem slot_copyLeft (argv : Argv) (b : Block) (p : Nat) :
    (copyLeft argv b p).slot j = if j < p then some argv[j]?.join else b.slot j := by
  induction p with
  | zero => rfl
  | succ p ih =>
      rw [copyLeft, Block.slot_store, ih]
      by_cases hj : j = p
      · subst hj
        simp
      · have hiff : j < p + 1 ↔ j < p := by omega
        rw [if_neg hj]
        simp only [hiff]

/-- **What a loop leaves**: the words, one slot that is not set, and NULL. -/
def layout (ws : List Word) (j : Nat) : Option (Option Word) :=
  if j = ws.length + 1 then some none else ws[j]?.map some

theorem layout_zero (w : Word) (ws : List Word) : layout (w :: ws) 0 = some (some w) := rfl

theorem layout_succ (w : Word) (ws : List Word) (j : Nat) :
    layout (w :: ws) (j + 1) = layout ws j := by
  simp [layout]

theorem leftVector_slot (hv : Holds argv (left ++ rest)) (j : Nat) :
    (leftVector argv left.length).slot j = layout left j := by
  obtain ⟨tail, rfl⟩ := hv
  rw [leftVector, Block.slot_store, slot_copyLeft, layout]
  by_cases hj : j < left.length
  · have hne : j ≠ left.length + 1 := by omega
    rw [if_neg hne, if_neg hne, if_pos hj, List.map_append, List.append_assoc,
      List.getElem?_append_left (by rwa [List.length_map]), List.getElem?_map,
      List.getElem?_eq_getElem hj]
    rfl
  · rw [if_neg hj, List.getElem?_eq_none (Nat.le_of_not_lt hj)]
    rfl

theorem copyRight_slot (hv : Holds argv ws) (b : Block) (i j : Nat) :
    (copyRight b i argv).slot j =
      if i ≤ j then (layout ws (j - i)).or (b.slot j) else b.slot j := by
  induction ws generalizing argv b i with
  | nil =>
      obtain ⟨tail, rfl⟩ := hv.exists_nil
      show (b.store (i + 1) none).slot j = _
      rw [Block.slot_store, layout, List.length_nil, Nat.zero_add]
      by_cases hj : j = i + 1
      · subst hj
        simp
      · rw [if_neg hj]
        split
        · next hle =>
            have hne : j - i ≠ 1 := by omega
            rw [if_neg hne]
            rfl
        · rfl
  | cons w ws ih =>
      obtain ⟨argv, rfl, hws⟩ := hv.exists_cons
      rw [copyRight, ih hws, Block.slot_store, Block.slot_realloc]
      rcases Nat.lt_trichotomy j i with hj | rfl | hj
      · rw [if_neg (by omega), if_neg (by omega), if_neg (by omega)]
      · rw [if_neg (by omega), if_pos rfl, if_pos le_rfl, Nat.sub_self, layout_zero]
        rfl
      · obtain ⟨k, rfl⟩ := Nat.exists_eq_add_of_lt hj
        have hsub : i + k + 1 - i = k + 1 := by omega
        have hsub' : i + k + 1 - (i + 1) = k := by omega
        rw [if_pos (by omega), if_neg (by omega), if_pos (by omega), hsub, hsub', layout_succ]

theorem rightVector_slot (hv : Holds argv (left ++ bar :: rest)) (j : Nat) :
    (rightVector argv left.length).slot j = layout rest j := by
  rw [rightVector, copyRight_slot (holds_drop hv), if_pos (Nat.zero_le j), Nat.sub_zero]
  exact Option.or_none

/-- **Such a vector is never right**: the slot behind the words is not set. -/
theorem not_exact (h : ∀ j, b.slot j = layout ws j) : ¬ b.Exact ws := by
  intro hexact
  have hend := hexact ws.length (by simp [nullTerm])
  rw [h, layout, if_neg (by omega), List.getElem?_eq_none le_rfl] at hend
  have hnull : (nullTerm ws)[ws.length]? = some none := getElem?_map_some_append ws [none] 0
  rw [hnull] at hend
  cases hend

/-- **Neither vector of a pipe is ever right.** -/
theorem not_exact_vectors (left rest : List Word) (hbar : bar ∉ left) (hleft : left ≠ [])
    (hrest : rest ≠ []) :
    let argv := nullTerm (left ++ bar :: rest)
    let p := (pipePresent argv).toNat
    ¬ (leftVector argv p).Exact left ∧ ¬ (rightVector argv p).Exact rest := by
  have hv := holds_nullTerm (left ++ bar :: rest)
  dsimp only
  rw [pipePresent_of_mem hv hbar hleft hrest, Int.toNat_natCast]
  exact ⟨not_exact (leftVector_slot hv), not_exact (rightVector_slot hv)⟩

/-- In `ls | wc` neither has its NULL where it should be. -/
theorem exact_vectors_lsWc : ¬ ∀ left rest : List Word, bar ∉ left → left ≠ [] → rest ≠ [] →
    let argv := nullTerm (left ++ bar :: rest)
    let p := (pipePresent argv).toNat
    (leftVector argv p).Exact left ∧ (rightVector argv p).Exact rest := by
  intro h
  have hexact := h [ascii "ls"] [ascii "wc"] (by decide) (by decide) (by decide)
  exact absurd (hexact.1 1 (by decide)) (by decide)

/-- `ls | wc` -/
theorem not_exact_vectors_lsWc :
    ¬ (leftVector (nullTerm [ascii "ls", bar, ascii "wc"]) 1).Exact [ascii "ls"] ∧
      ¬ (rightVector (nullTerm [ascii "ls", bar, ascii "wc"]) 1).Exact [ascii "wc"] :=
  not_exact_vectors [ascii "ls"] [ascii "wc"] (by decide) (by decide) (by decide)

/-! ## The blocks -/

theorem size_copyLeft (argv : Argv) (b : Block) (p : Nat) : (copyLeft argv b p).size = b.size := by
  induction p with
  | zero => rfl
  | succ p ih => exact ih

theorem size_copyRight (hv : Holds argv ws) (b : Block) (i : Nat) :
    (copyRight b i argv).size = if ws = [] then b.size else i + ws.length := by
  induction ws generalizing argv b i with
  | nil =>
      obtain ⟨tail, rfl⟩ := hv.exists_nil
      rfl
  | cons w ws ih =>
      obtain ⟨argv, rfl, hws⟩ := hv.exists_cons
      rw [copyRight, ih hws, if_neg (List.cons_ne_nil w ws), List.length_cons]
      split
      · next hnil =>
          subst hnil
          rfl
      · omega

/-- **Both blocks end with the last word**: the slot that is not set and the NULL are behind. -/
theorem size_vectors (hv : Holds argv (left ++ bar :: rest)) (hrest : rest ≠ []) :
    (leftVector argv left.length).size = left.length ∧
      (rightVector argv left.length).size = rest.length := by
  refine ⟨size_copyLeft argv _ _, ?_⟩
  rw [rightVector, size_copyRight (holds_drop hv), if_neg hrest, Nat.zero_add]

/-- What a reader finds in the first slots, with `unset` where nothing has been stored. -/
def Block.read (b : Block) (unset : Option Word) (n : Nat) : Argv :=
  (List.range n).map fun i ↦ (b.slot i).getD unset

theorem read_of_layout (h : ∀ j, b.slot j = layout ws j) (unset : Option Word) :
    b.read unset (ws.length + 2) = ws.map some ++ [unset, none] := by
  have hwords : (List.range ws.length).map (fun i ↦ (b.slot i).getD unset) = ws.map some := by
    refine List.ext_getElem (by simp) fun i hi _ ↦ ?_
    have hi : i < ws.length := by simpa using hi
    have hne : i ≠ ws.length + 1 := by omega
    simp [h, layout, hne, hi]
  have hunset : b.slot ws.length = none := by simp [h, layout]
  have hnull : b.slot (ws.length + 1) = some none := by simp [h, layout]
  rw [Block.read, List.range_succ, List.range_succ, List.map_append, List.map_append, hwords]
  simp [hunset, hnull]

/-- **What `pipe_and_exec` hands over** are these blocks, unless a word has been emptied. -/
theorem read_vectors (unset : Slot) (left rest : List Word) :
    (leftVector (nullTerm (left ++ bar :: rest)) left.length).read unset.word? (left.length + 2) =
        leftArgv ⟨fun _ ↦ false, unset⟩ (nullTerm (left ++ bar :: rest)) left.length ∧
      (rightVector (nullTerm (left ++ bar :: rest)) left.length).read unset.word?
          (rest.length + 2) =
        rightArgv ⟨fun _ ↦ false, unset⟩ (nullTerm (left ++ bar :: rest)) left.length := by
  have hv := holds_nullTerm (left ++ bar :: rest)
  have hvector : ∀ ws : List Word, (⟨fun _ ↦ false, unset⟩ : Copy).vector ws =
      ws.map some ++ [unset.word?, none] := by
    intro ws
    rw [Copy.vector, emptyWords_of_intact fun _ ↦ rfl]
  rw [leftArgv_eq, rightArgv_eq, hvector, hvector]
  exact ⟨read_of_layout (leftVector_slot hv) _, read_of_layout (rightVector_slot hv) _⟩

end SysProg.Shell
