import Mathlib.Data.List.Basic

/-!
# Labelled transition systems and their runs

The small amount of transition-system theory the protocol models share.  An
`Lts` has a predicate of initial states and a labelled step relation; a *run*
is a finite list of labels, oldest first, together with the state it leads to.
Labels carry what an observer sees of a step (which process moved, what it
received), so a statement about the order of events is a statement about the
label list.

* `Run.induction` is the invariant rule: what holds initially and is kept by
  every step of a run holds after every run.  The predicate sees the labels so
  far as well as the state, which is how the ghost history enters an invariant.
* `Run.exists_path` is the rule for progress: a measure that some step lowers until
  the goal is reached.
* `restrict` keeps the steps that satisfy a condition on the state before the
  step; a run of `M.restrict G` is a run of `M` all of whose steps meet `G`.
* `ofNext` reads an executable `next : σ → α → Option σ` as a system, and
  `Run.of_exec` turns an evaluation of it into a run.
* `observe` adds the history of what is seen of the steps to the state.
* `Simulation` is forward simulation along a partial map of labels, and `Run.project` the case
  in which the related state is a part of the state, as for one of several components.
-/

universe u v w x

namespace SysProg.Lib

/-- A labelled transition system. -/
structure Lts (σ : Type u) (α : Type v) where
  /-- The initial states. -/
  init : σ → Prop
  /-- `step s a t`: from `s` the system can do `a` and be in `t`. -/
  step : σ → α → σ → Prop

namespace Lts

variable {σ : Type u} {α : Type v} {τ : Type w} {β : Type x} {M : Lts σ α}

/-- `Path s tr t`: from `s` the labels `tr`, oldest first, can lead to `t`. -/
inductive Path (M : Lts σ α) (s : σ) : List α → σ → Prop
  | /-- No step. -/ nil : Path M s [] s
  | /-- One more step at the end. -/
    snoc {tr : List α} {t u : σ} {a : α} : Path M s tr t → M.step t a u → Path M s (tr ++ [a]) u

/-- `Run tr s`: the labels `tr` lead from some initial state to `s`. -/
def Run (M : Lts σ α) (tr : List α) (s : σ) : Prop := ∃ s₀, M.init s₀ ∧ M.Path s₀ tr s

/-- Some run leads to `s`. -/
def Reachable (M : Lts σ α) (s : σ) : Prop := ∃ tr, M.Run tr s

/-- The label `a` is possible in `s`. -/
def Enabled (M : Lts σ α) (s : σ) (a : α) : Prop := ∃ t, M.step s a t

/-- No step is possible in `s`. -/
def Stuck (M : Lts σ α) (s : σ) : Prop := ∀ a, ¬ M.Enabled s a

/-! ## Paths and runs -/

theorem Path.single {s t : σ} {a : α} (h : M.step s a t) : M.Path s [a] t :=
  show M.Path s ([] ++ [a]) t from .snoc .nil h

theorem Path.trans {s t u : σ} {tr tr' : List α} (h : M.Path s tr t) (h' : M.Path t tr' u) :
    M.Path s (tr ++ tr') u := by
  induction h' with
  | nil => simpa using h
  | snoc _ hs ih => rw [← List.append_assoc]; exact .snoc ih hs

/-- The first step of a path. -/
theorem Path.head {s t : σ} {a : α} {tr : List α} (h : M.Path s (a :: tr) t) :
    ∃ u, M.step s a u ∧ M.Path u tr t := by
  generalize hl : a :: tr = l at h
  induction h generalizing tr with
  | nil => cases hl
  | @snoc l u t b hp hs ih =>
      cases l with
      | nil =>
          cases hl
          generalize hnil : [] = l at hp
          cases hp with
          | nil => exact ⟨_, hs, .nil⟩
          | snoc => exact absurd hnil.symm (by simp)
      | cons b' l =>
          obtain ⟨rfl, rfl⟩ := List.cons.inj hl
          obtain ⟨v, hv, hrest⟩ := ih rfl
          exact ⟨v, hv, hrest.snoc hs⟩

theorem Path.mono {N : Lts σ α} (step : ∀ s a t, M.step s a t → N.step s a t) {s t : σ}
    {tr : List α} (h : M.Path s tr t) : N.Path s tr t := by
  induction h with
  | nil => exact .nil
  | snoc _ hs ih => exact .snoc ih (step _ _ _ hs)

theorem Run.init {s : σ} (h : M.init s) : M.Run [] s := ⟨s, h, .nil⟩

theorem Run.snoc {tr : List α} {s t : σ} {a : α} (h : M.Run tr s) (hs : M.step s a t) :
    M.Run (tr ++ [a]) t := by
  obtain ⟨s₀, h₀, hp⟩ := h
  exact ⟨s₀, h₀, .snoc hp hs⟩

theorem Run.append {tr tr' : List α} {s t : σ} (h : M.Run tr s) (hp : M.Path s tr' t) :
    M.Run (tr ++ tr') t := by
  obtain ⟨s₀, h₀, hp₀⟩ := h
  exact ⟨s₀, h₀, hp₀.trans hp⟩

theorem Run.reachable {tr : List α} {s : σ} (h : M.Run tr s) : M.Reachable s := ⟨tr, h⟩

/-- **The invariant rule.**  A property of labels and state that holds initially
and is kept by each step taken from the end of a run holds after every run. -/
theorem Run.induction {P : List α → σ → Prop} (init : ∀ s, M.init s → P [] s)
    (step : ∀ tr s a t, M.Run tr s → P tr s → M.step s a t → P (tr ++ [a]) t)
    {tr : List α} {s : σ} (h : M.Run tr s) : P tr s := by
  obtain ⟨s₀, h₀, hp⟩ := h
  induction hp with
  | nil => exact init s₀ h₀
  | snoc hp hs ih => exact step _ _ _ _ ⟨s₀, h₀, hp⟩ ih hs

/-- The invariant rule for a property of the state alone. -/
theorem Reachable.induction {P : σ → Prop} (init : ∀ s, M.init s → P s)
    (step : ∀ s a t, M.Reachable s → P s → M.step s a t → P t) {s : σ} (h : M.Reachable s) :
    P s := by
  obtain ⟨tr, h⟩ := h
  exact h.induction (P := fun _ s ↦ P s) init
    (fun tr s a t hr hP hs ↦ step s a t ⟨tr, hr⟩ hP hs)

/-- **The progress rule.**  Where a step is possible until `goal` is reached, and it
keeps `I` and lowers `fuel`, the goal can be reached. -/
theorem Run.exists_path {I : List α → σ → Prop} {goal : σ → Prop} (fuel : σ → Nat)
    (progress : ∀ tr s, M.Run tr s → I tr s → ¬ goal s →
      ∃ a t, M.step s a t ∧ I (tr ++ [a]) t ∧ fuel t < fuel s)
    {tr : List α} {s : σ} (h : M.Run tr s) (hI : I tr s) :
    ∃ tr' t, M.Path s tr' t ∧ I (tr ++ tr') t ∧ goal t := by
  induction hfuel : fuel s using Nat.strongRecOn generalizing tr s with
  | ind n ih =>
      by_cases hgoal : goal s
      · exact ⟨[], s, .nil, by rwa [List.append_nil], hgoal⟩
      · obtain ⟨a, t, hs, hIt, hlt⟩ := progress tr s h hI hgoal
        obtain ⟨tr', u, hpath, hIu, hu⟩ := ih (fuel t) (hfuel ▸ hlt) (h.snoc hs) hIt rfl
        rw [List.append_assoc] at hIu
        exact ⟨[a] ++ tr', u, (Path.single hs).trans hpath, hIu, hu⟩

/-! ## Runs whose steps meet a condition -/

/-- The steps of `M` that meet the condition `G` on the state before the step
and the label. -/
def restrict (M : Lts σ α) (G : σ → α → Prop) : Lts σ α where
  init := M.init
  step s a t := G s a ∧ M.step s a t

theorem Run.mono {N : Lts σ α} (init : ∀ s, M.init s → N.init s)
    (step : ∀ s a t, M.step s a t → N.step s a t) {tr : List α} {s : σ} (h : M.Run tr s) :
    N.Run tr s := by
  obtain ⟨s₀, h₀, hp⟩ := h
  exact ⟨s₀, init s₀ h₀, hp.mono step⟩

theorem Run.of_restrict {G : σ → α → Prop} {tr : List α} {s : σ} (h : (M.restrict G).Run tr s) :
    M.Run tr s :=
  h.mono (M := M.restrict G) (N := M) (fun _ hs ↦ hs) (fun _ _ _ hs ↦ hs.2)

/-- A condition that every step meets because of the steps before it. -/
theorem Run.restrict_of_imp {G G' : σ → α → Prop}
    (hG : ∀ tr s a t, (M.restrict G').Run tr s → M.step s a t → G s a → G' s a)
    {tr : List α} {s : σ} (h : (M.restrict G).Run tr s) : (M.restrict G').Run tr s :=
  Run.induction (M := M.restrict G) (P := (M.restrict G').Run) (fun _ hs ↦ .init hs)
    (fun _ _ _ _ _ ih hs ↦ ih.snoc ⟨hG _ _ _ _ ih hs.2 hs.1, hs.2⟩) h

theorem Run.restrict_mono {G G' : σ → α → Prop} (hG : ∀ s a, G s a → G' s a) {tr : List α} {s : σ}
    (h : (M.restrict G).Run tr s) : (M.restrict G').Run tr s :=
  h.restrict_of_imp fun _ _ _ _ _ _ ↦ hG _ _

/-! ## Executable systems -/

/-- The system of an executable step function. -/
def ofNext (init : σ → Prop) (next : σ → α → Option σ) : Lts σ α where
  init := init
  step s a t := next s a = some t

/-- The step function that refuses the steps outside `G`. -/
def guarded (next : σ → α → Option σ) (G : σ → α → Prop) [∀ s a, Decidable (G s a)] :
    σ → α → Option σ :=
  fun s a ↦ if G s a then next s a else none

/-- Follow a list of labels. -/
def exec (next : σ → α → Option σ) : σ → List α → Option σ
  | s, [] => some s
  | s, a :: tr => (next s a).bind fun t ↦ exec next t tr

theorem Path.of_exec {init : σ → Prop} {next : σ → α → Option σ} {s t : σ} {tr : List α}
    (h : exec next s tr = some t) : (ofNext init next).Path s tr t := by
  induction tr generalizing s with
  | nil => cases h; exact .nil
  | cons a tr ih =>
      obtain ⟨u, hu, h⟩ := Option.bind_eq_some_iff.mp h
      exact (Path.single (M := ofNext init next) hu).trans (ih h)

theorem Run.of_exec {init : σ → Prop} {next : σ → α → Option σ} {s t : σ} {tr : List α}
    (h₀ : init s) (h : exec next s tr = some t) : (ofNext init next).Run tr t :=
  ⟨s, h₀, .of_exec h⟩

theorem Path.of_exec_guarded {init : σ → Prop} {next : σ → α → Option σ} {G : σ → α → Prop}
    [∀ s a, Decidable (G s a)] {s t : σ} {tr : List α}
    (h : exec (guarded next G) s tr = some t) : ((ofNext init next).restrict G).Path s tr t := by
  have hpath : (ofNext init (guarded next G)).Path s tr t := .of_exec h
  refine hpath.mono fun s a t hs ↦ ?_
  by_cases hG : G s a
  · exact ⟨hG, by simpa [ofNext, guarded, hG] using hs⟩
  · simp [ofNext, guarded, hG] at hs

theorem Run.of_exec_guarded {init : σ → Prop} {next : σ → α → Option σ} {G : σ → α → Prop}
    [∀ s a, Decidable (G s a)] {s t : σ} {tr : List α} (h₀ : init s)
    (h : exec (guarded next G) s tr = some t) : ((ofNext init next).restrict G).Run tr t :=
  ⟨s, h₀, .of_exec_guarded h⟩

/-- An evaluation shows a run and what can be observed at its end. -/
theorem exists_run_of_exec {init : σ → Prop} {next : σ → α → Option σ} {s : σ} (h₀ : init s)
    (tr : List α) (obs : σ → β) (b : β) (h : (exec next s tr).map obs = some b) :
    ∃ t, (ofNext init next).Run tr t ∧ obs t = b := by
  obtain ⟨t, ht, hb⟩ := Option.map_eq_some_iff.mp h
  exact ⟨t, .of_exec h₀ ht, hb⟩

theorem exists_restrict_run_of_exec {init : σ → Prop} {next : σ → α → Option σ} {G : σ → α → Prop}
    [∀ s a, Decidable (G s a)] {s : σ} (h₀ : init s) (tr : List α) (obs : σ → β) (b : β)
    (h : (exec (guarded next G) s tr).map obs = some b) :
    ∃ t, ((ofNext init next).restrict G).Run tr t ∧ obs t = b := by
  obtain ⟨t, ht, hb⟩ := Option.map_eq_some_iff.mp h
  exact ⟨t, .of_exec_guarded h₀ ht, hb⟩

/-! ## Histories -/

/-- `M` with a history: `obs s a` is what is seen of the step `a` from `s`, if anything. -/
def observe (M : Lts σ α) (obs : σ → α → Option β) : Lts (σ × List β) α where
  init p := M.init p.1 ∧ p.2 = []
  step p a q := M.step p.1 a q.1 ∧ q.2 = p.2 ++ (obs p.1 a).toList

variable {obs : σ → α → Option β}

theorem Run.of_observe {tr : List α} {p : σ × List β} (h : (M.observe obs).Run tr p) :
    M.Run tr p.1 := by
  refine Run.induction (M := M.observe obs) (P := fun tr p ↦ M.Run tr p.1) ?_ ?_ h
  · exact fun _ hp ↦ .init hp.1
  · exact fun _ _ _ _ _ ih hs ↦ ih.snoc hs.1

/-- Observing does not restrict the runs. -/
theorem Run.exists_observe (obs : σ → α → Option β) {tr : List α} {s : σ} (h : M.Run tr s) :
    ∃ hist, (M.observe obs).Run tr (s, hist) := by
  refine h.induction (P := fun tr s ↦ ∃ hist, (M.observe obs).Run tr (s, hist)) ?_ ?_
  · intro s hs
    exact ⟨[], .init ⟨hs, rfl⟩⟩
  · rintro tr s a t - ⟨hist, hrun⟩ hs
    exact ⟨hist ++ (obs s a).toList, hrun.snoc ⟨hs, rfl⟩⟩

/-- The step function with a history. -/
def observed (next : σ → α → Option σ) (obs : σ → α → Option β) :
    σ × List β → α → Option (σ × List β) :=
  fun p a ↦ (next p.1 a).map fun t ↦ (t, p.2 ++ (obs p.1 a).toList)

/-- An evaluation shows a run, with what is seen of its steps. -/
theorem exists_observe_run_of_exec {γ : Type x} {init : σ → Prop} {next : σ → α → Option σ} {s : σ}
    (h₀ : init s) (obs : σ → α → Option β) (tr : List α) (view : σ → γ) (c : γ) (hist : List β)
    (h : (exec (observed next obs) (s, []) tr).map (fun p ↦ (view p.1, p.2)) = some (c, hist)) :
    ∃ t, ((ofNext init next).observe obs).Run tr (t, hist) ∧ view t = c := by
  obtain ⟨⟨t, hist'⟩, ht, heq⟩ := Option.map_eq_some_iff.mp h
  obtain ⟨hview, rfl⟩ := Prod.mk.inj heq
  have hpath : (ofNext (fun _ ↦ True) (observed next obs)).Path (s, []) tr (t, hist') :=
    .of_exec ht
  refine ⟨t, ⟨(s, []), ⟨h₀, rfl⟩, hpath.mono fun p a q hs ↦ ?_⟩, hview⟩
  obtain ⟨u, hu, rfl⟩ := Option.map_eq_some_iff.mp hs
  exact ⟨hu, rfl⟩

/-! ## Simulation -/

/-- What is seen of one more label comes last. -/
theorem filterMap_concat (label : α → Option β) (tr : List α) (a : α) :
    (tr ++ [a]).filterMap label = tr.filterMap label ++ (label a).toList := by
  rw [List.filterMap_append]
  cases h : label a <;> simp [h]

/-- A forward simulation of `M` by `N` along a partial map of labels: a step
with no image is invisible in `N`. -/
structure Simulation (M : Lts σ α) (N : Lts τ β) (label : α → Option β)
    (R : List α → σ → τ → Prop) : Prop where
  /-- Initial states are related. -/
  init : ∀ s, M.init s → ∃ t, N.init t ∧ R [] s t
  /-- An invisible step keeps the related state. -/
  skip : ∀ tr s a s' t, M.Run tr s → M.step s a s' → label a = none → R tr s t →
    R (tr ++ [a]) s' t
  /-- A visible step is matched by a step with the image label. -/
  sync : ∀ tr s a s' t b, M.Run tr s → M.step s a s' → label a = some b → R tr s t →
    ∃ t', N.step t b t' ∧ R (tr ++ [a]) s' t'

/-- A run of the concrete system maps to a run of the abstract one. -/
theorem Simulation.run {N : Lts τ β} {label : α → Option β} {R : List α → σ → τ → Prop}
    (h : Simulation M N label R) {tr : List α} {s : σ} (hr : M.Run tr s) :
    ∃ t, N.Run (tr.filterMap label) t ∧ R tr s t := by
  refine hr.induction (P := fun tr s ↦ ∃ t, N.Run (tr.filterMap label) t ∧ R tr s t) ?_ ?_
  · intro s hs
    obtain ⟨t, ht, hR⟩ := h.init s hs
    exact ⟨t, .init ht, hR⟩
  · rintro tr s a s' hrun ⟨t, hN, hR⟩ hstep
    rw [filterMap_concat]
    cases hl : label a with
    | none => exact ⟨t, by simpa using hN, h.skip tr s a s' t hrun hstep hl hR⟩
    | some b =>
        obtain ⟨t', ht', hR'⟩ := h.sync tr s a s' t b hrun hstep hl hR
        exact ⟨t', hN.snoc ht', hR'⟩

/-- **The component rule.**  What a run looks like to a part of the state that only the labels
it sees can change. -/
theorem Run.project {N : Lts τ β} (part : σ → τ) (label : α → Option β)
    (init : ∀ s, M.init s → N.init (part s))
    (skip : ∀ s a s', M.step s a s' → label a = none → part s' = part s)
    (sync : ∀ s a s' b, M.step s a s' → label a = some b → N.step (part s) b (part s'))
    {tr : List α} {s : σ} (h : M.Run tr s) : N.Run (tr.filterMap label) (part s) := by
  have hsim : Simulation M N label fun _ s t ↦ t = part s := by
    refine ⟨fun s hs ↦ ⟨part s, init s hs, rfl⟩, ?_, ?_⟩
    · rintro tr s a s' t - hs hlabel rfl
      exact (skip s a s' hs hlabel).symm
    · rintro tr s a s' t b - hs hlabel rfl
      exact ⟨part s', sync s a s' b hs hlabel, rfl⟩
  obtain ⟨t, ht, rfl⟩ := hsim.run h
  exact ht

end Lts

end SysProg.Lib
