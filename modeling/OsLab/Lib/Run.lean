import Mathlib.Logic.Relation

/-! # Runs of a labelled transition system

A system is an initial predicate `init` and a labelled step relation `step`.
`Run init step h s` is a finite run that ends in `s`; its history `h` lists the
steps taken, newest first, each as the state before the step and its label.
Keeping the states in the history lets a theorem speak about *every* state a
run passes through, and about a condition that *every* step of it meets.
-/

namespace Trace

variable {σ ε : Type*}

/-- A finite run from an initial state to `s`, with the steps taken so far
(state before the step and label, newest first). -/
inductive Run (init : σ → Prop) (step : σ → ε → σ → Prop) : List (σ × ε) → σ → Prop
  | start {s : σ} : init s → Run init step [] s
  | snoc {h : List (σ × ε)} {s t : σ} {e : ε} :
      Run init step h s → step s e t → Run init step ((s, e) :: h) t

/-- Every state of the run (those in the history and the last one) satisfies `P`. -/
def AllStates (P : σ → Prop) (h : List (σ × ε)) (s : σ) : Prop :=
  (∀ p ∈ h, P p.1) ∧ P s

/-- Every step of the run meets the condition `C` on the state before it and its label. -/
def AllSteps (C : σ → ε → Prop) (h : List (σ × ε)) : Prop :=
  ∀ p ∈ h, C p.1 p.2

theorem allStates_nil {P : σ → Prop} {s : σ} : AllStates P ([] : List (σ × ε)) s ↔ P s := by
  simp [AllStates]

theorem allStates_cons {P : σ → Prop} {h : List (σ × ε)} {s t : σ} {e : ε} :
    AllStates P ((s, e) :: h) t ↔ AllStates P h s ∧ P t := by
  simp only [AllStates, List.mem_cons, forall_eq_or_imp]
  constructor
  · rintro ⟨⟨hs, hh⟩, ht⟩
    exact ⟨⟨hh, hs⟩, ht⟩
  · rintro ⟨⟨hh, hs⟩, ht⟩
    exact ⟨⟨hs, hh⟩, ht⟩

theorem allSteps_nil {C : σ → ε → Prop} : AllSteps C ([] : List (σ × ε)) := by
  simp [AllSteps]

theorem allSteps_cons {C : σ → ε → Prop} {h : List (σ × ε)} {s : σ} {e : ε} :
    AllSteps C ((s, e) :: h) ↔ C s e ∧ AllSteps C h := by
  simp [AllSteps]

/-- A run goes on along the labels `es` when the executable step `f` takes them one after the other
and all of them meet `C`. -/
theorem Run.exists_of_foldlM {init : σ → Prop} {f : σ → ε → Option σ} {C : σ → ε → Prop}
    [∀ s e, Decidable (C s e)] {h : List (σ × ε)} {s t : σ} {es : List ε}
    (hr : Run init (fun s e s' => f s e = some s') h s) (hC : AllSteps C h)
    (hex : es.foldlM (fun s e => if C s e then f s e else none) s = some t) :
    ∃ h', Run init (fun s e s' => f s e = some s') h' t ∧ AllSteps C h' := by
  induction es generalizing h s with
  | nil => exact ⟨h, Option.some.inj hex ▸ hr, hC⟩
  | cons e es ih =>
      rw [List.foldlM_cons] at hex
      rcases Option.bind_eq_some_iff.1 hex with ⟨u, hu, hex⟩
      split at hu
      · rename_i hc
        exact ih (hr.snoc hu) (allSteps_cons.2 ⟨hc, hC⟩) hex
      · cases hu

section Rules

variable {init : σ → Prop} {step : σ → ε → σ → Prop}

/-- Invariant rule: what holds initially and is kept by every step holds at the
end of every run. -/
theorem Run.invariant {I : σ → Prop} (hinit : ∀ s, init s → I s)
    (hstep : ∀ s e t, I s → step s e t → I t) {h : List (σ × ε)} {s : σ}
    (hr : Run init step h s) : I s := by
  induction hr with
  | start hs => exact hinit _ hs
  | snoc _ hst ih => exact hstep _ _ _ ih hst

/-- The invariant rule, read at every state of the run. -/
theorem Run.invariant_all {I : σ → Prop} (hinit : ∀ s, init s → I s)
    (hstep : ∀ s e t, I s → step s e t → I t) {h : List (σ × ε)} {s : σ}
    (hr : Run init step h s) : AllStates I h s := by
  induction hr with
  | start hs => exact allStates_nil.2 (hinit _ hs)
  | snoc _ hst ih => exact allStates_cons.2 ⟨ih, hstep _ _ _ ih.2 hst⟩

/-- Guarded invariant rule: an invariant that steps keep only when they meet
`C` holds in every state of every run whose steps all meet `C`. -/
theorem Run.invariant_of_allSteps {I : σ → Prop} {C : σ → ε → Prop}
    (hinit : ∀ s, init s → I s)
    (hstep : ∀ s e t, I s → C s e → step s e t → I t) {h : List (σ × ε)} {s : σ}
    (hr : Run init step h s) (hC : AllSteps C h) : AllStates I h s := by
  induction hr with
  | start hs => exact allStates_nil.2 (hinit _ hs)
  | snoc _ hst ih =>
      have hc := allSteps_cons.1 hC
      have hI := ih hc.2
      exact allStates_cons.2 ⟨hI, hstep _ _ _ hI.2 hc.1 hst⟩

/-- When steps that meet `C` keep an invariant `I` that implies `P`, and the others lead from `I` to
a state without `P`, the states of a run all have `P` exactly if its steps all meet `C`. -/
theorem Run.allStates_iff_allSteps_of_inv {I P : σ → Prop} {C : σ → ε → Prop}
    (hinit : ∀ s, init s → I s) (hkeep : ∀ s e t, I s → C s e → step s e t → I t)
    (hgood : ∀ s, I s → P s) (hbreak : ∀ s e t, I s → ¬ C s e → step s e t → ¬ P t)
    {h : List (σ × ε)} {s : σ} (hr : Run init step h s) : AllStates P h s ↔ AllSteps C h := by
  constructor
  · intro hP
    induction hr with
    | start _ => exact allSteps_nil
    | snoc hr hst ih =>
        rcases allStates_cons.1 hP with ⟨hP, ht⟩
        have hC := ih hP
        have hI := hr.invariant_of_allSteps hinit hkeep hC
        refine allSteps_cons.2 ⟨Classical.byContradiction fun hc => ?_, hC⟩
        exact hbreak _ _ _ hI.2 hc hst ht
  · intro hC
    have hI := hr.invariant_of_allSteps hinit hkeep hC
    exact ⟨fun p hp => hgood _ (hI.1 p hp), hgood _ hI.2⟩

/-- When steps that meet `C` keep an invariant `I`, from which a step has `P` exactly if it meets
`C`, the steps of a run all have `P` exactly if they all meet `C`. -/
theorem Run.allSteps_iff_allSteps {I : σ → Prop} {P C : σ → ε → Prop}
    (hinit : ∀ s, init s → I s) (hkeep : ∀ s e t, I s → C s e → step s e t → I t)
    (hiff : ∀ s e t, I s → step s e t → (P s e ↔ C s e)) {h : List (σ × ε)} {s : σ}
    (hr : Run init step h s) : AllSteps P h ↔ AllSteps C h := by
  induction hr with
  | start _ => exact iff_of_true allSteps_nil allSteps_nil
  | snoc hr hst ih =>
      rw [allSteps_cons, allSteps_cons, ih]
      constructor
      · rintro ⟨hP, hC⟩
        have hI := hr.invariant_of_allSteps hinit hkeep hC
        exact ⟨(hiff _ _ _ hI.2 hst).1 hP, hC⟩
      · rintro ⟨hc, hC⟩
        have hI := hr.invariant_of_allSteps hinit hkeep hC
        exact ⟨(hiff _ _ _ hI.2 hst).2 hc, hC⟩

/-- Progress rule: when each good state that is no goal has a step to a smaller one, a goal can be
reached. -/
theorem exists_goal_of_measure {I G : σ → Prop} (μ : σ → Nat)
    (hkeep : ∀ s e t, I s → step s e t → I t)
    (hdown : ∀ s, I s → ¬ G s → ∃ e t, step s e t ∧ μ t < μ s) {s : σ} (hs : I s) :
    ∃ t, Relation.ReflTransGen (fun a b => ∃ e, step a e b) s t ∧ I t ∧ G t := by
  induction hn : μ s using Nat.strongRecOn generalizing s with
  | _ n ih =>
      by_cases hg : G s
      · exact ⟨s, .refl, hs, hg⟩
      · obtain ⟨e, t, hst, hlt⟩ := hdown s hs hg
        obtain ⟨u, hu, hgoal⟩ := ih (μ t) (hn ▸ hlt) (hkeep s e t hs hst) rfl
        exact ⟨u, .head ⟨e, hst⟩ hu, hgoal⟩

end Rules

end Trace
