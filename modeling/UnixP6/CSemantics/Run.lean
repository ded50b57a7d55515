/-!
# Runs of a Transition System

A run is a finite sequence of labelled steps. The step relation is a
parameter, so one development can be run under several disciplines: every step
the program can make, or only the steps that also meet some condition
(`Guarded`). A statement about every run is a statement about every state the
run passes, since any prefix of a run is a run.

`Run.invariant` is the induction: what the start satisfies and every step
keeps, every run ends in. `Run.simulates` is the same induction over two
systems at once.

## Main definitions

* `Run`: A finite sequence of labelled steps.
* `Guarded`: The steps of a system that meet a condition.

## Theorems

* `Run.append`: Runs compose.
* `Run.concat_inv`: The last step of a run.
* `Run.mono`: Weaker rules allow the same runs.
* `Run.invariant`: An invariant of the steps is an invariant of the runs.
* `Run.length_le`: A measure bounds the length of runs.
* `Run.simulates`: A simulation of the steps is a simulation of the runs.
* `Run.eq_foldl`: The runs of a function are its folds.
-/

namespace CSemantics

variable {σ τ α : Type}

/-- A finite sequence of labelled steps. -/
inductive Run (step : σ → α → σ → Prop) : σ → List α → σ → Prop
  | nil (s : σ) : Run step s [] s
  | cons (s t u : σ) (a : α) (l : List α) (hstep : step s a t) (hrest : Run step t l u) :
      Run step s (a :: l) u

/-- The steps of a system that meet a condition on the state before them. -/
def Guarded (cond : σ → α → Prop) (step : σ → α → σ → Prop) (s : σ) (a : α) (t : σ) : Prop :=
  cond s a ∧ step s a t

theorem Run.append (step : σ → α → σ → Prop) (s t u : σ) (l l' : List α)
    (h : Run step s l t) (h' : Run step t l' u) : Run step s (l ++ l') u := by
  induction h with
  | nil s => exact h'
  | cons s v t a l hstep _ ih => exact Run.cons s v u a (l ++ l') hstep (ih h')

/-- A run whose labels end in one has a last step. -/
theorem Run.concat_inv (step : σ → α → σ → Prop) (s u : σ) (l : List α) (a : α)
    (h : Run step s (l ++ [a]) u) : ∃ t, Run step s l t ∧ step t a u := by
  induction l generalizing s with
  | nil =>
      cases h with
      | cons _ t _ _ _ hstep hrest =>
          cases hrest
          exact ⟨s, Run.nil s, hstep⟩
  | cons b l ih =>
      cases h with
      | cons _ t _ _ _ hstep hrest =>
          rcases ih t hrest with ⟨v, hrun, hlast⟩
          exact ⟨v, Run.cons s t v b l hstep hrun, hlast⟩

theorem Run.concat (step : σ → α → σ → Prop) (s t u : σ) (l : List α) (a : α)
    (h : Run step s l t) (hstep : step t a u) : Run step s (l ++ [a]) u :=
  Run.append step s t u l [a] h (Run.cons t u u a [] hstep (Run.nil u))

/-- Weaker rules allow the same runs. -/
theorem Run.mono (step step' : σ → α → σ → Prop) (s t : σ) (l : List α) (h : Run step s l t)
    (hstep : ∀ s a t, step s a t → step' s a t) : Run step' s l t := by
  induction h with
  | nil s => exact Run.nil s
  | cons s v t a l hsv _ ih => exact Run.cons s v t a l (hstep s a v hsv) ih

/-- What every step keeps, every run keeps. -/
theorem Run.invariant (step : σ → α → σ → Prop) (Inv : σ → Prop)
    (hstep : ∀ s a t, Inv s → step s a t → Inv t) (s t : σ) (l : List α)
    (h : Run step s l t) (hs : Inv s) : Inv t := by
  induction h with
  | nil s => exact hs
  | cons s v t a l hsv _ ih => exact ih (hstep s a v hs hsv)

/-- If every step takes something off a measure, a run is no longer than what there
    is to take off. -/
theorem Run.length_le (step : σ → α → σ → Prop) (Inv : σ → Prop) (measure : σ → Nat)
    (hstep : ∀ s a t, Inv s → step s a t → Inv t ∧ measure t < measure s) (s t : σ) (l : List α)
    (h : Run step s l t) (hs : Inv s) : Inv t ∧ l.length + measure t ≤ measure s := by
  induction h with
  | nil s => exact ⟨hs, Nat.le_of_eq (Nat.zero_add _)⟩
  | cons s v t a l hsv _ ih =>
      rcases hstep s a v hs hsv with ⟨hv, hless⟩
      rcases ih hv with ⟨ht, hle⟩
      refine ⟨ht, ?_⟩
      rw [List.length_cons]
      omega

/-- A relation kept by matching steps of two systems is kept by runs under one
    sequence of labels. -/
theorem Run.simulates (step : σ → α → σ → Prop) (step' : τ → α → τ → Prop) (R : σ → τ → Prop)
    (hstep : ∀ s a t s', R s s' → step s a t → ∃ t', step' s' a t' ∧ R t t')
    (s t : σ) (s' : τ) (l : List α) (h : Run step s l t) (hs : R s s') :
    ∃ t', Run step' s' l t' ∧ R t t' := by
  induction h generalizing s' with
  | nil s => exact ⟨s', Run.nil s', hs⟩
  | cons s v t a l hsv _ ih =>
      rcases hstep s a v s' hs hsv with ⟨v', hv', hvv'⟩
      rcases ih v' hvv' with ⟨t', ht', htt'⟩
      exact ⟨t', Run.cons s' v' t' a l hv' ht', htt'⟩

/-- The runs of a function are its folds. -/
theorem Run.eq_foldl (f : τ → α → τ) (s t : τ) (l : List α)
    (h : Run (fun s a t => t = f s a) s l t) : t = l.foldl f s := by
  induction h with
  | nil s => rfl
  | cons s v t a l hsv _ ih => rw [ih, hsv, List.foldl_cons]

end CSemantics
