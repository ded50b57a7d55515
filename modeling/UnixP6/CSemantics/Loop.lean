import Mathlib.Data.Fintype.Card
import Mathlib.Data.Fintype.Pigeonhole

/-!
# Loops with an Exit

A `while` or `for` loop of a C function as a body iterated a bounded number of
times. One turn of the body either leaves the loop with a result or goes round
again with a new loop state; a body that itself fails to return (a nested loop
that never ends, a fault) is `none`.

`runLoop` is what a model evaluates. It is handed a bound on the number of
turns, and a loop that is still going when the bound runs out yields `none`.
That is harmless when the loop's control depends on a machine word: such a loop
either leaves within as many turns as there are control states or never leaves
at all, which is `runLoop_of_control`.

The rules come in the two usual forms. `runLoop_total` is the rule with an
invariant and a variant, giving a result; `runLoop_inv` is the rule for a run
already known to return, which needs no variant.

## Main definitions

* `Turn`: What one turn of a body does.
* `runLoop`: Iterating a body a bounded number of times.
* `turnsFor`: The loop state after a number of turns.

## Theorems

* `runLoop_exit`: A body that leaves ends the loop.
* `runLoop_again`: A body that goes round hands over to the rest of the loop.
* `runLoop_mono`: A larger bound does not change a result.
* `runLoop_inv`: An invariant holds of whatever the loop returns.
* `runLoop_total`: An invariant with a decreasing variant returns.
* `turnsFor_inv`: An invariant holds of whatever the loop goes round with.
* `turnsFor_succ`: The first of several turns.
* `turnsFor_add`: Turns split at an intermediate count.
* `runLoop_of_turnsFor`: A loop carries on from the state it has reached.
* `turnsFor_of_runLoop`: A result comes from a last turn, the one that leaves.
* `turnsFor_isSome_of_control`: States of one control go round as often.
* `runLoop_of_control`: A loop that returns does so within its control states.
-/

namespace CSemantics

/-- What one turn of a loop body does: leave with a result, or go round. -/
inductive Turn (σ ρ : Type) where
  | exit (r : ρ)
  | again (s : σ)
deriving Repr, DecidableEq

section Loops

variable {σ ρ : Type}

/-- Iterate a loop body for at most `n` turns. -/
def runLoop (body : σ → Option (Turn σ ρ)) : Nat → σ → Option ρ
  | 0, _ => none
  | n + 1, s => match body s with
    | none => none
    | some (.exit r) => some r
    | some (.again s') => runLoop body n s'

theorem runLoop_exit (body : σ → Option (Turn σ ρ)) (n : Nat) (s : σ) (r : ρ)
    (h : body s = some (.exit r)) : runLoop body (n + 1) s = some r := by
  simp only [runLoop, h]

theorem runLoop_again (body : σ → Option (Turn σ ρ)) (n : Nat) (s s' : σ)
    (h : body s = some (.again s')) : runLoop body (n + 1) s = runLoop body n s' := by
  simp only [runLoop, h]

/-- A larger bound does not change a result already found. -/
theorem runLoop_mono (body : σ → Option (Turn σ ρ)) (n m : Nat) (s : σ) (r : ρ)
    (hnm : n ≤ m) (h : runLoop body n s = some r) : runLoop body m s = some r := by
  induction n generalizing s m with
  | zero => simp only [runLoop, reduceCtorEq] at h
  | succ k ih =>
      -- The larger bound is a successor as well.
      rcases Nat.exists_eq_add_of_le' (show 1 ≤ m by omega) with ⟨m', rfl⟩
      rcases hb : body s with _ | (r' | s')
      · simp only [runLoop, hb, reduceCtorEq] at h
      · rw [runLoop_exit body k s r' hb] at h
        rw [runLoop_exit body m' s r' hb, h]
      · rw [runLoop_again body k s s' hb] at h
        rw [runLoop_again body m' s s' hb]
        exact ih m' s' (by omega) h

/-- The rule for a loop known to return: whatever the body keeps going round
    and establishes on leaving holds of the result. -/
theorem runLoop_inv (body : σ → Option (Turn σ ρ)) (Inv : σ → Prop) (Post : ρ → Prop)
    (hexit : ∀ s r, Inv s → body s = some (.exit r) → Post r)
    (hagain : ∀ s s', Inv s → body s = some (.again s') → Inv s') :
    ∀ (n : Nat) (s : σ) (r : ρ), Inv s → runLoop body n s = some r → Post r := by
  intro n
  induction n with
  | zero => intro s r _ h; simp only [runLoop, reduceCtorEq] at h
  | succ k ih =>
      intro s r hs h
      rcases hb : body s with _ | (r' | s')
      · simp only [runLoop, hb, reduceCtorEq] at h
      · rw [runLoop_exit body k s r' hb, Option.some.injEq] at h
        rw [← h]
        exact hexit s r' hs hb
      · rw [runLoop_again body k s s' hb] at h
        exact ih s' r (hagain s s' hs hb) h

/-- The rule for total correctness: an invariant kept by every turn and a
    variant that drops on every turn make the loop return within any bound
    above the variant. -/
theorem runLoop_total (body : σ → Option (Turn σ ρ)) (Inv : σ → Prop) (variant : σ → Nat)
    (Post : ρ → Prop)
    (hbody : ∀ s, Inv s → (∃ r, body s = some (.exit r) ∧ Post r) ∨
      (∃ s', body s = some (.again s') ∧ Inv s' ∧ variant s' < variant s)) :
    ∀ (n : Nat) (s : σ), Inv s → variant s < n → ∃ r, runLoop body n s = some r ∧ Post r := by
  intro n
  induction n with
  | zero => intro s _ hv; omega
  | succ k ih =>
      intro s hs hv
      rcases hbody s hs with ⟨r, hb, hr⟩ | ⟨s', hb, hs', hlt⟩
      · exact ⟨r, runLoop_exit body k s r hb, hr⟩
      · rw [runLoop_again body k s s' hb]
        exact ih s' hs' (by omega)

/-- The loop state after `n` turns, or `none` if the loop has left by then. -/
def turnsFor (body : σ → Option (Turn σ ρ)) : Nat → σ → Option σ
  | 0, s => some s
  | n + 1, s => match body s with
    | some (.again s') => turnsFor body n s'
    | _ => none

/-- What every turn keeps holds of every state the loop goes round with. -/
theorem turnsFor_inv (body : σ → Option (Turn σ ρ)) (Inv : σ → Prop)
    (hagain : ∀ s s', Inv s → body s = some (.again s') → Inv s') :
    ∀ (n : Nat) (s t : σ), Inv s → turnsFor body n s = some t → Inv t := by
  intro n
  induction n with
  | zero =>
      intro s t hs h
      simp only [turnsFor, Option.some.injEq] at h
      rw [← h]
      exact hs
  | succ k ih =>
      intro s t hs h
      rcases hb : body s with _ | (r | s')
      · simp only [turnsFor, hb, reduceCtorEq] at h
      · simp only [turnsFor, hb, reduceCtorEq] at h
      · simp only [turnsFor, hb] at h
        exact ih s' t (hagain s s' hs hb) h

/-- The first of several turns. -/
theorem turnsFor_succ (body : σ → Option (Turn σ ρ)) (k : Nat) (s t : σ)
    (h : turnsFor body (k + 1) s = some t) :
    ∃ s', body s = some (.again s') ∧ turnsFor body k s' = some t := by
  simp only [turnsFor] at h
  rcases hb : body s with _ | (r | s')
  · simp only [hb, reduceCtorEq] at h
  · simp only [hb, reduceCtorEq] at h
  · exact ⟨s', rfl, by simpa only [hb] using h⟩

theorem turnsFor_add (body : σ → Option (Turn σ ρ)) (m n : Nat) (s : σ) :
    turnsFor body (m + n) s = (turnsFor body m s).bind (turnsFor body n) := by
  induction m generalizing s with
  | zero => simp only [Nat.zero_add, turnsFor, Option.bind_some]
  | succ k ih =>
      rw [show k + 1 + n = k + n + 1 by omega]
      simp only [turnsFor]
      rcases body s with _ | (r | s')
      · rfl
      · rfl
      · exact ih s'

/-- A loop still going after `m` turns carries on from the state it reached. -/
theorem runLoop_of_turnsFor (body : σ → Option (Turn σ ρ)) (m n : Nat) (s t : σ)
    (h : turnsFor body m s = some t) : runLoop body (m + n) s = runLoop body n t := by
  induction m generalizing s with
  | zero =>
      simp only [turnsFor, Option.some.injEq] at h
      rw [h, Nat.zero_add]
  | succ k ih =>
      rcases turnsFor_succ body k s t h with ⟨s', hb, hrest⟩
      rw [show k + 1 + n = k + n + 1 by omega, runLoop_again body (k + n) s s' hb]
      exact ih s' hrest

/-- A returning loop splits into the turns that go round and the one that
    leaves. -/
theorem turnsFor_of_runLoop (body : σ → Option (Turn σ ρ)) (n : Nat) (s : σ) (r : ρ)
    (h : runLoop body n s = some r) :
    ∃ k t, k < n ∧ turnsFor body k s = some t ∧ body t = some (.exit r) := by
  induction n generalizing s with
  | zero => simp only [runLoop, reduceCtorEq] at h
  | succ m ih =>
      rcases hb : body s with _ | (r' | s')
      · simp only [runLoop, hb, reduceCtorEq] at h
      · rw [runLoop_exit body m s r' hb, Option.some.injEq] at h
        -- It leaves at once.
        exact ⟨0, s, by omega, rfl, by rw [hb, h]⟩
      · rw [runLoop_again body m s s' hb] at h
        rcases ih s' h with ⟨k, t, hk, ht, hx⟩
        exact ⟨k + 1, t, by omega, by simp only [turnsFor, hb, ht], hx⟩

section Control

variable {κ : Type} (control : σ → κ)

/-- Two loop states with one control go round the same number of times, as
    long as a turn's outcome is decided by the control. -/
theorem turnsFor_isSome_of_control (body : σ → Option (Turn σ ρ))
    (hctl : ∀ s s' t, control s = control t → body s = some (.again s') →
      ∃ t', body t = some (.again t') ∧ control s' = control t')
    (n : Nat) (s t : σ) (hst : control s = control t)
    (h : (turnsFor body n s).isSome) : (turnsFor body n t).isSome := by
  induction n generalizing s t with
  | zero => rfl
  | succ k ih =>
      simp only [turnsFor] at h ⊢
      rcases hb : body s with _ | (r | s')
      · simp only [hb, Option.isSome_none, Bool.false_eq_true] at h
      · simp only [hb, Option.isSome_none, Bool.false_eq_true] at h
      · rcases hctl s s' t hst hb with ⟨t', hbt, hst'⟩
        simp only [hb] at h
        simp only [hbt]
        exact ih s' t' hst' h

/-- A loop whose turns are decided by a finite control returns within as many
    turns as there are control states, or not at all: a control met twice would
    be met for ever. -/
theorem runLoop_of_control [Fintype κ] (body : σ → Option (Turn σ ρ))
    (hctl : ∀ s s' t, control s = control t → body s = some (.again s') →
      ∃ t', body t = some (.again t') ∧ control s' = control t')
    (n : Nat) (s : σ) (r : ρ) (h : runLoop body n s = some r) :
    runLoop body (Fintype.card κ) s = some r := by
  rcases turnsFor_of_runLoop body n s r h with ⟨k, t, _, ht, hx⟩
  by_cases hk : k < Fintype.card κ
  · rw [show Fintype.card κ = k + (Fintype.card κ - k - 1 + 1) by omega,
      runLoop_of_turnsFor body k _ s t ht]
    exact runLoop_exit body _ t r hx
  · exfalso
    -- The states passed on the way, one for each of the first `k + 1` turns.
    have hpass : ∀ i : Fin (k + 1), ∃ u, turnsFor body i s = some u ∧
        turnsFor body (k - i) u = some t := by
      intro i
      have hsplit := turnsFor_add body i (k - i) s
      rw [show (i : Nat) + (k - i) = k by omega, ht] at hsplit
      rcases hu : turnsFor body i s with _ | u
      · simp only [hu, Option.bind_none, reduceCtorEq] at hsplit
      · exact ⟨u, rfl, by simpa only [hu, Option.bind_some] using hsplit.symm⟩
    choose u hu hrest using hpass
    rcases Fintype.exists_ne_map_eq_of_card_lt (fun i => control (u i))
      (by rw [Fintype.card_fin]; omega) with ⟨i, j, hne, hij⟩
    -- Order the two turns; the earlier one then lasts longer than the later.
    wlog hlt : i < j generalizing i j
    · exact this j i (Ne.symm hne) hij.symm (by omega)
    have hlong := turnsFor_isSome_of_control control body hctl (k - i) (u i) (u j) hij
      (by rw [hrest i]; rfl)
    have hleft : turnsFor body (k - i) (u j) = none := by
      rw [show k - (i : Nat) = (k - j) + (j - i - 1 + 1) by omega, turnsFor_add, hrest j,
        Option.bind_some]
      simp only [turnsFor, hx]
    rw [hleft] at hlong
    exact absurd hlong (by simp only [Option.isSome_none, Bool.false_eq_true, not_false_eq_true])

end Control

end Loops

end CSemantics
