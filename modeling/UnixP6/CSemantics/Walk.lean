import UnixP6.CSemantics.Loop
import Mathlib.Logic.Function.Iterate

/-!
# Loops that Walk

A loop over a position: whatever else a turn does, going round moves the
position by one fixed function. A linked list, a list of records that state
their own size, or a table with a stride read from the data are all walked so.

The positions of such a loop are known before it runs, which makes the two
directions separate facts. `runLoop_passes` and `turnsFor_log` say what a walk
that returns has passed, and what it has written down on the way. `runLoop_walk`
makes a walk that returns out of positions that go round up to one that leaves,
with an invariant for what else a turn needs. No position comes twice before one
that is different from all of them, so there are fewer turns than positions. A
walk with no state but its position is decided by it altogether, and both
directions are one equivalence.

## Main definitions

* `Walks`: A body that moves by a fixed function wherever it goes round.

## Theorems

* `turnsFor_position`: The position after a number of turns.
* `turnsFor_passes`: Every position passed goes round.
* `turnsFor_walk`: Positions that go round make a run.
* `lt_card_of_first`: A first position of its kind comes within the positions.
* `turnsFor_log`: What a run writes down, position by position.
* `runLoop_passes`: What a walk that returns has passed.
* `runLoop_walk`: Positions that make a walk return, within as many turns.
* `turnsFor_iterate`, `runLoop_iterate`: A walk that is nothing but its position.
-/

namespace CSemantics

variable {κ σ ρ ω : Type}

/-- Wherever the body goes round, it goes to the next position. -/
def Walks (body : κ × σ → Option (Turn (κ × σ) ρ)) (next : κ → κ) : Prop :=
  ∀ a s b t, body (a, s) = some (.again (b, t)) → b = next a

section Walk

variable (body : κ × σ → Option (Turn (κ × σ) ρ)) (next : κ → κ)

/-- The position after a number of turns. -/
theorem turnsFor_position (hwalk : Walks body next) (k : Nat) (a b : κ) (s t : σ)
    (h : turnsFor body k (a, s) = some (b, t)) : b = next^[k] a := by
  induction k generalizing a s with
  | zero =>
      simp only [turnsFor, Option.some.injEq, Prod.mk.injEq] at h
      exact h.1.symm
  | succ k ih =>
      rcases turnsFor_succ body k (a, s) (b, t) h with ⟨⟨a', s'⟩, hb, hrest⟩
      rw [Function.iterate_succ_apply, ← hwalk a s a' s' hb]
      exact ih a' s' hrest

/-- Every position passed goes round. -/
theorem turnsFor_passes (hwalk : Walks body next) (k : Nat) (a : κ) (s : σ) (u : κ × σ)
    (h : turnsFor body k (a, s) = some u) (i : Nat) (hi : i < k) :
    ∃ s' t', body (next^[i] a, s') = some (.again (next (next^[i] a), t')) := by
  induction k generalizing a s i with
  | zero => exact absurd hi (Nat.not_lt_zero i)
  | succ k ih =>
      rcases turnsFor_succ body k (a, s) u h with ⟨⟨a', s'⟩, hb, hrest⟩
      -- The turn lands where the next position says.
      have ha := hwalk a s a' s' hb
      cases i with
      | zero => exact ⟨s, s', by rw [Function.iterate_zero_apply, ← ha]; exact hb⟩
      | succ i =>
          rw [Function.iterate_succ_apply, ← ha]
          exact ih a' s' hrest i (Nat.lt_of_succ_lt_succ hi)

/-- Positions that go round, as long as the rest of the state is as it should be
    there, make a run. -/
theorem turnsFor_walk (Inv : Nat → σ → Prop) (k : Nat) (a : κ) (s : σ) (hstart : Inv 0 s)
    (hgo : ∀ i < k, ∀ s, Inv i s →
      ∃ t, body (next^[i] a, s) = some (.again (next (next^[i] a), t)) ∧ Inv (i + 1) t) :
    ∃ t, turnsFor body k (a, s) = some (next^[k] a, t) ∧ Inv k t := by
  induction k generalizing Inv a s with
  | zero => exact ⟨s, rfl, hstart⟩
  | succ k ih =>
      rcases hgo 0 (Nat.succ_pos k) s hstart with ⟨s', hb, hinv⟩
      rcases ih (fun i => Inv (i + 1)) (next a) s' hinv
        (fun i hi => hgo (i + 1) (Nat.succ_lt_succ hi)) with ⟨t, hrest, hlast⟩
      refine ⟨t, ?_, hlast⟩
      rw [Function.iterate_zero_apply] at hb
      simp only [turnsFor, hb]
      exact hrest

/-- A position that differs from all those before it comes within the number of
    positions: two of those before would otherwise be the same, and the rest
    would go by in a circle. -/
theorem lt_card_of_first [Fintype κ] (Before : κ → Prop) (k : Nat) (a : κ)
    (hbefore : ∀ i < k, Before (next^[i] a)) (hfirst : ¬ Before (next^[k] a)) :
    k < Fintype.card κ := by
  have hne : ∀ i j, i < j → j ≤ k → next^[i] a ≠ next^[j] a := by
    intro i j hij hjk heq
    have hsame := congrArg (next^[k - j]) heq
    simp only [← Function.iterate_add_apply] at hsame
    rw [Nat.sub_add_cancel hjk] at hsame
    rw [← hsame] at hfirst
    exact hfirst (hbefore _ (by omega))
  have hinj : Function.Injective fun i : Fin (k + 1) => next^[i.val] a := by
    intro i j hij
    by_contra hdiff
    rcases Nat.lt_or_gt_of_ne (fun heq => hdiff (Fin.ext heq)) with hlt | hgt
    · exact hne _ _ hlt (Nat.le_of_lt_succ j.isLt) hij
    · exact hne _ _ hgt (Nat.le_of_lt_succ i.isLt) hij.symm
  have hcard := Fintype.card_le_of_injective _ hinj
  rw [Fintype.card_fin] at hcard
  exact hcard

/-- What a run writes down, if each turn adds what its position calls for. -/
theorem turnsFor_log (hwalk : Walks body next) (log : σ → List ω) (out : κ → List ω)
    (hlog : ∀ a s b t, body (a, s) = some (.again (b, t)) → log t = log s ++ out a)
    (k : Nat) (a b : κ) (s t : σ) (h : turnsFor body k (a, s) = some (b, t)) :
    log t = log s ++ (List.range k).flatMap fun i => out (next^[i] a) := by
  induction k generalizing a s with
  | zero =>
      simp only [turnsFor, Option.some.injEq, Prod.mk.injEq] at h
      rw [List.range_zero, List.flatMap_nil, List.append_nil, h.2]
  | succ k ih =>
      rcases turnsFor_succ body k (a, s) (b, t) h with ⟨⟨a', s'⟩, hb, hrest⟩
      rw [ih a' s' hrest, hlog a s a' s' hb, hwalk a s a' s' hb, List.range_succ_eq_map,
        List.flatMap_cons, List.flatMap_map, List.append_assoc]
      rfl

/-- A walk that returns has gone round at every position up to the one it
    leaves at. -/
theorem runLoop_passes (hwalk : Walks body next) (n : Nat) (a : κ) (s : σ) (r : ρ)
    (h : runLoop body n (a, s) = some r) :
    ∃ k t, turnsFor body k (a, s) = some (next^[k] a, t) ∧ body (next^[k] a, t) = some (.exit r) ∧
      ∀ i < k, ∃ s' t', body (next^[i] a, s') = some (.again (next (next^[i] a), t')) := by
  rcases turnsFor_of_runLoop body n (a, s) r h with ⟨k, ⟨b, t⟩, _, hk, hexit⟩
  have hb := turnsFor_position body next hwalk k a b s t hk
  rw [hb] at hk hexit
  exact ⟨k, t, hk, hexit, turnsFor_passes body next hwalk k a s _ hk⟩

/-- Positions that go round up to the first that does not make a walk that
    returns, within as many turns as there are positions. -/
theorem runLoop_walk [Fintype κ] (Inv : Nat → σ → Prop) (Before : κ → Prop) (Post : ρ → Prop)
    (k : Nat) (a : κ) (s : σ) (hstart : Inv 0 s)
    (hbefore : ∀ i < k, Before (next^[i] a)) (hfirst : ¬ Before (next^[k] a))
    (hgo : ∀ i < k, ∀ s, Inv i s →
      ∃ t, body (next^[i] a, s) = some (.again (next (next^[i] a), t)) ∧ Inv (i + 1) t)
    (hstop : ∀ s, Inv k s → ∃ r, body (next^[k] a, s) = some (.exit r) ∧ Post r) :
    ∃ r, runLoop body (Fintype.card κ) (a, s) = some r ∧ Post r := by
  rcases turnsFor_walk body next Inv k a s hstart hgo with ⟨t, ht, hlast⟩
  rcases hstop t hlast with ⟨r, hexit, hpost⟩
  -- The run up to the last position, and the turn that leaves.
  have hrun : runLoop body (k + 1) (a, s) = some r :=
    (runLoop_of_turnsFor body k 1 _ _ ht).trans (runLoop_exit body 0 _ r hexit)
  exact ⟨r, runLoop_mono body _ _ _ r (lt_card_of_first next Before k a hbefore hfirst) hrun, hpost⟩

end Walk

section Bare

variable (body : κ → Option (Turn κ ρ)) (next : κ → κ)
  (hnext : ∀ a b, body a = some (.again b) → b = next a)

include hnext

/-- A walk with no state but its position is at the next one after each turn,
    as long as every position before goes round. -/
theorem turnsFor_iterate (k : Nat) (a b : κ) : turnsFor body k a = some b ↔
    (∀ i < k, body (next^[i] a) = some (.again (next (next^[i] a)))) ∧ b = next^[k] a := by
  induction k generalizing a with
  | zero =>
      rw [turnsFor, Option.some.injEq, Function.iterate_zero_apply, eq_comm (a := a)]
      exact ⟨fun h => ⟨fun i hi => absurd hi (Nat.not_lt_zero i), h⟩, fun h => h.2⟩
  | succ k ih =>
      constructor
      · intro h
        rcases turnsFor_succ body k a b h with ⟨a', hb, hrest⟩
        have ha' := hnext a a' hb
        rw [ha'] at hb hrest
        rcases (ih (next a)).mp hrest with ⟨hgo, hat⟩
        refine ⟨fun i hi => ?_, hat⟩
        cases i with
        | zero => exact hb
        | succ i => exact hgo i (Nat.lt_of_succ_lt_succ hi)
      · rintro ⟨hgo, hat⟩
        have hb := hgo 0 (Nat.succ_pos k)
        rw [Function.iterate_zero_apply] at hb
        simp only [turnsFor, hb]
        exact (ih (next a)).mpr ⟨fun i hi => hgo (i + 1) (Nat.succ_lt_succ hi), hat⟩

/-- It returns what the first position that leaves gives, within as many turns
    as there are positions. -/
theorem runLoop_iterate [Fintype κ] (n : Nat) (hn : Fintype.card κ ≤ n) (a : κ) (r : ρ) :
    runLoop body n a = some r ↔
      ∃ k, (∀ i < k, body (next^[i] a) = some (.again (next (next^[i] a)))) ∧
        body (next^[k] a) = some (.exit r) := by
  constructor
  · intro h
    rcases turnsFor_of_runLoop body n a r h with ⟨k, t, _, hk, hexit⟩
    rcases (turnsFor_iterate body next hnext k a t).mp hk with ⟨hgo, rfl⟩
    exact ⟨k, hgo, hexit⟩
  · rintro ⟨k, hgo, hexit⟩
    have hrun := (turnsFor_iterate body next hnext k a _).mpr ⟨hgo, rfl⟩
    have hloop : runLoop body (k + 1) a = some r :=
      (runLoop_of_turnsFor body k 1 a _ hrun).trans (runLoop_exit body 0 _ r hexit)
    -- The position is the control, so no more turns than positions are needed.
    have hshort := runLoop_of_control (fun a => a) body
      (fun s s' t hst hb => ⟨s', hst ▸ hb, rfl⟩) (k + 1) a r hloop
    exact runLoop_mono body _ n a r hn hshort

end Bare

end CSemantics
