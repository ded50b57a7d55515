import UnixP6.CSemantics.Run
import Mathlib.Data.List.Forall2
import Mathlib.Data.Set.Pairwise.Lattice
import Mathlib.Order.CompletePartialOrder

/-!
# Owned Storage

What a storage allocator is for, without how it works. A store is the set of
ranges that have owners, and the content of every address. A range may be
acquired if it lies in the arena and meets no range that has an owner, it may
be given up, and its owner may write to it. Nothing is said of the content of
addresses nobody owns, so an allocator is free to keep its books there.

Ranges are of any type, with a function that gives their addresses. Three facts
about runs are what a caller relies on: ranges stay disjoint and in the arena
(`run_sound`), what is not given up stays, with every byte that is not written
(`run_keeps`), and what was written last is what is read (`run_last_write`).

`Run.forward` carries them over to a program. It is the simulation rule for
programs whose steps are none, one or several steps of an abstract system.

## Main definitions

* `Store`: Ranges with owners, and the content of addresses.
* `StoreAct`: What happens to a store.
* `Store.Step`: The effect of it.
* `Store.Sound`: Ranges are disjoint and in the arena.
* `StoreAct.Spares`: An act that leaves a byte of a range alone.

## Theorems

* `Run.forward`: Simulation by runs.
* `Store.run_sound`: Every run keeps ranges disjoint and in the arena.
* `Store.run_keeps`: A range that is not given up keeps what is not written.
* `Store.run_last_write`: What is written is read back.
-/

namespace CSemantics

section Forward

variable {σ τ α β : Type}

/-- If every step of one system is matched by a run of another, every run is
    matched by the runs of its steps one after the other. -/
theorem Run.forward (step : σ → α → σ → Prop) (step' : τ → β → τ → Prop) (R : σ → τ → Prop)
    (L : α → List β → Prop)
    (hstep : ∀ s a t s', R s s' → step s a t → ∃ bs t', L a bs ∧ Run step' s' bs t' ∧ R t t')
    (s t : σ) (s' : τ) (l : List α) (h : Run step s l t) (hs : R s s') :
    ∃ ls t', List.Forall₂ L l ls ∧ Run step' s' ls.flatten t' ∧ R t t' := by
  induction h generalizing s' with
  | nil s => exact ⟨[], s', List.Forall₂.nil, Run.nil s', hs⟩
  | cons s v t a l hsv _ ih =>
      rcases hstep s a v s' hs hsv with ⟨bs, v', hL, hrun, hv⟩
      rcases ih v' hv with ⟨ls, t', hLs, hrest, ht⟩
      exact ⟨bs :: ls, t', List.Forall₂.cons hL hLs, hrun.append step' _ _ _ _ _ hrest, ht⟩

end Forward

/-- Ranges that have owners, and the content of every address. -/
structure Store (R ι β : Type) where
  owned : Set R
  content : ι → β

/-- What happens to a store: a range gets an owner, ranges lose theirs, an owner
    writes. -/
inductive StoreAct (R ι β : Type)
  | acquire (r : R)
  | release (rs : Set R)
  | write (x : ι) (v : β)

namespace Store

variable {R ι β : Type} (bytes : R → Set ι) (arena : Set ι)

/-- The addresses that have an owner. -/
def ownedBytes (s : Store R ι β) : Set ι := {x | ∃ r ∈ s.owned, x ∈ bytes r}

/-- The store agrees with another wherever that one has an owner. -/
def Keeps (s t : Store R ι β) : Prop := ∀ x ∈ s.ownedBytes bytes, t.content x = s.content x

/-- The effect of an act. -/
def Step (s : Store R ι β) : StoreAct R ι β → Store R ι β → Prop
  | .acquire r, t => bytes r ⊆ arena ∧ Disjoint (s.ownedBytes bytes) (bytes r) ∧
      t.owned = insert r s.owned ∧ s.Keeps bytes t
  | .release rs, t => t.owned = s.owned \ rs ∧ s.Keeps bytes t
  | .write x v, t => x ∈ s.ownedBytes bytes ∧ t.owned = s.owned ∧ t.content x = v ∧
      ∀ y ∈ s.ownedBytes bytes, y ≠ x → t.content y = s.content y

/-- The ranges lie in the arena and do not overlap. -/
structure Sound (s : Store R ι β) : Prop where
  inside : ∀ r ∈ s.owned, bytes r ⊆ arena
  apart : s.owned.PairwiseDisjoint bytes

theorem step_sound (s t : Store R ι β) (a : StoreAct R ι β) (h : s.Sound bytes arena)
    (hstep : s.Step bytes arena a t) : t.Sound bytes arena := by
  cases a with
  | acquire r =>
      rcases hstep with ⟨hin, hfree, howned, _⟩
      refine ⟨fun q hq => ?_, ?_⟩
      · rw [howned] at hq
        rcases hq with rfl | hq
        · exact hin
        · exact h.inside q hq
      · -- A range that has an owner does not meet the new one.
        rw [howned]
        refine h.apart.insert fun q hq _ => ?_
        exact (hfree.mono_left fun x hx => ⟨q, hq, hx⟩).symm
  | release rs =>
      rcases hstep with ⟨howned, _⟩
      have hsub : t.owned ⊆ s.owned := howned ▸ Set.sdiff_subset
      exact ⟨fun q hq => h.inside q (hsub hq), h.apart.subset hsub⟩
  | write x v =>
      rcases hstep with ⟨_, howned, _⟩
      exact ⟨howned ▸ h.inside, howned ▸ h.apart⟩

/-- Every run keeps the ranges disjoint and in the arena. -/
theorem run_sound (s t : Store R ι β) (acts : List (StoreAct R ι β)) (h : s.Sound bytes arena)
    (hrun : Run (Step bytes arena) s acts t) : t.Sound bytes arena :=
  Run.invariant (Step bytes arena) (Sound bytes arena)
    (fun s a t hs hstep => step_sound bytes arena s t a hs hstep) s t acts hrun h

end Store

/-- The act neither takes the range from its owner nor writes to the address. -/
def StoreAct.Spares {R ι β : Type} (r : R) (x : ι) : StoreAct R ι β → Prop
  | .acquire _ => True
  | .release rs => r ∉ rs
  | .write y _ => y ≠ x

namespace Store

variable {R ι β : Type} (bytes : R → Set ι) (arena : Set ι)

theorem step_keeps (s t : Store R ι β) (a : StoreAct R ι β) (r : R) (x : ι) (hr : r ∈ s.owned)
    (hx : x ∈ bytes r) (hspares : a.Spares r x) (hstep : s.Step bytes arena a t) :
    r ∈ t.owned ∧ t.content x = s.content x := by
  have hbyte : x ∈ s.ownedBytes bytes := ⟨r, hr, hx⟩
  cases a with
  | acquire q =>
      rcases hstep with ⟨_, _, howned, hkeeps⟩
      exact ⟨howned ▸ Set.mem_insert_of_mem q hr, hkeeps x hbyte⟩
  | release rs =>
      rcases hstep with ⟨howned, hkeeps⟩
      exact ⟨howned ▸ ⟨hr, hspares⟩, hkeeps x hbyte⟩
  | write y v =>
      rcases hstep with ⟨_, howned, _, hkeeps⟩
      exact ⟨howned ▸ hr, hkeeps x hbyte (Ne.symm hspares)⟩

/-- A range that is not given up stays, with every byte that is not written. -/
theorem run_keeps (s t : Store R ι β) (acts : List (StoreAct R ι β)) (r : R) (x : ι)
    (hr : r ∈ s.owned) (hx : x ∈ bytes r) (hspares : ∀ a ∈ acts, a.Spares r x)
    (hrun : Run (Step bytes arena) s acts t) : r ∈ t.owned ∧ t.content x = s.content x := by
  induction hrun with
  | nil s => exact ⟨hr, rfl⟩
  | cons s v t a l hstep _ ih =>
      rcases step_keeps bytes arena s v a r x hr hx (hspares a List.mem_cons_self) hstep with
        ⟨hrv, hxv⟩
      rcases ih hrv (fun b hb => hspares b (List.mem_cons_of_mem a hb)) with ⟨hrt, hxt⟩
      exact ⟨hrt, hxt.trans hxv⟩

/-- What is written to a range is read back until the range is given up or the
    byte is written again. -/
theorem run_last_write (s t : Store R ι β) (acts : List (StoreAct R ι β)) (r : R) (x : ι) (v : β)
    (hr : r ∈ s.owned) (hx : x ∈ bytes r) (hspares : ∀ a ∈ acts, a.Spares r x)
    (hrun : Run (Step bytes arena) s (.write x v :: acts) t) : t.content x = v := by
  cases hrun with
  | cons _ u _ _ _ hstep hrest =>
      rcases hstep with ⟨_, howned, hwritten, _⟩
      exact (run_keeps bytes arena u t acts r x (howned ▸ hr) hx hspares hrest).2.trans hwritten

end Store

end CSemantics
