import Mathlib.Data.Finset.Max
import Mathlib.Data.Finset.Insert
import Mathlib.Data.List.Pairwise

/-!
# Service by Priority

An arbiter takes requests for service and grants one at a time, the least being
the most urgent. A request is granted only if it is more urgent than everything
in service already, so what is in service is nested: each was granted while the
ones before it were being served. The end of a service names nobody. It ends
the most urgent one there is.

That is right as long as services end in the reverse order of their grants.
`Stacked` says so with the stack of those grants, and every operation is one on
the stack.

## Main definitions

* `Arbiter`: The requests, and what is in service.
* `Arbiter.next`: The request that would be granted.
* `Arbiter.grant`, `Arbiter.endOfService`: Beginning and end of a service.
* `Arbiter.Stacked`: What is in service is a stack.

## Theorems

* `Arbiter.next_some`, `Arbiter.next_none`: What is granted, and when nothing is.
* `Arbiter.Stacked.grant`: A grant pushes.
* `Arbiter.Stacked.endOfService`: An end of service pops.
-/

namespace CSemantics

/-- The requests for service, and what is in service. -/
structure Arbiter (α : Type) where
  requests : Finset α
  inService : Finset α
deriving DecidableEq

namespace Arbiter

variable {α : Type} [LinearOrder α]

/-- The requests that are not masked and more urgent than everything in
    service. -/
def eligible (a : Arbiter α) (masked : α → Bool) : Finset α :=
  a.requests.filter fun r => masked r = false ∧ ∀ q ∈ a.inService, r < q

/-- The most urgent of them. -/
def next (a : Arbiter α) (masked : α → Bool) : Option α :=
  if h : (a.eligible masked).Nonempty then some ((a.eligible masked).min' h) else none

/-- A request comes into service. -/
def grant (a : Arbiter α) (r : α) : Arbiter α :=
  { requests := a.requests.erase r, inService := insert r a.inService }

/-- The most urgent service ends, if there is one. -/
def endOfService (a : Arbiter α) : Arbiter α :=
  if h : a.inService.Nonempty then { a with inService := a.inService.erase (a.inService.min' h) }
  else a

theorem endOfService_requests (a : Arbiter α) : a.endOfService.requests = a.requests := by
  unfold endOfService
  split
  · rfl
  · rfl

theorem mem_eligible (a : Arbiter α) (masked : α → Bool) (r : α) :
    r ∈ a.eligible masked ↔ r ∈ a.requests ∧ masked r = false ∧ ∀ q ∈ a.inService, r < q := by
  rw [eligible, Finset.mem_filter]

/-- What is granted is more urgent than what is in service, and as urgent as any
    request that is not masked. -/
theorem next_some (a : Arbiter α) (masked : α → Bool) (r : α) (h : a.next masked = some r) :
    r ∈ a.requests ∧ masked r = false ∧ (∀ q ∈ a.inService, r < q) ∧
      ∀ q ∈ a.requests, masked q = false → r ≤ q := by
  unfold next at h
  by_cases hne : (a.eligible masked).Nonempty
  · rw [dif_pos hne, Option.some.injEq] at h
    have hmem := (mem_eligible a masked r).mp (h ▸ Finset.min'_mem _ hne)
    refine ⟨hmem.1, hmem.2.1, hmem.2.2, fun q hq hclear => ?_⟩
    by_cases helig : q ∈ a.eligible masked
    · rw [← h]
      exact Finset.min'_le _ q helig
    · -- A request that is held back is less urgent than something in service.
      rw [mem_eligible] at helig
      push Not at helig
      rcases helig hq hclear with ⟨p, hp, hpq⟩
      exact ((hmem.2.2 p hp).trans_le hpq).le
  · rw [dif_neg hne] at h
    exact absurd h (Option.some_ne_none r).symm

/-- Nothing is granted when every request is masked or held back. -/
theorem next_none (a : Arbiter α) (masked : α → Bool) :
    a.next masked = none ↔
      ∀ r ∈ a.requests, masked r = false → ∃ q ∈ a.inService, q ≤ r := by
  unfold next
  by_cases hne : (a.eligible masked).Nonempty
  · rw [dif_pos hne]
    refine ⟨fun h => absurd h (Option.some_ne_none _), fun h => ?_⟩
    rcases hne with ⟨r, hr⟩
    rcases (mem_eligible a masked r).mp hr with ⟨hreq, hclear, hurgent⟩
    rcases h r hreq hclear with ⟨q, hq, hle⟩
    exact absurd (hurgent q hq) (not_lt.mpr hle)
  · rw [dif_neg hne]
    refine ⟨fun _ r hreq hclear => ?_, fun _ => rfl⟩
    by_contra hno
    push Not at hno
    exact hne ⟨r, (mem_eligible a masked r).mpr ⟨hreq, hclear, hno⟩⟩

/-- What is in service is a stack with the most urgent on top. -/
structure Stacked (a : Arbiter α) (stack : List α) : Prop where
  nested : stack.Pairwise (· < ·)
  inService : ∀ r, r ∈ a.inService ↔ r ∈ stack

theorem Stacked.grant (a : Arbiter α) (stack : List α) (h : a.Stacked stack) (r : α)
    (hurgent : ∀ q ∈ a.inService, r < q) : (a.grant r).Stacked (r :: stack) := by
  refine ⟨List.pairwise_cons.mpr ⟨fun q hq => hurgent q ((h.inService q).mpr hq), h.nested⟩,
    fun q => ?_⟩
  rw [Arbiter.grant, Finset.mem_insert, h.inService q, List.mem_cons]

/-- The service that ends is the one on top. -/
theorem Stacked.endOfService (a : Arbiter α) (r : α) (stack : List α) (h : a.Stacked (r :: stack)) :
    a.endOfService.Stacked stack := by
  have hnested := List.pairwise_cons.mp h.nested
  have hr : r ∈ a.inService := (h.inService r).mpr List.mem_cons_self
  have hmin : a.inService.min' ⟨r, hr⟩ = r := by
    refine le_antisymm (Finset.min'_le _ r hr) (Finset.le_min' _ _ r fun q hq => ?_)
    rcases List.mem_cons.mp ((h.inService q).mp hq) with hqr | hq
    · exact hqr.ge
    · exact (hnested.1 q hq).le
  unfold Arbiter.endOfService
  rw [dif_pos ⟨r, hr⟩]
  refine ⟨hnested.2, fun q => ?_⟩
  rw [Finset.mem_erase, hmin, h.inService q, List.mem_cons]
  constructor
  · rintro ⟨hne, hq | hq⟩
    · exact absurd hq hne
    · exact hq
  · exact fun hq => ⟨(hnested.1 q hq).ne', Or.inr hq⟩

/-- With nothing in service the stack is empty. -/
theorem Stacked.stack_nil (a : Arbiter α) (stack : List α) (h : a.Stacked stack)
    (hempty : a.inService = ∅) : stack = [] := by
  refine List.eq_nil_iff_forall_not_mem.mpr fun r hr => ?_
  rw [← h.inService r, hempty] at hr
  exact absurd hr (Finset.notMem_empty r)

theorem Stacked.inService_nil (a : Arbiter α) (h : a.Stacked []) : a.inService = ∅ :=
  Finset.eq_empty_of_forall_notMem fun r hr => absurd ((h.inService r).mp hr) List.not_mem_nil

/-- With nothing in service an end of service does nothing. -/
theorem Stacked.endOfService_nil (a : Arbiter α) (h : a.Stacked []) : a.endOfService = a := by
  unfold Arbiter.endOfService
  rw [dif_neg (Finset.not_nonempty_iff_eq_empty.mpr (h.inService_nil a))]

/-- Stacks depend on what is in service alone. -/
theorem Stacked.of_inService (a b : Arbiter α) (stack : List α) (h : a.Stacked stack)
    (hsame : b.inService = a.inService) : b.Stacked stack :=
  ⟨h.nested, fun r => by rw [hsame, h.inService r]⟩

end Arbiter

end CSemantics
