import Mathlib.Data.List.Chain
import Mathlib.Algebra.BigOperators.Group.List.Basic

/-!
# Collapsing Runs in a List

Merging neighbours. Some elements of a list are free, and of two free
neighbours the first may absorb the second. `collapse` does this from the back
until no two neighbours are free.

The order in which neighbours are merged does not matter as long as absorbing is
associative and an element that absorbs stays free. Then a merged pair may stand
for its two elements in front of anything (`pushRun_absorb`), so a list may be
collapsed in between, as often as one likes, without changing what it collapses
to in the end. `collapse_map` is that statement, for a list whose elements are
changed after it has been collapsed by a map that respects absorbing.

## Main definitions

* `pushRun`: Putting an element in front of a collapsed list.
* `collapse`: Merging every run of free neighbours into its first element.
* `Merging`: What absorbing has to satisfy.

## Theorems

* `collapse_isChain`: In a collapsed list no two neighbours are free.
* `collapse_of_isChain`: Such a list is collapsed already.
* `collapse_middle`: Any two free neighbours may be merged ahead of time.
* `collapse_map`: Collapsing before a map does not change the outcome.
* `collapse_collapse`: A collapsed list stays as it is.
* `collapse_kept`: The elements that are not free stay, in order.
* `collapse_sublist`: What absorbing keeps of the first element is kept in order.
* `collapse_sum`: A total that absorbing keeps is kept.
* `collapse_groups`: Each element left stands for a run of the list.
-/

namespace CSemantics

variable {α β : Type}

/-- Put an element in front of a collapsed list. -/
def pushRun (free : α → Bool) (absorb : α → α → α) (a : α) : List α → List α
  | [] => [a]
  | b :: bs => if free a ∧ free b then absorb a b :: bs else a :: b :: bs

/-- Merge every run of free neighbours into its first element. -/
def collapse (free : α → Bool) (absorb : α → α → α) (l : List α) : List α :=
  l.foldr (pushRun free absorb) []

/-- Absorbing is associative, and what absorbs stays as free as it was. -/
structure Merging (free : α → Bool) (absorb : α → α → α) : Prop where
  free_absorb : ∀ a b, free (absorb a b) = free a
  assoc : ∀ a b c, absorb (absorb a b) c = absorb a (absorb b c)

section Collapse

variable (free : α → Bool) (absorb : α → α → α)

theorem collapse_cons (a : α) (l : List α) :
    collapse free absorb (a :: l) = pushRun free absorb a (collapse free absorb l) := rfl

/-- In a collapsed list no two neighbours are free. -/
theorem collapse_isChain (l : List α) :
    (collapse free absorb l).IsChain fun a b => ¬ (free a ∧ free b) := by
  induction l with
  | nil => exact List.IsChain.nil
  | cons a l ih =>
      rw [collapse_cons]
      rcases hl : collapse free absorb l with _ | ⟨b, bs⟩
      · exact List.IsChain.singleton a
      · rw [hl] at ih
        rw [pushRun]
        by_cases hab : free a ∧ free b
        · -- What follows the pair followed its second element.
          rw [if_pos hab]
          rcases bs with _ | ⟨c, cs⟩
          · exact List.IsChain.singleton _
          · rw [List.isChain_cons_cons] at ih ⊢
            refine ⟨fun hc => ih.1 ⟨hab.2, hc.2⟩, ih.2⟩
        · rw [if_neg hab, List.isChain_cons_cons]
          exact ⟨hab, ih⟩

/-- A list without free neighbours is collapsed already. -/
theorem collapse_of_isChain (l : List α) (hl : l.IsChain fun a b => ¬ (free a ∧ free b)) :
    collapse free absorb l = l := by
  induction l with
  | nil => rfl
  | cons a l ih =>
      rw [List.isChain_cons] at hl
      rw [collapse_cons, ih hl.2]
      cases l with
      | nil => rfl
      | cons b bs => rw [pushRun, if_neg (hl.1 b rfl)]

/-- Whether a list has free neighbours is a matter of which elements are free. -/
theorem isChain_of_map_free (l l' : List α) (hmap : l'.map free = l.map free)
    (hl : l.IsChain fun a b => ¬ (free a ∧ free b)) :
    l'.IsChain fun a b => ¬ (free a ∧ free b) := by
  have hflags : (l.map free).IsChain fun x y => ¬ (x = true ∧ y = true) :=
    (List.isChain_map free).mpr hl
  rw [← hmap] at hflags
  exact (List.isChain_map free).mp hflags

/-- What absorbing keeps of its first element comes out in order. -/
theorem collapse_sublist (key : α → β) (hkey : ∀ a b, key (absorb a b) = key a) (l : List α) :
    ((collapse free absorb l).map key).Sublist (l.map key) := by
  induction l with
  | nil => exact List.Sublist.refl _
  | cons a l ih =>
      rw [collapse_cons, List.map_cons]
      rcases hl : collapse free absorb l with _ | ⟨b, bs⟩
      · rw [pushRun, List.map_cons]
        exact List.Sublist.cons_cons (key a) (List.nil_sublist _)
      · rw [hl, List.map_cons] at ih
        rw [pushRun]
        by_cases hab : free a ∧ free b
        · rw [if_pos hab, List.map_cons, hkey]
          exact List.Sublist.cons_cons (key a) ((List.sublist_cons_self (key b) _).trans ih)
        · rw [if_neg hab, List.map_cons, List.map_cons]
          exact List.Sublist.cons_cons (key a) ih

/-- A total that absorbing keeps is kept. -/
theorem collapse_sum [AddMonoid β] (weight : α → β)
    (hweight : ∀ a b, weight (absorb a b) = weight a + weight b) (l : List α) :
    ((collapse free absorb l).map weight).sum = (l.map weight).sum := by
  induction l with
  | nil => rfl
  | cons a l ih =>
      rw [collapse_cons, List.map_cons, List.sum_cons, ← ih]
      rcases hl : collapse free absorb l with _ | ⟨b, bs⟩
      · rw [pushRun, List.map_cons, List.sum_cons]
      · rw [pushRun]
        by_cases hab : free a ∧ free b
        · rw [if_pos hab, List.map_cons, List.map_cons, List.sum_cons, List.sum_cons, hweight,
            add_assoc]
        · rw [if_neg hab, List.map_cons, List.sum_cons]

variable (h : Merging free absorb)

include h

/-- A merged pair stands for its two elements. -/
theorem pushRun_absorb (a b : α) (l : List α) (ha : free a = true) (hb : free b = true) :
    pushRun free absorb (absorb a b) l = pushRun free absorb a (pushRun free absorb b l) := by
  have hab : free (absorb a b) = true := (h.free_absorb a b).trans ha
  cases l with
  | nil =>
      rw [pushRun, pushRun, pushRun, if_pos ⟨ha, hb⟩]
  | cons c cs =>
      rw [pushRun, pushRun]
      by_cases hc : free c = true
      · rw [if_pos ⟨hab, hc⟩, if_pos ⟨hb, hc⟩, pushRun,
          if_pos ⟨ha, (h.free_absorb b c).trans hb⟩, h.assoc]
      · rw [if_neg (fun hc' => hc hc'.2), if_neg (fun hc' => hc hc'.2), pushRun, if_pos ⟨ha, hb⟩]

/-- Two free neighbours anywhere in a list may be merged ahead of time. -/
theorem collapse_middle (l l' : List α) (a b : α) (ha : free a = true) (hb : free b = true) :
    collapse free absorb (l ++ a :: b :: l') = collapse free absorb (l ++ absorb a b :: l') := by
  have hpair : collapse free absorb (a :: b :: l') = collapse free absorb (absorb a b :: l') := by
    rw [collapse_cons, collapse_cons, collapse_cons, pushRun_absorb free absorb h a b _ ha hb]
  unfold collapse at hpair ⊢
  rw [List.foldr_append, List.foldr_append, hpair]

/-- Collapsing before a map that respects absorbing does not change what the
    list collapses to after it. -/
theorem collapse_map (f : α → α) (habsorb : ∀ a b, f (absorb a b) = absorb (f a) (f b))
    (hfree : ∀ a, free a = true → free (f a) = true) (l : List α) :
    collapse free absorb ((collapse free absorb l).map f) = collapse free absorb (l.map f) := by
  induction l with
  | nil => rfl
  | cons a l ih =>
      rw [List.map_cons, collapse_cons, collapse_cons, ← ih]
      rcases hl : collapse free absorb l with _ | ⟨b, bs⟩
      · rfl
      · rw [pushRun]
        by_cases hab : free a ∧ free b
        · rw [if_pos hab, List.map_cons, List.map_cons, collapse_cons, collapse_cons, habsorb]
          exact pushRun_absorb free absorb h (f a) (f b) _ (hfree a hab.1) (hfree b hab.2)
        · rw [if_neg hab]
          rfl

/-- A collapsed list stays as it is. -/
theorem collapse_collapse (l : List α) :
    collapse free absorb (collapse free absorb l) = collapse free absorb l := by
  have hid := collapse_map free absorb h id (fun _ _ => rfl) (fun _ ha => ha) l
  rw [List.map_id, List.map_id] at hid
  exact hid

/-- The elements that are not free stay, in order. -/
theorem collapse_kept (l : List α) :
    (collapse free absorb l).filter (fun a => !free a) = l.filter fun a => !free a := by
  induction l with
  | nil => rfl
  | cons a l ih =>
      rw [collapse_cons, List.filter_cons, ← ih]
      rcases hl : collapse free absorb l with _ | ⟨b, bs⟩
      · rw [pushRun, List.filter_cons]
      · rw [pushRun]
        by_cases hab : free a ∧ free b
        · -- Neither of the two is kept, nor is what they become.
          have hc := (h.free_absorb a b).trans hab.1
          rw [if_pos hab]
          simp only [List.filter_cons, hc, hab.1, hab.2, Bool.not_true, Bool.false_eq_true, if_false]
        · rw [if_neg hab, List.filter_cons]

/-- Absorbing a run one by one absorbs what the run comes to. -/
theorem foldl_absorb (a b : α) (run : List α) :
    run.foldl absorb (absorb a b) = absorb a (run.foldl absorb b) := by
  induction run generalizing b with
  | nil => rfl
  | cons c run ih => rw [List.foldl_cons, List.foldl_cons, h.assoc, ih]

theorem free_foldl_absorb (a : α) (run : List α) : free (run.foldl absorb a) = free a := by
  induction run generalizing a with
  | nil => rfl
  | cons b run ih => rw [List.foldl_cons, ih, h.free_absorb]

/-- A collapsed list is the list in groups: each element left has absorbed the
    rest of its group, and a group of more than one is free throughout. -/
theorem collapse_groups (l : List α) :
    ∃ groups : List (α × List α), l = groups.flatMap (fun g => g.1 :: g.2) ∧
      collapse free absorb l = groups.map (fun g => g.2.foldl absorb g.1) ∧
      ∀ g ∈ groups, g.2 ≠ [] → free g.1 = true ∧ ∀ b ∈ g.2, free b = true := by
  induction l with
  | nil => exact ⟨[], rfl, rfl, fun g hg => absurd hg List.not_mem_nil⟩
  | cons a l ih =>
      rcases ih with ⟨groups, hl, hcollapse, hfree⟩
      -- A group of `a` alone in front of those of the rest.
      have halone : ∀ g ∈ (a, []) :: groups, g.2 ≠ [] →
          free g.1 = true ∧ ∀ b ∈ g.2, free b = true := by
        intro g hg hne
        rcases List.mem_cons.mp hg with rfl | hg
        · exact absurd rfl hne
        · exact hfree g hg hne
      rw [collapse_cons, hcollapse]
      rcases groups with _ | ⟨⟨b, run⟩, groups⟩
      · exact ⟨[(a, [])], by rw [hl]; rfl, rfl, halone⟩
      · rw [List.map_cons, pushRun, free_foldl_absorb free absorb h]
        by_cases hab : free a ∧ free b
        · refine ⟨(a, b :: run) :: groups, by rw [hl]; rfl, ?_, fun g hg hne => ?_⟩
          · rw [if_pos hab, List.map_cons, List.foldl_cons, foldl_absorb free absorb h]
          · rcases List.mem_cons.mp hg with rfl | hg
            · refine ⟨hab.1, fun c hc => ?_⟩
              rcases List.mem_cons.mp hc with rfl | hc
              · exact hab.2
              · exact (hfree (b, run) List.mem_cons_self (List.ne_nil_of_mem hc)).2 c hc
            · exact hfree g (List.mem_cons_of_mem _ hg) hne
        · rw [if_neg hab]
          exact ⟨(a, []) :: (b, run) :: groups, by rw [hl]; rfl, rfl, halone⟩

end Collapse

end CSemantics
