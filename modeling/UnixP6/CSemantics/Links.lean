import UnixP6.CSemantics.Memory
import Mathlib.Data.FinEnum
import Mathlib.Data.Fintype.Card
import Mathlib.Data.List.Nodup

/-!
# Linked Lists

A singly linked list as the list of the nodes it passes: start at a pointer,
follow the link function, stop at the null pointer. `Links` says that a given
list of nodes is that walk. The link function is a parameter, so the same
relation serves nodes whose link is a word in memory and nodes that are slots
of a table.

A walk that reaches null is determined by where it starts (`Links.unique`) and
meets no node twice (`Links.nodup`), since a node met twice would be followed
by the same nodes for ever. `Links.relink` is the one edit the callers make:
everything up to some node keeps its link, and from that node on the list is
replaced.

## Main definitions

* `Links`: The nodes a walk along the links passes before it reaches null.

## Theorems

* `Links.unique`: A walk is determined by its start.
* `Links.drop`: A walk may be picked up at any later node.
* `Links.congr`: Links that agree on the nodes give the same walk.
* `Links.suffix`: A walk from a later node is the rest of the walk.
* `Links.relink`: Replacing what follows a node.
* `Links.nodup`: A walk that ends meets no node twice.
* `Links.length_lt`: A walk over words ends within `2^32` nodes.
-/

namespace CSemantics

variable {P : Type}

/-- The nodes passed from a pointer along `next` before it is null. -/
def Links (next : P → P) (null : P) : P → List P → Prop
  | p, [] => p = null
  | p, b :: bs => p = b ∧ b ≠ null ∧ Links next null (next b) bs

instance decideLinks [DecidableEq P] (next : P → P) (null : P) :
    (p : P) → (xs : List P) → Decidable (Links next null p xs)
  | p, [] => inferInstanceAs (Decidable (p = null))
  | p, b :: bs =>
    have := decideLinks next null (next b) bs
    inferInstanceAs (Decidable (p = b ∧ b ≠ null ∧ Links next null (next b) bs))

theorem Links.unique (next : P → P) (null : P) :
    ∀ (xs ys : List P) (p : P), Links next null p xs → Links next null p ys → xs = ys := by
  intro xs
  induction xs with
  | nil =>
      intro ys p hx hy
      cases ys with
      | nil => rfl
      | cons b bs => exact absurd (hy.1.symm.trans hx) hy.2.1
  | cons a as ih =>
      intro ys p hx hy
      cases ys with
      | nil => exact absurd (hx.1.symm.trans hy) hx.2.1
      | cons b bs =>
          -- Both walks stand on this node, and go on from it alike.
          have hab : a = b := hx.1.symm.trans hy.1
          rw [hab, ih bs (next a) hx.2.2 (by rw [hab]; exact hy.2.2)]

theorem Links.head (next : P → P) (null p : P) (xs : List P) (h : Links next null p xs) :
    p = xs.headD null := by
  cases xs with
  | nil => exact h
  | cons b bs => exact h.1

/-- The walk from where a later part of the list starts is that part. -/
theorem Links.drop (next : P → P) (null : P) :
    ∀ (pre : List P) (p : P) (rest : List P), Links next null p (pre ++ rest) →
      Links next null (rest.headD null) rest := by
  intro pre
  induction pre with
  | nil =>
      intro p rest h
      rw [← Links.head next null p rest h]
      exact h
  | cons a as ih => intro p rest h; exact ih (next a) rest h.2.2

theorem Links.congr (next next' : P → P) (null : P) :
    ∀ (xs : List P) (p : P), (∀ b ∈ xs, next' b = next b) →
      Links next null p xs → Links next' null p xs := by
  intro xs
  induction xs with
  | nil => intro p _ h; exact h
  | cons b bs ih =>
      intro p hag h
      refine ⟨h.1, h.2.1, ?_⟩
      rw [hag b List.mem_cons_self]
      exact ih (next b) (fun c hc => hag c (List.mem_cons_of_mem b hc)) h.2.2

/-- The walk from a node passed on the way is the rest of the walk. -/
theorem Links.suffix (next : P → P) (null : P) :
    ∀ (pre : List P) (p b : P) (rest : List P), Links next null p (pre ++ b :: rest) →
      b ≠ null ∧ Links next null (next b) rest := by
  intro pre
  induction pre with
  | nil => intro p b rest h; exact h.2
  | cons a as ih => intro p b rest h; exact ih (next a) b rest h.2.2

/-- Replacing what follows a node: the nodes before it keep their links, and
    from the node on the walk is a new one. -/
theorem Links.relink (next next' : P → P) (null : P) :
    ∀ (pre : List P) (p b : P) (rest rest' : List P),
      Links next null p (pre ++ b :: rest) → (∀ x ∈ pre, next' x = next x) →
      Links next' null (next' b) rest' → Links next' null p (pre ++ b :: rest') := by
  intro pre
  induction pre with
  | nil => intro p b rest rest' h _ hnew; exact ⟨h.1, h.2.1, hnew⟩
  | cons a as ih =>
      intro p b rest rest' h hag hnew
      refine ⟨h.1, h.2.1, ?_⟩
      -- A node before the one that is relinked.
      rw [hag a List.mem_cons_self]
      exact ih (next a) b rest rest' h.2.2
        (fun x hx => hag x (List.mem_cons_of_mem a hx)) hnew

/-- A walk that ends meets no node twice: the walk from the second meeting
    would be as long as the walk from the first. -/
theorem Links.nodup (next : P → P) (null : P) :
    ∀ (xs : List P) (p : P), Links next null p xs → xs.Nodup := by
  intro xs
  induction xs with
  | nil => intro p _; exact List.nodup_nil
  | cons b bs ih =>
      intro p h
      refine List.nodup_cons.mpr ⟨fun hmem => ?_, ih (next b) h.2.2⟩
      rcases List.append_of_mem hmem with ⟨pre, rest, heq⟩
      have hrest := (Links.suffix next null pre (next b) b rest (by rw [← heq]; exact h.2.2)).2
      have hsame := Links.unique next null rest bs (next b) hrest h.2.2
      have hlen : bs.length = (pre ++ b :: rest).length := by rw [heq]
      rw [List.length_append, List.length_cons, hsame] at hlen
      omega

theorem Links.ne_null (next : P → P) (null : P) :
    ∀ (xs : List P) (p : P), Links next null p xs → ∀ b ∈ xs, b ≠ null := by
  intro xs
  induction xs with
  | nil => intro p _ b hb; exact absurd hb List.not_mem_nil
  | cons a as ih =>
      intro p h b hb
      rcases List.mem_cons.mp hb with rfl | hb
      · exact h.2.1
      · exact ih (next a) h.2.2 b hb

theorem card_word : Fintype.card Word = 2 ^ 32 := by
  -- A word is its number below `2^32`.
  have hcongr := Fintype.card_congr
    (⟨BitVec.toFin, BitVec.ofFin, fun _ => rfl, fun _ => rfl⟩ : Word ≃ Fin (2 ^ 32))
  rw [hcongr, Fintype.card_fin]

/-- A walk over addresses other than null ends before `2^32` nodes. -/
theorem Links.length_lt (next : Word → Word) (null p : Word) (xs : List Word)
    (h : Links next null p xs) : xs.length < 2 ^ 32 := by
  -- Null is one more address that the walk does not meet.
  have hnodup : (null :: xs).Nodup :=
    List.nodup_cons.mpr ⟨fun hmem => Links.ne_null next null xs p h null hmem rfl,
      Links.nodup next null xs p h⟩
  have hlen := hnodup.length_le_card
  rw [List.length_cons, card_word] at hlen
  omega

end CSemantics
