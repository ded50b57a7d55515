import Mathlib.Data.List.Basic

/-!
# A Register in Front of a Line

A device that sends what it is given has room for a few items, and takes them
from there onto its line one at a time. Storing an item when there is no room
replaces the one stored last. `Channel.contents` is everything that is on the
line or still on its way, in order: taking an item on changes nothing about it,
storing one appends it, and only storing one without room loses another.

## Main definitions

* `Channel`: What waits, and what has been sent.
* `Channel.push`, `Channel.shift`: Storing an item, and taking one on.
* `Channel.contents`: All of it in order.

## Theorems

* `Channel.contents_push`: With room an item is appended.
* `Channel.contents_push_full`: Without, it replaces the last.
* `Channel.contents_shift`: Taking an item on loses nothing.
-/

namespace CSemantics

/-- What waits in front of the line, the first item first, and what has been
    sent. -/
structure Channel (α : Type) where
  queue : List α
  sent : List α
deriving DecidableEq

namespace Channel

variable {α : Type}

/-- Everything on the line or on its way. -/
def contents (c : Channel α) : List α := c.sent ++ c.queue

/-- An item is stored, given the number of places there are. -/
def push (depth : Nat) (c : Channel α) (a : α) : Channel α :=
  if c.queue.length < depth then { c with queue := c.queue ++ [a] }
  else { c with queue := c.queue.dropLast ++ [a] }

/-- The first item goes onto the line. -/
def shift (c : Channel α) : Option (Channel α) :=
  match c.queue with
  | [] => none
  | a :: rest => some { queue := rest, sent := c.sent ++ [a] }

theorem shift_some (c c' : Channel α) (h : c.shift = some c') :
    ∃ a, c.queue = a :: c'.queue ∧ c'.sent = c.sent ++ [a] := by
  unfold shift at h
  cases hqueue : c.queue with
  | nil =>
      rw [hqueue] at h
      cases h
  | cons a rest =>
      rw [hqueue] at h
      simp only [Option.some.injEq] at h
      rw [← h]
      exact ⟨a, rfl, rfl⟩

/-- Whatever waits can be sent. -/
theorem exists_shift (c : Channel α) (h : c.queue ≠ []) : ∃ c', c.shift = some c' := by
  unfold shift
  cases hqueue : c.queue with
  | nil => exact absurd hqueue h
  | cons a rest => exact ⟨_, rfl⟩

theorem contents_shift (c c' : Channel α) (h : c.shift = some c') : c'.contents = c.contents := by
  rcases shift_some c c' h with ⟨a, hqueue, hsent⟩
  unfold contents
  rw [hqueue, hsent, List.append_assoc, List.singleton_append]

section Push

variable (depth : Nat) (c : Channel α) (a : α)

theorem queue_push (h : c.queue.length < depth) : (c.push depth a).queue = c.queue ++ [a] := by
  rw [push, if_pos h]

theorem contents_push (h : c.queue.length < depth) :
    (c.push depth a).contents = c.contents ++ [a] := by
  rw [push, if_pos h, contents, contents, List.append_assoc]

/-- Without room the last item of what waits is lost. -/
theorem contents_push_full (rest : List α) (b : α) (hqueue : c.queue = rest ++ [b])
    (h : depth ≤ c.queue.length) : (c.push depth a).contents = c.sent ++ rest ++ [a] := by
  rw [push, if_neg (Nat.not_lt.mpr h), contents, hqueue, List.dropLast_concat, List.append_assoc]

theorem length_queue_push : (c.push depth a).queue.length ≤ c.queue.length + 1 := by
  unfold push
  split
  · exact Nat.le_of_eq (by rw [List.length_append, List.length_singleton])
  · rw [List.length_append, List.length_singleton, List.length_dropLast]
    omega

end Push

end Channel

end CSemantics
