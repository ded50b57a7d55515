import UnixP6.CSemantics.Memory

/-!
# Comparing Strings of Bytes

What a comparison of two C strings may answer. The order of two strings is that
of lists of unsigned bytes, a proper prefix first, and a comparison owes the
caller no more than its sign. The usual one returns the difference of the first
two bytes that differ, where the terminator of the shorter string stands for a
byte, and among strings without a zero byte that is the same thing.

## Main definitions

* `lexSign`: The sign of the lexicographic comparison.
* `firstDifference`: The difference of the first bytes that differ.

## Theorems

* `lexSign_cons`: Comparing by the first bytes.
* `lexSign_eq_zero`, `lexSign_neg_iff`, `lexSign_pos_iff`: What the sign says.
* `firstDifference_swap`: Exchanging the strings changes the sign.
* `sign_firstDifference`: The first difference has the sign of the comparison.
-/

namespace CSemantics

/-- The sign of the comparison of two strings, byte by byte and unsigned. -/
def lexSign (s t : List Byte) : Int := if s < t then -1 else if s = t then 0 else 1

theorem lexSign_self (s : List Byte) : lexSign s s = 0 := by
  rw [lexSign, if_neg (List.lt_irrefl s), if_pos rfl]

theorem lexSign_nil_cons (b : Byte) (t : List Byte) : lexSign [] (b :: t) = -1 :=
  if_pos (List.nil_lt_cons b t)

theorem lexSign_cons_nil (a : Byte) (s : List Byte) : lexSign (a :: s) [] = 1 := by
  rw [lexSign, if_neg (List.not_lt_nil _), if_neg (List.cons_ne_nil a s)]

theorem lexSign_cons (a b : Byte) (s t : List Byte) :
    lexSign (a :: s) (b :: t) = if a < b then -1 else if a = b then lexSign s t else 1 := by
  simp only [lexSign, List.cons_lt_cons_iff, List.cons.injEq]
  by_cases hlt : a < b
  · rw [if_pos (Or.inl hlt), if_pos hlt]
  · by_cases heq : a = b
    · rw [if_neg hlt, if_pos heq]
      simp only [eq_true heq, eq_false hlt, true_and, false_or]
    · rw [if_neg hlt, if_neg heq, if_neg (fun h => h.elim hlt (fun h => heq h.1)),
        if_neg (fun h => heq h.1)]

theorem lexSign_eq_zero (s t : List Byte) : lexSign s t = 0 ↔ s = t := by
  refine ⟨fun h => ?_, fun h => h ▸ lexSign_self s⟩
  by_contra hne
  unfold lexSign at h
  by_cases hlt : s < t
  · rw [if_pos hlt] at h
    exact absurd h (by decide)
  · rw [if_neg hlt, if_neg hne] at h
    exact absurd h (by decide)

theorem lexSign_neg_iff (s t : List Byte) : lexSign s t = -1 ↔ s < t := by
  refine ⟨fun h => ?_, fun h => if_pos h⟩
  by_contra hge
  rw [lexSign, if_neg hge] at h
  by_cases heq : s = t
  · rw [if_pos heq] at h
    exact absurd h (by decide)
  · rw [if_neg heq] at h
    exact absurd h (by decide)

theorem lexSign_pos_iff (s t : List Byte) (hne : s ≠ t) : lexSign s t = 1 ↔ ¬ s < t := by
  rw [lexSign, if_neg hne]
  by_cases hlt : s < t
  · rw [if_pos hlt]
    exact iff_of_false (by decide) (not_not.mpr hlt)
  · exact iff_of_true (if_neg hlt) hlt

/-- The difference of the first bytes in which the strings differ, the end of a
    string standing for a zero byte. -/
def firstDifference : List Byte → List Byte → Int
  | [], [] => 0
  | [], b :: _ => -b.toNat
  | a :: _, [] => a.toNat
  | a :: s, b :: t => if a ≠ b then (a.toNat : Int) - b.toNat else firstDifference s t

/-- Exchanging the strings changes the sign. -/
theorem firstDifference_swap (s t : List Byte) : firstDifference t s = -firstDifference s t := by
  induction s generalizing t with
  | nil =>
      cases t with
      | nil => rfl
      | cons b t => rw [firstDifference, firstDifference, Int.neg_neg]
  | cons a s ih =>
      cases t with
      | nil => rfl
      | cons b t =>
          rw [firstDifference, firstDifference]
          by_cases hab : a = b
          · rw [if_neg (not_not.mpr hab.symm), if_neg (not_not.mpr hab), ih]
          · rw [if_pos (Ne.symm hab), if_pos hab, Int.neg_sub]

/-- Among strings without a zero byte the first difference has the sign of the
    comparison. -/
theorem sign_firstDifference (s t : List Byte) (hs : ∀ b ∈ s, b ≠ 0) (ht : ∀ b ∈ t, b ≠ 0) :
    (firstDifference s t).sign = lexSign s t := by
  have hpos : ∀ b : Byte, b ≠ 0 → (0 : Int) < b.toNat := fun b hb =>
    Int.natCast_pos.mpr (Nat.pos_of_ne_zero fun hc => hb (BitVec.eq_of_toNat_eq hc))
  induction s generalizing t with
  | nil =>
      cases t with
      | nil => rfl
      | cons b t =>
          rw [firstDifference, lexSign_nil_cons]
          exact Int.sign_eq_neg_one_of_neg (Int.neg_neg_of_pos (hpos b (ht b List.mem_cons_self)))
  | cons a s ih =>
      cases t with
      | nil =>
          rw [firstDifference, lexSign_cons_nil]
          exact Int.sign_eq_one_of_pos (hpos a (hs a List.mem_cons_self))
      | cons b t =>
          rw [firstDifference, lexSign_cons]
          by_cases hab : a = b
          · rw [if_neg (not_not.mpr hab), if_pos hab,
              if_neg (by rw [hab, BitVec.lt_def]; exact Nat.lt_irrefl _)]
            exact ih t (fun c hc => hs c (List.mem_cons_of_mem a hc))
              (fun c hc => ht c (List.mem_cons_of_mem b hc))
          · have hne : a.toNat ≠ b.toNat := fun hc => hab (BitVec.eq_of_toNat_eq hc)
            rw [if_pos hab, if_neg hab]
            by_cases hlt : a < b
            · rw [if_pos hlt]
              rw [BitVec.lt_def] at hlt
              exact Int.sign_eq_neg_one_of_neg (by omega)
            · rw [if_neg hlt]
              rw [BitVec.lt_def] at hlt
              exact Int.sign_eq_one_of_pos (by omega)

theorem firstDifference_eq_zero (s t : List Byte) (hs : ∀ b ∈ s, b ≠ 0) (ht : ∀ b ∈ t, b ≠ 0) :
    firstDifference s t = 0 ↔ s = t := by
  rw [← Int.sign_eq_zero_iff_zero, sign_firstDifference s t hs ht, lexSign_eq_zero]

end CSemantics
