import UnixP6.CSemantics.Compare
import UnixP6.CSemantics.Strings
import UnixP6.Core.Tools

/-!
# Comparing Strings

What the comparisons of `tools/t_mem.c` and `tools/t_sai.c` say about the
strings in memory.

`strncmp` looks at nothing but the two strings cut at their terminators and at
the bound, and returns their first difference, so everything it says is a fact
about `readString`. `strcmp` returns the difference of its two pointers. That is
zero for no two strings that differ in some place, which is all that
`check_eq_of_strings` needs, but its sign is that of the addresses, and of a
string and a proper prefix of it nothing is said at all.

## Main definitions

* `BoundedCompare`: What is promised of `strncmp`.
* `CompareAgree`: What is promised of `strcmp`.

## Theorems

* `strncmp_eq`: `strncmp` returns the first difference of the cut strings.
* `strncmp_eq_zero`: No difference is found exactly when they agree.
* `strncmp_bounded`: `strncmp` is the bounded comparison.
* `strlen_eq`, `strcmp_eq`: What the two return for strings in memory.
* `strcmp_agrees_iff`: When `strcmp` has the sign of `strncmp`.
* `not_compareAgree`: Two strings where it has not.
* `checkEqOfStrings_eq`: The equality test is exact.
-/

namespace UnixP6

open CSemantics

/-! ### Within a bound -/

section Bounded

variable (m : Mem) (s1 s2 : Word)

/-- From any index on, `strncmp` returns the first difference of what is left of
    the two strings. -/
theorem strncmpFrom_eq (k i : Nat) : strncmpFrom m s1 s2 k i
    = firstDifference (readString m k (s1 + BitVec.ofNat 32 i))
        (readString m k (s2 + BitVec.ofNat 32 i)) := by
  induction k generalizing i with
  | zero => rfl
  | succ k ih =>
      rw [strncmpFrom, readString, readString, add_ofNat_succ, add_ofNat_succ, ih]
      generalize m (s1 + BitVec.ofNat 32 i) = a
      generalize m (s2 + BitVec.ofNat 32 i) = b
      -- The bytes after the loop decide as those in it, a terminator being zero.
      by_cases ha : a = 0
      · by_cases hb : b = 0
        · rw [if_pos ha, if_pos hb, if_neg (fun h => h.1 ha),
            if_neg (not_not.mpr (ha.trans hb.symm))]
          rfl
        · rw [if_pos ha, if_neg hb, if_neg (fun h => h.1 ha),
            if_pos (fun h => hb (h.symm.trans ha)), ha]
          exact Int.zero_sub _
      · by_cases hb : b = 0
        · rw [if_neg ha, if_pos hb, if_neg (fun h => h.2 hb),
            if_pos (fun h => ha (h.trans hb)), hb]
          exact Int.sub_zero _
        · rw [if_neg ha, if_neg hb, if_pos ⟨ha, hb⟩]
          rfl

theorem strncmp_eq (n : Word) :
    strncmp m s1 s2 n = firstDifference (readString m n.toNat s1) (readString m n.toNat s2) := by
  have h := strncmpFrom_eq m s1 s2 n.toNat 0
  rw [BitVec.add_zero, BitVec.add_zero] at h
  exact h

/-- `strncmp` finds no difference exactly when the strings, cut at their
    terminators and at the bound, agree. -/
theorem strncmp_eq_zero (n : Word) :
    strncmp m s1 s2 n = 0 ↔ readString m n.toNat s1 = readString m n.toNat s2 := by
  rw [strncmp_eq]
  exact firstDifference_eq_zero _ _ (readString_ne_zero m _ s1) (readString_ne_zero m _ s2)

theorem sign_strncmp (n : Word) : (strncmp m s1 s2 n).sign
    = lexSign (readString m n.toNat s1) (readString m n.toNat s2) := by
  rw [strncmp_eq]
  exact sign_firstDifference _ _ (readString_ne_zero m _ s1) (readString_ne_zero m _ s2)

/-- An index is read only within the bound, and only if both strings go on up to
    it. -/
theorem strncmpReads_bound (k i : Nat) : ∀ x ∈ strncmpReads m s1 s2 k i,
    i ≤ x ∧ x < i + k ∧ ∀ j, i ≤ j → j < x →
      m (s1 + BitVec.ofNat 32 j) ≠ 0 ∧ m (s2 + BitVec.ofNat 32 j) ≠ 0 := by
  induction k generalizing i with
  | zero => exact fun x hx => absurd hx List.not_mem_nil
  | succ k ih =>
      intro x hx
      rw [strncmpReads, List.mem_cons] at hx
      rcases hx with rfl | hx
      · exact ⟨Nat.le_refl x, by omega, fun j hj hlt => absurd hlt (Nat.not_lt.mpr hj)⟩
      · -- The index is read by a later turn, so the loop went on here.
        by_cases hgo : m (s1 + BitVec.ofNat 32 i) ≠ 0 ∧ m (s2 + BitVec.ofNat 32 i) ≠ 0
        · rw [if_pos hgo] at hx
          by_cases hab : m (s1 + BitVec.ofNat 32 i) = m (s2 + BitVec.ofNat 32 i)
          · rw [if_neg (not_not.mpr hab)] at hx
            rcases ih (i + 1) x hx with ⟨hle, hlt, hbefore⟩
            refine ⟨by omega, by omega, fun j hj hjx => ?_⟩
            rcases Nat.eq_or_lt_of_le hj with rfl | hafter
            · exact hgo
            · exact hbefore j hafter hjx
          · rw [if_pos hab] at hx
            exact absurd hx List.not_mem_nil
        · rw [if_neg hgo] at hx
          exact absurd hx List.not_mem_nil

/-- Where neither string ends, `strncmp` and `tmemcmp` stop at the same bytes. -/
theorem sign_tmemcmpFrom (k i : Nat) (hne : ∀ j, i ≤ j → j < i + k →
      m (s1 + BitVec.ofNat 32 j) ≠ 0 ∧ m (s2 + BitVec.ofNat 32 j) ≠ 0) :
    (tmemcmpFrom m s1 s2 k i).sign = (strncmpFrom m s1 s2 k i).sign := by
  induction k generalizing i with
  | zero => rfl
  | succ k ih =>
      have hrest := ih (i + 1) (fun j hj hlt => hne j (by omega) (by omega))
      have hhere := hne i (Nat.le_refl i) (by omega)
      rw [tmemcmpFrom, strncmpFrom, if_pos hhere]
      generalize m (s1 + BitVec.ofNat 32 i) = a
      generalize m (s2 + BitVec.ofNat 32 i) = b
      by_cases hab : a = b
      · have hirrefl : ¬ b < b := by
          rw [BitVec.lt_def]
          exact Nat.lt_irrefl _
        rw [hab, if_neg hirrefl, if_neg hirrefl, if_neg (not_not.mpr rfl), hrest]
      · have hne' : a.toNat ≠ b.toNat := fun hc => hab (BitVec.eq_of_toNat_eq hc)
        rw [if_pos hab]
        by_cases hlt : a < b
        · rw [if_pos hlt]
          rw [BitVec.lt_def] at hlt
          exact (Int.sign_eq_neg_one_of_neg (by omega)).symm
        · have hgt : b < a := by
            rw [BitVec.lt_def] at hlt ⊢
            omega
          rw [if_neg hlt, if_pos hgt]
          rw [BitVec.lt_def] at hgt
          exact (Int.sign_eq_one_of_pos (by omega)).symm

end Bounded

/-- What is promised of `strncmp`. Nothing is read at or past the bound, nor
    behind the first terminator of either string; what is returned has the sign
    of the comparison of the cut strings; and where no string ends it is that of
    `tmemcmp`. -/
structure BoundedCompare (m : Mem) (s1 s2 n : Word) : Prop where
  reads : ∀ i ∈ strncmpReads m s1 s2 n.toNat 0, i < n.toNat ∧
    ∀ j < i, m (s1 + BitVec.ofNat 32 j) ≠ 0 ∧ m (s2 + BitVec.ofNat 32 j) ≠ 0
  sign : (strncmp m s1 s2 n).sign
    = lexSign (readString m n.toNat s1) (readString m n.toNat s2)
  zero : strncmp m s1 s2 n = 0 ↔ readString m n.toNat s1 = readString m n.toNat s2
  swap : strncmp m s2 s1 n = -strncmp m s1 s2 n
  memory : (∀ j < n.toNat, m (s1 + BitVec.ofNat 32 j) ≠ 0 ∧ m (s2 + BitVec.ofNat 32 j) ≠ 0) →
    (tmemcmp m s1 s2 n).sign = (strncmp m s1 s2 n).sign

/-- `strncmp` is the bounded comparison of any two buffers. -/
theorem strncmp_bounded (m : Mem) (s1 s2 n : Word) : BoundedCompare m s1 s2 n where
  reads i hi := by
    rcases strncmpReads_bound m s1 s2 n.toNat 0 i hi with ⟨_, hlt, hbefore⟩
    exact ⟨by omega, fun j hj => hbefore j (Nat.zero_le j) hj⟩
  sign := sign_strncmp m s1 s2 n
  zero := strncmp_eq_zero m s1 s2 n
  swap := by rw [strncmp_eq, strncmp_eq, firstDifference_swap]
  memory hne := sign_tmemcmpFrom m s1 s2 n.toNat 0 (fun j _ hj => hne j (by omega))

/-! ### Up to the terminators -/

theorem strlen_eq (m : Mem) (a : Word) (s : List Byte) (h : CString m a s) :
    strlen m a = some (BitVec.ofNat 32 s.length) := by
  have hloop := runLoop_pointer m s (strlenTurn m) (fun n _ => n + 1) id
    (fun a n hzero => by rw [strlenTurn, if_neg (not_not.mpr hzero)]; rfl)
    (fun a n c hc hread => by rw [strlenTurn, if_pos (show m a ≠ 0 from hread ▸ h.1 c hc)])
    a 0 (turnBound + 1) h (by decide)
  rw [foldl_add_one] at hloop
  exact hloop.trans (congrArg some (BitVec.zero_add _))

/-- Strings that differ in some place give the difference of the pointers; of two
    strings one of which is a prefix of the other nothing is said. -/
theorem strcmp_loop (m : Mem) (s t : List Byte) :
    ∀ (a b : Word) (fuel : Nat), CString m a s → CString m b t → s.length < fuel →
      runLoop (strcmpTurn m) fuel (a, b)
        = some (if s <+: t ∨ t <+: s then 0 else a - b) := by
  induction s generalizing t with
  | nil =>
      intro a b fuel hs _ hfuel
      rcases Nat.exists_eq_add_of_lt hfuel with ⟨k, rfl⟩
      rw [if_pos (Or.inl List.nil_prefix)]
      exact runLoop_exit _ _ _ _ (if_neg fun hc => hc.1 hs.2.1)
  | cons c s ih =>
      intro a b fuel hs ht hfuel
      rw [List.length_cons] at hfuel
      rcases Nat.exists_eq_add_of_lt (Nat.zero_lt_of_lt hfuel) with ⟨k, rfl⟩
      have hc : m a ≠ 0 := hs.2.1 ▸ hs.1 c List.mem_cons_self
      cases t with
      | nil =>
          rw [if_pos (Or.inr List.nil_prefix)]
          exact runLoop_exit _ _ _ _ (if_neg fun hgo => hgo.2 ht.2.1)
      | cons d t =>
          have hd : m b ≠ 0 := ht.2.1 ▸ ht.1 d List.mem_cons_self
          by_cases hcd : c = d
          · have hsame : m a = m b := hs.2.1.trans (hcd.trans ht.2.1.symm)
            rw [runLoop_again _ _ _ (a + 1, b + 1)
              (by rw [strcmpTurn, if_pos ⟨hc, hd⟩, if_neg (not_not.mpr hsame)]),
              ih t (a + 1) (b + 1) _ (cstring_tail m a c s hs) (cstring_tail m b d t ht) (by omega)]
            simp only [List.cons_prefix_cons, hcd, true_and]
            rw [show a + 1 - (b + 1) = a - b by bv_omega]
          · have hdiff : m a ≠ m b := fun h => hcd (hs.2.1.symm.trans (h.trans ht.2.1))
            rw [if_neg (by
              rw [List.cons_prefix_cons, List.cons_prefix_cons]
              exact fun h => h.elim (fun h => hcd h.1) (fun h => hcd h.1.symm))]
            exact runLoop_exit _ _ _ _ (by rw [strcmpTurn, if_pos ⟨hc, hd⟩, if_pos hdiff])

section Terminated

variable (m : Mem) (s1 s2 : Word) (s t : List Byte) (hs : CString m s1 s) (ht : CString m s2 t)

include hs ht

theorem strcmp_eq : strcmp m s1 s2 = some (if s <+: t ∨ t <+: s then 0 else s1 - s2) := by
  have hlen := length_lt_of_cstring m s1 s hs
  exact strcmp_loop m s t s1 s2 _ hs ht (by unfold turnBound; omega)

/-- Strings that differ in some place are at different addresses. -/
theorem strcmp_ne_zero (hdiffer : ¬ (s <+: t ∨ t <+: s)) : s1 - s2 ≠ 0 := by
  intro hzero
  have hsame : s1 = s2 := by bv_omega
  rw [← hsame] at ht
  rw [cstring_unique m s1 s t hs ht] at hdiffer
  exact hdiffer (Or.inl (List.prefix_refl t))

/-- A bound past the end of a string cuts nothing off. -/
theorem sign_strncmp_past (n : Word) (hsn : s.length < n.toNat) (htn : t.length < n.toNat) :
    (strncmp m s1 s2 n).sign = lexSign s t := by
  rw [sign_strncmp, readString_of_cstring m _ s1 s hs, readString_of_cstring m _ s2 t ht,
    List.take_of_length_le hsn.le, List.take_of_length_le htn.le]

/-- The equality test is exact. -/
theorem checkEqOfStrings_eq : checkEqOfStrings m s1 s2 = some (decide (s = t)) := by
  have hslen := length_lt_of_cstring m s1 s hs
  have htlen := length_lt_of_cstring m s2 t ht
  unfold checkEqOfStrings
  rw [strcmp_eq m s1 s2 s t hs ht, strlen_eq m s1 s hs, strlen_eq m s2 t ht]
  by_cases hstart : s <+: t ∨ t <+: s
  · -- The lengths settle which of them is longer.
    rw [if_pos hstart, Option.bind_some, if_pos rfl, Option.bind_some, Option.map_some]
    have hiff : BitVec.ofNat 32 s.length = BitVec.ofNat 32 t.length ↔ s = t := by
      refine ⟨fun hlen => ?_, fun h => by rw [h]⟩
      have hnat : s.length = t.length := by bv_omega
      exact hstart.elim (fun h => h.eq_of_length hnat) (fun h => (h.eq_of_length hnat.symm).symm)
    rw [decide_eq_decide.mpr hiff]
  · have hne : s ≠ t := fun h => hstart (Or.inl (h ▸ List.prefix_refl s))
    rw [if_neg hstart, Option.bind_some, if_neg (strcmp_ne_zero m s1 s2 s t hs ht hstart),
      decide_eq_false hne]

end Terminated

/-- A string and a proper prefix of it. -/
theorem checkEqOfStrings_eq_prefix :
    checkEqOfStrings (memOf [97, 0, 97, 98, 0]) 0 2
      = some (decide ([(97 : Byte)] = [97, 98])) :=
  checkEqOfStrings_eq (memOf [97, 0, 97, 98, 0]) 0 2 [97] [97, 98]
    ⟨by decide, rfl, rfl, trivial⟩ ⟨by decide, rfl, rfl, rfl, trivial⟩

/-- What is promised of `strcmp` on two strings: the sign of `strncmp`, zero for
    equal strings only, and a sign that is the strings' own, wherever they are. -/
structure CompareAgree (m : Mem) (s1 s2 n : Word) (s t : List Byte) (r : Word) : Prop where
  returns : strcmp m s1 s2 = some r
  sign : r.toInt.sign = (strncmp m s1 s2 n).sign
  zero : r = 0 ↔ s = t
  order : r.toInt.sign = lexSign s t

/-- Strings of which neither is a prefix of the other, the smaller one at the
    address that is lower as `strcmp` subtracts them. -/
def OrderedInMemory (s1 s2 : Word) (s t : List Byte) : Prop :=
  ¬ s <+: t ∧ ¬ t <+: s ∧ (s < t ↔ (s1 - s2).toInt < 0)

/-- A sign that is not zero is told from one that is not zero by being negative. -/
theorem sign_eq_lexSign_iff (r : Word) (hr : r ≠ 0) (s t : List Byte) (hne : s ≠ t) :
    r.toInt.sign = lexSign s t ↔ (s < t ↔ r.toInt < 0) := by
  have hint : r.toInt ≠ 0 := fun hc => hr (BitVec.eq_of_toInt_eq hc)
  rcases lt_or_gt_of_ne hint with hneg | hpos
  · rw [Int.sign_eq_neg_one_of_neg hneg, iff_true_right hneg]
    exact eq_comm.trans (lexSign_neg_iff s t)
  · rw [Int.sign_eq_one_of_pos hpos, iff_false_right (not_lt.mpr hpos.le)]
    exact eq_comm.trans (lexSign_pos_iff s t hne)

/-- `strcmp` has the sign of `strncmp` on equal strings and on strings that lie in
    memory in their order, and on no others. -/
theorem strcmp_agrees_iff (m : Mem) (s1 s2 n : Word) (s t : List Byte) (hs : CString m s1 s)
    (ht : CString m s2 t) (hsn : s.length < n.toNat) (htn : t.length < n.toNat) :
    (∃ r, CompareAgree m s1 s2 n s t r) ↔ s = t ∨ OrderedInMemory s1 s2 s t := by
  have hreturns := strcmp_eq m s1 s2 s t hs ht
  have hsign := sign_strncmp_past m s1 s2 s t hs ht n hsn htn
  by_cases heq : s = t
  · -- Equal strings are prefixes of each other.
    rw [if_pos (Or.inl (heq ▸ List.prefix_refl s))] at hreturns
    have hzero : lexSign s t = 0 := (lexSign_eq_zero s t).mpr heq
    refine iff_of_true ⟨0, hreturns, ?_, iff_of_true rfl heq, ?_⟩ (Or.inl heq)
    · rw [hsign, hzero]
      rfl
    · rw [hzero]
      rfl
  · by_cases hstart : s <+: t ∨ t <+: s
    · rw [if_pos hstart] at hreturns
      refine iff_of_false ?_ ?_
      · rintro ⟨r, h⟩
        exact heq (h.zero.mp (Option.some.inj (h.returns.symm.trans hreturns)))
      · rintro (h | h)
        · exact heq h
        · exact hstart.elim h.1 h.2.1
    · rw [if_neg hstart] at hreturns
      have hne := strcmp_ne_zero m s1 s2 s t hs ht hstart
      rw [not_or] at hstart
      have hiff := sign_eq_lexSign_iff (s1 - s2) hne s t heq
      constructor
      · rintro ⟨r, h⟩
        have hr : s1 - s2 = r := Option.some.inj (hreturns.symm.trans h.returns)
        exact Or.inr ⟨hstart.1, hstart.2, hiff.mp (hr ▸ h.order)⟩
      · rintro (h | h)
        · exact absurd h heq
        · have horder := hiff.mpr h.2.2
          exact ⟨s1 - s2, hreturns, horder.trans hsign.symm, iff_of_false hne heq, horder⟩

/-- The strings `a` and `b`, in their order. -/
theorem strcmp_agrees_iff_letters :
    (∃ r, CompareAgree (memOf [97, 0, 98, 0]) 0 2 2 [97] [98] r) ↔
      [(97 : Byte)] = [98] ∨ OrderedInMemory 0 2 [97] [98] :=
  strcmp_agrees_iff (memOf [97, 0, 98, 0]) 0 2 2 [97] [98] ⟨by decide, rfl, rfl, trivial⟩
    ⟨by decide, rfl, rfl, trivial⟩ (by decide) (by decide)

/-- With the larger string at the lower address the sign is the wrong one, and a
    string and a prefix of it compare as equal. -/
theorem not_compareAgree :
    (¬ ∃ r, CompareAgree (memOf [98, 0, 97, 0]) 0 2 2 [98] [97] r) ∧
      ¬ ∃ r, CompareAgree (memOf [97, 0]) 0 1 2 [97] [] r := by
  refine ⟨?_, ?_⟩
  · rintro ⟨r, h⟩
    have hr := (strcmp_eq (memOf [98, 0, 97, 0]) 0 2 [98] [97] ⟨by decide, rfl, rfl, trivial⟩
      ⟨by decide, rfl, rfl, trivial⟩).symm.trans h.returns
    have horder := h.order
    rw [← Option.some.inj hr] at horder
    exact absurd horder (by decide)
  · rintro ⟨r, h⟩
    have hr := (strcmp_eq (memOf [97, 0]) 0 1 [97] [] ⟨by decide, rfl, rfl, trivial⟩
      ⟨by decide, rfl, trivial⟩).symm.trans h.returns
    have hzero := h.zero
    rw [← Option.some.inj hr] at hzero
    exact absurd hzero (by decide)

end UnixP6
