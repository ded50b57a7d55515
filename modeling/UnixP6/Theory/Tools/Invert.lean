import UnixP6.Core.Tools
import UnixP6.CSemantics.Arrays

/-!
# Reversing an Array in Place

`tmemcpyd_inv` exchanges the elements of an array from both ends, as
`reverse_str` does the bytes of a string. `reverse_str` starts its upper index
at the last byte; here it starts at the count, one past the last element. So
the element after the array takes part, and what is reversed are the `n + 1`
elements from the start of the array on.

That is a reversal of the array only if every element is the same as its
neighbour, the one after the array included.

## Main definitions

* `Inverted`: An array with so many elements at either end exchanged.
* `Reverses`: What reversing an array in place is.

## Theorems

* `inverted_step`: One round.
* `tmemcpydInv_spec`: What the function does to the `n + 1` elements.
* `reverses_iff`: The arrays it reverses.
-/

namespace UnixP6

open CSemantics

/-- An array that was in memory, with the first `k` and the last `k` of the
    elements up to index `last` exchanged. -/
structure Inverted (m0 : Mem) (arr : Word) (last k : Nat) (m : Mem) : Prop where
  element : ∀ i ≤ last, m.dword arr i
    = if i < k ∨ last - i < k then m0.dword arr (last - i) else m0.dword arr i
  outside : SameOutside arr (4 * (last + 1)) m0 m

section Invert

variable (m0 : Mem) (arr : Word) (last : Nat) (hlast : last ≤ 1073741824)

include hlast

theorem element_outside (i : Nat) (v : Word) (m : Mem) (hi : i ≤ last) :
    SameOutside arr (4 * (last + 1)) m (m.store32 (arr + BitVec.ofNat 32 (4 * i)) v) := by
  intro x hx
  refine Mem.store32_far m _ x v ?_
  unfold Far at hx ⊢
  bv_omega

/-- One round exchanges one more element at either end. In an array as long as
    memory the element after the last one is the first, which then is exchanged
    with itself. -/
theorem inverted_step (k : Nat) (m : Mem) (hk : 2 * k < last) (h : Inverted m0 arr last k m) :
    Inverted m0 arr last (k + 1)
      ((m.store32 (arr + BitVec.ofNat 32 (4 * k)) (m.dword arr (last - k))).store32
        (arr + BitVec.ofNat 32 (4 * (last - k))) (m.dword arr k)) := by
  -- The two elements are still their own.
  have hfirst := h.element k (by omega)
  rw [if_neg (by omega)] at hfirst
  have hsecond := h.element (last - k) (by omega)
  rw [if_neg (by omega)] at hsecond
  refine ⟨fun i hi => ?_, ?_⟩
  · rw [Mem.dword_store32, Mem.dword_store32, hfirst, hsecond]
    by_cases hupper : i % 1073741824 = (last - k) % 1073741824
    · rw [if_pos hupper]
      by_cases hend : i = last - k
      · rw [if_pos (by omega)]
        congr 1
        omega
      · -- The array is as long as memory, and this is its first element.
        have hwhole : i = 0 ∧ k = 0 ∧ last = 1073741824 := by omega
        rw [if_pos (by omega)]
        exact Mem.dword_congr m0 arr _ _ (by omega)
    · rw [if_neg hupper]
      by_cases hlower : i % 1073741824 = k % 1073741824
      · have hik : i = k := by omega
        rw [if_pos hlower, if_pos (by omega), hik]
      · rw [if_neg hlower, h.element i hi]
        -- The others are as near to the ends as they were.
        by_cases hend : i < k ∨ last - i < k
        · rw [if_pos hend, if_pos (by omega)]
        · rw [if_neg hend, if_neg (by omega)]
  · exact SameOutside.trans _ _ _ _ _
      (SameOutside.trans _ _ _ _ _ h.outside
        (element_outside arr last hlast k _ m (by omega)))
      (element_outside arr last hlast (last - k) _ _ (by omega))

omit hlast in
/-- The address the code computes from an index. -/
theorem element_address (i : Nat) : BitVec.ofNat 32 i * 4 = BitVec.ofNat 32 (4 * i) := by
  rw [Nat.mul_comm, BitVec.ofNat_mul]
  rfl

/-- The indices are compared as integers. -/
theorem bounds_slt_iff (k : Nat) (hk : k ≤ last) :
    (BitVec.ofNat 32 k).slt (BitVec.ofNat 32 last - BitVec.ofNat 32 k) = true ↔ 2 * k < last := by
  have hstart : (BitVec.ofNat 32 k).toNat = k := by bv_omega
  have hend : (BitVec.ofNat 32 last - BitVec.ofNat 32 k).toNat = last - k := by bv_omega
  rw [BitVec.slt_iff_toInt_lt, BitVec.toInt_eq_toNat_cond, BitVec.toInt_eq_toNat_cond, hstart, hend,
    if_pos (by omega), if_pos (by omega)]
  omega

/-- The rounds left from any of them. -/
theorem invert_loop (k : Nat) (m : Mem) (hk : k ≤ last) (h : Inverted m0 arr last k m)
    (fuel : Nat) (hfuel : last < k + fuel) :
    ∃ m', runLoop (tmemcpydInvTurn arr) fuel
        (BitVec.ofNat 32 k, BitVec.ofNat 32 last - BitVec.ofNat 32 k, m) = some m' ∧
      ∃ k', last ≤ 2 * k' ∧ Inverted m0 arr last k' m' := by
  induction fuel generalizing k m with
  | zero => omega
  | succ fuel ih =>
      by_cases hgo : 2 * k < last
      · have hupper : BitVec.ofNat 32 last - BitVec.ofNat 32 k = BitVec.ofNat 32 (last - k) := by
          bv_omega
        have hnext : BitVec.ofNat 32 last - BitVec.ofNat 32 k - 1
            = BitVec.ofNat 32 last - BitVec.ofNat 32 (k + 1) := by
          rw [BitVec.ofNat_add, BitVec.sub_sub]
          rfl
        have hstep := inverted_step m0 arr last hlast k m hgo h
        rcases ih (k + 1) _ (by omega) hstep (by omega) with ⟨m', hrun, hm'⟩
        rw [← hnext, BitVec.ofNat_add] at hrun
        refine ⟨m', ?_, hm'⟩
        rw [← hrun]
        refine runLoop_again (tmemcpydInvTurn arr) _ _ _ ?_
        rw [tmemcpydInvTurn, if_pos ((bounds_slt_iff last hlast k hk).mpr hgo)]
        simp only [hupper, element_address]
        rfl
      · refine ⟨m, runLoop_exit _ _ _ _ ?_, k, by omega, h⟩
        rw [tmemcpydInvTurn, if_neg (fun hc => hgo ((bounds_slt_iff last hlast k hk).mp hc))]

omit hlast in
/-- When the indices have met, every element is the one from the other end. -/
theorem element_of_inverted (k : Nat) (m : Mem) (hk : last ≤ 2 * k)
    (h : Inverted m0 arr last k m) (i : Nat) (hi : i ≤ last) :
    m.dword arr i = m0.dword arr (last - i) := by
  rw [h.element i hi]
  by_cases hend : i < k ∨ last - i < k
  · rw [if_pos hend]
  · rw [if_neg hend]
    congr 1
    omega

end Invert

/-- The function returns. The elements up to the one at the count have been
    reversed, and nothing else has changed. -/
theorem tmemcpydInv_spec (m : Mem) (arr n : Word) (hn : 4 * n.toNat ≤ 2 ^ 32) :
    ∃ m', tmemcpydInv m arr n = some m' ∧
      (∀ i ≤ n.toNat, m'.dword arr i = m.dword arr (n.toNat - i)) ∧
      SameOutside arr (4 * (n.toNat + 1)) m m' := by
  have hstart : Inverted m arr n.toNat 0 m :=
    ⟨fun i hi => by rw [if_neg (by omega)], SameOutside.refl _ _ _⟩
  rcases invert_loop m arr n.toNat (by omega) 0 m (Nat.zero_le _) hstart (turnBound + 1)
    (by unfold turnBound; omega) with ⟨m', hrun, k, hk, hinverted⟩
  refine ⟨m', ?_, element_of_inverted m arr n.toNat k m' hk hinverted, hinverted.outside⟩
  rw [BitVec.ofNat_toNat, BitVec.setWidth_eq, BitVec.sub_zero] at hrun
  exact hrun

/-! ### What it reverses -/

/-- `tmemcpyd_inv` reverses the `n` elements, changes nothing else, and undoes
    itself. -/
def Reverses (m : Mem) (arr n : Word) : Prop :=
  ∃ m', tmemcpydInv m arr n = some m' ∧
    (∀ i < n.toNat, m'.dword arr i = m.dword arr (n.toNat - 1 - i)) ∧
    SameOutside arr (4 * n.toNat) m m' ∧ tmemcpydInv m' arr n = some m

/-- Neighbours that are the same make all elements the same. -/
theorem dword_eq_first (m : Mem) (arr : Word) (n : Nat)
    (h : ∀ i < n, m.dword arr (i + 1) = m.dword arr i) (i : Nat) (hi : i ≤ n) :
    m.dword arr i = m.dword arr 0 := by
  induction i with
  | zero => rfl
  | succ i ih => rw [h i (by omega), ih (by omega)]

/-- The array is reversed in place exactly if no two neighbours among its
    elements and the one after them differ. -/
theorem reverses_iff (m : Mem) (arr n : Word) (hn : 4 * n.toNat ≤ 2 ^ 32) :
    Reverses m arr n ↔ ∀ i < n.toNat, m.dword arr (i + 1) = m.dword arr i := by
  rcases tmemcpydInv_spec m arr n hn with ⟨m', hrun, hreversed, houtside⟩
  constructor
  · rintro ⟨m'', hrun', hwanted, _, _⟩ i hi
    rw [hrun, Option.some.injEq] at hrun'
    subst hrun'
    -- The element that goes to one place is both of the neighbours.
    have hboth := (hreversed (n.toNat - 1 - i) (by omega)).symm.trans
      (hwanted (n.toNat - 1 - i) (by omega))
    rw [show n.toNat - (n.toNat - 1 - i) = i + 1 by omega,
      show n.toNat - 1 - (n.toNat - 1 - i) = i by omega] at hboth
    exact hboth
  · intro hflat
    have hfirst := dword_eq_first m arr n.toNat hflat
    -- Reversing elements that are all the same changes nothing.
    have hsame : m' = m := by
      refine Mem.eq_of_dwords m m' arr (n.toNat + 1) (fun i hi => ?_) houtside
      rw [hreversed i (by omega), hfirst _ (by omega), hfirst i (by omega)]
    rw [hsame] at hrun
    exact ⟨m, hrun, fun i hi => (hfirst i (by omega)).trans (hfirst _ (by omega)).symm,
      SameOutside.refl _ _ _, hrun⟩

/-- Four zeros, with a zero behind them. -/
theorem reverses_iff_zeros : Reverses (fun _ => 0) 0x1000 4 :=
  (reverses_iff (fun _ => 0) 0x1000 4 (by decide)).mpr fun _ _ => rfl

/-- An array of one element, which is exchanged with what is behind it. -/
theorem one_element_moved :
    ¬ ∀ (m : Mem) (arr n : Word), n.toNat < 2 ^ 31 → 4 * n.toNat ≤ 2 ^ 32 → Reverses m arr n := by
  intro hall
  rcases hall (Mem.store32 (fun _ => 0) 0x1000 1) 0x1000 1 (by decide) (by decide) with
    ⟨m', hrun, hwanted, _, _⟩
  rcases tmemcpydInv_spec (Mem.store32 (fun _ => 0) 0x1000 1) 0x1000 1 (by decide) with
    ⟨m'', hrun', hreversed, _⟩
  rw [hrun, Option.some.injEq] at hrun'
  subst hrun'
  have hmoved := (hreversed 0 (by decide)).symm.trans (hwanted 0 (by decide))
  exact absurd hmoved (by decide)

end UnixP6
