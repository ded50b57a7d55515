import Mathlib.Data.BitVec

/-!
# Runs of Bits

Bitmaps as C code walks them: a mask with one bit set, moved up by a shift, and
the tests, sets and clears made through it. `setRun` and `clearRun` are the two
loops that write a run of bits, and their lemmas say which bits of the word come
out set. The mask may run off the top of the word, in which case it is zero and
the remaining turns write nothing.

## Main definitions

* `testMask`: A word has a bit in common with a mask.
* `setRun`, `clearRun`: Writing successive bits from a mask up.
* `RunClear`: A number of successive bits are all clear.

## Theorems

* `testMask_twoPow`: Testing through a one-bit mask reads that bit.
* `getLsbD_setRun`, `getLsbD_clearRun`: The bits after a run is written.
* `toNat_and_seven`, `toNat_and_not_seven`: Masks that round to eight.
-/

namespace CSemantics

open BitVec

variable {w : Nat}

/-- A word has a bit in common with a mask. -/
def testMask (x mask : BitVec w) : Bool := x &&& mask != 0

/-- Set successive bits, from the mask up. -/
def setRun (x mask : BitVec w) : Nat → BitVec w
  | 0 => x
  | k + 1 => setRun (x ||| mask) (mask <<< 1) k

/-- Clear successive bits, from the mask up. -/
def clearRun (x mask : BitVec w) : Nat → BitVec w
  | 0 => x
  | k + 1 => clearRun (x &&& ~~~mask) (mask <<< 1) k

/-- The `k` bits from bit `s` on are all clear. -/
def RunClear (x : BitVec w) (s k : Nat) : Prop :=
  ∀ i < k, x.getLsbD (s + i) = false

theorem twoPow_shiftLeft_one (s : Nat) : twoPow w s <<< 1 = twoPow w (s + 1) := by
  rw [twoPow_eq, twoPow_eq, shiftLeft_add]

/-- A mask with one bit reads that bit. -/
theorem testMask_twoPow (x : BitVec w) (s : Nat) (hs : s < w) :
    testMask x (twoPow w s) = x.getLsbD s := by
  -- The mask has not run off the top.
  have hone : twoPow w s ≠ 0 := by
    intro hzero
    have hbit := getLsbD_twoPow (w := w) s s
    rw [hzero] at hbit
    simp only [ofNat_eq_ofNat, getLsbD_zero, hs, decide_true, Bool.and_self, Bool.false_eq_true]
      at hbit
  rw [testMask, and_twoPow]
  cases x.getLsbD s with
  | true => simpa only [if_true, bne_iff_ne] using hone
  | false => rfl

/-- The bits after a run has been set. -/
theorem getLsbD_setRun (k : Nat) :
    ∀ (x : BitVec w) (s b : Nat),
      (setRun x (twoPow w s) k).getLsbD b
        = (x.getLsbD b || decide (s ≤ b ∧ b < s + k ∧ b < w)) := by
  induction k with
  | zero =>
      intro x s b
      have hno : ¬ (s ≤ b ∧ b < s + 0 ∧ b < w) := by omega
      rw [setRun, decide_eq_false hno, Bool.or_false]
  | succ k ih =>
      intro x s b
      rw [setRun, twoPow_shiftLeft_one, ih, getLsbD_or, getLsbD_twoPow, Bool.or_assoc]
      congr 1
      -- The new bit is `s`; the rest of the run starts one higher.
      rw [Bool.eq_iff_iff]
      simp only [Bool.or_eq_true, Bool.and_eq_true, decide_eq_true_eq]
      omega

/-- The bits after a run has been cleared. -/
theorem getLsbD_clearRun (k : Nat) :
    ∀ (x : BitVec w) (s b : Nat),
      (clearRun x (twoPow w s) k).getLsbD b
        = (x.getLsbD b && !decide (s ≤ b ∧ b < s + k ∧ b < w)) := by
  induction k with
  | zero =>
      intro x s b
      have hno : ¬ (s ≤ b ∧ b < s + 0 ∧ b < w) := by omega
      rw [clearRun, decide_eq_false hno, Bool.not_false, Bool.and_true]
  | succ k ih =>
      intro x s b
      by_cases hb : b < w
      · rw [clearRun, twoPow_shiftLeft_one, ih, getLsbD_and, getLsbD_not, getLsbD_twoPow,
          Bool.and_assoc]
        congr 1
        rw [Bool.eq_iff_iff]
        simp only [Bool.and_eq_true, Bool.not_eq_true', Bool.and_eq_false_iff,
          decide_eq_true_eq, decide_eq_false_iff_not]
        omega
      · -- Past the top of the word every bit reads as clear.
        have hout : ∀ y : BitVec w, y.getLsbD b = false :=
          fun y => getLsbD_of_ge y b (Nat.le_of_not_lt hb)
        rw [hout, hout, Bool.false_and]

/-- Keeping the low three bits of a word is the remainder by eight. -/
theorem toNat_and_seven (x : BitVec 32) : (x &&& 7).toNat = x.toNat % 8 := by
  rw [BitVec.toNat_and]
  exact Nat.and_two_pow_sub_one_eq_mod x.toNat 3

/-- Clearing the low three bits of a word rounds it down to eight. -/
theorem toNat_and_not_seven (x : BitVec 32) : (x &&& ~~~7).toNat = x.toNat / 8 * 8 := by
  -- The mask is all ones above its low three bits.
  have hmask : ∀ i : Fin 32, (~~~(7 : BitVec 32)).getLsbD i = decide (3 ≤ i.val) := by decide
  -- So it does what shifting the three bits out and zeros in does.
  have hshift : x &&& (~~~7 : BitVec 32) = (x >>> 3) <<< 3 := by
    ext i hi
    rw [← BitVec.getLsbD_eq_getElem, ← BitVec.getLsbD_eq_getElem, BitVec.getLsbD_and, hmask ⟨i, hi⟩,
      BitVec.getLsbD_shiftLeft, BitVec.getLsbD_ushiftRight]
    by_cases hlow : i < 3
    · simp only [hlow, hi, decide_eq_false (Nat.not_le.mpr hlow), Bool.and_false, decide_true,
        Bool.not_true, Bool.false_and]
    · simp only [hlow, hi, decide_eq_true (Nat.le_of_not_lt hlow), Bool.and_true, decide_true,
        decide_false, Bool.not_false, Bool.true_and, show 3 + (i - 3) = i by omega]
  rw [hshift, BitVec.toNat_shiftLeft, BitVec.toNat_ushiftRight, Nat.shiftLeft_eq,
    Nat.shiftRight_eq_div_pow]
  have hlt := x.isLt
  omega

end CSemantics
