import UnixP6.Core.Boot

/-!
# Dividing a Range into Frames and Bitmap Words

`calc_blocks_and_bitmaps` counts the number of frames down from the quotient
until frames and bitmap fit. From four bytes on it stops before zero, with no
more frames than the quotient. Below four bytes not even an empty bitmap fits,
the count passes zero, and the loop goes on through the upper half of the
32-bit range until the size it computes wraps to zero.

## Theorems

* `calc_total`: The loop ends for every size.
* `calc_inv`: The rule for the loop.
* `calc_le`: From four bytes on, the frames lie in the range.
* `calc_fits`: Short of the top of the address space, frames and bitmap fit.
* `calc_max`, `calc_most`: One frame more would not fit, nor would any more.
* `calc_turns`: On the way nothing wraps.
* `calc_optimal`: The division ends with the most frames that fit.
* `calc_small`: Below four bytes the result is the same whatever the size.
-/

namespace UnixP6

open CSemantics

/-- A number of frames whose size with the bitmap wraps to zero. -/
def wrappedBlocks : Word := 3222175715

theorem calcsize_wrappedBlocks : calcsize wrappedBlocks (wrappedBlocks / 32 + 1) = 0 := by decide

/-- The size of a count of frames with its bitmap, as the code computes it. -/
theorem toNat_calcsize_mod (blocks : Word) :
    (calcsize blocks (blocks / 32 + 1)).toNat
      = (4096 * blocks.toNat + 4 * (blocks.toNat / 32 + 1)) % 2 ^ 32 := by
  have hbits : (32 : Word).toNat = 32 := rfl
  have hframe : (4096 : Word).toNat = 4096 := rfl
  have hword : (4 : Word).toNat = 4 := rfl
  have hone : (1 : Word).toNat = 1 := rfl
  unfold calcsize
  rw [BitVec.toNat_add, BitVec.toNat_mul, BitVec.toNat_mul, BitVec.toNat_add, BitVec.toNat_udiv,
    hbits, hframe, hword, hone]
  omega

/-- Short of the top of the address space it does not wrap. -/
theorem toNat_calcsize (blocks : Word) (h : blocks.toNat ≤ (2 ^ 32 - 2 ^ 20) / 4096) :
    (calcsize blocks (blocks / 32 + 1)).toNat
      = 4096 * blocks.toNat + 4 * (blocks.toNat / 32 + 1) := by
  rw [toNat_calcsize_mod]
  exact Nat.mod_eq_of_lt (by omega)

/-- The loop ends for every size: a count that does not fit comes down, past
    zero if need be, to one whose size wraps to zero. -/
theorem calc_total (size : Word) :
    ∃ blocks, calcBlocksAndBitmaps size = some (blocks, blocks / 32 + 1) := by
  rcases runLoop_total (calcTurn size) (fun s => s.2 = s.1 / 32 + 1)
    (fun s => (s.1 - wrappedBlocks).toNat) (fun r => r.2 = r.1 / 32 + 1)
    (fun s hs => by
      by_cases hfit : calcsize s.1 s.2 ≤ size
      · exact Or.inl ⟨s, if_pos hfit, hs⟩
      · refine Or.inr ⟨(s.1 - 1, (s.1 - 1) / 32 + 1), if_neg hfit, rfl, ?_⟩
        -- At the wrapped count the size is zero, which fits: the distance to it is the variant.
        have hne : s.1 ≠ wrappedBlocks := by
          intro heq
          rw [hs, heq, calcsize_wrappedBlocks] at hfit
          exact hfit (BitVec.le_def.mpr (Nat.zero_le size.toNat))
        unfold wrappedBlocks at hne ⊢
        bv_omega)
    (turnBound + 1) (size / 4096, size / 4096 / 32 + 1) rfl
    (by unfold turnBound; bv_omega) with ⟨r, hrun, hr⟩
  exact ⟨r.1, by rw [calcBlocksAndBitmaps, hrun, ← hr]⟩

theorem calcTurn_exit (size : Word) (s r : Word × Word) (h : calcTurn size s = some (.exit r)) :
    calcsize s.1 s.2 ≤ size ∧ r = s := by
  unfold calcTurn at h
  by_cases hfit : calcsize s.1 s.2 ≤ size
  · rw [if_pos hfit, Option.some.injEq, Turn.exit.injEq] at h
    exact ⟨hfit, h.symm⟩
  · rw [if_neg hfit] at h
    simp only [Option.some.injEq, reduceCtorEq] at h

theorem calcTurn_again (size : Word) (s s' : Word × Word) (h : calcTurn size s = some (.again s')) :
    ¬ calcsize s.1 s.2 ≤ size ∧ s' = (s.1 - 1, (s.1 - 1) / 32 + 1) := by
  unfold calcTurn at h
  by_cases hfit : calcsize s.1 s.2 ≤ size
  · rw [if_pos hfit] at h
    simp only [Option.some.injEq, reduceCtorEq] at h
  · rw [if_neg hfit, Option.some.injEq, Turn.again.injEq] at h
    exact ⟨hfit, h.symm⟩

/-- The rule for the loop: what holds of the quotient and of one count less than
    any that does not fit holds of the count it ends with, which fits. -/
theorem calc_inv (size : Word) (Inv : Word → Prop) (hstart : Inv (size / 4096))
    (hdown : ∀ b, Inv b → ¬ calcsize b (b / 32 + 1) ≤ size → Inv (b - 1))
    (blocks bitmaps : Word) (h : calcBlocksAndBitmaps size = some (blocks, bitmaps)) :
    bitmaps = blocks / 32 + 1 ∧ Inv blocks ∧ calcsize blocks bitmaps ≤ size := by
  refine runLoop_inv (calcTurn size) (fun s => s.2 = s.1 / 32 + 1 ∧ Inv s.1)
    (fun r => r.2 = r.1 / 32 + 1 ∧ Inv r.1 ∧ calcsize r.1 r.2 ≤ size)
    (fun s r hs hturn => ?_) (fun s s' hs hturn => ?_) (turnBound + 1) _ _ ⟨rfl, hstart⟩ h
  · rcases calcTurn_exit size s r hturn with ⟨hfit, rfl⟩
    exact ⟨hs.1, hs.2, hfit⟩
  · rcases calcTurn_again size s s' hturn with ⟨hfit, rfl⟩
    rw [hs.1] at hfit
    exact ⟨rfl, hdown s.1 hs.2 hfit⟩

theorem toNat_quotient (size : Word) : (size / 4096).toNat = size.toNat / 4096 := by
  rw [BitVec.toNat_udiv]
  rfl

/-- What the loop keeps from four bytes on: the count has not passed zero. -/
theorem calc_spec (size : Word) (hsize : 4 ≤ size.toNat) (blocks bitmaps : Word)
    (h : calcBlocksAndBitmaps size = some (blocks, bitmaps)) :
    bitmaps = blocks / 32 + 1 ∧ blocks.toNat ≤ size.toNat / 4096 ∧
      calcsize blocks bitmaps ≤ size := by
  refine calc_inv size (fun b => b.toNat ≤ size.toNat / 4096)
    (Nat.le_of_eq (toNat_quotient size)) (fun b hle hfit => ?_) blocks bitmaps h
  -- With no frames at all an empty bitmap word fits, so the count is not zero.
  have hne : b ≠ 0 := by
    intro hzero
    rw [hzero] at hfit
    refine hfit ?_
    rw [BitVec.le_def]
    exact hsize
  bv_omega

/-- From four bytes on, the frames lie in the range. -/
theorem calc_le (size : Word) (hsize : 4 ≤ size.toNat) (blocks bitmaps : Word)
    (h : calcBlocksAndBitmaps size = some (blocks, bitmaps)) : 4096 * blocks.toNat ≤ size.toNat := by
  have hle := (calc_spec size hsize blocks bitmaps h).2.1
  omega

/-- Short of the top of the address space, frames and bitmap fit in the range as
    numbers. -/
theorem calc_fits (size : Word) (hsize : 4 ≤ size.toNat) (htop : size.toNat ≤ 2 ^ 32 - 2 ^ 20)
    (blocks bitmaps : Word) (h : calcBlocksAndBitmaps size = some (blocks, bitmaps)) :
    4096 * blocks.toNat + 4 * (blocks.toNat / 32 + 1) ≤ size.toNat := by
  rcases calc_spec size hsize blocks bitmaps h with ⟨hbitmaps, hle, hfit⟩
  rw [BitVec.le_def, hbitmaps, toNat_calcsize blocks (by omega)] at hfit
  exact hfit

/-- One frame more would not fit: the loop passed it over, or it was more than
    the quotient. -/
theorem calc_max (size : Word) (hsize : 4 ≤ size.toNat) (htop : size.toNat ≤ 2 ^ 32 - 2 ^ 20)
    (blocks bitmaps : Word) (h : calcBlocksAndBitmaps size = some (blocks, bitmaps)) :
    size.toNat < 4096 * (blocks.toNat + 1) + 4 * ((blocks.toNat + 1) / 32 + 1) := by
  -- What the loop keeps: the count one higher than the current one does not fit.
  refine (calc_inv size (fun b => b.toNat ≤ size.toNat / 4096 ∧
      size.toNat < 4096 * (b.toNat + 1) + 4 * ((b.toNat + 1) / 32 + 1))
    ⟨Nat.le_of_eq (toNat_quotient size), by rw [toNat_quotient]; omega⟩ (fun b hb hfit => ?_)
    blocks bitmaps h).2.1.2
  rcases hb with ⟨hle, _⟩
  rw [BitVec.le_def, toNat_calcsize b (by omega)] at hfit
  have hpos : 0 < b.toNat := by omega
  have hdown : (b - 1).toNat = b.toNat - 1 := by bv_omega
  rw [hdown, Nat.sub_add_cancel hpos]
  exact ⟨by omega, by omega⟩

/-- More frames take more room. -/
theorem room_mono (n m : Nat) (h : n ≤ m) :
    4096 * n + 4 * (n / 32 + 1) ≤ 4096 * m + 4 * (m / 32 + 1) := by
  have hdiv := Nat.div_le_div_right (c := 32) h
  omega

/-- What does not fit for one frame more does not fit for any more. -/
theorem calc_most (size : Word) (hsize : 4 ≤ size.toNat) (htop : size.toNat ≤ 2 ^ 32 - 2 ^ 20)
    (blocks bitmaps : Word) (h : calcBlocksAndBitmaps size = some (blocks, bitmaps)) (n : Nat)
    (hn : 4096 * n + 4 * (n / 32 + 1) ≤ size.toNat) : n ≤ blocks.toNat := by
  by_contra hlt
  have hmax := calc_max size hsize htop blocks bitmaps h
  have hmono := room_mono (blocks.toNat + 1) n (by omega)
  omega

/-- Short of the top of the address space, every state of the loop from four
    bytes on has a size that does not wrap, and a count that is above zero
    whenever it comes down. -/
theorem calc_turns (size : Word) (hsize : 4 ≤ size.toNat) (htop : size.toNat ≤ 2 ^ 32 - 2 ^ 20)
    (n : Nat) (s : Word × Word)
    (h : turnsFor (calcTurn size) n (size / 4096, size / 4096 / 32 + 1) = some s) :
    s.2.toNat = s.1.toNat / 32 + 1 ∧ 4096 * s.1.toNat + 4 * s.2.toNat < 2 ^ 32 ∧
      (¬ calcsize s.1 s.2 ≤ size → 0 < s.1.toNat) := by
  have hbound : ∀ b : Word, b.toNat ≤ size.toNat / 4096 →
      (b / 32 + 1).toNat = b.toNat / 32 + 1 ∧
        4096 * b.toNat + 4 * (b.toNat / 32 + 1) < 2 ^ 32 := by
    intro b hb
    have hbits : (b / 32).toNat = b.toNat / 32 := BitVec.toNat_udiv
    refine ⟨?_, by omega⟩
    rw [BitVec.toNat_add, hbits, show (1 : Word).toNat = 1 from rfl]
    omega
  have hpos : ∀ b : Word, ¬ calcsize b (b / 32 + 1) ≤ size → 0 < b.toNat := by
    intro b hfit
    by_contra hc
    have hzero : b = 0 := BitVec.eq_of_toNat_eq (Nat.eq_zero_of_not_pos hc)
    -- With no frames at all an empty bitmap word fits.
    rw [hzero] at hfit
    exact hfit (BitVec.le_def.mpr hsize)
  have hinv := turnsFor_inv (calcTurn size)
    (fun s => s.2 = s.1 / 32 + 1 ∧ s.1.toNat ≤ size.toNat / 4096)
    (fun s s' hs hturn => by
      rcases calcTurn_again size s s' hturn with ⟨hfit, rfl⟩
      rw [hs.1] at hfit
      have habove := hpos s.1 hfit
      have hle := hs.2
      exact ⟨rfl, by bv_omega⟩)
    n _ s ⟨rfl, Nat.le_of_eq (toNat_quotient size)⟩ h
  rcases hinv with ⟨hs, hle⟩
  rcases hbound s.1 hle with ⟨hbitmaps, hwrap⟩
  rw [hs, hbitmaps]
  exact ⟨rfl, hwrap, hpos s.1⟩

/-- From four bytes on and short of the top of the address space, the division
    ends with the most frames that fit together with their bitmap, and nothing
    wraps on the way. -/
theorem calc_optimal (size : Word) (hsize : 4 ≤ size.toNat)
    (htop : size.toNat ≤ 2 ^ 32 - 2 ^ 20) :
    ∃ blocks bitmaps, calcBlocksAndBitmaps size = some (blocks, bitmaps) ∧
      bitmaps.toNat = blocks.toNat / 32 + 1 ∧
      4096 * blocks.toNat + 4 * (blocks.toNat / 32 + 1) ≤ size.toNat ∧
      (∀ n, 4096 * n + 4 * (n / 32 + 1) ≤ size.toNat → n ≤ blocks.toNat) ∧
      ∀ n s, turnsFor (calcTurn size) n (size / 4096, size / 4096 / 32 + 1) = some s →
        s.2.toNat = s.1.toNat / 32 + 1 ∧ 4096 * s.1.toNat + 4 * s.2.toNat < 2 ^ 32 ∧
          (¬ calcsize s.1 s.2 ≤ size → 0 < s.1.toNat) := by
  rcases calc_total size with ⟨blocks, hcalc⟩
  have hle := calc_le size hsize blocks _ hcalc
  refine ⟨blocks, _, hcalc, ?_, calc_fits size hsize htop blocks _ hcalc,
    calc_most size hsize htop blocks _ hcalc, calc_turns size hsize htop⟩
  have hbits : (blocks / 32).toNat = blocks.toNat / 32 := BitVec.toNat_udiv
  rw [BitVec.toNat_add, hbits, show (1 : Word).toNat = 1 from rfl]
  omega

theorem calc_optimal_megabyte :
    ∃ blocks bitmaps, calcBlocksAndBitmaps 0x100000 = some (blocks, bitmaps) ∧
      bitmaps.toNat = blocks.toNat / 32 + 1 ∧ blocks.toNat = 255 := by
  rcases calc_optimal 0x100000 (by decide) (by decide) with
    ⟨blocks, bitmaps, hcalc, hbitmaps, hfits, hmax, _⟩
  have hsize : (0x100000 : Word).toNat = 0x100000 := rfl
  rw [hsize] at hfits hmax
  have hlow := hmax 255 (by decide)
  exact ⟨blocks, bitmaps, hcalc, hbitmaps, by omega⟩

/-- A size that wraps to zero belongs to no larger count. -/
theorem le_of_calcsize_zero (b : Nat) (hb : b < 2 ^ 32)
    (h : (4096 * b + 4 * (b / 32 + 1)) % 2 ^ 32 = 0) : b ≤ 3222175715 := by
  -- The count is `32 * q + r`; the low bits of the size make `q` one less than
  -- a multiple `1024 * t`, and then `t` one less than `32 - r` past `32768 * v`.
  have hq : (b / 32 + 1) % 1024 = 0 := by omega
  have ht : (b + (b / 32 + 1) / 1024) % 2 ^ 20 = 0 := by omega
  generalize hr : b % 32 = r at *
  generalize hteq : (b / 32 + 1) / 1024 = t at *
  have hb' : b + 32 = 32768 * t + r := by omega
  have htr : (t + r) % 32768 = 32 := by omega
  generalize hv : (t + r) / 32768 = v at *
  have hteq' : t + r = 32768 * v + 32 := by omega
  have hvr : (t + v) % 32 = 0 := by omega
  have hsame : v = r := by omega
  omega

/-- Below four bytes the count passes zero and stops where the size wraps. -/
theorem calc_small (size : Word) (hsize : size.toNat < 4) :
    calcBlocksAndBitmaps size = some (wrappedBlocks, wrappedBlocks / 32 + 1) := by
  rcases calc_total size with ⟨blocks, hcalc⟩
  have hquot : size / 4096 = 0 := by
    refine BitVec.eq_of_toNat_eq ?_
    rw [toNat_quotient]
    exact Nat.div_eq_of_lt (by omega)
  rcases calc_inv size (fun b => b = 0 ∨ wrappedBlocks ≤ b) (Or.inl hquot)
    (fun b hb hfit => Or.inr (by
      rcases hb with rfl | hge
      · exact BitVec.le_of_lt (by decide)
      · have hne : b ≠ wrappedBlocks := by
          intro heq
          rw [heq, calcsize_wrappedBlocks] at hfit
          exact hfit (BitVec.le_def.mpr (Nat.zero_le size.toNat))
        unfold wrappedBlocks at hge hne ⊢
        bv_omega)) blocks _ hcalc with ⟨_, hb, hfit⟩
  rw [BitVec.le_def, toNat_calcsize_mod] at hfit
  have hres : blocks = wrappedBlocks := by
    rcases hb with hzero | hge
    · -- A count of zero takes four bytes, which are not there.
      rw [hzero] at hfit
      exact absurd (hfit.trans_lt hsize) (by decide)
    · have hle := le_of_calcsize_zero blocks.toNat blocks.isLt (by omega)
      have hwrapped : wrappedBlocks.toNat = 3222175715 := rfl
      rw [BitVec.le_def, hwrapped] at hge
      exact BitVec.eq_of_toNat_eq (Nat.le_antisymm hle hge)
  rw [hcalc, hres]

end UnixP6
