import UnixP6.Core.Tools

/-!
# Filling and Copying Words

What the 16-bit fill and copy of `tools/t_mem.c` leave in memory: the words of
the destination, and everything outside it as it was.

The copy goes upwards, so it is exact unless the destination starts strictly
inside the source. Measured modulo `2^32` that is one bound on the distance
from destination to source, which covers ranges that wrap as well. Its index
has sixteen bits, so a count of 65536 or more is never reached.

## Main definitions

* `WordsFrom`: The first words of a range, each with a given value.

## Theorems

* `tmemsetw_spec`: Every word takes the value and nothing else changes.
* `tmemcpyw_spec`: A short enough copy returns and is exact.
-/

namespace UnixP6

open CSemantics

/-- The first `k` words from the address on have the given values, and only they
    differ from the memory before. -/
structure WordsFrom (m m' : Mem) (a : Word) (k : Nat) (value : Nat → Half) : Prop where
  same : ∀ i < k, m'.load16 (a + BitVec.ofNat 32 (2 * i)) = value i
  outside : SameOutside a (2 * k) m m'

theorem WordsFrom.zero (m : Mem) (a : Word) (value : Nat → Half) : WordsFrom m m a 0 value :=
  ⟨fun _ hi => absurd hi (Nat.not_lt_zero _), SameOutside.refl a _ m⟩

/-- Storing the next word. -/
theorem WordsFrom.succ (m m' : Mem) (a : Word) (k : Nat) (value : Nat → Half)
    (h : WordsFrom m m' a k value) (hk : 2 * (k + 1) ≤ 2 ^ 32) :
    WordsFrom m (m'.store16 (a + BitVec.ofNat 32 (2 * k)) (value k)) a (k + 1) value := by
  constructor
  · intro i hi
    by_cases hlast : i = k
    · rw [hlast, Mem.load16_store16_same]
    · -- The two words do not overlap, as the range does not wrap onto itself.
      rw [Mem.load16_store16_apart _ _ _ _ ⟨by bv_omega, by bv_omega⟩]
      exact h.same i (by omega)
  · intro x hx
    have hfar : Far (a + BitVec.ofNat 32 (2 * k)) 2 x := by
      unfold Far at hx ⊢
      bv_omega
    rw [Mem.store16_far _ _ _ _ hfar]
    refine h.outside x ?_
    unfold Far at hx ⊢
    omega

theorem wordsFrom_store16 (m : Mem) (a : Word) (v : Half) :
    WordsFrom m (m.store16 a v) a 1 (fun _ => v) := by
  have h := (WordsFrom.zero m a (fun _ => v)).succ m m a 0 _ (by omega)
  rw [Nat.mul_zero, BitVec.add_zero] at h
  exact h

/-- Every word of the range takes the value and nothing else changes. -/
theorem tmemsetw_spec (m : Mem) (ptr : Word) (n : Half) (size : Word)
    (hsize : 2 * size.toNat ≤ 2 ^ 32) :
    WordsFrom m (tmemsetw m ptr n size) ptr size.toNat (fun _ => n) := by
  have hfold : ∀ k, 2 * k ≤ 2 ^ 32 → WordsFrom m
      (k.fold (fun i _ m => Mem.store16 m (ptr + BitVec.ofNat 32 (2 * i)) n) m) ptr k
      (fun _ => n) := by
    intro k
    induction k with
    | zero => exact fun _ => WordsFrom.zero m ptr _
    | succ k ih =>
        intro hk
        rw [Nat.fold_succ]
        exact (ih (by omega)).succ _ _ _ _ _ hk
  exact hfold size.toNat hsize

/-- A copy of less than 65536 words to anywhere but inside the source returns,
    with the words the source had before. -/
theorem tmemcpyw_spec (m : Mem) (dest src n : Word) (hn : n.toNat < 65536)
    (hapart : (src - dest).toNat + 2 * n.toNat ≤ 2 ^ 32) :
    ∃ m', tmemcpyw m dest src n = some m' ∧
      WordsFrom m m' dest n.toNat (fun i => m.load16 (src + BitVec.ofNat 32 (2 * i))) := by
  -- The words copied so far; those still to come are above them in the source.
  refine runLoop_total (tmemcpywTurn dest src n)
    (fun s => s.1.toNat ≤ n.toNat ∧ WordsFrom m s.2 dest s.1.toNat
      (fun i => m.load16 (src + BitVec.ofNat 32 (2 * i))))
    (fun s => n.toNat - s.1.toNat) _ (fun s hs => ?_) 65537 (0, m)
    ⟨Nat.zero_le _, WordsFrom.zero m dest _⟩ (by simp only []; omega)
  rcases s with ⟨i, mem⟩
  rcases hs with ⟨hi, hwords⟩
  by_cases hlt : i.toNat < n.toNat
  · right
    -- The word to be read has not been written yet.
    have hsource : mem.load16 (src + BitVec.ofNat 32 (2 * i.toNat))
        = m.load16 (src + BitVec.ofNat 32 (2 * i.toNat)) := by
      refine Mem.load16_congr m mem _ (hwords.outside _ ?_) (hwords.outside _ ?_)
      · unfold Far
        bv_omega
      · unfold Far
        bv_omega
    -- The index does not wrap: it is below the count.
    have hnext : (i + 1).toNat = i.toNat + 1 := by bv_omega
    refine ⟨_, if_pos hlt, ?_, ?_⟩
    · simp only [hnext]
      refine ⟨hlt, ?_⟩
      rw [hsource]
      exact hwords.succ _ _ _ _ _ (by omega)
    · simp only [hnext]
      omega
  · left
    have hend : i.toNat = n.toNat := by
      simp only [] at hi
      omega
    refine ⟨mem, if_neg hlt, ?_⟩
    rw [← hend]
    exact hwords

end UnixP6
