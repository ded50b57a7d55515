import UnixP6.CSemantics.Arrays
import UnixP6.Theory.Tools.Words

/-!
# Copying Words and Double Words

`tmemcpyw` and `tmemcpyd` are one loop over elements of two sizes, but for the
index: it has 32 bits in the one that copies double words and 16 in the one
that copies words, and the count has 32 in both. Past 65535 words the index
comes round to zero before it gets to the count, and the loop goes on for ever,
whatever is in memory.

Up to there, and for any number of double words, a copy to anywhere but inside
the source is exact.

## Main definitions

* `DwordsFrom`: The first double words of a range, each with a given value.
* `CopiesWords`: `tmemcpyw`, given as many turns as it takes.

## Theorems

* `tmemcpyd_spec`: Any copy of double words is exact.
* `tmemcpyw_never`: A copy of too many words does not return.
* `copies_iff`: The counts for which `tmemcpyw` does what `tmemcpyd` does.
-/

namespace UnixP6

open CSemantics

/-- The first `k` double words from the address on have the given values, and
    only they differ from the memory before. -/
structure DwordsFrom (m m' : Mem) (a : Word) (k : Nat) (value : Nat → Word) : Prop where
  same : ∀ i < k, m'.dword a i = value i
  outside : SameOutside a (4 * k) m m'

theorem DwordsFrom.zero (m : Mem) (a : Word) (value : Nat → Word) : DwordsFrom m m a 0 value :=
  ⟨fun _ hi => absurd hi (Nat.not_lt_zero _), SameOutside.refl a _ m⟩

/-- Storing the next double word. -/
theorem DwordsFrom.succ (m m' : Mem) (a : Word) (k : Nat) (value : Nat → Word)
    (h : DwordsFrom m m' a k value) (hk : 4 * (k + 1) ≤ 2 ^ 32) :
    DwordsFrom m (m'.store32 (a + BitVec.ofNat 32 (4 * k)) (value k)) a (k + 1) value := by
  constructor
  · intro i hi
    unfold Mem.dword
    by_cases hlast : i = k
    · rw [hlast, Mem.load32_store32_same]
    · rw [Mem.load32_store32_apart _ _ _ _ ⟨by bv_omega, by bv_omega⟩]
      exact h.same i (by omega)
  · intro x hx
    have hfar : Far (a + BitVec.ofNat 32 (4 * k)) 4 x := by
      unfold Far at hx ⊢
      bv_omega
    rw [Mem.store32_far _ _ _ _ hfar]
    refine h.outside x ?_
    unfold Far at hx ⊢
    omega

/-- A range copied onto itself stays as it is. -/
theorem tmemcpyd_self (m : Mem) (a n : Word) : tmemcpyd m a a n = m := by
  have hfold : ∀ k : Nat, k.fold (fun i _ m => Mem.store32 m (a + BitVec.ofNat 32 (4 * i))
      (Mem.load32 m (a + BitVec.ofNat 32 (4 * i)))) m = m := by
    intro k
    induction k with
    | zero => rfl
    | succ k ih => rw [Nat.fold_succ, ih, Mem.store32_load32_self]
  exact hfold n.toNat

/-- Every double word of the range takes the value and nothing else changes. -/
theorem tmemsetd_spec (m : Mem) (ptr n size : Word) (hsize : 4 * size.toNat ≤ 2 ^ 32) :
    DwordsFrom m (tmemsetd m ptr n size) ptr size.toNat (fun _ => n) := by
  have hfold : ∀ k, 4 * k ≤ 2 ^ 32 → DwordsFrom m
      (k.fold (fun i _ m => Mem.store32 m (ptr + BitVec.ofNat 32 (4 * i)) n) m) ptr k
      (fun _ => n) := by
    intro k
    induction k with
    | zero => exact fun _ => DwordsFrom.zero m ptr _
    | succ k ih =>
        intro hk
        rw [Nat.fold_succ]
        exact (ih (by omega)).succ _ _ _ _ _ hk
  exact hfold size.toNat hsize

/-- A copy of double words to anywhere but inside the source is exact. -/
theorem tmemcpyd_spec (m : Mem) (dest src n : Word)
    (hinside : ¬ (0 < (dest - src).toNat ∧ (dest - src).toNat < 4 * n.toNat)) :
    DwordsFrom m (tmemcpyd m dest src n) dest n.toNat (m.dword src) := by
  by_cases hsame : dest = src
  · rw [hsame, tmemcpyd_self]
    exact ⟨fun _ _ => rfl, SameOutside.refl src _ m⟩
  · -- The destination ends before the source comes round to it.
    have hapart : (src - dest).toNat + 4 * n.toNat ≤ 2 ^ 32 := by bv_omega
    have hfold : ∀ k ≤ n.toNat, DwordsFrom m
        (k.fold (fun i _ m => Mem.store32 m (dest + BitVec.ofNat 32 (4 * i))
          (Mem.load32 m (src + BitVec.ofNat 32 (4 * i)))) m) dest k (m.dword src) := by
      intro k
      induction k with
      | zero => exact fun _ => DwordsFrom.zero m dest _
      | succ k ih =>
          intro hk
          have hcopied := ih (by omega)
          -- The double word to be read has not been written yet.
          have hsource : Mem.load32 _ (src + BitVec.ofNat 32 (4 * k)) = m.dword src k :=
            Mem.load32_sameOutside m _ dest _ (4 * k) hcopied.outside
              ⟨by bv_omega, by bv_omega⟩
          rw [Nat.fold_succ, hsource]
          exact hcopied.succ _ _ _ _ _ (by omega)
    exact hfold n.toNat (Nat.le_refl _)

/-! ### The index of sixteen bits -/

/-- `tmemcpyw`, given as many turns as it takes, leaves the memory. -/
def CopiesWords (m : Mem) (dest src n : Word) (m' : Mem) : Prop :=
  ∃ turns, runLoop (tmemcpywTurn dest src n) turns (0, m) = some m'

/-- The turns `tmemcpyw` is given are enough, as only the index decides. -/
theorem tmemcpyw_eq_some_iff (m : Mem) (dest src n : Word) (m' : Mem) :
    tmemcpyw m dest src n = some m' ↔ CopiesWords m dest src n m' := by
  constructor
  · exact fun h => ⟨65537, h⟩
  · rintro ⟨turns, hrun⟩
    have hindices : ∀ (s s' t : Half × Mem), s.1.toFin = t.1.toFin →
        tmemcpywTurn dest src n s = some (.again s') →
        ∃ t', tmemcpywTurn dest src n t = some (.again t') ∧ s'.1.toFin = t'.1.toFin := by
      intro s s' t hst hagain
      have hindex : s.1 = t.1 := BitVec.toFin_inj.mp hst
      unfold tmemcpywTurn at hagain ⊢
      rw [hindex] at hagain
      by_cases hgo : t.1.toNat < n.toNat
      · rw [if_pos hgo, Option.some.injEq, Turn.again.injEq] at hagain
        rw [if_pos hgo, ← hagain]
        exact ⟨_, rfl, rfl⟩
      · rw [if_neg hgo] at hagain
        simp only [Option.some.injEq, reduceCtorEq] at hagain
    have hshort := runLoop_of_control (fun s : Half × Mem => s.1.toFin) (tmemcpywTurn dest src n)
      hindices turns (0, m) m' hrun
    rw [Fintype.card_fin] at hshort
    exact runLoop_mono _ (2 ^ 16) 65537 _ _ (by omega) hshort

/-- A count the index never gets to. -/
theorem tmemcpyw_never (dest src n : Word) (hn : 65536 ≤ n.toNat) (turns : Nat) :
    ∀ s, runLoop (tmemcpywTurn dest src n) turns s = none := by
  induction turns with
  | zero => exact fun _ => rfl
  | succ turns ih =>
      intro s
      have hgo : s.1.toNat < n.toNat := by
        have hindex := s.1.isLt
        omega
      exact (runLoop_again (tmemcpywTurn dest src n) turns s _ (if_pos hgo)).trans (ih _)

theorem not_copiesWords (m : Mem) (dest src n : Word) (hn : 65536 ≤ n.toNat) (m' : Mem) :
    ¬ CopiesWords m dest src n m' := by
  rintro ⟨turns, hrun⟩
  rw [tmemcpyw_never dest src n hn] at hrun
  exact absurd hrun (Option.some_ne_none m').symm

/-- To anywhere but inside the source, `tmemcpyw` returns with an exact copy
    exactly if the index can get to the count, and `tmemcpyd` always does. -/
theorem copies_iff (m : Mem) (dest src n : Word)
    (hinside : ¬ (0 < (dest - src).toNat ∧ (dest - src).toNat < 2 * n.toNat)) :
    ((∃ m', CopiesWords m dest src n m' ∧
        WordsFrom m m' dest n.toNat (fun i => m.load16 (src + BitVec.ofNat 32 (2 * i)))) ↔
      n.toNat < 65536) ∧
    (¬ (0 < (dest - src).toNat ∧ (dest - src).toNat < 4 * n.toNat) →
      DwordsFrom m (tmemcpyd m dest src n) dest n.toNat (m.dword src)) := by
  refine ⟨⟨?_, fun hn => ?_⟩, tmemcpyd_spec m dest src n⟩
  · rintro ⟨m', hcopies, _⟩
    by_contra hlong
    exact not_copiesWords m dest src n (Nat.le_of_not_lt hlong) m' hcopies
  · have hapart : (src - dest).toNat + 2 * n.toNat ≤ 2 ^ 32 := by bv_omega
    rcases tmemcpyw_spec m dest src n hn hapart with ⟨m', hcopy, hwords⟩
    exact ⟨m', (tmemcpyw_eq_some_iff m dest src n m').mp hcopy, hwords⟩

/-- The rows that a scroll of the screen moves, which are written over their own
    source from below, in memory where every byte is its own address. -/
theorem copies_iff_rows :
    ∃ m', CopiesWords (fun x => x.setWidth 8) 0xB8000 0xB80A0 1920 m' ∧
      WordsFrom (fun x => x.setWidth 8) m' 0xB8000 1920
        (fun i => Mem.load16 (fun x => x.setWidth 8) (0xB80A0 + BitVec.ofNat 32 (2 * i))) :=
  (copies_iff (fun x => x.setWidth 8) 0xB8000 0xB80A0 1920 (by decide)).1.mpr (by decide)

/-- A copy of 65536 words, even onto themselves, does not return. -/
theorem copy_never :
    ¬ ∀ (m : Mem) (dest src n : Word),
      ¬ (0 < (dest - src).toNat ∧ (dest - src).toNat < 2 * n.toNat) →
      ∃ m', CopiesWords m dest src n m' ∧
        WordsFrom m m' dest n.toNat (fun i => m.load16 (src + BitVec.ofNat 32 (2 * i))) := by
  intro hall
  rcases hall (fun _ => 0) 0 0 65536 (by decide) with ⟨m', hcopies, _⟩
  exact not_copiesWords (fun _ => 0) 0 0 65536 (by decide) m' hcopies

end UnixP6
