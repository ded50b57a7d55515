import UnixP6.Core.Frames

/-!
# The Scan of One Word

What `scanBits` finds in a bitmap word. A run `Fits` when it starts at a
multiple of the alignment, stays in the word and is clear. As long as the mask
keeps up with the bit number the scan finds the lowest run that fits, for every
pattern of bits: a streak that breaks at a set bit has ruled out every start
up to that bit.

The mask keeps up until the scan skips an unaligned bit number, which it does
only after a set bit. `InStep` says that this never comes to matter, that is,
after every set bit met before a fit either the next bit is aligned or no later
aligned start leaves room for the run. Without alignment every word is in step.

## Main definitions

* `Fits`: An aligned run of clear bits within the word.
* `InStep`: The scan never tests a bit through a mask left behind.

## Theorems

* `inStep_one`: Without alignment every word is in step.
* `inStep_word`: Aligned to whole words, every word is in step.
* `scanBits_stuck`: Past the last aligned start the scan tests nothing.
* `scanBits_spec`: In step, the scan finds the lowest run that fits.
-/

namespace UnixP6

open CSemantics BitVec

/-- An aligned run of clear bits that stays within the word. -/
structure Fits (word : Word) (count alignUp s : Nat) : Prop where
  aligned : alignUp ∣ s
  inWord : s + count ≤ 32
  clear : RunClear word s count

/-- After every set bit met before a fit, the next bit is an aligned start or no
    later aligned start leaves room. -/
def InStep (word : Word) (count alignUp : Nat) : Prop :=
  ∀ p < 32, word.getLsbD p = true → (∀ q ≤ p, ¬ Fits word count alignUp q) →
    alignUp ∣ p + 1 ∨ ∀ r, p + 1 < r → alignUp ∣ r → 32 < r + count

theorem inStep_one (word : Word) (count : Nat) : InStep word count 1 :=
  fun p _ _ _ => Or.inl (one_dvd (p + 1))

/-- A run of a whole word starts at its first bit only, so every word is in
    step for the alignment of a word. -/
theorem inStep_word (word : Word) (count : Nat) (hcount : 0 < count) : InStep word count 32 := by
  intro p _ _ _
  refine Or.inr fun r hr hdvd => ?_
  have hle : 32 ≤ r := Nat.le_of_dvd (by omega) hdvd
  omega

/-- A word with every bit set fits nothing. -/
theorem not_fits_full (count alignUp s : Nat) (hcount : 0 < count) :
    ¬ Fits 0xffffffff count alignUp s := by
  intro h
  have hbit := h.clear 0 hcount
  have hlt : s < 32 := by
    have hin := h.inWord
    omega
  rw [Nat.add_zero, show (0xffffffff : Word) = allOnes 32 from rfl, getLsbD_allOnes,
    decide_eq_true hlt] at hbit
  exact absurd hbit Bool.true_eq_false.mp

section Scan

variable (word : Word) (count alignUp : Nat)

/-- Once no aligned start leaves room, the scan passes over the rest. -/
theorem scanBits_stuck (n : Nat) :
    ∀ (j : Nat) (s : BitScan), n + j = 32 → s.streak = 0 →
      (∀ r, j ≤ r → alignUp ∣ r → 32 < r + count) →
      scanBits word count alignUp n j s = (none, false) := by
  induction n with
  | zero => intro j s _ _ _; rfl
  | succ n ih =>
      intro j s hj hs hno
      rw [scanBits]
      by_cases hbreak : 32 - j < count
      · rw [if_pos ⟨hs, hbreak⟩]
      · -- The turn for an index out of alignment leaves the mask behind.
        have hskip : j % alignUp ≠ 0 := by
          intro hmod
          have hlong := hno j (Nat.le_refl j) (Nat.dvd_of_mod_eq_zero hmod)
          omega
        rw [if_neg (fun hc => hbreak hc.2), if_pos ⟨hs, hskip⟩]
        exact ih (j + 1) s (by omega) hs (fun r hr => hno r (by omega))

/-- The scan at bit `j` with the mask in step: nothing before the current streak
    fits, and the streak is a run of clear bits from an aligned start. -/
structure ScanAt (j : Nat) (s : BitScan) : Prop where
  bit : s.bit = twoPow 32 j
  le : s.streak ≤ j
  lt : s.streak < count
  none : ∀ q < j - s.streak, ¬ Fits word count alignUp q
  fresh : s.streak = 0 → j = 0 ∨ word.getLsbD (j - 1) = true
  run : 0 < s.streak → s.firstj = j - s.streak ∧ alignUp ∣ s.firstj ∧ s.firstj + count ≤ 32 ∧
    RunClear word s.firstj s.streak

section Turn

variable (j : Nat) (s : BitScan) (h : ScanAt word count alignUp j s)

include h

/-- Where the mask falls behind, nothing is left to find. -/
theorem ScanAt.behind (hin : InStep word count alignUp) (hj : j < 32) (hs : s.streak = 0)
    (hskip : j % alignUp ≠ 0) :
    (∀ q, ¬ Fits word count alignUp q) ∧ ∀ r, j < r → alignUp ∣ r → 32 < r + count := by
  have hunaligned : ¬ alignUp ∣ j := fun hd => hskip (Nat.mod_eq_zero_of_dvd hd)
  have hbefore : ∀ q < j, ¬ Fits word count alignUp q := fun q hq => h.none q (by omega)
  have hprev : word.getLsbD (j - 1) = true := by
    refine (h.fresh hs).resolve_left fun hzero => ?_
    rw [hzero] at hunaligned
    exact hunaligned (dvd_zero alignUp)
  have hpos : j ≠ 0 := by
    intro hzero
    rw [hzero] at hunaligned
    exact hunaligned (dvd_zero alignUp)
  have hrest : ∀ r, j < r → alignUp ∣ r → 32 < r + count := by
    have hstep := hin (j - 1) (by omega) hprev (fun q hq => hbefore q (by omega))
    rw [Nat.sub_add_cancel (Nat.pos_of_ne_zero hpos)] at hstep
    exact hstep.resolve_left hunaligned
  refine ⟨fun q hq => ?_, hrest⟩
  rcases Nat.lt_trichotomy q j with hqj | rfl | hqj
  · exact hbefore q hqj hq
  · exact hunaligned hq.aligned
  · have hlong := hrest q hqj hq.aligned
    have hwidth := hq.inWord
    omega

/-- The start of the streak a turn belongs to: the one under way, or here. -/
theorem ScanAt.start (hj : j < 32) (hbreak : ¬ (s.streak = 0 ∧ 32 - j < count))
    (hskip : ¬ (s.streak = 0 ∧ j % alignUp ≠ 0)) :
    (if s.streak = 0 then j else s.firstj) = j - s.streak ∧ alignUp ∣ j - s.streak ∧
      j - s.streak + count ≤ 32 ∧ RunClear word (j - s.streak) s.streak := by
  by_cases hs : s.streak = 0
  · have hmod : j % alignUp = 0 := by
      by_contra hc
      exact hskip ⟨hs, hc⟩
    have hroom : ¬ 32 - j < count := fun hc => hbreak ⟨hs, hc⟩
    rw [if_pos hs, hs, Nat.sub_zero]
    exact ⟨rfl, Nat.dvd_of_mod_eq_zero hmod, by omega, fun i hi => absurd hi (Nat.not_lt_zero i)⟩
  · rcases h.run (Nat.pos_of_ne_zero hs) with ⟨hf, ha, hr, hc⟩
    rw [if_neg hs, ← hf]
    exact ⟨rfl, ha, hr, hc⟩

/-- A set bit ends the streak and rules out every start up to it. -/
theorem ScanAt.reset (hset : word.getLsbD j = true) :
    ScanAt word count alignUp (j + 1)
      { bit := twoPow 32 (j + 1), streak := 0, firstj := s.firstj } := by
  have hlt := h.lt
  refine ⟨rfl, Nat.zero_le _, by simp only []; omega, fun q hq hfit => ?_, fun _ => Or.inr hset,
    fun hc => absurd hc (Nat.lt_irrefl 0)⟩
  simp only [Nat.sub_zero] at hq
  by_cases hqj : q < j - s.streak
  · exact h.none q hqj hfit
  · -- A run from here on would go through the set bit.
    have hbit := hfit.clear (j - q) (by omega)
    rw [Nat.add_sub_cancel' (Nat.le_of_lt_succ hq), hset] at hbit
    exact absurd hbit Bool.true_eq_false.mp

/-- A clear bit makes the streak longer. -/
theorem ScanAt.clear_succ (hclear : RunClear word (j - s.streak) s.streak)
    (hset : ¬ word.getLsbD j = true) : RunClear word (j - s.streak) (s.streak + 1) := by
  intro i hi
  by_cases his : i < s.streak
  · exact hclear i his
  · have hle := h.le
    have hij : j - s.streak + i = j := by omega
    rw [hij]
    exact Bool.eq_false_iff.mpr hset

/-- A streak that is not yet long enough goes on. -/
theorem ScanAt.extend (haligned : alignUp ∣ j - s.streak) (hroom : j - s.streak + count ≤ 32)
    (hclear : RunClear word (j - s.streak) (s.streak + 1)) (hshort : s.streak + 1 ≠ count) :
    ScanAt word count alignUp (j + 1)
      { bit := twoPow 32 (j + 1), streak := s.streak + 1, firstj := j - s.streak } := by
  have hlt := h.lt
  have hle := h.le
  refine ⟨rfl, by simp only []; omega, by simp only []; omega, fun q hq => ?_,
    fun hc => absurd hc (Nat.succ_ne_zero s.streak),
    fun _ => ⟨by simp only []; omega, haligned, hroom, hclear⟩⟩
  exact h.none q (by simp only [] at hq; omega)

end Turn

/-- What the scan is to find: the lowest run that fits, if there is one. -/
def Found (r : Option (Nat × Nat) × Bool) : Prop :=
  (∃ s, Fits word count alignUp s ∧ (∀ q < s, ¬ Fits word count alignUp q) ∧
      r = (some (s, s), true)) ∨
    ((∀ q, ¬ Fits word count alignUp q) ∧ r.1 = none)

/-- The scan from any point it reaches in step. The induction is on the turns
    left. -/
theorem scanBits_from (hin : InStep word count alignUp) (n : Nat) :
    ∀ (j : Nat) (s : BitScan), n + j = 32 → ScanAt word count alignUp j s →
      Found word count alignUp (scanBits word count alignUp n j s) := by
  induction n with
  | zero =>
      intro j s hj h
      refine Or.inr ⟨fun q hq => ?_, rfl⟩
      -- A streak still open here would have found its run before the end.
      have hwidth := hq.inWord
      have hlt := h.lt
      by_cases hs : s.streak = 0
      · exact h.none q (by omega) hq
      · rcases h.run (Nat.pos_of_ne_zero hs) with ⟨hfirst, _, hroom, _⟩
        omega
  | succ n ih =>
      intro j s hj h
      have hj32 : j < 32 := by omega
      rw [scanBits]
      by_cases hbreak : s.streak = 0 ∧ 32 - j < count
      · rw [if_pos hbreak]
        refine Or.inr ⟨fun q hq => ?_, rfl⟩
        have hwidth := hq.inWord
        exact h.none q (by omega) hq
      rw [if_neg hbreak]
      by_cases hskip : s.streak = 0 ∧ j % alignUp ≠ 0
      · rcases h.behind word count alignUp j s hin hj32 hskip.1 hskip.2 with ⟨hnone, hrest⟩
        rw [if_pos hskip, scanBits_stuck word count alignUp n (j + 1) s (by omega) hskip.1
          (fun r hr => hrest r (by omega))]
        exact Or.inr ⟨hnone, rfl⟩
      rw [if_neg hskip, h.bit, testMask_twoPow word j hj32, twoPow_shiftLeft_one]
      rcases h.start word count alignUp j s hj32 hbreak hskip with
        ⟨hfirstj, haligned, hroom, hclear⟩
      -- Now the mask is at bit `j`, and the bit decides.
      by_cases hset : word.getLsbD j = true
      · rw [if_pos hset]
        exact ih (j + 1) _ (by omega) (h.reset word count alignUp j s hset)
      rw [if_neg hset, hfirstj]
      have hclear' := h.clear_succ word count alignUp j s hclear hset
      by_cases hfull : s.streak + 1 = count
      · simp only [if_pos hfull]
        rw [hfull] at hclear'
        exact Or.inl ⟨j - s.streak, ⟨haligned, hroom, hclear'⟩, h.none, rfl⟩
      · -- The flag that comes back is set here too, which does not matter to what is found.
        simp only [if_neg hfull]
        rcases ih (j + 1) _ (by omega)
          (h.extend word count alignUp j s haligned hroom hclear' hfull) with
          ⟨q, hq, hlow, heq⟩ | ⟨hnone, heq⟩
        · exact Or.inl ⟨q, hq, hlow, by rw [heq]⟩
        · exact Or.inr ⟨hnone, heq⟩

/-- In step, the scan of a word finds the lowest run that fits. -/
theorem scanBits_spec (hcount : 0 < count) (hin : InStep word count alignUp) :
    Found word count alignUp
      (scanBits word count alignUp 32 0 { bit := 1, streak := 0, firstj := 0 }) :=
  scanBits_from word count alignUp hin 32 0 _ (by omega)
    ⟨(twoPow_zero).symm, Nat.le_refl 0, hcount, fun q hq => absurd hq (Nat.not_lt_zero q),
      fun _ => Or.inl rfl, fun hc => absurd hc (Nat.lt_irrefl 0)⟩

end Scan

end UnixP6
