import UnixP6.Theory.Frames.Session
import UnixP6.Theory.Frames.FirstFit

/-!
# The Search Hint

Whether `search_next_startblock` only saves time. It does as long as every word
below it is full: such a word fits nothing, so a search from word 0 finds what
the search from the hint finds.

A search moves the hint to the first word in which it tests a clear bit. That is
not the first word with a clear bit. The scan leaves a word as soon as too
little of it is left for a run to start, so the clear bits at its end go
untested, and the hint may pass them by. `frame_free` clears bits below the hint
and never lowers it. `KeepsHint` rules out these two, and `run_hint` is the
result.

## Main definitions

* `Tested`: The scan of a word tests a clear bit.
* `Region.FirstTested`: The first word in which a search tests one.
* `Region.FullBelow`: Every word below the hint is full.
* `allocatorStep`: The calls of a run of the allocator.
* `KeepsHint`: The calls that leave no clear bit below a hint.
* `HintOnly`: The search from the hint gives what the search from word 0 gives.

## Theorems

* `scanBits_flag`: When the scan of a word tests a clear bit.
* `scanWords_hint`: Where a search leaves the hint.
* `allocFrom_hintsFull`, `freeFrom_hintsFull`: What the calls keep.
* `allocFrom_forgetHint`: With full words below them, hints do not matter.
* `run_hint`: In every run of calls that keep the hint, it does not matter.
-/

namespace UnixP6

open CSemantics BitVec

/-- A clear bit at which a run of `count` bits could still start. -/
def Tested (word : Word) (count : Nat) : Prop :=
  ∃ b, b + count ≤ 32 ∧ word.getLsbD b = false

namespace Region

/-- Every word below the hint is full. -/
def FullBelow (r : Region) : Prop :=
  ∀ k < r.searchNextStartblock.toNat, r.firstBitmap k = 0xffffffff

/-- A search for `count` frames moves the hint over full words only. -/
def PassesFull (r : Region) (count : Nat) : Prop :=
  ∀ t, r.searchNextStartblock.toNat ≤ t → t < r.repeatcount → Tested (r.firstBitmap t) count →
    (∀ k, r.searchNextStartblock.toNat ≤ k → k < t → ¬ Tested (r.firstBitmap k) count) →
    ∀ k, r.searchNextStartblock.toNat ≤ k → k < t → r.firstBitmap k = 0xffffffff

/-- The bit and the word `frame_free` computes from an address. -/
def freeBit (r : Region) (addr : Word) : Nat := ((addr - r.firstBlock) / 4096 % 31).toNat

def freeWord (r : Region) (addr : Word) : Nat :=
  (((addr - r.firstBlock) / 4096 - (addr - r.firstBlock) / 4096 % 31) / 32).toNat

/-- A release of `count` frames writes no word below the hint. -/
def FreesAbove (r : Region) (addr : Word) (count : Nat) : Prop :=
  r.searchNextStartblock.toNat ≤ r.freeWord addr ∨ 32 - r.freeBit addr < count

end Region

/-! ### Where a search leaves the hint -/

/-- The scan of a word tests a clear bit if there is one before it gives up. -/
theorem scanBits_flag (word : Word) (count n : Nat) :
    ∀ (j : Nat) (s : BitScan), n + j = 32 → s.streak = 0 → s.bit = twoPow 32 j →
      ((scanBits word count 1 n j s).2 = true
        ↔ ∃ b, j ≤ b ∧ b < 32 ∧ b + count ≤ 32 ∧ word.getLsbD b = false) := by
  induction n with
  | zero =>
      intro j s hj _ _
      rw [scanBits]
      constructor
      · intro h
        exact absurd h Bool.false_ne_true
      · rintro ⟨b, hjb, hb, _⟩
        omega
  | succ n ih =>
      intro j s hj hs hbit
      have hj32 : j < 32 := by omega
      have haligned : ¬ (s.streak = 0 ∧ j % 1 ≠ 0) := fun hc => hc.2 (Nat.mod_one j)
      rw [scanBits]
      by_cases hbreak : s.streak = 0 ∧ 32 - j < count
      · rw [if_pos hbreak]
        constructor
        · intro h
          exact absurd h Bool.false_ne_true
        · rintro ⟨b, hjb, _, hwidth, _⟩
          omega
      rw [if_neg hbreak, if_neg haligned, hbit, testMask_twoPow word j hj32, twoPow_shiftLeft_one]
      have hroom : j + count ≤ 32 := by
        by_contra hc
        exact hbreak ⟨hs, by omega⟩
      by_cases hset : word.getLsbD j = true
      · rw [if_pos hset, ih (j + 1) _ (by omega) rfl rfl]
        -- Bit `j` is set, so a clear bit comes later.
        constructor
        · rintro ⟨b, hjb, hb, hwidth, hclear⟩
          exact ⟨b, by omega, hb, hwidth, hclear⟩
        · rintro ⟨b, hjb, hb, hwidth, hclear⟩
          refine ⟨b, ?_, hb, hwidth, hclear⟩
          rcases Nat.eq_or_lt_of_le hjb with rfl | hlt
          · rw [hset] at hclear
            exact absurd hclear Bool.true_eq_false.mp
          · exact hlt
      · rw [if_neg hset]
        have hhere : ∃ b, j ≤ b ∧ b < 32 ∧ b + count ≤ 32 ∧ word.getLsbD b = false :=
          ⟨j, Nat.le_refl j, hj32, hroom, Bool.eq_false_iff.mpr hset⟩
        simp only [hhere, iff_true]
        split <;> rfl

/-- The scan of a whole word. -/
theorem scanBits_tested (word : Word) (count : Nat) (hcount : 0 < count) :
    (scanBits word count 1 32 0 { bit := 1, streak := 0, firstj := 0 }).2 = true
      ↔ Tested word count := by
  rw [scanBits_flag word count 32 0 _ rfl rfl (twoPow_zero).symm, Tested]
  constructor
  · rintro ⟨b, _, _, hwidth, hclear⟩
    exact ⟨b, hwidth, hclear⟩
  · rintro ⟨b, hwidth, hclear⟩
    exact ⟨b, Nat.zero_le b, by omega, hwidth, hclear⟩

theorem not_tested_full (count : Nat) (hcount : 0 < count) : ¬ Tested 0xffffffff count := by
  rintro ⟨b, hwidth, hclear⟩
  have hlt : b < 32 := by omega
  rw [show (0xffffffff : Word) = allOnes 32 from rfl, getLsbD_allOnes, decide_eq_true hlt] at hclear
  exact absurd hclear Bool.true_eq_false.mp

/-- Of `n` words from word `i` on, word `t` is the first in which a search tests a
    clear bit. -/
def Region.FirstTested (r : Region) (count i n t : Nat) : Prop :=
  (i ≤ t ∧ t < i + n ∧ Tested (r.firstBitmap t) count) ∧
    ∀ k, i ≤ k → k < t → ¬ Tested (r.firstBitmap k) count

/-- A word in which nothing is tested may stand in front. -/
theorem firstTested_skip (r : Region) (count i n t : Nat)
    (hnot : ¬ Tested (r.firstBitmap i) count) (h : r.FirstTested count (i + 1) n t) :
    r.FirstTested count i (n + 1) t := by
  rcases h with ⟨⟨hlo, hhi, htest⟩, hbefore⟩
  refine ⟨⟨by omega, by omega, htest⟩, fun k hik hkt => ?_⟩
  rcases Nat.eq_or_lt_of_le hik with rfl | hlt
  · exact hnot
  · exact hbefore k hlt hkt

theorem firstTested_here (r : Region) (count i n : Nat) (h : Tested (r.firstBitmap i) count) :
    r.FirstTested count i (n + 1) i :=
  ⟨⟨Nat.le_refl i, by omega, h⟩, fun _ hik hki => absurd hki (Nat.not_lt.mpr hik)⟩

/-- A search leaves the hint alone, or at the first word in which it tests a clear
    bit. -/
theorem scanWords_hint (count : Nat) (hcount : 0 < count) (n : Nat) :
    ∀ (i : Nat) (isnotset : Bool) (r : Region),
      (scanWords count 1 n i isnotset r).2.searchNextStartblock = r.searchNextStartblock ∨
        (isnotset = true ∧ ∃ t, r.FirstTested count i n t ∧
          (scanWords count 1 n i isnotset r).2.searchNextStartblock = BitVec.ofNat 32 t) := by
  induction n with
  | zero => intro i isnotset r; exact Or.inl rfl
  | succ n ih =>
      intro i isnotset r
      rw [scanWords]
      by_cases hfull : r.firstBitmap i = 0xffffffff
      · have hnot : ¬ Tested (r.firstBitmap i) count := by
          rw [hfull]
          exact not_tested_full count hcount
        rw [if_pos hfull]
        rcases ih (i + 1) isnotset r with hsame | ⟨hset, t, hfirst, hmoved⟩
        · exact Or.inl hsame
        · exact Or.inr ⟨hset, t, firstTested_skip r count i n t hnot hfirst, hmoved⟩
      rw [if_neg hfull]
      have htested := scanBits_tested (r.firstBitmap i) count hcount
      generalize scanBits (r.firstBitmap i) count 1 32 0
        { bit := 1, streak := 0, firstj := 0 } = scan at htested ⊢
      rcases scan with ⟨found, flag⟩
      simp only at htested ⊢
      cases isnotset with
      | false =>
          -- The hint has been set already, and stays.
          simp only [Bool.false_and, Region.startSearchAt, Bool.false_eq_true, if_false]
          cases found with
          | some run => exact Or.inl rfl
          | none => exact Or.inl ((ih (i + 1) false r).resolve_right fun h =>
              Bool.false_ne_true h.1)
      | true =>
          cases flag with
          | true =>
              -- This is the first word in which a clear bit is tested.
              have hhere := firstTested_here r count i n (htested.mp rfl)
              simp only [Bool.and_true, Region.startSearchAt, if_true, Bool.not_true]
              cases found with
              | some run => exact Or.inr ⟨trivial, i, hhere, rfl⟩
              | none =>
                  rcases ih (i + 1) false { r with searchNextStartblock := BitVec.ofNat 32 i } with
                    hsame | ⟨hset, _⟩
                  · exact Or.inr ⟨trivial, i, hhere, hsame⟩
                  · exact absurd hset Bool.false_ne_true
          | false =>
              have hnot : ¬ Tested (r.firstBitmap i) count :=
                fun h => absurd (htested.mpr h) Bool.false_ne_true
              simp only [Bool.and_false, Region.startSearchAt, Bool.false_eq_true, if_false,
                Bool.not_false, Bool.and_true]
              cases found with
              | some run => exact Or.inl rfl
              | none =>
                  rcases ih (i + 1) true r with hsame | ⟨_, t, hfirst, hmoved⟩
                  · exact Or.inl hsame
                  · exact Or.inr ⟨trivial, t, firstTested_skip r count i n t hnot hfirst, hmoved⟩

/-! ### What the calls keep -/

/-- Taking a run leaves full words full. -/
theorem mark_full (r : Region) (i s count k : Nat) (h : r.firstBitmap k = 0xffffffff) :
    (r.mark i s count).firstBitmap k = 0xffffffff := by
  simp only [Region.mark, Region.setWord]
  by_cases hk : k = i
  · rw [if_pos hk, ← hk, h]
    apply BitVec.eq_of_getLsbD_eq
    intro b hb
    rw [getLsbD_setRun, show (0xffffffff : Word) = allOnes 32 from rfl, getLsbD_allOnes,
      decide_eq_true hb, Bool.true_or]
  · rw [if_neg hk]
    exact h

/-- A search over full words keeps the words below the hint full. -/
theorem allocIn_fullBelow (r : Region) (count : Nat) (hcount : 0 < count) (h : r.FullBelow)
    (hpass : r.PassesFull count) : (allocIn count 1 r).2.FullBelow := by
  have hwords : ∀ k, r.firstBitmap k = 0xffffffff →
      (allocIn count 1 r).2.firstBitmap k = 0xffffffff := by
    intro k hk
    rcases allocIn_spec count 1 hcount r (r.searchInStep_one count) with
      ⟨i, s, _, _, hreg⟩ | ⟨_, _, hreg⟩
    · rw [(fields_of_forgetHint _ _ hreg).1]
      exact mark_full r i s count k hk
    · rw [(fields_of_forgetHint _ _ hreg).1]
      exact hk
  intro k hk
  apply hwords
  by_cases hbelow : k < r.searchNextStartblock.toNat
  · exact h k hbelow
  rcases scanWords_hint count hcount (r.repeatcount - r.searchNextStartblock.toNat)
    r.searchNextStartblock.toNat true r with
    hsame | ⟨_, t, ⟨⟨hlo, hhi, htest⟩, hbefore⟩, hmoved⟩
  · rw [allocIn, hsame] at hk
    exact absurd hk hbelow
  · have hword : t < 2 ^ 32 := by
      have hlt := r.blocksCount.isLt
      unfold Region.repeatcount at hhi
      omega
    rw [allocIn, hmoved, BitVec.toNat_ofNat, Nat.mod_eq_of_lt hword] at hk
    exact hpass t hlo (by omega) htest hbefore k (Nat.le_of_not_lt hbelow) hk

/-- The words below every hint of a chain are full. -/
def HintsFull (rs : List Region) : Prop := ∀ r ∈ rs, r.FullBelow

theorem hintsFull_cons (r : Region) (rs : List Region) :
    HintsFull (r :: rs) ↔ r.FullBelow ∧ HintsFull rs :=
  List.forall_mem_cons

/-- What holds of every region that is reached without stopping holds behind one
    that is passed. -/
theorem reached_tail (r : Region) (rs : List Region) (Passed : Region → Prop) (P : Region → Prop)
    (hr : Passed r)
    (h : ∀ pre q post, r :: rs = pre ++ q :: post → (∀ p ∈ pre, Passed p) → P q) :
    ∀ pre q post, rs = pre ++ q :: post → (∀ p ∈ pre, Passed p) → P q := by
  intro pre q post heq hpre
  refine h (r :: pre) q post (by rw [heq]; rfl) (fun p hp => ?_)
  rcases List.mem_cons.mp hp with rfl | hp
  · exact hr
  · exact hpre p hp

theorem allocFrom_hintsFull (count : Nat) (hcount : 0 < count) (rs : List Region) :
    HintsFull rs →
      (∀ pre r post, rs = pre ++ r :: post → (∀ q ∈ pre, ¬ q.HasFit count 1) →
        r.PassesFull count) →
      HintsFull (allocFrom count 1 rs).2 := by
  induction rs with
  | nil => intro h _; exact h
  | cons r rs ih =>
      intro h hpass
      rcases (hintsFull_cons r rs).mp h with ⟨hhere, hrest⟩
      have hregion := allocIn_fullBelow r count hcount hhere
        (hpass [] r rs rfl (fun q hq => absurd hq List.not_mem_nil))
      have hspec := allocIn_spec count 1 hcount r (r.searchInStep_one count)
      rcases hin : allocIn count 1 r with ⟨res, r'⟩
      rw [hin] at hregion hspec
      rcases hspec with ⟨_, _, _, hres, _⟩ | ⟨hno, hres, _⟩
      · simp only at hres
        rw [allocFrom, hin, hres]
        -- The regions after the one found are not searched.
        exact (hintsFull_cons r' rs).mpr ⟨hregion, hrest⟩
      · simp only at hres
        rw [allocFrom, hin, hres]
        exact (hintsFull_cons r' _).mpr ⟨hregion, ih hrest (reached_tail r rs
          (fun q => ¬ q.HasFit count 1) (fun q => q.PassesFull count) hno hpass)⟩

/-- A release in its region keeps the words below the hint full if it writes none
    of them. -/
theorem freeFrames_fullBelow (r : Region) (addr : Word) (count : Nat) (h : r.FullBelow)
    (habove : r.FreesAbove addr count) : (r.freeFrames addr count).FullBelow := by
  have hdef : r.freeFrames addr count = if 32 - r.freeBit addr < count then r
      else r.setWord (r.freeWord addr)
        (clearRun (r.firstBitmap (r.freeWord addr)) ((1 : Word) <<< r.freeBit addr) count) := rfl
  rw [hdef]
  by_cases hroom : 32 - r.freeBit addr < count
  · rw [if_pos hroom]
    exact h
  · rw [if_neg hroom]
    have hword := habove.resolve_right hroom
    intro k hk
    simp only [Region.setWord] at hk ⊢
    rw [if_neg (by omega)]
    exact h k hk

theorem freeFrom_hintsFull (addr : Word) (count : Nat) (rs : List Region) :
    HintsFull rs →
      (∀ pre r post, rs = pre ++ r :: post → (∀ q ∈ pre, q.owns addr = false) →
        r.owns addr = true → r.FreesAbove addr count) →
      HintsFull (freeFrom addr count rs) := by
  induction rs with
  | nil => intro h _; exact h
  | cons r rs ih =>
      intro h habove
      rcases (hintsFull_cons r rs).mp h with ⟨hhere, hrest⟩
      rw [freeFrom]
      by_cases howns : r.owns addr = true
      · have hregion := freeFrames_fullBelow r addr count hhere
          (habove [] r rs rfl (fun q hq => absurd hq List.not_mem_nil) howns)
        rw [if_pos howns]
        exact (hintsFull_cons _ rs).mpr ⟨hregion, hrest⟩
      · rw [if_neg howns]
        exact (hintsFull_cons r _).mpr ⟨hhere, ih hrest (reached_tail r rs
          (fun q => q.owns addr = false) (fun q => q.owns addr = true → q.FreesAbove addr count)
          (Bool.eq_false_iff.mpr howns) habove)⟩

/-- A release leaves every region where it is. -/
theorem freeFrom_shape (addr : Word) (count : Nat) (rs : List Region) :
    (freeFrom addr count rs).map Region.shape = rs.map Region.shape := by
  induction rs with
  | nil => rfl
  | cons r rs ih =>
      rw [freeFrom]
      by_cases howns : r.owns addr = true
      · rw [if_pos howns, List.map_cons, List.map_cons]
        congr 1
        simp only [Region.freeFrames]
        split <;> rfl
      · rw [if_neg howns, List.map_cons, List.map_cons, ih]

/-! ### The search from word 0 -/

/-- Full words fit nothing, so the hint loses no run. -/
theorem fitsAt_forgetHint (r : Region) (count i s : Nat) (hcount : 0 < count) (h : r.FullBelow) :
    r.forgetHint.FitsAt count 1 i s ↔ r.FitsAt count 1 i s := by
  constructor
  · rintro ⟨_, hi, hfit⟩
    refine ⟨?_, hi, hfit⟩
    by_contra hlt
    have hfull : r.forgetHint.firstBitmap i = 0xffffffff := h i (Nat.lt_of_not_le hlt)
    rw [hfull] at hfit
    exact not_fits_full count 1 s hcount hfit
  · rintro ⟨_, hi, hfit⟩
    exact ⟨Nat.zero_le i, hi, hfit⟩

theorem firstFit_unique (r : Region) (count i s i' s' : Nat) (h : r.FirstFit count 1 i s)
    (h' : r.FirstFit count 1 i' s') : i = i' ∧ s = s' := by
  have hle := h.2 i' s' h'.1
  have hge := h'.2 i s h.1
  omega

/-- One region: the search from the hint does what the search from word 0 does. -/
theorem allocIn_forgetHint (r : Region) (count : Nat) (hcount : 0 < count) (h : r.FullBelow) :
    (allocIn count 1 r).1 = (allocIn count 1 r.forgetHint).1 ∧
      (allocIn count 1 r).2.forgetHint = (allocIn count 1 r.forgetHint).2.forgetHint := by
  have hfits := fun i s => fitsAt_forgetHint r count i s hcount h
  have hspec := allocIn_spec count 1 hcount r (r.searchInStep_one count)
  have hspec' := allocIn_spec count 1 hcount r.forgetHint
    (r.forgetHint.searchInStep_one count)
  simp only [Region.HasFit, Region.FirstFit, hfits] at hspec hspec'
  rcases hspec with ⟨i, s, hfirst, hres, hreg⟩ | ⟨hno, hres, hreg⟩
  · rcases hspec' with ⟨i', s', hfirst', hres', hreg'⟩ | ⟨hno', _, _⟩
    · rcases firstFit_unique r count i s i' s' hfirst hfirst' with ⟨rfl, rfl⟩
      exact ⟨hres.trans hres'.symm, hreg.trans hreg'.symm⟩
    · exact absurd ⟨i, s, hfirst.1⟩ hno'
  · rcases hspec' with ⟨i', s', hfirst', _, _⟩ | ⟨_, hres', hreg'⟩
    · exact absurd ⟨i', s', hfirst'.1⟩ hno
    · exact ⟨hres.trans hres'.symm, hreg.trans hreg'.symm⟩

/-- With full words below them, the hints of a chain do not matter. -/
theorem allocFrom_forgetHint (count : Nat) (hcount : 0 < count) (rs : List Region) :
    HintsFull rs →
      (allocFrom count 1 rs).1 = (allocFrom count 1 (rs.map Region.forgetHint)).1 ∧
        (allocFrom count 1 rs).2.map Region.forgetHint
          = (allocFrom count 1 (rs.map Region.forgetHint)).2.map Region.forgetHint := by
  induction rs with
  | nil => intro _; exact ⟨rfl, rfl⟩
  | cons r rs ih =>
      intro h
      rcases ih (fun q hq => h q (List.mem_cons_of_mem r hq)) with ⟨hih, hihregs⟩
      rcases allocIn_forgetHint r count hcount (h r List.mem_cons_self) with ⟨hres, hreg⟩
      rcases hin : allocIn count 1 r with ⟨res, r1⟩
      rcases hin' : allocIn count 1 r.forgetHint with ⟨res', r1'⟩
      rw [hin, hin'] at hres hreg
      simp only at hres hreg
      rw [List.map_cons, allocFrom, allocFrom, hin, hin', ← hres]
      cases res with
      | some p =>
          refine ⟨rfl, ?_⟩
          simp only [List.map_cons, hreg, List.map_map]
          rfl
      | none => exact ⟨hih, by simp only [List.map_cons, hreg, hihregs]⟩

/-! ### Whole runs -/

/-- The calls of a run: 1 to 32 frames without alignment, and any release. -/
def FrameCall.Valid : FrameCall → Prop
  | .alloc count alignUp => 0 < count.toNat ∧ count.toNat ≤ 32 ∧ alignUp ≤ 1
  | .free _ _ => True

instance : (c : FrameCall) → Decidable c.Valid
  | .alloc count alignUp =>
      inferInstanceAs (Decidable (0 < count.toNat ∧ count.toNat ≤ 32 ∧ alignUp ≤ 1))
  | .free _ _ => inferInstanceAs (Decidable True)

/-- What a call makes of the regions. -/
def allocatorCall (rs : List Region) : FrameCall → Option (List Region)
  | .alloc count alignUp => (frameAlloc count alignUp rs).map Prod.snd
  | .free ptr count => frameFree ptr count rs

def allocatorStep (rs : List Region) (c : FrameCall) (rs' : List Region) : Prop :=
  c.Valid ∧ allocatorCall rs c = some rs'

/-- The calls that leave no clear bit below a hint: in every region an allocation
    searches the hint passes full words only, and a release writes no word below
    the hint of the region it finds. -/
def KeepsHint (rs : List Region) : FrameCall → Prop
  | .alloc count _ => ∀ pre r post, rs = pre ++ r :: post →
      (∀ q ∈ pre, ¬ q.HasFit count.toNat 1) → r.PassesFull count.toNat
  | .free ptr count => count = 0 ∨ 32 < count ∨ ∀ pre r post, rs = pre ++ r :: post →
      (∀ q ∈ pre, q.owns ptr = false) → r.owns ptr = true → r.FreesAbove ptr count.toNat

/-- A result of `frame_alloc` without the hints it leaves. -/
def withoutHints (res : Word × List Region) : Word × List Region :=
  (res.1, res.2.map Region.forgetHint)

/-- Searching from the hints gives what searching from word 0 gives. -/
def HintOnly (rs : List Region) : Prop :=
  ∀ count alignUp : Word, 0 < count.toNat → count.toNat ≤ 32 → alignUp ≤ 1 →
    (frameAlloc count alignUp rs).map withoutHints
      = (frameAlloc count alignUp (rs.map Region.forgetHint)).map withoutHints

/-- A null result means that no word of any region has a clear run left. -/
def NullOnlyFull (rs : List Region) : Prop :=
  ∀ (count alignUp : Word) (rs' : List Region), 0 < count.toNat → count.toNat ≤ 32 → alignUp ≤ 1 →
    frameAlloc count alignUp rs = some (0, rs') →
    ∀ r ∈ rs, ∀ i < r.repeatcount, ∀ s, s + count.toNat ≤ 32 →
      ¬ RunClear (r.firstBitmap i) s count.toNat

/-- No frame of a region is at address zero. -/
def AwayFromNull (rs : List Region) : Prop :=
  ∀ r ∈ rs, ∀ i < r.repeatcount, ∀ s < 32, r.firstBlock + calcPageaddr i s ≠ 0

theorem awayFromNull_of_shape (rs rs' : List Region)
    (h : rs'.map Region.shape = rs.map Region.shape) (haway : AwayFromNull rs) :
    AwayFromNull rs' := by
  intro q hq i hi s hs
  have hmem : q.shape ∈ rs.map Region.shape := by
    rw [← h]
    exact List.mem_map_of_mem hq
  rcases List.mem_map.mp hmem with ⟨r, hr, hrq⟩
  rcases fields_of_shape q r hrq with ⟨hblocks, hfirst⟩
  unfold Region.repeatcount at hi
  rw [← hfirst]
  refine haway r hr i ?_ s hs
  unfold Region.repeatcount
  rw [hblocks]
  exact hi

/-- A valid allocation is the walk over the chain. -/
theorem frameAlloc_valid (count alignUp : Word) (rs : List Region) (hpos : 0 < count.toNat)
    (hle : count.toNat ≤ 32) (halign : alignUp ≤ 1) :
    frameAlloc count alignUp rs = if rs = [] then none else some (allocFrom count.toNat 1 rs) := by
  have hvalid : ¬ (count = 0 ∨ 32 < count) := by bv_omega
  have hone := effectiveAlign_of_le_one alignUp halign
  unfold effectiveAlign at hone
  rw [frameAlloc, if_neg hvalid, hone]

theorem hintOnly_of_hintsFull (rs : List Region) (h : HintsFull rs) : HintOnly rs := by
  intro count alignUp hpos hle halign
  rw [frameAlloc_valid count alignUp rs hpos hle halign,
    frameAlloc_valid count alignUp _ hpos hle halign]
  by_cases hrs : rs = []
  · rw [hrs]
    rfl
  · rcases allocFrom_forgetHint count.toNat hpos rs h with ⟨hres, hregs⟩
    rw [if_neg hrs, if_neg (fun hc => hrs (List.map_eq_nil_iff.mp hc)), Option.map_some,
      Option.map_some, withoutHints, withoutHints, hres, hregs]

theorem nullOnlyFull_of_hintsFull (rs : List Region) (h : HintsFull rs) (haway : AwayFromNull rs) :
    NullOnlyFull rs := by
  intro count alignUp rs' hpos hle halign hnull r hr i hi s hwidth hclear
  rw [frameAlloc_valid count alignUp rs hpos hle halign,
    if_neg (List.ne_nil_of_mem hr), Option.some.injEq] at hnull
  have hspec := allocFrom_spec count.toNat 1 hpos rs (searchInStep_one rs count.toNat)
  rw [hnull] at hspec
  rcases hspec with ⟨pre, q, post, j, b, hrs, _, hfirst, hp, _⟩ | ⟨hno, _, _⟩
  · -- The address of the run found is not null.
    have hq : q ∈ rs := by
      rw [hrs]
      exact List.mem_append_right pre List.mem_cons_self
    have hin := hfirst.1.2.2.inWord
    exact haway q hq j hfirst.1.2.1 b (by omega) hp.symm
  · have hfit : r.forgetHint.FitsAt count.toNat 1 i s :=
      ⟨Nat.zero_le i, hi, one_dvd s, hwidth, hclear⟩
    exact hno r hr ⟨i, s, (fitsAt_forgetHint r count.toNat i s hpos (h r hr)).mp hfit⟩

/-- One call that keeps the hint keeps the words below the hints full. -/
theorem allocatorStep_hintsFull (rs rs' : List Region) (c : FrameCall) (h : HintsFull rs)
    (hkeeps : KeepsHint rs c) (hstep : allocatorStep rs c rs') :
    HintsFull rs' ∧ rs'.map Region.shape = rs.map Region.shape := by
  rcases hstep with ⟨hvalid, hcall⟩
  cases c with
  | alloc count alignUp =>
      rcases hvalid with ⟨hpos, hle, halign⟩
      simp only [allocatorCall, frameAlloc_valid count alignUp rs hpos hle halign] at hcall
      by_cases hrs : rs = []
      · rw [if_pos hrs, Option.map_none] at hcall
        exact absurd hcall (by simp only [reduceCtorEq, not_false_eq_true])
      · rw [if_neg hrs, Option.map_some, Option.some.injEq] at hcall
        rw [← hcall]
        exact ⟨allocFrom_hintsFull count.toNat hpos rs h hkeeps,
          (allocFrom_spec count.toNat 1 hpos rs (searchInStep_one rs count.toNat)).shape
            count.toNat 1 rs _⟩
  | free ptr count =>
      simp only [allocatorCall, frameFree] at hcall
      by_cases hvalid : count = 0 ∨ 32 < count
      · rw [if_pos hvalid, Option.some.injEq] at hcall
        rw [← hcall]
        exact ⟨h, rfl⟩
      · have habove := (hkeeps.resolve_left (fun hc => hvalid (Or.inl hc))).resolve_left
          (fun hc => hvalid (Or.inr hc))
        rw [if_neg hvalid] at hcall
        by_cases hrs : rs = []
        · rw [if_pos hrs] at hcall
          exact absurd hcall (by simp only [reduceCtorEq, not_false_eq_true])
        · rw [if_neg hrs, Option.some.injEq] at hcall
          rw [← hcall]
          exact ⟨freeFrom_hintsFull ptr count.toNat rs h habove, freeFrom_shape ptr count.toNat rs⟩

/-- In every run of calls that keep the hint, from regions searched from word 0
    on, the hint is only an optimisation: searching from it gives what searching
    from word 0 gives, and null means that nothing is left. -/
theorem run_hint (start rs : List Region) (calls : List FrameCall)
    (hstart : ∀ r ∈ start, r.searchNextStartblock = 0)
    (hrun : Run (Guarded KeepsHint allocatorStep) start calls rs) :
    HintOnly rs ∧ (AwayFromNull start → NullOnlyFull rs) := by
  have hfull : HintsFull start := by
    intro r hr k hk
    rw [hstart r hr] at hk
    exact absurd hk (Nat.not_lt_zero k)
  have hinv := Run.invariant (Guarded KeepsHint allocatorStep)
    (fun qs => HintsFull qs ∧ qs.map Region.shape = start.map Region.shape)
    (fun qs c qs' ⟨hqs, hshape⟩ ⟨hkeeps, hstep⟩ => by
      rcases allocatorStep_hintsFull qs qs' c hqs hkeeps hstep with ⟨hqs', hshape'⟩
      exact ⟨hqs', hshape'.trans hshape⟩)
    start rs calls hrun ⟨hfull, rfl⟩
  exact ⟨hintOnly_of_hintsFull rs hinv.1, fun haway =>
    nullOnlyFull_of_hintsFull rs hinv.1 (awayFromNull_of_shape start rs hinv.2 haway)⟩

/-- The hint moves over full words if a clear bit is tested in the first word
    that is not full. -/
theorem passesFull_of_tested (r : Region) (count i : Nat) (htest : Tested (r.firstBitmap i) count)
    (hlo : r.searchNextStartblock.toNat ≤ i)
    (hfull : ∀ k, r.searchNextStartblock.toNat ≤ k → k < i → r.firstBitmap k = 0xffffffff) :
    r.PassesFull count := by
  intro t _ _ _ hbefore k hk hkt
  by_cases hki : k < i
  · exact hfull k hk hki
  · exact absurd htest (hbefore i hlo (by omega))

/-- A region of 63 frames at one megabyte, all of them free. -/
def region63 : Region :=
  { searchNextStartblock := 0, firstBitmap := fun _ => 0, blocksCount := 63, firstBlock := 0x100000 }

/-- Two frames taken and given back, then a whole word, and two frames from the
    word behind it, which moves the hint. -/
theorem run_hint_moves :
    let s1 := (allocatorCall [region63] (.alloc 2 1)).getD []
    let s2 := (allocatorCall s1 (.free 0x100000 2)).getD []
    let s3 := (allocatorCall s2 (.alloc 32 1)).getD []
    let s4 := (allocatorCall s3 (.alloc 2 1)).getD []
    s4.map (fun r => r.searchNextStartblock) = [1] ∧ HintOnly s4 ∧ NullOnlyFull s4 := by
  intro s1 s2 s3 s4
  have hstart : ∀ r ∈ [region63], r.searchNextStartblock = 0 := by
    intro r hr
    rw [List.mem_singleton.mp hr]
    rfl
  have haway : AwayFromNull [region63] := by
    intro r hr
    rw [List.mem_singleton.mp hr]
    decide
  -- Each state is one region, and the word searched is the first that is not full.
  have hkeeps : ∀ (rs : List Region) (r : Region) (count alignUp : Word) (i : Nat), rs = [r] →
      Tested (r.firstBitmap i) count.toNat → r.searchNextStartblock.toNat ≤ i →
      (∀ k < i, r.firstBitmap k = 0xffffffff) → KeepsHint rs (.alloc count alignUp) := by
    intro rs r count alignUp i hrs htest hlo hfull pre q post hsplit _
    rw [hrs] at hsplit
    rw [FrameSession.eq_of_singleton_split r q pre post hsplit]
    exact passesFull_of_tested r count.toNat i htest hlo (fun k _ hki => hfull k hki)
  have hrelease : KeepsHint s1 (.free 0x100000 2) := by
    refine Or.inr (Or.inr fun pre q post hsplit _ _ => Or.inl ?_)
    rw [FrameSession.eq_of_singleton_split (s1.headD region63) q pre post hsplit]
    decide
  have hrun := run_hint [region63] s4
    [.alloc 2 1, .free 0x100000 2, .alloc 32 1, .alloc 2 1] hstart
    (Run.cons _ s1 _ _ _ ⟨hkeeps _ region63 2 1 0 rfl ⟨0, by decide, by decide⟩ (by decide)
        (by decide), by decide, rfl⟩ <|
      Run.cons _ s2 _ _ _ ⟨hrelease, by decide, rfl⟩ <|
      Run.cons _ s3 _ _ _ ⟨hkeeps s2 (s2.headD region63) 32 1 0 rfl ⟨0, by decide, by decide⟩
        (by decide) (by decide), by decide, rfl⟩ <|
      Run.cons _ s4 _ _ _ ⟨hkeeps s3 (s3.headD region63) 2 1 1 rfl ⟨0, by decide, by decide⟩
        (by decide) (by decide), by decide, rfl⟩ (Run.nil s4))
  exact ⟨by decide, hrun.1, hrun.2 haway⟩

/-- After 31 frames and then 32 the last frame of the first word is still free,
    but the hint has passed it: a request for one frame gets null. -/
theorem run_not_hint :
    ¬ ∀ start rs calls,
      (∀ r ∈ start, r.searchNextStartblock = 0 ∧ ∀ i < r.repeatcount, r.firstBitmap i = 0) →
      Run allocatorStep start calls rs → HintOnly rs ∧ NullOnlyFull rs := by
  intro hall
  let s1 := (allocatorCall [region63] (.alloc 31 1)).getD []
  let s2 := (allocatorCall s1 (.alloc 32 1)).getD []
  have hstart : ∀ r ∈ [region63], r.searchNextStartblock = 0 ∧
      ∀ i < r.repeatcount, r.firstBitmap i = 0 := by
    intro r hr
    rw [List.mem_singleton.mp hr]
    exact ⟨rfl, fun _ _ => rfl⟩
  have hhint := (hall [region63] s2 [.alloc 31 1, .alloc 32 1] hstart
    (Run.cons _ s1 _ _ _ ⟨by decide, rfl⟩ (Run.cons _ s2 _ _ _ ⟨by decide, rfl⟩ (Run.nil _)))).1
  have hsame := congrArg (Option.map Prod.fst) (hhint 1 1 (by decide) (by decide) (by decide))
  -- From the hint there is nothing; from word 0 there is the frame at 0x11f000.
  have hfrom : ((frameAlloc 1 1 s2).map withoutHints).map Prod.fst = some 0 := by decide
  have hzero : ((frameAlloc 1 1 (s2.map Region.forgetHint)).map withoutHints).map Prod.fst
      = some 0x11f000 := by decide
  rw [hfrom, hzero] at hsame
  exact absurd hsame (by decide)

end UnixP6
