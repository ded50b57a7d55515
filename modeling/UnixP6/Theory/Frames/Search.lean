import UnixP6.Theory.Frames.Scan
import Mathlib.Tactic.Ring

/-!
# First Fit over the Regions

The search of `frame_alloc`, from one word up to the whole chain. Within a
region it runs over the words from `search_next_startblock` to the last; over
the chain it takes the first region in which anything fits. `frameAlloc` is
first-fit for any request whose scan stays in step in every word searched,
which without alignment is every request.

A search also moves the starting points of the regions it passes. `forgetHint`
drops them, so that "nothing else changed" can be said of a chain.

## Main definitions

* `Region.FitsAt`: A run of a region that the search may return.
* `Region.FirstFit`: The run it does return.
* `SearchInStep`: The scan stays in step in every word it goes through.
* `Region.mark`: The region with a run taken.
* `frameAddr`: The address of a frame, as a number.

## Theorems

* `scanWords_spec`: The search of one bitmap.
* `allocFrom_spec`: The search of a chain of regions.
* `frameAlloc_spec`: Allocation is first-fit.
-/

namespace UnixP6

open CSemantics

namespace Region

/-- The region without its starting point. -/
def forgetHint (r : Region) : Region := { r with searchNextStartblock := 0 }

/-- The region with the run of `count` frames from bit `s` of word `i` taken. -/
def mark (r : Region) (i s count : Nat) : Region :=
  r.setWord i (setRun (r.firstBitmap i) (BitVec.twoPow 32 s) count)

/-- A run that fits in a word the search covers. -/
def FitsAt (r : Region) (count alignUp i s : Nat) : Prop :=
  r.searchNextStartblock.toNat ≤ i ∧ i < r.repeatcount ∧ Fits (r.firstBitmap i) count alignUp s

def HasFit (r : Region) (count alignUp : Nat) : Prop :=
  ∃ i s, r.FitsAt count alignUp i s

/-- The lowest word with a run that fits, and the lowest such run in it. -/
def FirstFit (r : Region) (count alignUp i s : Nat) : Prop :=
  r.FitsAt count alignUp i s ∧
    ∀ i' s', r.FitsAt count alignUp i' s' → i < i' ∨ (i = i' ∧ s ≤ s')

/-- The scan stays in step in every word it goes through before a run is found.
    A full word is passed over without a scan. -/
def SearchInStep (r : Region) (count alignUp : Nat) : Prop :=
  ∀ i, r.searchNextStartblock.toNat ≤ i → i < r.repeatcount → r.firstBitmap i ≠ 0xffffffff →
    (∀ k < i, ∀ s, ¬ r.FitsAt count alignUp k s) → InStep (r.firstBitmap i) count alignUp

end Region

/-- The address of frame `s` of word `i`, as a number. -/
def frameAddr (r : Region) (i s : Nat) : Nat := r.firstBlock.toNat + 4096 * (32 * i + s)

/-- The scan stays in step in every word it goes through before a run is found. -/
def SearchInStep (rs : List Region) (count alignUp : Nat) : Prop :=
  ∀ pre r post, rs = pre ++ r :: post → (∀ q ∈ pre, ¬ q.HasFit count alignUp) →
    r.SearchInStep count alignUp

theorem Region.searchInStep_one (r : Region) (count : Nat) : r.SearchInStep count 1 :=
  fun i _ _ _ _ => inStep_one (r.firstBitmap i) count

theorem searchInStep_one (rs : List Region) (count : Nat) : SearchInStep rs count 1 :=
  fun _ r _ _ _ => r.searchInStep_one count

/-! ### Regions up to their starting points -/

theorem fields_of_forgetHint (r r' : Region) (h : r'.forgetHint = r.forgetHint) :
    r'.firstBitmap = r.firstBitmap ∧ r'.blocksCount = r.blocksCount ∧
      r'.firstBlock = r.firstBlock := by
  simp only [Region.forgetHint, Region.mk.injEq, true_and] at h
  exact h

theorem forgetHint_mark (r r' : Region) (i s count : Nat) (h : r'.forgetHint = r.forgetHint) :
    (r'.mark i s count).forgetHint = (r.mark i s count).forgetHint := by
  rcases fields_of_forgetHint r r' h with ⟨hbitmap, hblocks, hfirst⟩
  simp only [Region.mark, Region.setWord, Region.forgetHint, hbitmap, hblocks, hfirst]

theorem forgetHint_startSearchAt (r : Region) (i : Nat) (move : Bool) :
    (r.startSearchAt i move).forgetHint = r.forgetHint := by
  cases move with
  | false => rfl
  | true => rfl

/-- A frame whose address does not wrap is where `calc_pageaddr` says. -/
theorem toNat_calcPageaddr (r : Region) (i s : Nat) (h : frameAddr r i s < 2 ^ 32) :
    (r.firstBlock + calcPageaddr i s).toNat = frameAddr r i s := by
  have hbits : (32 : Word).toNat = 32 := rfl
  have hframe : (4096 : Word).toNat = 4096 := rfl
  unfold frameAddr at h ⊢
  unfold calcPageaddr
  rw [BitVec.toNat_add, BitVec.toNat_mul, BitVec.toNat_add, BitVec.toNat_mul, BitVec.toNat_ofNat,
    BitVec.toNat_ofNat, hbits, hframe]
  omega

/-! ### The search -/

section Search

variable (count alignUp : Nat)

/-- What the search of `n` words from `i` on does: it takes the lowest run of
    the lowest word in which one fits, or it finds nothing and leaves the frames
    alone. -/
def WordsSpec (r : Region) (i n : Nat) (res : Option Word × Region) : Prop :=
  (∃ k s, i ≤ k ∧ k < i + n ∧ Fits (r.firstBitmap k) count alignUp s ∧
      (∀ q < s, ¬ Fits (r.firstBitmap k) count alignUp q) ∧
      (∀ l, i ≤ l → l < k → ∀ q, ¬ Fits (r.firstBitmap l) count alignUp q) ∧
      res.1 = some (r.firstBlock + calcPageaddr k s) ∧
      res.2.forgetHint = (r.mark k s count).forgetHint) ∨
    ((∀ l, i ≤ l → l < i + n → ∀ q, ¬ Fits (r.firstBitmap l) count alignUp q) ∧
      res.1 = none ∧ res.2.forgetHint = r.forgetHint)

/-- A word that fits nothing may be left out in front of a search. -/
theorem WordsSpec.skip (r r' : Region) (i n : Nat) (res : Option Word × Region)
    (hforget : r'.forgetHint = r.forgetHint)
    (hnone : ∀ q, ¬ Fits (r.firstBitmap i) count alignUp q)
    (h : WordsSpec count alignUp r' (i + 1) n res) : WordsSpec count alignUp r i (n + 1) res := by
  rcases fields_of_forgetHint r r' hforget with ⟨hbitmap, _, hfirst⟩
  have hcases : ∀ l, i ≤ l → l = i ∨ i + 1 ≤ l := fun l hl => by omega
  unfold WordsSpec at h
  rw [hbitmap, hfirst] at h
  rcases h with ⟨k, s, hk, hkn, hfit, hlow, hbefore, hres, hreg⟩ | ⟨hall, hres, hreg⟩
  · refine Or.inl ⟨k, s, by omega, by omega, hfit, hlow, fun l hl hlk q => ?_, hres,
      hreg.trans (forgetHint_mark r r' k s count hforget)⟩
    rcases hcases l hl with rfl | hl
    · exact hnone q
    · exact hbefore l hl hlk q
  · refine Or.inr ⟨fun l hl hln q => ?_, hres, hreg.trans hforget⟩
    rcases hcases l hl with rfl | hl
    · exact hnone q
    · exact hall l hl (by omega) q

/-- The search of the words of a bitmap is first-fit. -/
theorem scanWords_spec (hcount : 0 < count) (n : Nat) :
    ∀ (i : Nat) (isnotset : Bool) (r : Region),
      (∀ k, i ≤ k → k < i + n → r.firstBitmap k ≠ 0xffffffff →
        (∀ l, i ≤ l → l < k → ∀ s, ¬ Fits (r.firstBitmap l) count alignUp s) →
        InStep (r.firstBitmap k) count alignUp) →
      WordsSpec count alignUp r i n (scanWords count alignUp n i isnotset r) := by
  induction n with
  | zero =>
      intro i isnotset r _
      exact Or.inr ⟨fun l hl hl' => absurd hl (by omega), rfl, rfl⟩
  | succ n ih =>
      intro i isnotset r hin
      -- The rest of the search, once word `i` is known to fit nothing.
      have hrest : ∀ (b : Bool) (r' : Region), r'.forgetHint = r.forgetHint →
          (∀ q, ¬ Fits (r.firstBitmap i) count alignUp q) →
          WordsSpec count alignUp r i (n + 1) (scanWords count alignUp n (i + 1) b r') := by
        intro b r' hforget hnone
        refine WordsSpec.skip count alignUp r r' i n _ hforget hnone (ih (i + 1) b r' ?_)
        rw [(fields_of_forgetHint r r' hforget).1]
        intro k hk hkn hfull hlow
        refine hin k (by omega) (by omega) hfull (fun l hl hlk s => ?_)
        rcases Nat.eq_or_lt_of_le hl with rfl | hl
        · exact hnone s
        · exact hlow l hl hlk s
      rw [scanWords]
      -- A full word is passed over without a scan, and fits nothing anyway.
      by_cases hfull : r.firstBitmap i = 0xffffffff
      · rw [if_pos hfull]
        refine hrest isnotset r rfl (fun q hq => ?_)
        rw [hfull] at hq
        exact not_fits_full count alignUp q hcount hq
      rw [if_neg hfull]
      have hscan := scanBits_spec (r.firstBitmap i) count alignUp hcount
        (hin i (Nat.le_refl i) (by omega) hfull (fun l hl hli => absurd hl (by omega)))
      generalize scanBits (r.firstBitmap i) count alignUp 32 0
        { bit := 1, streak := 0, firstj := 0 } = scan at hscan ⊢
      have hforget := forgetHint_startSearchAt r i (isnotset && scan.2)
      rcases hscan with ⟨s, hfit, hlow, rfl⟩ | ⟨hnone, heq⟩
      · refine Or.inl ⟨i, s, Nat.le_refl i, by omega, hfit, hlow, fun l hl hli =>
          absurd hl (by omega), ?_, forgetHint_mark r _ i s count hforget⟩
        rw [← (fields_of_forgetHint r _ hforget).2.2]
      · simp only [heq]
        exact hrest _ _ hforget hnone

/-- The search of one region is first-fit. -/
theorem allocIn_spec (hcount : 0 < count) (r : Region) (hin : r.SearchInStep count alignUp) :
    (∃ i s, r.FirstFit count alignUp i s ∧
        (allocIn count alignUp r).1 = some (r.firstBlock + calcPageaddr i s) ∧
        (allocIn count alignUp r).2.forgetHint = (r.mark i s count).forgetHint) ∨
      (¬ r.HasFit count alignUp ∧ (allocIn count alignUp r).1 = none ∧
        (allocIn count alignUp r).2.forgetHint = r.forgetHint) := by
  have hspec := scanWords_spec count alignUp hcount (r.repeatcount - r.searchNextStartblock.toNat)
    r.searchNextStartblock.toNat true r (fun k hk hkn hfull hlow =>
      hin k hk (by omega) hfull (fun l hl s hfit => hlow l hfit.1 hl s hfit.2.2))
  rcases hspec with ⟨k, s, hk, hkn, hfit, hlow, hbefore, hres, hreg⟩ | ⟨hall, hres, hreg⟩
  · refine Or.inl ⟨k, s, ⟨⟨hk, by omega, hfit⟩, fun i' s' hfit' => ?_⟩, hres, hreg⟩
    -- No run fits in an earlier word, nor earlier in this one.
    rcases Nat.lt_trichotomy i' k with hlt | rfl | hgt
    · exact absurd hfit'.2.2 (hbefore i' hfit'.1 hlt s')
    · refine Or.inr ⟨rfl, ?_⟩
      by_contra hc
      exact hlow s' (by omega) hfit'.2.2
    · exact Or.inl hgt
  · refine Or.inr ⟨?_, hres, hreg⟩
    rintro ⟨i, s, hi, hir, hfit⟩
    exact hall i hi (by omega) s hfit

/-- What an allocation over the chain does: it takes the first fit of the first
    region that has one, or it finds nothing and leaves the frames alone. -/
def AllocSpec (rs : List Region) (res : Word × List Region) : Prop :=
  (∃ pre r post i s, rs = pre ++ r :: post ∧ (∀ q ∈ pre, ¬ q.HasFit count alignUp) ∧
      r.FirstFit count alignUp i s ∧ res.1 = r.firstBlock + calcPageaddr i s ∧
      res.2.map Region.forgetHint = (pre ++ r.mark i s count :: post).map Region.forgetHint) ∨
    ((∀ q ∈ rs, ¬ q.HasFit count alignUp) ∧ res.1 = 0 ∧
      res.2.map Region.forgetHint = rs.map Region.forgetHint)

/-- The search of the chain is first-fit. -/
theorem allocFrom_spec (hcount : 0 < count) (rs : List Region) :
    SearchInStep rs count alignUp →
      AllocSpec count alignUp rs (allocFrom count alignUp rs) := by
  induction rs with
  | nil => intro _; exact Or.inr ⟨fun q hq => absurd hq List.not_mem_nil, rfl, rfl⟩
  | cons r rs ih =>
      intro hin
      have hregion := allocIn_spec count alignUp hcount r
        (hin [] r rs rfl (fun q hq => absurd hq List.not_mem_nil))
      rcases hin' : allocIn count alignUp r with ⟨res, r'⟩
      rw [hin'] at hregion
      rcases hregion with ⟨i, s, hfirst, hres, hreg⟩ | ⟨hno, hres, hreg⟩
      · simp only at hres
        rw [allocFrom, hin', hres]
        refine Or.inl ⟨[], r, rs, i, s, rfl, fun q hq => absurd hq List.not_mem_nil, hfirst, rfl, ?_⟩
        simp only [List.nil_append, List.map_cons, hreg]
      · simp only at hres
        rw [allocFrom, hin', hres]
        -- What is in step for the chain is in step for the rest: the first region fits nothing.
        have hrest := ih (fun pre q post heq hpre => hin (r :: pre) q post (by rw [heq]; rfl)
          (fun p hp => by
            rcases List.mem_cons.mp hp with rfl | hp
            · exact hno
            · exact hpre p hp))
        rcases hrest with ⟨pre, q, post, i, s, heq, hpre, hfirst, hp, hregs⟩ | ⟨hall, hp, hregs⟩
        · refine Or.inl ⟨r :: pre, q, post, i, s, by rw [heq]; rfl, fun p hp' => ?_, hfirst, hp, ?_⟩
          · rcases List.mem_cons.mp hp' with rfl | hp'
            · exact hno
            · exact hpre p hp'
          · simp only [List.cons_append, List.map_cons, hreg, hregs]
        · refine Or.inr ⟨fun p hp' => ?_, hp, ?_⟩
          · rcases List.mem_cons.mp hp' with rfl | hp'
            · exact hno
            · exact hall p hp'
          · simp only [List.map_cons, hreg, hregs]

end Search

/-- `align_up` as the search uses it. -/
def effectiveAlign (alignUp : Word) : Nat := if alignUp = 0 then 1 else alignUp.toNat

theorem effectiveAlign_of_le_one (alignUp : Word) (h : alignUp ≤ 1) :
    effectiveAlign alignUp = 1 := by
  unfold effectiveAlign
  by_cases h0 : alignUp = 0
  · rw [if_pos h0]
  · rw [if_neg h0]
    bv_omega

/-- `frame_alloc` of a valid count is first-fit over the chain. -/
theorem frameAlloc_spec (count alignUp : Word) (rs : List Region) (hrs : rs ≠ [])
    (hpos : 0 < count.toNat) (hle : count.toNat ≤ 32)
    (hin : SearchInStep rs count.toNat (effectiveAlign alignUp)) :
    ∃ res, frameAlloc count alignUp rs = some res ∧
      AllocSpec count.toNat (effectiveAlign alignUp) rs res := by
  have hvalid : ¬ (count = 0 ∨ 32 < count) := by bv_omega
  refine ⟨_, ?_, allocFrom_spec count.toNat (effectiveAlign alignUp) hpos rs hin⟩
  rw [frameAlloc, if_neg hvalid, if_neg hrs, effectiveAlign]

end UnixP6
