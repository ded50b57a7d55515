import UnixP6.Theory.Frames.Used

/-!
# First Fit by Place

The search of `frame_alloc` said in terms of places. A run has a place: the
region by its number in the chain, the word, and the bit it starts at. Places
are ordered as the search meets them, region first, then word, then bit, and
the run that is taken is the least one.

What changes is said bit by bit. A call that returns an address sets the bits of
its run and no other bit of any region; a call that finds nothing changes no
bit.

## Main definitions

* `RunAt`: A run the search may return, by its place.
* `FirstRun`: The run with the least place.
* `bitAt`: A bit of the bitmaps of a chain.

## Theorems

* `runAt_iff`: The runs by place are the runs that fit.
* `bitAt_mark`: The bits after a run is taken.
* `frameAlloc_firstFit`: Allocation without alignment takes the first run.
-/

namespace UnixP6

open CSemantics

/-- A run of clear bits within a word the search covers: word `i` of region `n`
    of the chain, from bit `s` on. -/
def RunAt (rs : List Region) (count n i s : Nat) : Prop :=
  ∃ r, rs[n]? = some r ∧ r.searchNextStartblock.toNat ≤ i ∧ i ≤ r.blocksCount.toNat / 32 ∧
    s + count ≤ 32 ∧ RunClear (r.firstBitmap i) s count

/-- The run that comes first by region, then by word, then by bit. -/
def FirstRun (rs : List Region) (count n i s : Nat) : Prop :=
  RunAt rs count n i s ∧
    ∀ n' i' s', RunAt rs count n' i' s' → n < n' ∨ n = n' ∧ (i < i' ∨ i = i' ∧ s ≤ s')

/-- Bit `b` of word `i` of region `n` of the chain. -/
def bitAt (rs : List Region) (n i b : Nat) : Bool :=
  (rs[n]?).any fun r => (r.firstBitmap i).getLsbD b

theorem runAt_iff (rs : List Region) (count n i s : Nat) :
    RunAt rs count n i s ↔ ∃ r, rs[n]? = some r ∧ r.FitsAt count 1 i s := by
  unfold RunAt Region.FitsAt Region.repeatcount
  constructor
  · rintro ⟨r, hr, hlo, hhi, hwidth, hclear⟩
    exact ⟨r, hr, hlo, Nat.lt_succ_of_le hhi, one_dvd s, hwidth, hclear⟩
  · rintro ⟨r, hr, hlo, hhi, hfit⟩
    exact ⟨r, hr, hlo, Nat.le_of_lt_succ hhi, hfit.inWord, hfit.clear⟩

/-- The first fit of the first region that has one has the least place. -/
theorem firstRun_middle (pre post : List Region) (r : Region) (count i s : Nat)
    (hpre : ∀ q ∈ pre, ¬ q.HasFit count 1) (hfirst : r.FirstFit count 1 i s) :
    FirstRun (pre ++ r :: post) count pre.length i s := by
  have hget : (pre ++ r :: post)[pre.length]? = some r := by
    rw [List.getElem?_append_right (Nat.le_refl _), Nat.sub_self, List.getElem?_cons_zero]
  refine ⟨(runAt_iff _ count _ i s).mpr ⟨r, hget, hfirst.1⟩, fun n' i' s' hrun => ?_⟩
  rcases (runAt_iff _ count n' i' s').mp hrun with ⟨q, hq, hfit⟩
  rcases Nat.lt_trichotomy n' pre.length with hlt | rfl | hgt
  · -- An earlier region has no run at all.
    rw [List.getElem?_append_left hlt] at hq
    exact absurd ⟨i', s', hfit⟩ (hpre q (List.mem_of_getElem? hq))
  · rw [hget, Option.some.injEq] at hq
    rw [← hq] at hfit
    exact Or.inr ⟨rfl, hfirst.2 i' s' hfit⟩
  · exact Or.inl hgt

/-! ### The bits of a chain -/

/-- The bits of a chain do not depend on where its searches start. -/
theorem bitAt_of_forgetHint (rs rs' : List Region)
    (h : rs'.map Region.forgetHint = rs.map Region.forgetHint) (n i b : Nat) :
    bitAt rs' n i b = bitAt rs n i b := by
  have hmap : ∀ qs : List Region, bitAt (qs.map Region.forgetHint) n i b = bitAt qs n i b := by
    intro qs
    unfold bitAt
    rw [List.getElem?_map]
    cases qs[n]? with
    | none => rfl
    | some q => rfl
  rw [← hmap rs', h, hmap rs]

/-- Taking a run sets its bits and leaves the others as they are. -/
theorem bitAt_mark (pre post : List Region) (r : Region) (count i s n j b : Nat)
    (hwidth : s + count ≤ 32) :
    bitAt (pre ++ r.mark i s count :: post) n j b
      = (bitAt (pre ++ r :: post) n j b
          || decide (n = pre.length ∧ j = i ∧ s ≤ b ∧ b < s + count)) := by
  unfold bitAt
  by_cases hn : n = pre.length
  · rw [hn, List.getElem?_append_right (Nat.le_refl _), List.getElem?_append_right (Nat.le_refl _),
      Nat.sub_self, List.getElem?_cons_zero, List.getElem?_cons_zero, Option.any_some,
      Option.any_some]
    simp only [Region.mark, Region.setWord, true_and]
    by_cases hj : j = i
    · rw [if_pos hj, getLsbD_setRun, hj]
      congr 1
      rw [decide_eq_decide]
      omega
    · rw [if_neg hj]
      simp only [hj, false_and, decide_false, Bool.or_false]
  · -- Another region is where it was, and as it was.
    have hsame : (pre ++ r.mark i s count :: post)[n]? = (pre ++ r :: post)[n]? := by
      rcases Nat.lt_or_gt_of_ne hn with hlt | hgt
      · rw [List.getElem?_append_left hlt, List.getElem?_append_left hlt]
      · rw [List.getElem?_append_right (Nat.le_of_lt hgt),
          List.getElem?_append_right (Nat.le_of_lt hgt), List.getElem?_cons, List.getElem?_cons,
          if_neg (Nat.sub_ne_zero_of_lt hgt), if_neg (Nat.sub_ne_zero_of_lt hgt)]
    rw [hsame]
    simp only [hn, false_and, decide_false, Bool.or_false]

/-- `frame_alloc` without alignment takes the first run of the chain. It sets the
    bits of that run and no others, or finds no run and sets none. -/
theorem frameAlloc_firstFit (count alignUp : Word) (rs : List Region) (hrs : rs ≠ [])
    (hpos : 0 < count.toNat) (hle : count.toNat ≤ 32) (halign : alignUp ≤ 1) :
    ∃ p rs', frameAlloc count alignUp rs = some (p, rs') ∧
      rs'.map Region.shape = rs.map Region.shape ∧
      ((∃ n i s r, rs[n]? = some r ∧ FirstRun rs count.toNat n i s ∧
          p = r.firstBlock + BitVec.ofNat 32 (4096 * (32 * i + s)) ∧
          ∀ n' i' b, bitAt rs' n' i' b = (bitAt rs n' i' b ||
            decide (n' = n ∧ i' = i ∧ s ≤ b ∧ b < s + count.toNat))) ∨
        ((∀ n i s, ¬ RunAt rs count.toNat n i s) ∧ p = 0 ∧
          ∀ n' i' b, bitAt rs' n' i' b = bitAt rs n' i' b)) := by
  have hone := effectiveAlign_of_le_one alignUp halign
  have hin : SearchInStep rs count.toNat (effectiveAlign alignUp) := by
    rw [hone]
    exact searchInStep_one rs count.toNat
  rcases frameAlloc_spec count alignUp rs hrs hpos hle hin with ⟨⟨p, rs'⟩, hres, hspec⟩
  rw [hone] at hspec
  refine ⟨p, rs', hres, hspec.shape count.toNat 1 rs (p, rs'), ?_⟩
  rcases hspec with ⟨pre, r, post, i, s, rfl, hpre, hfirst, hp, hregs⟩ | ⟨hno, hp, hregs⟩
  · refine Or.inl ⟨pre.length, i, s, r, ?_, firstRun_middle pre post r count.toNat i s hpre hfirst,
      ?_, fun n' i' b => ?_⟩
    · rw [List.getElem?_append_right (Nat.le_refl _), Nat.sub_self, List.getElem?_cons_zero]
    · rw [← calcPageaddr_eq]
      exact hp
    · rw [bitAt_of_forgetHint _ _ hregs,
        bitAt_mark pre post r count.toNat i s n' i' b hfirst.1.2.2.inWord]
  · refine Or.inr ⟨fun n i s hrun => ?_, hp, bitAt_of_forgetHint rs rs' hregs⟩
    rcases (runAt_iff rs count.toNat n i s).mp hrun with ⟨r, hr, hfit⟩
    exact hno r (List.mem_of_getElem? hr) ⟨i, s, hfit⟩

/-- A region whose search starts at its second word, with a hole of one frame
    in every word. -/
def holed : Region :=
  { searchNextStartblock := 1, firstBitmap := fun _ => 0b1011, blocksCount := 64,
    firstBlock := 0x100000 }

theorem frameAlloc_firstFit_holed : ∃ p rs', frameAlloc 4 0 [holed] = some (p, rs') ∧
    rs'.map Region.shape = [holed.shape] ∧ p = 0x124000 := by
  rcases frameAlloc_firstFit 4 0 [holed] (List.cons_ne_nil _ _) (by decide) (by decide)
    (by decide) with ⟨p, rs', hres, hshape, _⟩
  have hp : (frameAlloc 4 0 [holed]).map Prod.fst = some 0x124000 := by decide
  rw [hres, Option.map_some, Option.some.injEq] at hp
  exact ⟨p, rs', hres, hshape, hp⟩

end UnixP6
