import UnixP6.Theory.Frames.Index
import UnixP6.Theory.Frames.Search

/-!
# Frames in Use

What the bitmaps of a chain stand for: the set of bytes whose frames are marked
taken. When the regions are `Separate`, that is, when the addresses their
bitmap words cover neither overlap nor wrap, every frame has one bit in one
bitmap. An allocation then adds a range that was free to the set, and a release
that finds its own region, word and bit takes the range away again.

`frame_free` recovers these from the address alone, and not always the ones
`frame_alloc` used: `freeFrom_used` asks for a frame number that the region test
reaches and on which division by 31 and by 32 agree.

## Main definitions

* `Region.cover`: The addresses the bitmap words of a region cover.
* `Separate`: Covered addresses neither overlap nor wrap.
* `usedBytes`: The bytes of every frame marked taken.

## Theorems

* `Region.used_mark`, `Region.used_release`: Writing a run of bits.
* `AllocSpec.shape`: An allocation leaves every region where it is.
* `AllocSpec.used`: An allocation adds a free range.
* `freeFrom_used`: A release that finds its bits takes its range away.
-/

namespace UnixP6

open CSemantics

/-- The addresses the bitmap words of a region cover. -/
def Region.cover (r : Region) : Set Nat := span r.firstBlock.toNat (131072 * r.repeatcount)

/-- The bytes of the frames of a region that are marked taken. -/
def Region.used (r : Region) : Set Nat :=
  {a | ∃ i s, i < r.repeatcount ∧ s < 32 ∧ (r.firstBitmap i).getLsbD s = true ∧
    a ∈ span (frameAddr r i s) 4096}

/-- The bytes of the frames of a chain that are marked taken. -/
def usedBytes (rs : List Region) : Set Nat := {a | ∃ r ∈ rs, a ∈ r.used}

/-- Covered addresses do not wrap and do not overlap. -/
structure Separate (rs : List Region) : Prop where
  noWrap : ∀ r ∈ rs, r.firstBlock.toNat + 131072 * r.repeatcount ≤ 2 ^ 32
  apart : rs.Pairwise fun r q => Disjoint r.cover q.cover

/-- Where a region is and how long, without what its bitmap holds. -/
def Region.shape (r : Region) : Region :=
  { r with searchNextStartblock := 0, firstBitmap := fun _ => 0 }

/-! ### Chains that agree -/

theorem fields_of_shape (r q : Region) (h : q.shape = r.shape) :
    q.blocksCount = r.blocksCount ∧ q.firstBlock = r.firstBlock := by
  simp only [Region.shape, Region.mk.injEq, true_and] at h
  exact h

theorem separate_of_shape (rs rs' : List Region)
    (h : rs'.map Region.shape = rs.map Region.shape) (hsep : Separate rs) : Separate rs' := by
  have hto : Separate (rs.map Region.shape) := by
    refine ⟨fun r hr => ?_, List.pairwise_map.mpr hsep.apart⟩
    rcases List.mem_map.mp hr with ⟨q, hq, rfl⟩
    exact hsep.noWrap q hq
  rw [← h] at hto
  have hapart := hto.apart
  rw [List.pairwise_map] at hapart
  exact ⟨fun r hr => hto.noWrap r.shape (List.mem_map_of_mem hr), hapart⟩

theorem shape_eq_of_forgetHint (r r' : Region) (h : r'.forgetHint = r.forgetHint) :
    r'.shape = r.shape := by
  rcases fields_of_forgetHint r r' h with ⟨_, hblocks, hfirst⟩
  simp only [Region.shape, hblocks, hfirst]

theorem shape_of_forgetHint (rs rs' : List Region)
    (h : rs'.map Region.forgetHint = rs.map Region.forgetHint) :
    rs'.map Region.shape = rs.map Region.shape := by
  have hsame := congrArg (List.map Region.shape) h
  rw [List.map_map, List.map_map] at hsame
  exact hsame

theorem usedBytes_of_forgetHint (rs rs' : List Region)
    (h : rs'.map Region.forgetHint = rs.map Region.forgetHint) : usedBytes rs' = usedBytes rs := by
  have hmap : ∀ qs : List Region, usedBytes (qs.map Region.forgetHint) = usedBytes qs := by
    intro qs
    ext a
    constructor
    · rintro ⟨r, hr, ha⟩
      rcases List.mem_map.mp hr with ⟨q, hq, rfl⟩
      exact ⟨q, hq, ha⟩
    · rintro ⟨r, hr, ha⟩
      exact ⟨r.forgetHint, List.mem_map_of_mem hr, ha⟩
  rw [← hmap rs', h, hmap rs]

theorem usedBytes_middle (pre post : List Region) (r : Region) :
    usedBytes (pre ++ r :: post) = r.used ∪ usedBytes (pre ++ post) := by
  ext a
  constructor
  · rintro ⟨q, hq, ha⟩
    rcases List.mem_append.mp hq with hq | hq
    · exact Or.inr ⟨q, List.mem_append_left post hq, ha⟩
    · rcases List.mem_cons.mp hq with rfl | hq
      · exact Or.inl ha
      · exact Or.inr ⟨q, List.mem_append_right pre hq, ha⟩
  · rintro (ha | ⟨q, hq, ha⟩)
    · exact ⟨r, List.mem_append_right pre List.mem_cons_self, ha⟩
    · rcases List.mem_append.mp hq with hq | hq
      · exact ⟨q, List.mem_append_left _ hq, ha⟩
      · exact ⟨q, List.mem_append_right pre (List.mem_cons_of_mem r hq), ha⟩

/-! ### One region -/

/-- A frame lies in what its region covers. -/
theorem span_frame_subset (r : Region) (i s count : Nat) (hi : i < r.repeatcount)
    (hs : s + count ≤ 32) : span (frameAddr r i s) (4096 * count) ⊆ r.cover := by
  unfold frameAddr
  exact span_subset _ _ _ _ (by omega) (by omega)

/-- The bytes of a run of frames are those of its frames. -/
theorem mem_span_frames (r : Region) (i s count a : Nat) :
    a ∈ span (frameAddr r i s) (4096 * count)
      ↔ ∃ b, s ≤ b ∧ b < s + count ∧ a ∈ span (frameAddr r i b) 4096 := by
  simp only [Set.mem_Ico, frameAddr]
  constructor
  · rintro ⟨hlo, hhi⟩
    refine ⟨s + (a - (r.firstBlock.toNat + 4096 * (32 * i + s))) / 4096, ?_, ?_, ?_⟩ <;> omega
  · rintro ⟨b, hsb, hbs, hlo, hhi⟩
    omega

/-- No byte lies in two frames of a region. -/
theorem frame_unique (r : Region) (i s i' s' a : Nat) (hs : s < 32) (hs' : s' < 32)
    (h : a ∈ span (frameAddr r i s) 4096) (h' : a ∈ span (frameAddr r i' s') 4096) :
    i = i' ∧ s = s' := by
  simp only [Set.mem_Ico, frameAddr] at h h'
  omega

theorem Region.used_subset (r : Region) : r.used ⊆ r.cover := by
  rintro a ⟨i, s, hi, hs, _, ha⟩
  exact span_frame_subset r i s 1 hi (by omega) ha

/-- A clear run is not in use. -/
theorem Region.used_disjoint (r : Region) (i s count : Nat) (hs : s + count ≤ 32)
    (hclear : RunClear (r.firstBitmap i) s count) :
    Disjoint r.used (span (frameAddr r i s) (4096 * count)) := by
  rw [Set.disjoint_left]
  rintro a ⟨j, b, _, hb, hset, ha⟩ hrun
  rcases (mem_span_frames r i s count a).mp hrun with ⟨b', hsb, hbs, ha'⟩
  -- A byte of both would be in a frame whose bit is set and clear.
  rcases frame_unique r j b i b' a hb (by omega) ha ha' with ⟨rfl, rfl⟩
  have hoff := hclear (b - s) (by omega)
  rw [show s + (b - s) = b by omega, hset] at hoff
  exact absurd hoff Bool.true_eq_false.mp

/-- Taking a run adds its bytes. -/
theorem Region.used_mark (r : Region) (i s count : Nat) (hi : i < r.repeatcount)
    (hs : s + count ≤ 32) :
    (r.mark i s count).used = r.used ∪ span (frameAddr r i s) (4096 * count) := by
  -- Bit by bit: taken before, or one of the run.
  have hbit : ∀ j b, b < 32 → (((r.mark i s count).firstBitmap j).getLsbD b = true ↔
      (r.firstBitmap j).getLsbD b = true ∨ (j = i ∧ s ≤ b ∧ b < s + count)) := by
    intro j b hb
    simp only [Region.mark, Region.setWord]
    by_cases hj : j = i
    · rw [if_pos hj, getLsbD_setRun, Bool.or_eq_true, decide_eq_true_eq, hj]
      simp only [hb, and_true, true_and]
    · rw [if_neg hj]
      simp only [hj, false_and, or_false]
  ext a
  constructor
  · rintro ⟨j, b, hj, hb, hset, ha⟩
    rcases (hbit j b hb).mp hset with hold | ⟨rfl, hsb, hbs⟩
    · exact Or.inl ⟨j, b, hj, hb, hold, ha⟩
    · exact Or.inr ((mem_span_frames r j s count a).mpr ⟨b, hsb, hbs, ha⟩)
  · rintro (⟨j, b, hj, hb, hset, ha⟩ | hrun)
    · exact ⟨j, b, hj, hb, (hbit j b hb).mpr (Or.inl hset), ha⟩
    · rcases (mem_span_frames r i s count a).mp hrun with ⟨b, hsb, hbs, ha⟩
      exact ⟨i, b, hi, by omega, (hbit i b (by omega)).mpr (Or.inr ⟨rfl, hsb, hbs⟩), ha⟩

/-- The region with the run of `count` frames from bit `s` of word `i` given
    back. -/
def Region.release (r : Region) (i s count : Nat) : Region :=
  r.setWord i (clearRun (r.firstBitmap i) (BitVec.twoPow 32 s) count)

/-- Giving a run back takes its bytes away. -/
theorem Region.used_release (r : Region) (i s count : Nat) (hs : s + count ≤ 32) :
    (r.release i s count).used = r.used \ span (frameAddr r i s) (4096 * count) := by
  -- Bit by bit: taken before, and none of the run.
  have hbit : ∀ j b, b < 32 → (((r.release i s count).firstBitmap j).getLsbD b = true ↔
      (r.firstBitmap j).getLsbD b = true ∧ ¬ (j = i ∧ s ≤ b ∧ b < s + count)) := by
    intro j b hb
    simp only [Region.release, Region.setWord]
    by_cases hj : j = i
    · rw [if_pos hj, getLsbD_clearRun, Bool.and_eq_true, Bool.not_eq_true',
        decide_eq_false_iff_not, hj]
      simp only [hb, and_true, true_and]
    · rw [if_neg hj]
      simp only [hj, false_and, not_false_eq_true, and_true]
  ext a
  constructor
  · rintro ⟨j, b, hj, hb, hset, ha⟩
    rcases (hbit j b hb).mp hset with ⟨hold, hno⟩
    refine ⟨⟨j, b, hj, hb, hold, ha⟩, fun hrun => ?_⟩
    rcases (mem_span_frames r i s count a).mp hrun with ⟨b', hsb, hbs, ha'⟩
    rcases frame_unique r j b i b' a hb (by omega) ha ha' with ⟨rfl, rfl⟩
    exact hno ⟨rfl, hsb, hbs⟩
  · rintro ⟨⟨j, b, hj, hb, hset, ha⟩, hno⟩
    refine ⟨j, b, hj, hb, (hbit j b hb).mpr ⟨hset, ?_⟩, ha⟩
    rintro ⟨rfl, hsb, hbs⟩
    exact hno ((mem_span_frames r j s count a).mpr ⟨b, hsb, hbs, ha⟩)

/-! ### The chain -/

/-- In a separate chain a region shares no address with the others. -/
theorem Separate.cover_disjoint (pre post : List Region) (r : Region)
    (h : Separate (pre ++ r :: post)) : ∀ q ∈ pre ++ post, Disjoint q.cover r.cover := by
  have hp := h.apart
  rw [List.pairwise_append, List.pairwise_cons] at hp
  intro q hq
  rcases List.mem_append.mp hq with hq | hq
  · exact hp.2.2 q hq r List.mem_cons_self
  · exact (hp.2.1.1 q hq).symm

theorem Separate.used_disjoint (pre post : List Region) (r : Region)
    (h : Separate (pre ++ r :: post)) : Disjoint (usedBytes (pre ++ post)) r.cover := by
  rw [Set.disjoint_left]
  rintro a ⟨q, hq, ha⟩ har
  exact Set.disjoint_left.mp (h.cover_disjoint pre post r q hq) (q.used_subset ha) har

/-- An allocation leaves every region where it is. -/
theorem AllocSpec.shape (count alignUp : Nat) (rs : List Region) (res : Word × List Region)
    (h : AllocSpec count alignUp rs res) :
    res.2.map Region.shape = rs.map Region.shape := by
  rcases h with ⟨pre, r, post, i, s, rfl, _, _, _, hregs⟩ | ⟨_, _, hregs⟩
  · rw [shape_of_forgetHint _ _ hregs, List.map_append, List.map_append, List.map_cons,
      List.map_cons]
    rfl
  · exact shape_of_forgetHint _ _ hregs

/-- An allocation adds a range that was not in use, or changes nothing. -/
theorem AllocSpec.used (count alignUp : Nat) (hcount : 0 < count) (rs : List Region)
    (res : Word × List Region) (hsep : Separate rs) (h : AllocSpec count alignUp rs res) :
    (∃ pre r post i s, rs = pre ++ r :: post ∧ i < r.repeatcount ∧
        Fits (r.firstBitmap i) count alignUp s ∧ res.1.toNat = frameAddr r i s ∧
        res.2.map Region.forgetHint = (pre ++ r.mark i s count :: post).map Region.forgetHint ∧
        usedBytes res.2 = usedBytes rs ∪ span res.1.toNat (4096 * count) ∧
        Disjoint (usedBytes rs) (span res.1.toNat (4096 * count)) ∧
        res.2.map Region.shape = rs.map Region.shape) ∨
      (res.1 = 0 ∧ usedBytes res.2 = usedBytes rs ∧
        res.2.map Region.shape = rs.map Region.shape) := by
  have hshape := h.shape count alignUp rs res
  rcases h with ⟨pre, r, post, i, s, rfl, _, hfirst, hp, hregs⟩ | ⟨_, hp, hregs⟩
  · have hi := hfirst.1.2.1
    have hfit := hfirst.1.2.2
    have hwidth := hfit.inWord
    have hwrap := hsep.noWrap r (List.mem_append_right pre List.mem_cons_self)
    -- The chain does not wrap, so the address is the frame.
    have haddr : res.1.toNat = frameAddr r i s := by
      rw [hp]
      refine toNat_calcPageaddr r i s ?_
      unfold frameAddr
      omega
    have hrun := span_frame_subset r i s count hi hwidth
    refine Or.inl ⟨pre, r, post, i, s, rfl, hi, hfit, haddr, hregs, ?_, ?_, hshape⟩
    · rw [usedBytes_of_forgetHint _ _ hregs, usedBytes_middle, usedBytes_middle, haddr,
        Region.used_mark r i s count hi hwidth, Set.union_right_comm]
    · rw [haddr, usedBytes_middle, Set.disjoint_union_left]
      exact ⟨Region.used_disjoint r i s count hwidth hfit.clear,
        (hsep.used_disjoint pre post r).mono_right hrun⟩
  · exact Or.inr ⟨hp, usedBytes_of_forgetHint _ _ hregs, hshape⟩

/-- The region test accepts only addresses the region covers. -/
theorem Region.mem_cover_of_owns (r : Region) (addr : Word)
    (hwrap : r.firstBlock.toNat + 131072 * r.repeatcount ≤ 2 ^ 32) (h : r.owns addr = true) :
    addr.toNat ∈ r.cover := by
  have hnowrap := hwrap
  unfold Region.repeatcount at hnowrap
  simp only [Region.owns, Bool.and_eq_true, decide_eq_true_eq] at h
  have hsum : (r.firstBlock + r.blocksCount).toNat = r.firstBlock.toNat + r.blocksCount.toNat := by
    bv_omega
  rcases h with ⟨hlo, hhi⟩
  rw [BitVec.le_def] at hlo hhi
  rw [hsum] at hhi
  refine Set.mem_Ico.mpr ⟨hlo, ?_⟩
  unfold Region.repeatcount
  omega

/-- The region and the bits `frame_free` computes from the address of a frame it
    reaches, when dividing by 31 and by 32 agree. -/
theorem freeFrames_eq (r : Region) (addr : Word) (i s count : Nat) (hs : s + count ≤ 32)
    (hcount : 0 < count) (haddr : addr.toNat = frameAddr r i s) (hagree : (32 * i + s) % 992 < 31) :
    r.freeFrames addr count = r.release i s count := by
  unfold frameAddr at haddr
  have hn : ((addr - r.firstBlock) / 4096).toNat = 32 * i + s := by
    rw [BitVec.toNat_udiv, show (4096 : Word).toNat = 4096 from rfl]
    bv_omega
  -- Here the two divisions have to agree.
  have hbit : (32 * i + s) % 31 = s := by omega
  have hword : (32 * i + s - s) / 32 = i := by omega
  have hroom : ¬ 32 - s < count := by omega
  rw [freeFrames_index r addr (32 * i + s) count hn, hbit, hword, if_neg hroom]
  rfl

/-- A release of a frame the region test reaches, on whose number division by 31
    and by 32 agree, takes its range away and changes nothing else. -/
theorem freeFrom_used (pre post : List Region) (r : Region) (addr : Word) (i s count : Nat)
    (hsep : Separate (pre ++ r :: post)) (hi : i < r.repeatcount) (hs : s + count ≤ 32)
    (hcount : 0 < count) (haddr : addr.toNat = frameAddr r i s)
    (hreach : 4096 * (32 * i + s) ≤ r.blocksCount.toNat) (hagree : (32 * i + s) % 992 < 31) :
    usedBytes (freeFrom addr count (pre ++ r :: post))
        = usedBytes (pre ++ r :: post) \ span addr.toNat (4096 * count) ∧
      (freeFrom addr count (pre ++ r :: post)).map Region.shape
        = (pre ++ r :: post).map Region.shape := by
  have hwrap := hsep.noWrap r (List.mem_append_right pre List.mem_cons_self)
  have hcover : addr.toNat ∈ r.cover := by
    rw [haddr]
    refine span_frame_subset r i s 1 hi (by omega) (Set.mem_Ico.mpr ⟨Nat.le_refl _, by omega⟩)
  -- The region test compares bytes with blocks, which `hreach` allows for.
  have howns : r.owns addr = true := by
    unfold Region.repeatcount at hwrap
    unfold frameAddr at haddr
    simp only [Region.owns, Bool.and_eq_true, decide_eq_true_eq]
    exact ⟨by bv_omega, by bv_omega⟩
  -- The regions before it do not recognise the address.
  have hfirst : ∀ q ∈ pre, q.owns addr = false := by
    intro q hq
    rw [Bool.eq_false_iff]
    intro hown
    have hq' := q.mem_cover_of_owns addr (hsep.noWrap q (List.mem_append_left _ hq)) hown
    exact Set.disjoint_left.mp (hsep.cover_disjoint pre post r q
      (List.mem_append_left post hq)) hq' hcover
  rw [freeFrom_first pre post r addr count hfirst howns,
    freeFrames_eq r addr i s count hs hcount haddr hagree]
  constructor
  · have hrest := (hsep.used_disjoint pre post r).mono_right (span_frame_subset r i s count hi hs)
    rw [usedBytes_middle, usedBytes_middle, Region.used_release r i s count hs, haddr,
      Set.union_sdiff_distrib, hrest.sdiff_eq_left]
  · rw [List.map_append, List.map_append, List.map_cons, List.map_cons]
    rfl

end UnixP6
