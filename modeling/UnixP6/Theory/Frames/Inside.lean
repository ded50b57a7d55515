import UnixP6.Theory.Boot.Calc
import UnixP6.Theory.Frames.Session

/-!
# Frames inside their Region

Whether the frames handed out are frames of memory at all. A bitmap has
`blocks_count / 32 + 1` words, so its last word always has bits for which there
is no frame, and these bits start out clear like the others. They stand for the
pages from the bitmap itself on. The search reaches them as soon as the region
has no run left among its own frames, before it goes on to the next region.

`FitsInside` asks that the first region with a run to offer has one among its
own frames. It also asks that this region has at least four bytes, since the
division of fewer yields a number of frames that has nothing to do with them.

## Main definitions

* `LaidOut`: A region as `mm_initmemblock` divides a range of memory.
* `Region.frames`: The bytes of the frames of a region.
* `FrameSession.FitsInside`: The requests met by frames of a region.

## Theorems

* `allocSpec_inside`: Such a request gets frames of one region.
* `run_inside`: Every run of such requests gets frames of a region each time.
-/

namespace UnixP6

open CSemantics

/-- The region takes up a range of `len` bytes and has as many frames as
    `calc_blocks_and_bitmaps` finds room for. -/
def LaidOut (r : Region) (len : Word) : Prop :=
  (∃ bitmaps, calcBlocksAndBitmaps len = some (r.blocksCount, bitmaps)) ∧
    r.firstBlock.toNat + len.toNat ≤ 2 ^ 32

/-- The bytes of the frames of a region, up to its bitmap. -/
def Region.frames (r : Region) : Set Nat := span r.firstBlock.toNat (4096 * r.blocksCount.toNat)

namespace FrameSession

/-- The first region with a run to offer has one among its own frames, and is
    at least four bytes long. -/
def FitsInside (s : FrameSession) : FrameCall → Prop
  | .alloc count _ => ∀ pre r post, s.regions = pre ++ r :: post →
      (∀ q ∈ pre, ¬ q.HasFit count.toNat 1) → r.HasFit count.toNat 1 →
      (∃ i k, r.FitsAt count.toNat 1 i k ∧ 32 * i + k + count.toNat ≤ r.blocksCount.toNat) ∧
        ∃ len, 4 ≤ len.toNat ∧ LaidOut r len
  | .free _ _ => True

/-- A request that fits inside gets frames of one region, or null. -/
theorem allocSpec_inside (s : FrameSession) (count alignUp : Word) (res : Word × List Region)
    (hpos : 0 < count.toNat) (hinside : s.FitsInside (.alloc count alignUp))
    (h : AllocSpec count.toNat 1 s.regions res) (hp : res.1 ≠ 0) :
    ∃ r ∈ s.regions, rangeOf (res.1, count) ⊆ r.frames := by
  rcases h with ⟨pre, r, post, i, k, hregs, hpre, hfirst, hres, _⟩ | ⟨_, hnull, _⟩
  · rcases hinside pre r post hregs hpre ⟨i, k, hfirst.1⟩ with
      ⟨⟨i', k', hfit', hroom⟩, len, hlen, ⟨bitmaps, hcalc⟩, hwrap⟩
    -- The frames counted fit into the range, so no address below wraps.
    have hframes := calc_le len hlen r.blocksCount bitmaps hcalc
    -- The run taken is the lowest, so it ends no later than the one inside.
    have hlow : 32 * i + k + count.toNat ≤ r.blocksCount.toNat := by
      have hwidth := hfirst.1.2.2.inWord
      have hwidth' := hfit'.2.2.inWord
      rcases hfirst.2 i' k' hfit' with hlt | ⟨rfl, hle⟩ <;> omega
    have haddr : res.1.toNat = frameAddr r i k := by
      rw [hres]
      refine toNat_calcPageaddr r i k ?_
      unfold frameAddr
      omega
    refine ⟨r, ?_, ?_⟩
    · rw [hregs]
      exact List.mem_append_right pre List.mem_cons_self
    · unfold rangeOf Region.frames
      simp only [haddr]
      unfold frameAddr
      exact span_subset _ _ _ _ (by omega) (by omega)
  · exact absurd hnull hp

/-- The chain keeps its shape whatever is allocated from it. -/
theorem allocSpec_shape (count alignUp : Nat) (rs : List Region) (res : Word × List Region)
    (h : AllocSpec count alignUp rs res) : res.2.map Region.shape = rs.map Region.shape := by
  rcases h with ⟨pre, r, post, i, k, rfl, _, _, _, hregs⟩ | ⟨_, _, hregs⟩
  · rw [shape_of_forgetHint _ _ hregs, List.map_append, List.map_append, List.map_cons,
      List.map_cons]
    rfl
  · exact shape_of_forgetHint _ _ hregs

theorem frames_of_shape (rs rs' : List Region) (a : Set Nat)
    (h : rs'.map Region.shape = rs.map Region.shape) (hin : ∃ r ∈ rs', a ⊆ r.frames) :
    ∃ r ∈ rs, a ⊆ r.frames := by
  rcases hin with ⟨r, hr, ha⟩
  have hmem : r.shape ∈ rs.map Region.shape := by
    rw [← h]
    exact List.mem_map_of_mem hr
  rcases List.mem_map.mp hmem with ⟨q, hq, hqr⟩
  rcases fields_of_shape r q hqr with ⟨hblocks, hfirst⟩
  refine ⟨q, hq, ?_⟩
  unfold Region.frames at ha ⊢
  rw [hblocks, hfirst]
  exact ha

/-- In every run of requests that fit inside, each range handed out consists of
    frames of one region. -/
theorem run_inside (rs : List Region) (hrs : rs ≠ []) (calls : List FrameCall) (s : FrameSession)
    (hrun : Run (Guarded (fun s c => c.IsAlloc ∧ c.Plain ∧ s.FitsInside c) Step)
      (start rs) calls s) :
    ∀ pc ∈ s.live, ∃ r ∈ rs, rangeOf pc ⊆ r.frames := by
  have hinv := Run.invariant (Guarded (fun s c => c.IsAlloc ∧ c.Plain ∧ s.FitsInside c) Step)
    (fun s => s.regions.map Region.shape = rs.map Region.shape ∧
      ∀ pc ∈ s.live, ∃ r ∈ rs, rangeOf pc ⊆ r.frames)
    (fun s c t ⟨hshape, hlive⟩ ⟨⟨hisAlloc, hplain, hinside⟩, hallowed, hcall⟩ => by
      cases c with
      | free ptr count => exact absurd hisAlloc not_false
      | alloc count alignUp =>
          -- No alignment is asked for, so every run of free bits is a candidate.
          have halign := effectiveAlign_of_le_one alignUp hplain
          have hne := nonempty_of_shape rs s.regions hshape hrs
          rcases frameAlloc_spec count alignUp s.regions hne hallowed.1 hallowed.2
            (by rw [halign]; exact searchInStep_one _ _) with ⟨res, hres, hspec⟩
          simp only [call, hres, Option.map_some, Option.some.injEq] at hcall
          rw [← hcall]
          refine ⟨(allocSpec_shape _ _ s.regions res hspec).trans hshape, fun pc hpc => ?_⟩
          by_cases hnull : res.1 = 0
          · rw [if_pos hnull] at hpc
            exact hlive pc hpc
          · -- What is new is the answer, what is old was there before.
            rw [if_neg hnull] at hpc
            rcases List.mem_cons.mp hpc with rfl | hpc
            · rw [halign] at hspec
              exact frames_of_shape rs s.regions _ hshape
                (allocSpec_inside s count alignUp res hallowed.1 hinside hspec hnull)
            · exact hlive pc hpc)
    (start rs) s calls hrun ⟨rfl, fun pc hpc => absurd hpc List.not_mem_nil⟩
  exact hinv.2

/-- A region of two frames at one megabyte, over three pages. -/
def region2 : Region :=
  { searchNextStartblock := 0, firstBitmap := fun _ => 0, blocksCount := 2, firstBlock := 0x100000 }

theorem run_inside_one : ((0x100000, 1) ∈ ((start [region2]).after (.alloc 1 1)).live) ∧
    ∃ r ∈ [region2], rangeOf (0x100000, 1) ⊆ r.frames := by
  refine ⟨by decide, run_inside [region2] (List.cons_ne_nil _ _) [.alloc 1 1] _ (Run.cons _ _ _ _ _
    ⟨⟨trivial, by decide, fun pre r post hsplit _ _ => ?_⟩, by decide, rfl⟩ (Run.nil _))
    (0x100000, 1) (by decide)⟩
  -- Bit 0 is the lowest, and three pages hold two frames and their bitmap.
  rw [eq_of_singleton_split region2 r pre post hsplit]
  refine ⟨⟨0, 0, ⟨by decide, by decide, one_dvd 0, by decide, fun _ _ => BitVec.getLsbD_zero⟩,
    by decide⟩, 0x3000, by decide, ⟨1, by decide⟩, by decide⟩

/-- A region of one frame at one megabyte, over two pages. -/
def region1 : Region :=
  { searchNextStartblock := 0, firstBitmap := fun _ => 0, blocksCount := 1, firstBlock := 0x100000 }

theorem fresh_region1 : Fresh [region1] := by
  refine ⟨List.cons_ne_nil _ _, ⟨fun r hr => ?_, List.pairwise_singleton _ _⟩, fun r hr i _ => ?_⟩
  · rw [List.mem_singleton.mp hr]
    decide
  · rw [List.mem_singleton.mp hr]
    rfl

/-- The second frame handed out of a region of one frame is the page of its
    bitmap. -/
theorem run_not_inside :
    ¬ ∀ rs, Fresh rs → (∀ r ∈ rs, ∃ len, LaidOut r len) → ∀ calls s,
      Run (Guarded (fun _ c => c.IsAlloc ∧ c.Plain) Step) (start rs) calls s →
        ∀ pc ∈ s.live, ∃ r ∈ rs, rangeOf pc ⊆ r.frames := by
  intro hall
  let s1 := (start [region1]).after (.alloc 1 1)
  let s2 := s1.after (.alloc 1 1)
  -- Two pages: one frame, and one page for its bitmap.
  have hlaid : ∀ r ∈ [region1], ∃ len, LaidOut r len := by
    intro r hr
    rw [List.mem_singleton.mp hr]
    exact ⟨0x2000, ⟨1, by decide⟩, by decide⟩
  have hin := hall [region1] fresh_region1 hlaid [.alloc 1 1, .alloc 1 1] s2
    (Run.cons _ s1 _ _ _ ⟨⟨trivial, by decide⟩, by decide, rfl⟩
      (Run.cons _ s2 _ _ _ ⟨⟨trivial, by decide⟩, by decide, rfl⟩ (Run.nil _)))
    (0x101000, 1) (by decide)
  rcases hin with ⟨r, hr, hsub⟩
  rw [List.mem_singleton.mp hr] at hsub
  -- The first byte of the second answer is past the only frame.
  have hbyte := hsub (Set.mem_Ico.mpr ⟨Nat.le_refl _, by decide⟩)
  exact absurd (Set.mem_Ico.mp hbyte).2 (by decide)

end FrameSession

end UnixP6
