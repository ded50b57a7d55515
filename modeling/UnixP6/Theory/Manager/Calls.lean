import UnixP6.Theory.Heap.Session
import UnixP6.Theory.Frames.Inside

/-!
# What a Call Leaves Alone

The heap and the frame allocator each on its own keep an invariant. To run them
in one memory it also has to be known what a call of the one does to the books
of the other. A call of the heap writes inside the heap only, and the invariant
of the heap looks at nothing but headers.

For the frames there are two conditions that runs of the frame allocator alone
did not need. An allocation has to be met by frames there are
(`FrameSession.MetInside`), since the bits past the last frame stand for the
bitmap and whatever comes after it. A release has to reach the frames it is
meant for or none at all (`FrameSession.ReleaseAgrees`); one that is passed over
loses the frames but does no harm.

## Main definitions

* `FrameSession.MetInside`: The run found is one of frames of its region.
* `FrameSession.ReleaseAgrees`: A release reaches the right frames, or none.

## Theorems

* `Session.call_outside`: A call of the heap writes inside the heap.
* `Session.inv_of_headers`: The invariant of the heap depends on headers only.
* `FrameSession.alloc_inside`: Frames handed out are frames of a region.
* `FrameSession.inv_free`: Such a release keeps the invariant.
-/

namespace UnixP6

open CSemantics
open Block (addr)
open MemBlock (next data)

/-! ### The heap -/

/-- A chain depends on the bytes of its headers only. -/
theorem Represents.congr (m m' : Mem) (first : Word) (bs : List Block)
    (hm : ∀ b ∈ bs, ∀ x, ¬ Far b.addr 16 x → m' x = m x) (h : Represents m first bs) :
    Represents m' first bs := by
  refine ⟨Links.congr (next m) (next m') 0 _ first (fun a ha => ?_) h.links, fun b hb => ?_, h.apart⟩
  · rcases List.mem_map.mp ha with ⟨b, hb, rfl⟩
    exact (fields_congr m m' b.addr (hm b hb)).1
  · rcases fields_congr m m' b.addr (hm b hb) with ⟨_, hfree, hsize⟩
    rw [hfree, hsize]
    exact h.fields b hb

namespace Session

/-- The invariant depends on memory through the headers only. -/
theorem inv_of_headers (s : Session) (bs : List Block) (m : Mem) (h : Inv s bs)
    (hm : ∀ b ∈ bs, ∀ x, ¬ Far b.addr 16 x → m x = s.heap.mem x) :
    Inv { s with heap := { s.heap with mem := m } } bs :=
  ⟨h.chain.congr _ m _ _ hm, h.tiled, h.above, h.below, h.live, h.notNull⟩

section Outside

variable (s : Session) (bs : List Block) (h : Inv s bs) (x : Word)
  (hx : x.toNat ∉ span s.heap.mDynBase.toNat s.heap.mDynTotal.toNat)

include h hx

/-- An address outside the heap is outside sixteen bytes of it. -/
theorem far_of_outside (a : Word) (hlo : s.heap.mDynBase.toNat ≤ a.toNat)
    (hhi : a.toNat + 16 ≤ s.limit) : Far a 16 x := by
  have hbelow := h.below
  have hlimit : s.limit = s.heap.mDynBase.toNat + s.heap.mDynTotal.toNat := rfl
  rw [Set.mem_Ico, not_and_or, Nat.not_le, Nat.not_lt] at hx
  exact far_of_lt_or_le a x 16 (by omega) (by omega)

theorem kmalloc_outside (size : Word) (t : Session) (hroom : s.RoomForTail (.kmalloc size))
    (hcall : s.call (.kmalloc size) = some t) : t.heap.mem x = s.heap.mem x := by
  by_cases hnone : size = 0 ∨ ∀ c ∈ bs, c.fits size 1 = false
  · simp only [call, kmalloc_none s.heap size bs h.chain hnone, Option.map_some, if_pos,
      Option.some.injEq] at hcall
    rw [← hcall]
  · rw [not_or] at hnone
    rcases hnone with ⟨hsize, hsome⟩
    rcases (firstFit_cases size 1 bs).resolve_left hsome with ⟨pre, b, rest, rfl, hpre, hfits⟩
    have hfit := hroom hsize pre b rest h.chain hpre hfits
    have hpos : 0 < size.toNat := by bv_omega
    rcases splitBlock_spec s.heap.mem s.heap.mDynFirstBlock size pre rest b h.chain
      (thirdHeader_ne_zero s size pre rest b h hpos hfit)
      (thirdHeader_apart s size pre rest b h hpos hfit) with ⟨_, hkeep⟩
    simp only [call, kmalloc_spec s.heap size pre rest b hsize h.chain hpre hfits, Option.map_some,
      Option.some.injEq] at hcall
    rw [← hcall]
    -- Both headers written are inside the heap: the block's, and the one after the request.
    have hmem : b ∈ pre ++ b :: rest := List.mem_append_right pre List.mem_cons_self
    have hblock := h.header_inside s _ b hmem
    have hthird := toNat_thirdHeader s size pre rest b h hpos hfit
    have hrest := Tiled.start_le s.limit rest (Tiled.after s.limit pre b rest h.tiled).2
    exact hkeep x (far_of_outside s _ h x hx b.addr hblock.1 (by omega))
      (far_of_outside s _ h x hx _ (by omega) (by omega))

theorem kfree_outside (ptr : Word) (t : Session) (hcall : s.call (.kfree ptr) = some t) :
    t.heap.mem x = s.heap.mem x := by
  by_cases hblock : ptr ≠ 0 ∧ ∃ b ∈ bs, data b.addr = ptr
  · rcases hblock with ⟨hptr, b, hb, rfl⟩
    rcases List.append_of_mem hb with ⟨pre, rest, rfl⟩
    rcases kfree_spec s.heap pre rest b h.chain hptr with ⟨m', hrun, _, hun⟩
    simp only [call, hrun, Option.map_some, Option.some.injEq] at hcall
    rw [← hcall]
    refine hun x (fun c hc => ?_)
    have hin := h.header_inside s _ c hc
    exact far_of_outside s _ h x hx c.addr hin.1 (by omega)
  · have hrun : kfree ptr s.heap = some s.heap := by
      by_cases hptr : ptr = 0
      · rw [kfree, if_pos hptr]
      · exact kfree_absent s.heap bs ptr h.chain (fun c hc hd => hblock ⟨hptr, c, hc, hd⟩)
    simp only [call, hrun, Option.map_some, Option.some.injEq] at hcall
    rw [← hcall]

/-- A call of the heap writes inside the heap. -/
theorem call_outside (c : HeapCall) (t : Session) (hroom : s.RoomForTail c)
    (hcall : s.call c = some t) : t.heap.mem x = s.heap.mem x := by
  cases c with
  | kmalloc size => exact kmalloc_outside s bs h x hx size t hroom hcall
  | kfree ptr => exact kfree_outside s bs h x hx ptr t hcall

end Outside

end Session

/-! ### The frames -/

namespace FrameSession

/-- The first region with a run to offer has one among its own frames. -/
def MetInside (rs : List Region) (count alignUp : Nat) : Prop :=
  ∀ pre r post, rs = pre ++ r :: post → (∀ q ∈ pre, ¬ q.HasFit count alignUp) →
    r.HasFit count alignUp →
    ∃ i k, r.FitsAt count alignUp i k ∧ 32 * i + k + count ≤ r.blocksCount.toNat

/-- On every frame the region test reaches at this address, division by 31 and by
    32 agree. -/
def ReleaseAgrees (rs : List Region) (ptr : Word) : Prop :=
  ∀ r ∈ rs, ∀ n, ptr.toNat = r.firstBlock.toNat + 4096 * n → 4096 * n ≤ r.blocksCount.toNat →
    n % 992 < 31

/-- A request met inside gets frames of one region. -/
theorem alloc_inside (rs : List Region) (count alignUp : Nat) (res : Word × List Region)
    (hsep : Separate rs) (hinside : MetInside rs count alignUp)
    (h : AllocSpec count alignUp rs res) (hp : res.1 ≠ 0) :
    ∃ r ∈ rs, span res.1.toNat (4096 * count) ⊆ r.frames := by
  rcases h with ⟨pre, r, post, i, k, rfl, hpre, hfirst, hres, _⟩ | ⟨_, hnull, _⟩
  · have hr : r ∈ pre ++ r :: post := List.mem_append_right pre List.mem_cons_self
    rcases hinside pre r post rfl hpre ⟨i, k, hfirst.1⟩ with ⟨i', k', hfit', hroom⟩
    -- The run taken is the lowest, so it ends no later than the one inside.
    have hlow : 32 * i + k + count ≤ r.blocksCount.toNat := by
      have hwidth := hfirst.1.2.2.inWord
      have hwidth' := hfit'.2.2.inWord
      rcases hfirst.2 i' k' hfit' with hlt | ⟨rfl, hle⟩ <;> omega
    have haddr : res.1.toNat = frameAddr r i k := by
      have hwrap := hsep.noWrap r hr
      have hi := hfirst.1.2.1
      have hwidth := hfirst.1.2.2.inWord
      rw [hres]
      refine toNat_calcPageaddr r i k ?_
      unfold frameAddr
      unfold Region.repeatcount at hwrap hi
      omega
    refine ⟨r, hr, ?_⟩
    unfold Region.frames
    rw [haddr]
    unfold frameAddr
    exact span_subset _ _ _ _ (by omega) (by omega)
  · exact absurd hnull hp

/-- Where no region recognises the address, nothing is released. -/
theorem freeFrom_none (ptr : Word) (count : Nat) (rs : List Region)
    (h : ∀ r ∈ rs, r.owns ptr = false) : freeFrom ptr count rs = rs := by
  induction rs with
  | nil => rfl
  | cons r rs ih =>
      rw [freeFrom, h r List.mem_cons_self, if_neg Bool.false_ne_true,
        ih (fun q hq => h q (List.mem_cons_of_mem r hq))]

/-- Two regions of a separate chain are the same or cover different addresses. -/
theorem eq_or_disjoint_of_separate (rs : List Region) (h : Separate rs) (q r : Region)
    (hq : q ∈ rs) (hr : r ∈ rs) : q = r ∨ Disjoint q.cover r.cover := by
  by_cases hqr : q = r
  · exact Or.inl hqr
  · have hsymm : Std.Symm fun q r : Region => Disjoint q.cover r.cover :=
      ⟨fun _ _ hd => Disjoint.symm hd⟩
    exact Or.inr (h.apart.forall hq hr hqr)

/-- A release that reaches the right frames, or none, keeps the invariant. -/
theorem inv_free (s : FrameSession) (ptr count : Word) (h : Inv s)
    (hlive : (ptr, count) ∈ s.live) (hagree : ReleaseAgrees s.regions ptr) :
    ∃ rs, frameFree ptr count s.regions = some rs ∧ rs.map Region.shape = s.regions.map Region.shape ∧
      Inv { regions := rs, live := s.live.erase (ptr, count) } := by
  rcases h.placed (ptr, count) hlive with ⟨hpos, hle, r, hr, i, k, hi, hk, haddr⟩
  simp only at hpos hle hk haddr
  have hvalid : ¬ (count = 0 ∨ 32 < count) := by bv_omega
  have hcall : frameFree ptr count s.regions = some (freeFrom ptr count.toNat s.regions) := by
    rw [frameFree, if_neg hvalid, if_neg h.nonempty]
  -- What is left live is still taken, and nothing has moved.
  have hkeep : ∀ rs, rs.map Region.shape = s.regions.map Region.shape →
      liveBytes (s.live.erase (ptr, count)) ⊆ usedBytes rs →
      Inv { regions := rs, live := s.live.erase (ptr, count) } := fun rs hshape htaken =>
    ⟨nonempty_of_shape _ _ hshape h.nonempty, separate_of_shape _ _ hshape h.separate,
      h.apart.sublist List.erase_sublist, htaken,
      fun pc hpc => placed_of_shape _ _ pc hshape (h.placed pc (List.mem_of_mem_erase hpc))⟩
  have herase := liveBytes_erase s.live (ptr, count) h.apart hlive
  by_cases hreach : 4096 * (32 * i + k) ≤ r.blocksCount.toNat
  · rcases List.append_of_mem hr with ⟨pre, post, hregs⟩
    have hsep := h.separate
    rw [hregs] at hsep
    rcases freeFrom_used pre post r ptr i k count.toNat hsep hi hk hpos haddr hreach
      (hagree r hr (32 * i + k) haddr hreach) with ⟨hused, hshape⟩
    rw [← hregs] at hused hshape
    refine ⟨_, hcall, hshape, hkeep _ hshape ?_⟩
    rw [herase, hused]
    exact Set.sdiff_subset_sdiff_left h.taken
  · -- The region test fails for its own region, and for the others it cannot hold.
    have hwrap := h.separate.noWrap r hr
    have hcover : ptr.toNat ∈ r.cover := by
      rw [haddr]
      exact span_frame_subset r i k 1 hi (by omega) (Set.mem_Ico.mpr ⟨Nat.le_refl _, by omega⟩)
    have hnone : ∀ q ∈ s.regions, q.owns ptr = false := by
      intro q hq
      rw [Bool.eq_false_iff]
      intro howns
      have hq' := q.mem_cover_of_owns ptr (h.separate.noWrap q hq) howns
      rcases eq_or_disjoint_of_separate s.regions h.separate q r hq hr with hsame | hapart
      · unfold frameAddr at haddr
        unfold Region.repeatcount at hwrap
        rw [hsame] at howns
        simp only [Region.owns, Bool.and_eq_true, decide_eq_true_eq] at howns
        rcases howns with ⟨_, hhi⟩
        bv_omega
      · exact Set.disjoint_left.mp hapart hq' hcover
    have hfree := freeFrom_none ptr count.toNat s.regions hnone
    rw [hfree] at hcall
    refine ⟨_, hcall, rfl, hkeep _ rfl ?_⟩
    rw [herase]
    exact Set.sdiff_subset.trans h.taken

end FrameSession

end UnixP6
