import UnixP6.CSemantics.Run
import UnixP6.Theory.Frames.Used

/-!
# Runs of the Frame Allocator

A session is the chain of regions together with the allocations its callers
hold. Two questions are asked of its runs.

The first is whether the bitmaps say what the callers hold. Allocations keep
this, but a null pointer is also the address of the first frame of a region at
address zero, and a caller takes that frame for a failure. Releases keep it
only for frames `frame_free` recognises: its region test compares a byte
address with a number of blocks, and it divides by 31 where a word has 32
bits. `Faithful` collects these conditions and `run_exact` is the result.

The second is whether two allocations can overlap when alignment is asked for.
They cannot as long as the scan stays in step, which is `run_aligned`; a request
that leaves it behind gets a frame it has not tested.

## Main definitions

* `FrameCall`: The calls of a session.
* `FrameSession`: The chain of regions with the allocations held.
* `FrameSession.Faithful`: The calls that keep bitmaps and callers in agreement.
* `FrameSession.InStep`: The allocations whose scan stays in step.
* `FrameSession.Exact`: Frames marked taken are those of live allocations.

## Theorems

* `inv_alloc`, `exact_alloc`: What an allocation keeps.
* `exact_free`: What a release keeps.
* `run_exact`: Runs of faithful calls stay exact.
* `run_aligned`: Runs of allocations in step never allocate a frame twice.
-/

namespace UnixP6

open CSemantics

/-- A call to the frame allocator. -/
inductive FrameCall
  | alloc (count alignUp : Word)
  | free (ptr count : Word)
deriving Repr, DecidableEq

/-- The calls without alignment, and every release. -/
def FrameCall.Plain : FrameCall → Prop
  | .alloc _ alignUp => alignUp ≤ 1
  | .free _ _ => True

instance : (c : FrameCall) → Decidable c.Plain
  | .alloc _ alignUp => inferInstanceAs (Decidable (alignUp ≤ 1))
  | .free _ _ => inferInstanceAs (Decidable True)

def FrameCall.IsAlloc : FrameCall → Prop
  | .alloc _ _ => True
  | .free _ _ => False

/-- The chain of regions and the allocations still held, each a pointer and a
    number of frames. -/
structure FrameSession where
  regions : List Region
  live : List (Word × Word)

/-- The bytes of an allocation. -/
def rangeOf (pc : Word × Word) : Set Nat := span pc.1.toNat (4096 * pc.2.toNat)

/-- The bytes of a list of allocations. -/
def liveBytes (live : List (Word × Word)) : Set Nat := {a | ∃ pc ∈ live, a ∈ rangeOf pc}

namespace FrameSession

/-- A chain of regions from which nothing is allocated. -/
def start (rs : List Region) : FrameSession := { regions := rs, live := [] }

/-- One call. A null result of `frame_alloc` is no allocation. -/
def call (s : FrameSession) : FrameCall → Option FrameSession
  | .alloc count alignUp => (frameAlloc count alignUp s.regions).map fun (res : Word × List Region) =>
      { regions := res.2
        live := if res.1 = 0 then s.live else (res.1, count) :: s.live }
  | .free ptr count => (frameFree ptr count s.regions).map fun rs =>
      { regions := rs, live := s.live.erase (ptr, count) }

/-- A caller asks for 1 to 32 frames and releases what it holds. -/
def Allowed (s : FrameSession) : FrameCall → Prop
  | .alloc count _ => 0 < count.toNat ∧ count.toNat ≤ 32
  | .free ptr count => (ptr, count) ∈ s.live

instance (s : FrameSession) : (c : FrameCall) → Decidable (s.Allowed c)
  | .alloc count _ => inferInstanceAs (Decidable (0 < count.toNat ∧ count.toNat ≤ 32))
  | .free ptr count => inferInstanceAs (Decidable ((ptr, count) ∈ s.live))

def Step (s : FrameSession) (c : FrameCall) (t : FrameSession) : Prop :=
  s.Allowed c ∧ s.call c = some t

/-- The first frame of a region at address zero does not meet the request. -/
def NotAtNull (rs : List Region) (count : Nat) : Prop :=
  ∀ pre r post, rs = pre ++ r :: post → (∀ q ∈ pre, ¬ q.HasFit count 1) →
    r.firstBlock = 0 → ¬ r.FitsAt count 1 0 0

/-- The frame at the address is one `frame_free` recognises: the region test
    reaches it, and dividing its number by 31 and by 32 gives the same bit. -/
def Recognised (rs : List Region) (ptr : Word) : Prop :=
  ∀ r ∈ rs, ∀ n < 32 * r.repeatcount, ptr.toNat = r.firstBlock.toNat + 4096 * n →
    4096 * n ≤ r.blocksCount.toNat ∧ n % 992 < 31

/-- The calls that keep bitmaps and callers in agreement. -/
def Faithful (s : FrameSession) : FrameCall → Prop
  | .alloc count _ => NotAtNull s.regions count.toNat
  | .free ptr _ => Recognised s.regions ptr

/-- The allocations whose scan stays in step. -/
def InStep (s : FrameSession) : FrameCall → Prop
  | .alloc count alignUp => SearchInStep s.regions count.toNat (effectiveAlign alignUp)
  | .free _ _ => True

/-- The frames marked taken are those of the live allocations, which do not
    overlap. -/
def Exact (s : FrameSession) : Prop :=
  usedBytes s.regions = liveBytes s.live ∧
    s.live.Pairwise fun pc qd => Disjoint (rangeOf pc) (rangeOf qd)

/-- A live allocation is a run of frames within a word of some region. -/
def Placed (rs : List Region) (pc : Word × Word) : Prop :=
  0 < pc.2.toNat ∧ pc.2.toNat ≤ 32 ∧ ∃ r ∈ rs, ∃ i k, i < r.repeatcount ∧
    k + pc.2.toNat ≤ 32 ∧ pc.1.toNat = frameAddr r i k

/-- What every run keeps: the regions stay separate, and the live allocations
    are runs of frames that are marked taken and do not overlap. -/
structure Inv (s : FrameSession) : Prop where
  nonempty : s.regions ≠ []
  separate : Separate s.regions
  apart : s.live.Pairwise fun pc qd => Disjoint (rangeOf pc) (rangeOf qd)
  taken : liveBytes s.live ⊆ usedBytes s.regions
  placed : ∀ pc ∈ s.live, Placed s.regions pc

/-! ### What the calls keep -/

theorem placed_of_shape (rs rs' : List Region) (pc : Word × Word)
    (h : rs'.map Region.shape = rs.map Region.shape) (hp : Placed rs pc) : Placed rs' pc := by
  rcases hp with ⟨hpos, hle, r, hr, i, k, hi, hk, haddr⟩
  -- A region of the same shape covers the same frames.
  have hmem : r.shape ∈ rs'.map Region.shape := by
    rw [h]
    exact List.mem_map_of_mem hr
  rcases List.mem_map.mp hmem with ⟨q, hq, hqr⟩
  rcases fields_of_shape r q hqr with ⟨hblocks, hfirst⟩
  refine ⟨hpos, hle, q, hq, i, k, ?_, hk, ?_⟩
  · unfold Region.repeatcount at hi ⊢
    rw [hblocks]
    exact hi
  · unfold frameAddr at haddr ⊢
    rw [hfirst]
    exact haddr

theorem nonempty_of_shape (rs rs' : List Region)
    (h : rs'.map Region.shape = rs.map Region.shape) (hrs : rs ≠ []) : rs' ≠ [] := by
  rintro rfl
  exact hrs (List.map_eq_nil_iff.mp h.symm)

theorem liveBytes_cons (pc : Word × Word) (live : List (Word × Word)) :
    liveBytes (pc :: live) = rangeOf pc ∪ liveBytes live := by
  ext a
  constructor
  · rintro ⟨qd, hqd, ha⟩
    rcases List.mem_cons.mp hqd with rfl | hqd
    · exact Or.inl ha
    · exact Or.inr ⟨qd, hqd, ha⟩
  · rintro (ha | ⟨qd, hqd, ha⟩)
    · exact ⟨pc, List.mem_cons_self, ha⟩
    · exact ⟨qd, List.mem_cons_of_mem pc hqd, ha⟩

/-- An allocation whose scan stays in step keeps the invariant. It takes a free
    run of frames, or it returns null and takes none. -/
theorem inv_alloc (s : FrameSession) (count alignUp : Word) (h : Inv s)
    (hvalid : s.Allowed (.alloc count alignUp)) (hin : s.InStep (.alloc count alignUp)) :
    ∃ res, frameAlloc count alignUp s.regions = some res ∧
      AllocSpec count.toNat (effectiveAlign alignUp) s.regions res ∧
      Inv { regions := res.2, live := if res.1 = 0 then s.live else (res.1, count) :: s.live } := by
  rcases hvalid with ⟨hpos, hle⟩
  rcases frameAlloc_spec count alignUp s.regions h.nonempty hpos hle hin with ⟨res, hres, hspec⟩
  refine ⟨res, hres, hspec, ?_⟩
  rcases hspec.used count.toNat (effectiveAlign alignUp) hpos s.regions res h.separate with
    ⟨pre, r, post, i, k, hregs, hi, hfit, haddr, _, hused, hfree, hshape⟩ | ⟨hnull, hused, hshape⟩
  · have hkeep : liveBytes s.live ⊆ usedBytes res.2 := by
      rw [hused]
      exact h.taken.trans Set.subset_union_left
    have hne := nonempty_of_shape _ _ hshape h.nonempty
    have hsep := separate_of_shape _ _ hshape h.separate
    by_cases hnull : res.1 = 0
    · rw [if_pos hnull]
      exact ⟨hne, hsep, h.apart, hkeep, fun pc hpc => placed_of_shape _ _ pc hshape (h.placed pc hpc)⟩
    · rw [if_neg hnull]
      refine ⟨hne, hsep, List.pairwise_cons.mpr ⟨fun pc hpc => ?_, h.apart⟩, ?_, fun pc hpc => ?_⟩
      · -- What is already live is taken, and the new range was free.
        exact (hfree.mono_left (fun a ha => h.taken ⟨pc, hpc, ha⟩)).symm
      · rw [liveBytes_cons]
        refine Set.union_subset ?_ hkeep
        rw [hused]
        exact Set.subset_union_right
      · rcases List.mem_cons.mp hpc with rfl | hpc
        · refine placed_of_shape _ _ _ hshape ⟨hpos, hle, r, ?_, i, k, hi, hfit.inWord, haddr⟩
          rw [hregs]
          exact List.mem_append_right pre List.mem_cons_self
        · exact placed_of_shape _ _ pc hshape (h.placed pc hpc)
  · rw [if_pos hnull]
    refine ⟨nonempty_of_shape _ _ hshape h.nonempty, separate_of_shape _ _ hshape h.separate,
      h.apart, ?_, fun pc hpc => placed_of_shape _ _ pc hshape (h.placed pc hpc)⟩
    rw [hused]
    exact h.taken

/-- An allocation without alignment that is not met at null keeps exactness. -/
theorem exact_alloc (s : FrameSession) (count alignUp : Word) (h : Inv s)
    (hexact : usedBytes s.regions = liveBytes s.live) (hvalid : s.Allowed (.alloc count alignUp))
    (hplain : alignUp ≤ 1) (hnotNull : NotAtNull s.regions count.toNat) :
    ∃ t, s.call (.alloc count alignUp) = some t ∧ Inv t ∧
      usedBytes t.regions = liveBytes t.live := by
  have halign := effectiveAlign_of_le_one alignUp hplain
  have hin : s.InStep (.alloc count alignUp) := by
    simp only [InStep, halign]
    exact searchInStep_one s.regions count.toNat
  rcases inv_alloc s count alignUp h hvalid hin with ⟨res, hres, hspec, hinv⟩
  refine ⟨_, by simp only [call, hres, Option.map_some], hinv, ?_⟩
  rw [halign] at hspec
  by_cases hnull : res.1 = 0
  · rw [if_pos hnull]
    -- A null result from a run that fits would be the frame at address zero.
    rcases hspec with ⟨pre, r, post, i, k, hregs, hpre, hfirst, hp, _⟩ | ⟨_, _, hsame⟩
    · exfalso
      have hwrap := h.separate.noWrap r (by
        rw [hregs]
        exact List.mem_append_right pre List.mem_cons_self)
      have hi := hfirst.1.2.1
      have hwidth := hfirst.1.2.2.inWord
      have hcount := hvalid.1
      have haddr := toNat_calcPageaddr r i k (by
        unfold frameAddr
        omega)
      rw [← hp, hnull] at haddr
      unfold frameAddr at haddr
      have hzero : r.firstBlock.toNat = 0 ∧ i = 0 ∧ k = 0 := by
        rw [toNat_word_zero] at haddr
        omega
      rcases hzero with ⟨hblock, rfl, rfl⟩
      exact hnotNull pre r post hregs hpre (BitVec.eq_of_toNat_eq hblock) hfirst.1
    · rw [usedBytes_of_forgetHint _ _ hsame]
      exact hexact
  · rw [if_neg hnull, liveBytes_cons]
    -- Otherwise what is taken and what is live grow by one range.
    rcases hspec.used count.toNat 1 hvalid.1 s.regions res h.separate with
      ⟨_, _, _, _, _, _, _, _, _, _, hused, _, _⟩ | ⟨hzero, _, _⟩
    · rw [hused, hexact, Set.union_comm]
      rfl
    · exact absurd hzero hnull

/-- Taking one allocation out of a list whose ranges do not overlap takes its
    range out of the bytes. -/
theorem liveBytes_erase (live : List (Word × Word)) (pc : Word × Word)
    (hapart : live.Pairwise fun pc qd => Disjoint (rangeOf pc) (rangeOf qd)) (hpc : pc ∈ live) :
    liveBytes (live.erase pc) = liveBytes live \ rangeOf pc := by
  induction live with
  | nil => exact absurd hpc List.not_mem_nil
  | cons qd live ih =>
      rw [List.pairwise_cons] at hapart
      -- The ranges of the others do not meet this one.
      have hothers : ∀ qs : List (Word × Word), (∀ q ∈ qs, Disjoint (rangeOf qd) (rangeOf q)) →
          Disjoint (liveBytes qs) (rangeOf qd) := by
        intro qs hqs
        rw [Set.disjoint_left]
        rintro a ⟨q, hq, ha⟩ haqd
        exact Set.disjoint_left.mp (hqs q hq) haqd ha
      by_cases heq : qd = pc
      · rw [← heq, List.erase_cons_head, liveBytes_cons, Set.union_sdiff_distrib, Set.sdiff_self,
          Set.empty_union, (hothers live hapart.1).sdiff_eq_left]
      · have hmem : pc ∈ live := (List.mem_cons.mp hpc).resolve_left (fun h => heq h.symm)
        rw [List.erase_cons_tail (by simpa only [beq_iff_eq] using heq), liveBytes_cons,
          liveBytes_cons, ih hapart.2 hmem, Set.union_sdiff_distrib,
          (hapart.1 pc hmem).sdiff_eq_left]

/-- A release of a frame `frame_free` recognises keeps exactness. -/
theorem exact_free (s : FrameSession) (ptr count : Word) (h : Inv s)
    (hexact : usedBytes s.regions = liveBytes s.live) (hlive : (ptr, count) ∈ s.live)
    (hrec : Recognised s.regions ptr) :
    ∃ t, s.call (.free ptr count) = some t ∧ Inv t ∧ usedBytes t.regions = liveBytes t.live := by
  rcases h.placed (ptr, count) hlive with ⟨hpos, hle, r, hr, i, k, hi, hk, haddr⟩
  simp only at hpos hle hk haddr
  rcases List.append_of_mem hr with ⟨pre, post, hregs⟩
  -- The region and the frame are known from the allocation, so the test is met there.
  have hfound := hrec r hr (32 * i + k) (by omega) haddr
  have hsep := h.separate
  rw [hregs] at hsep
  rcases freeFrom_used pre post r ptr i k count.toNat hsep hi hk hpos haddr hfound.1 hfound.2 with
    ⟨hused, hshape⟩
  rw [← hregs] at hused hshape
  have hvalid : ¬ (count = 0 ∨ 32 < count) := by bv_omega
  have hbytes : usedBytes (freeFrom ptr count.toNat s.regions)
      = liveBytes (s.live.erase (ptr, count)) := by
    rw [liveBytes_erase s.live (ptr, count) h.apart hlive, hused, hexact]
    rfl
  refine ⟨{ regions := freeFrom ptr count.toNat s.regions, live := s.live.erase (ptr, count) }, ?_,
    ⟨nonempty_of_shape _ _ hshape h.nonempty, separate_of_shape _ _ hshape h.separate,
      h.apart.sublist List.erase_sublist, hbytes.ge,
      fun pc hpc => placed_of_shape _ _ pc hshape (h.placed pc (List.mem_of_mem_erase hpc))⟩,
    hbytes⟩
  simp only [call, frameFree, if_neg hvalid, if_neg h.nonempty, Option.map_some]

/-! ### Whole runs -/

/-- A chain of separate regions with every bitmap clear. -/
structure Fresh (rs : List Region) : Prop where
  nonempty : rs ≠ []
  separate : Separate rs
  clear : ∀ r ∈ rs, ∀ i < r.repeatcount, r.firstBitmap i = 0

theorem inv_start (rs : List Region) (h : Fresh rs) :
    Inv (start rs) ∧ usedBytes (start rs).regions = liveBytes (start rs).live := by
  have hno : ∀ pc : Word × Word, pc ∉ ([] : List (Word × Word)) := fun pc => List.not_mem_nil
  refine ⟨⟨h.nonempty, h.separate, List.Pairwise.nil, ?_, fun pc hpc => absurd hpc (hno pc)⟩, ?_⟩
  · rintro a ⟨pc, hpc, _⟩
    exact absurd hpc (hno pc)
  · ext a
    constructor
    · rintro ⟨r, hr, i, k, hi, _, hset, _⟩
      rw [h.clear r hr i hi, BitVec.ofNat_eq_ofNat, BitVec.getLsbD_zero] at hset
      exact absurd hset Bool.false_ne_true
    · rintro ⟨pc, hpc, _⟩
      exact absurd hpc (hno pc)

/-- One faithful call without alignment keeps exactness. -/
theorem exact_call (s : FrameSession) (c : FrameCall) (h : Inv s)
    (hexact : usedBytes s.regions = liveBytes s.live) (hallowed : s.Allowed c) (hplain : c.Plain)
    (hfaithful : s.Faithful c) :
    ∃ t, s.call c = some t ∧ Inv t ∧ usedBytes t.regions = liveBytes t.live := by
  cases c with
  | alloc count alignUp => exact exact_alloc s count alignUp h hexact hallowed hplain hfaithful
  | free ptr count => exact exact_free s ptr count h hexact hallowed hfaithful

/-- In every run of faithful calls without alignment, the frames marked taken
    are those of the live allocations, and every further such call returns and
    keeps it so. -/
theorem run_exact (rs : List Region) (hfresh : Fresh rs) (calls : List FrameCall)
    (s : FrameSession)
    (hrun : Run (Guarded (fun s c => c.Plain ∧ s.Faithful c) Step) (start rs) calls s) :
    s.Exact ∧ ∀ c, s.Allowed c → c.Plain → s.Faithful c → ∃ t, s.Step c t ∧ t.Exact := by
  have hinv := Run.invariant (Guarded (fun s c => c.Plain ∧ s.Faithful c) Step)
    (fun s => Inv s ∧ usedBytes s.regions = liveBytes s.live)
    (fun s c t ⟨hs, hexact⟩ ⟨⟨hplain, hfaithful⟩, hallowed, hcall⟩ => by
      rcases exact_call s c hs hexact hallowed hplain hfaithful with ⟨t', hcall', ht'⟩
      rw [hcall, Option.some.injEq] at hcall'
      rw [hcall']
      exact ht')
    (start rs) s calls hrun (inv_start rs hfresh)
  rcases hinv with ⟨hs, hexact⟩
  refine ⟨⟨hexact, hs.apart⟩, fun c hallowed hplain hfaithful => ?_⟩
  rcases exact_call s c hs hexact hallowed hplain hfaithful with ⟨t, hcall, ht, hexact'⟩
  exact ⟨t, ⟨hallowed, hcall⟩, hexact', ht.apart⟩

/-- A region of 64 frames at one megabyte, all of them free. -/
def region64 : Region :=
  { searchNextStartblock := 0, firstBitmap := fun _ => 0, blocksCount := 64, firstBlock := 0x100000 }

/-- The session after a call that returns. -/
def after (s : FrameSession) (c : FrameCall) : FrameSession := (s.call c).getD s

theorem fresh_region64 : Fresh [region64] := by
  refine ⟨List.cons_ne_nil _ _, ⟨fun r hr => ?_, List.pairwise_singleton _ _⟩, fun r hr i _ => ?_⟩
  · rw [List.mem_singleton.mp hr]
    decide
  · rw [List.mem_singleton.mp hr]
    rfl

/-- The only region of a chain of one. -/
theorem eq_of_singleton_split (a r : Region) (pre post : List Region)
    (h : [a] = pre ++ r :: post) : r = a := by
  have hmem : r ∈ [a] := by
    rw [h]
    exact List.mem_append_right pre List.mem_cons_self
  exact List.mem_singleton.mp hmem

/-- Two allocations, and the release of the first. -/
theorem run_exact_release :
    let s1 := (start [region64]).after (.alloc 2 1)
    let s2 := s1.after (.alloc 1 1)
    let s3 := s2.after (.free 0x100000 2)
    s2.live = [(0x102000, 1), (0x100000, 2)] ∧ s3.live = [(0x102000, 1)] ∧ s3.Exact := by
  intro s1 s2 s3
  have hnull : ∀ (r : Region) (count : Nat), r.firstBlock = 0x100000 → NotAtNull [r] count := by
    intro r count hfirst pre q post hsplit _ hzero
    rw [eq_of_singleton_split r q pre post hsplit, hfirst] at hzero
    exact absurd hzero (by decide)
  have hrecognised : Recognised s2.regions 0x100000 := by
    intro r hr n _ hptr
    rw [show s2.regions = [s2.regions.headD region64] from rfl, List.mem_singleton] at hr
    have hfirst : r.firstBlock.toNat = 0x100000 := by
      rw [hr]
      decide
    rw [hfirst, show (0x100000 : Word).toNat = 0x100000 from rfl] at hptr
    have hn : n = 0 := by omega
    rw [hn]
    exact ⟨Nat.zero_le _, by decide⟩
  refine ⟨by decide, by decide, (run_exact [region64] fresh_region64
    [.alloc 2 1, .alloc 1 1, .free 0x100000 2] s3 ?_).1⟩
  exact Run.cons _ s1 _ _ _ ⟨⟨by decide, hnull region64 2 rfl⟩, by decide, rfl⟩ <|
    Run.cons _ s2 _ _ _ ⟨⟨by decide, hnull (s1.regions.headD region64) 1 (by decide)⟩, by decide,
      rfl⟩ <|
    Run.cons _ s3 _ _ _ ⟨⟨trivial, hrecognised⟩, by decide, rfl⟩ (Run.nil s3)

/-- A frame past the first `blocks_count` bytes of its region is never given
    back: the second of two frames stays taken after its release. -/
theorem run_not_exact :
    ¬ ∀ rs, Fresh rs → ∀ calls s,
      Run (Guarded (fun _ c => c.Plain) Step) (start rs) calls s → s.Exact := by
  intro hall
  let s1 := (start [region64]).after (.alloc 1 1)
  let s2 := s1.after (.alloc 1 1)
  let s3 := s2.after (.free 0x101000 1)
  have hexact := hall [region64] fresh_region64 [.alloc 1 1, .alloc 1 1, .free 0x101000 1] s3
    (Run.cons _ s1 _ _ _ ⟨by decide, by decide, rfl⟩
      (Run.cons _ s2 _ _ _ ⟨by decide, by decide, rfl⟩
        (Run.cons _ s3 _ _ _ ⟨trivial, by decide, rfl⟩
          (Run.nil _))))
  have htaken : 0x101000 ∈ usedBytes s3.regions :=
    ⟨s3.regions.headD region64, List.mem_singleton.mpr rfl, 0, 1, by decide, by decide, by decide,
      Set.mem_Ico.mpr ⟨by decide, by decide⟩⟩
  rw [hexact.1] at htaken
  rcases htaken with ⟨pc, hpc, ha⟩
  have hlive : s3.live = [(0x100000, 1)] := by decide
  rw [hlive, List.mem_singleton] at hpc
  rw [hpc] at ha
  exact absurd (Set.mem_Ico.mp ha).2 (by decide)

/-- What a result of `frame_alloc` other than null is: a run of frames of one
    region, aligned within its word, clear before and set after. -/
def AlignedRun (rs rs' : List Region) (p : Word) (count alignUp : Nat) : Prop :=
  ∃ (n : Nat) (r r' : Region) (i k : Nat), rs[n]? = some r ∧ rs'[n]? = some r' ∧
    r'.shape = r.shape ∧ i < r.repeatcount ∧
    alignUp ∣ k ∧ k + count ≤ 32 ∧ p.toNat = frameAddr r i k ∧
    RunClear (r.firstBitmap i) k count ∧ ∀ j < count, (r'.firstBitmap i).getLsbD (k + j) = true

theorem alignedRun_of_allocSpec (rs : List Region) (count alignUp : Nat) (hcount : 0 < count)
    (res : Word × List Region) (hsep : Separate rs) (h : AllocSpec count alignUp rs res)
    (hp : res.1 ≠ 0) : AlignedRun rs res.2 res.1 count alignUp := by
  rcases h.used count alignUp hcount rs res hsep with
    ⟨pre, r, post, i, k, rfl, hi, hfit, haddr, hregs, _⟩ | ⟨hnull, _⟩
  · -- The bits taken were clear, and are the only ones that change.
    have hget := congrArg (fun qs => qs[pre.length]?) hregs
    simp only [List.getElem?_map, List.getElem?_append_right (Nat.le_refl pre.length), Nat.sub_self,
      List.getElem?_cons_zero, Option.map_some, Option.map_eq_some_iff] at hget
    rcases hget with ⟨r', hr', hforget⟩
    rcases fields_of_forgetHint _ r' hforget with ⟨hbitmap, _, _⟩
    have hshape : r'.shape = r.shape := shape_eq_of_forgetHint (r.mark i k count) r' hforget
    refine ⟨pre.length, r, r', i, k, ?_, hr', hshape, hi, hfit.aligned,
      hfit.inWord, haddr, hfit.clear, fun j hj => ?_⟩
    · rw [List.getElem?_append_right (Nat.le_refl _), Nat.sub_self]
      exact List.getElem?_cons_zero
    · have hin := hfit.inWord
      have hrange : k ≤ k + j ∧ k + j < k + count ∧ k + j < 32 := by omega
      rw [hbitmap]
      simp only [Region.mark, Region.setWord, if_true, getLsbD_setRun, decide_eq_true hrange,
        Bool.or_true]
  · exact absurd hnull hp

/-- In every run of allocations in step, whatever the alignment, no frame is
    handed out twice, and every further such allocation returns null or a run
    of frames as asked for. -/
theorem run_aligned (rs : List Region) (hfresh : Fresh rs) (calls : List FrameCall)
    (s : FrameSession)
    (hrun : Run (Guarded (fun s c => c.IsAlloc ∧ s.InStep c) Step) (start rs) calls s) :
    s.live.Pairwise (fun pc qd => Disjoint (rangeOf pc) (rangeOf qd)) ∧
      ∀ count alignUp, s.Allowed (.alloc count alignUp) → s.InStep (.alloc count alignUp) →
        ∃ p rs', frameAlloc count alignUp s.regions = some (p, rs') ∧
          (p ≠ 0 → AlignedRun s.regions rs' p count.toNat (effectiveAlign alignUp)) := by
  have hinv := Run.invariant (Guarded (fun s c => c.IsAlloc ∧ s.InStep c) Step) Inv
    (fun s c t hs ⟨⟨hisAlloc, hin⟩, hallowed, hcall⟩ => by
      cases c with
      | alloc count alignUp =>
          rcases inv_alloc s count alignUp hs hallowed hin with ⟨res, hres, _, hinv⟩
          simp only [call, hres, Option.map_some, Option.some.injEq] at hcall
          rw [← hcall]
          exact hinv
      | free ptr count => exact absurd hisAlloc not_false)
    (start rs) s calls hrun (inv_start rs hfresh).1
  refine ⟨hinv.apart, fun count alignUp hallowed hin => ?_⟩
  rcases inv_alloc s count alignUp hinv hallowed hin with ⟨res, hres, hspec, _⟩
  exact ⟨res.1, res.2, hres, fun hp => alignedRun_of_allocSpec s.regions count.toNat _ hallowed.1 res
    hinv.separate hspec hp⟩

theorem searchInStep_word (rs : List Region) (count : Nat) (hcount : 0 < count) :
    SearchInStep rs count 32 :=
  fun _ r _ _ _ i _ _ _ _ => inStep_word (r.firstBitmap i) count hcount

/-- Three frames from the start of a word, twice: the second request meets the
    bits the first has set and goes on to the next word. -/
theorem run_aligned_words :
    let s1 := (start [region64]).after (.alloc 3 32)
    let s2 := s1.after (.alloc 3 32)
    s2.live = [(0x120000, 3), (0x100000, 3)] ∧
      s2.live.Pairwise (fun pc qd => Disjoint (rangeOf pc) (rangeOf qd)) ∧
      ∃ p rs', frameAlloc 3 32 s1.regions = some (p, rs') ∧ p = 0x120000 ∧
        AlignedRun s1.regions rs' p 3 32 := by
  intro s1 s2
  have hin : ∀ rs : List Region, SearchInStep rs 3 32 :=
    fun rs => searchInStep_word rs 3 (by decide)
  let Guard := Guarded (fun (s : FrameSession) c => c.IsAlloc ∧ s.InStep c) Step
  have hfirst : Guard (start [region64]) (.alloc 3 32) s1 :=
    ⟨⟨trivial, hin [region64]⟩, by decide, rfl⟩
  have hsecond : Guard s1 (.alloc 3 32) s2 := ⟨⟨trivial, hin s1.regions⟩, by decide, rfl⟩
  have hone : Run Guard (start [region64]) [.alloc 3 32] s1 :=
    Run.cons _ s1 _ _ _ hfirst (Run.nil s1)
  have htwo : Run Guard (start [region64]) [.alloc 3 32, .alloc 3 32] s2 :=
    Run.cons _ s1 _ _ _ hfirst (Run.cons _ s2 _ _ _ hsecond (Run.nil s2))
  refine ⟨by decide, (run_aligned [region64] fresh_region64 _ s2 htwo).1, ?_⟩
  rcases (run_aligned [region64] fresh_region64 _ s1 hone).2 3 32 (by decide) (hin s1.regions) with
    ⟨p, rs', halloc, hrun⟩
  have hp : p = 0x120000 := by
    have hresult : (frameAlloc 3 32 s1.regions).map Prod.fst = some 0x120000 := by decide
    rw [halloc] at hresult
    exact Option.some.inj hresult
  exact ⟨p, rs', halloc, hp, hrun (by rw [hp]; decide)⟩

/-- The second and the third of three single frames at even numbers are one
    frame. -/
theorem run_not_aligned :
    ¬ ∀ rs, Fresh rs → ∀ calls s,
      Run (Guarded (fun _ c => c.IsAlloc) Step) (start rs) calls s →
        s.live.Pairwise fun pc qd => Disjoint (rangeOf pc) (rangeOf qd) := by
  intro hall
  let s1 := (start [region64]).after (.alloc 1 2)
  let s2 := s1.after (.alloc 1 2)
  let s3 := s2.after (.alloc 1 2)
  have hapart := hall [region64] fresh_region64 [.alloc 1 2, .alloc 1 2, .alloc 1 2] s3
    (Run.cons _ s1 _ _ _ ⟨trivial, by decide, rfl⟩ (Run.cons _ s2 _ _ _ ⟨trivial, by decide, rfl⟩
      (Run.cons _ s3 _ _ _ ⟨trivial, by decide, rfl⟩ (Run.nil _))))
  have hlive : s3.live = [(0x102000, 1), (0x102000, 1), (0x100000, 1)] := by decide
  rw [hlive, List.pairwise_cons] at hapart
  have hself := hapart.1 (0x102000, 1) List.mem_cons_self
  have hbyte : 0x102000 ∈ rangeOf (0x102000, 1) := Set.mem_Ico.mpr ⟨by decide, by decide⟩
  exact Set.disjoint_left.mp hself hbyte hbyte

end FrameSession

end UnixP6
