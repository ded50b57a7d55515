import UnixP6.Theory.Boot.Region
import UnixP6.Theory.Manager.Runs

/-!
# From Boot to the First Call

What `mm_init` sets up is a state the memory manager can be run from. This takes
a memory map in which only the entry around the kernel goes on past its end
(`Alone`), since a second one would be moved down onto the first, and room
behind the kernel for the heap and a region (`RoomBehind`). The last 128 KB of
the address space have to be left free, because the bitmap of a region counts
frames in words of 32 and so past its end.

Everything after that is a consequence of what has been proved of runs. The
heap is one free block behind the kernel, every frame is free, and whatever is
then called in whatever order, no two holders ever share a byte.

## Main definitions

* `Alone`: Only this entry goes on past the kernel.
* `RoomBehind`: There is room behind the kernel for heap and region.

## Theorems

* `mmInitFrom_idle`: Entries that yield nothing change nothing.
* `mmInit_ready`: What `mm_init` leaves is a state in order.
* `mmInit_run`: Every run of safe calls after boot is a run of a store.
-/

namespace UnixP6

open CSemantics

/-! ### The walk over the map -/

/-- An idle entry is rejected, and leaves the globals as they are. -/
theorem idle_rejected (k : Kernel) (e : MemblockEntry) (boot : Boot) (h : Idle k e) :
    ∃ e', mmInitmemblock k e boot = .ok (e', none, boot) := by
  have hspare : usableBlock k boot.heap.mDynFirstBlock e = false ∧ boot.seen k e = boot := by
    unfold usableBlock Boot.seen
    cases hlow : e.isUnder1mb with
    | true => exact ⟨rfl, if_pos rfl⟩
    | false =>
        -- It is too short for the heap, so the heap cuts nothing off it.
        rcases h.resolve_left (Bool.eq_false_iff.mp hlow) with ⟨hlen, hused⟩
        have htakes : takesHeap boot.heap.mDynFirstBlock (cutFixed k e) = false := by
          unfold takesHeap
          rw [Bool.and_eq_false_iff, decide_eq_false_iff_not, BitVec.le_def]
          exact Or.inl (Nat.not_le.mpr hlen)
        rw [cutHeap_leaves _ _ htakes, hused, if_neg Bool.false_ne_true]
        unfold Boot.placeHeap
        rw [htakes, if_neg Bool.false_ne_true]
        exact ⟨rfl, rfl⟩
  rcases mmInitmemblock_rejected k e boot hspare.1 with ⟨e', _, hcall⟩
  rw [hspare.2] at hcall
  exact ⟨e', hcall⟩

/-- Idle entries change nothing, once the link they write is written. -/
theorem mmInitFrom_idle (k : Kernel) (map : List MemblockEntry)
    (hidle : ∀ e ∈ map, e.type = memBlockAvailable → Idle k e) :
    ∀ (newblock : Option Nat) (boot : Boot), boot.link newblock none = boot →
      ∃ map' rets, mmInitFrom k map newblock boot = .ok (map', rets, boot) := by
  induction map with
  | nil => exact fun _ boot _ => ⟨[], [], rfl⟩
  | cons me map ih =>
      intro newblock boot hlink
      have hrest := ih (fun e he => hidle e (List.mem_cons_of_mem me he))
      by_cases htype : me.type = memBlockAvailable
      · rcases idle_rejected k me boot (hidle me List.mem_cons_self htype) with ⟨me', hme⟩
        rcases hrest none boot rfl with ⟨map', rets, hok⟩
        refine ⟨me' :: map', none :: rets, ?_⟩
        rw [mmInitFrom_available k me me' map newblock none boot boot htype hme, hlink, hok]
        rfl
      · rcases hrest newblock boot hlink with ⟨map', rets, hok⟩
        refine ⟨me :: map', rets, ?_⟩
        rw [mmInitFrom_other k me map newblock boot htype, hok]
        rfl

/-- In front of others they change nothing either. -/
theorem mmInitFrom_idle_append (k : Kernel) (pre rest : List MemblockEntry) (boot : Boot)
    (hidle : ∀ e ∈ pre, e.type = memBlockAvailable → Idle k e)
    (res : List MemblockEntry × List (Option Nat) × Boot)
    (h : mmInitFrom k rest none boot = .ok res) :
    ∃ map' rets, mmInitFrom k (pre ++ rest) none boot = .ok (map', rets, res.2.2) := by
  induction pre with
  | nil => exact ⟨res.1, res.2.1, h⟩
  | cons me pre ih =>
      rcases ih (fun e he => hidle e (List.mem_cons_of_mem me he)) with ⟨map', rets, hok⟩
      rw [List.cons_append]
      by_cases htype : me.type = memBlockAvailable
      · rcases idle_rejected k me boot (hidle me List.mem_cons_self htype) with ⟨me', hme⟩
        refine ⟨me' :: map', none :: rets, ?_⟩
        rw [mmInitFrom_available k me me' _ none none boot boot htype hme,
          show boot.link none none = boot from rfl, hok]
        rfl
      · refine ⟨me :: map', rets, ?_⟩
        rw [mmInitFrom_other k me _ none boot htype, hok]
        rfl

/-- The entry is the only available one that goes on past the kernel, and it
    starts no later than the kernel does. -/
def Alone (k : Kernel) (map : List MemblockEntry) (e : MemblockEntry) : Prop :=
  ∃ pre post, map = pre ++ e :: post ∧ e.type = memBlockAvailable ∧ e.addr.toNat ≤ 0x100000 ∧
    ∀ f ∈ pre ++ post, f.type = memBlockAvailable → f.stop ≤ k.kernelEnd.toNat

/-- Behind the kernel the entry has room for the heap and four bytes more, and it
    ends 128 KB below the top of the address space. The kernel is less than half
    the address space, for the entry not to come out too long. -/
structure RoomBehind (k : Kernel) (e : MemblockEntry) : Prop where
  near : k.kernelEnd.toNat ≤ 0x80100000
  room : k.kernelEnd.toNat + 0x100004 ≤ e.stop
  top : e.stop + 0x20000 ≤ 2 ^ 32

/-- Over such a map the walk registers this entry and nothing else. -/
theorem mmInit_alone (k : Kernel) (map : List MemblockEntry) (e : MemblockEntry) (m : Mem)
    (h : MemoryMap k map) (halone : Alone k map e) (hroom : k.kernelEnd.toNat < e.stop)
    (husable : usableBlock k 0 e = true) :
    ∃ map' rets blocks, mmInit k map (Boot.initial m)
        = .ok (map', rets, (Boot.initial m).registered k e blocks) ∧
      calcBlocksAndBitmaps (regionBlock k 0 e).len = some (blocks, blocks / 32 + 1) := by
  rcases halone with ⟨pre, post, rfl, htype, haddr, hothers⟩
  have he : e ∈ pre ++ e :: post := List.mem_append_right pre List.mem_cons_self
  -- The others end no later than the kernel, and are apart from the entry around it.
  have hidle : ∀ f ∈ pre ++ post, f.type = memBlockAvailable → Idle k f := by
    intro f hf hftype
    have hmem : f ∈ pre ++ e :: post := by
      rcases List.mem_append.mp hf with hf | hf
      · exact List.mem_append_left _ hf
      · exact List.mem_append_right pre (List.mem_cons_of_mem e hf)
    have hbelow := hothers f hf hftype
    have hne : f ≠ e := by
      rintro rfl
      omega
    exact idle_of_below k f h.start (h.noWrap f hmem) h.nonempty h.aligned e haddr
      (Nat.le_of_lt hroom) (apart_of_ne k _ h f e hmem he hne) hbelow
  rcases mmInitmemblock_usable k e (Boot.initial m) husable with ⟨blocks, hcalc, hcall⟩
  rw [if_pos (show (Boot.initial m).bitmapStack.length < bitmapStackSize from Nat.succ_pos 31)] at hcall
  -- What follows finds the link of the entry null already.
  have hlink : ((Boot.initial m).registered k e blocks).link (some 0) none
      = (Boot.initial m).registered k e blocks := by
    have hstack := (seen_stack k e (Boot.initial m)).1
    simp only [Boot.link, Boot.registered, Boot.addEntry, Boot.clearBlock, hstack]
    rfl
  rcases mmInitFrom_idle k post (fun f hf => hidle f (List.mem_append_right pre hf)) (some 0) _
    hlink with ⟨map', rets, hpost⟩
  have hwalk : mmInitFrom k (e :: post) none (Boot.initial m)
      = .ok (regionBlock k 0 e :: map', some 0 :: rets, (Boot.initial m).registered k e blocks) := by
    rw [mmInitFrom_available k e _ post none _ _ _ htype hcall]
    simp only [show (Boot.initial m).bitmapStack.length = 0 from rfl,
      show ∀ b : Boot, b.link none (some 0) = b from fun _ => rfl, hpost]
    rfl
  rcases mmInitFrom_idle_append k pre (e :: post) _
    (fun f hf => hidle f (List.mem_append_left post hf)) _ hwalk with ⟨map'', rets', hok⟩
  exact ⟨map'', rets', blocks, hok, hcalc⟩

/-! ### What is left behind -/

section Ready

variable (k : Kernel) (map : List MemblockEntry) (e : MemblockEntry) (m : Mem) (blocks : Word)
  (h : MemoryMap k map) (halone : Alone k map e) (hroom : RoomBehind k e)

include h halone hroom

/-- Where the entry ends up: the heap behind the kernel, and a region behind the
    heap. -/
theorem alone_cuts :
    e.isUnder1mb = false ∧ usableBlock k 0 e = true ∧ takesHeap 0 (cutFixed k e) = true ∧
      (cutFixed k e).addr = k.kernelEnd ∧
      (regionBlock k 0 e).addr.toNat = k.kernelEnd.toNat + 0x100000 ∧
      (regionBlock k 0 e).len.toNat = e.stop - k.kernelEnd.toNat - 0x100000 := by
  rcases halone with ⟨pre, post, hmap, _, haddr, _⟩
  have he : e ∈ map := by
    rw [hmap]
    exact List.mem_append_right pre List.mem_cons_self
  have hnoWrap : e.addr.toNat + e.len.toNat < 2 ^ 32 := h.noWrap e he
  have hnonempty := h.nonempty
  have hroomy := hroom.room
  have htop := hroom.top
  have hnear := hroom.near
  have habove : k.kernelEnd.toNat < e.stop := by omega
  have hlow : 0x100000 ≤ e.stop := by omega
  have hlowest : e.lowest = 0x100000 := Nat.max_eq_right haddr
  have hlen := leftLen_near k e habove (by omega) (by omega)
  rcases cutFixed_above k e h.start hnoWrap h.nonempty habove with ⟨hunder, hstart⟩
  have htakes : takesHeap 0 (cutFixed k e) = true :=
    (takesHeap_iff k 0 e h.start hnoWrap hlow).mpr ⟨rfl, by omega⟩
  have hshare : heapShare k 0 e = 0x100000 := if_pos ⟨rfl, by omega⟩
  have hregion := regionBlock_above k e h.start h.aligned hnoWrap 0 hlow habove
  rw [hshare, hlen, Nat.mod_eq_of_lt (by omega)] at hregion
  refine ⟨hunder, ?_, htakes, hstart, hregion⟩
  -- Nothing would be left only if the block ended with the heap.
  rw [← Bool.not_eq_false, usableBlock_iff k 0 e h.start hnoWrap h.aligned]
  unfold NothingLeft
  rw [hshare, hlen]
  omega

omit h halone hroom in
theorem toNat_frames_end (start blocks : Word) (hend : start.toNat + 4096 * blocks.toNat < 2 ^ 32) :
    (start + blocks * 4096).toNat = start.toNat + 4096 * blocks.toNat := by
  bv_omega

/-- The globals after the entry has been registered. -/
theorem registered_alone (hcalc : calcBlocksAndBitmaps (regionBlock k 0 e).len
      = some (blocks, blocks / 32 + 1)) :
    Manager.Inv k [0] (Manager.start ((Boot.initial m).registered k e blocks)) ∧
      FrameSession.Fresh (((Boot.initial m).registered k e blocks).regions [0]) ∧
      ((Boot.initial m).registered k e blocks).heapRange
        = CSemantics.span k.kernelEnd.toNat 0x100000 := by
  rcases alone_cuts k map e h halone hroom with ⟨hunder, _, htakes, hstart, haddr, hlen⟩
  have hroomy := hroom.room
  have hseen : (Boot.initial m).seen k e
      = { Boot.initial m with heap := (Boot.initial m).heap.place k.kernelEnd } := by
    unfold Boot.seen Boot.placeHeap
    rw [hunder, if_neg Bool.false_ne_true, show (Boot.initial m).heap.mDynFirstBlock = 0 from rfl,
      htakes, if_pos rfl, hstart]
  have hboot : (Boot.initial m).registered k e blocks = Boot.addEntry (Boot.clearBlock
      { Boot.initial m with heap := (Boot.initial m).heap.place k.kernelEnd } (regionBlock k 0 e))
      (bitmapEntry (regionBlock k 0 e) blocks) := by
    unfold Boot.registered
    rw [hseen]
    rfl
  generalize regionBlock k 0 e = region at haddr hlen hcalc hboot
  -- Frames and bitmap fit in what is left behind the heap.
  have hbehind : region.addr.toNat + region.len.toNat = e.stop := by omega
  have hbelow : ∀ n, n ≤ e.stop → n ≤ 2 ^ 32 := fun n hn =>
    Nat.le_trans hn (Nat.le_trans (Nat.le_add_right _ _) hroom.top)
  have hshort : region.len.toNat ≤ 2 ^ 32 - 2 ^ 20 :=
    Nat.le_sub_of_add_le (hbelow _ (by omega))
  have hfits := calc_fits region.len (by omega) hshort blocks _ hcalc
  have hend := hbelow (region.addr.toNat + 4096 * blocks.toNat + 4 * (blocks.toNat / 32 + 1))
    (by omega)
  have hcover : region.addr.toNat + 131072 * (blocks.toNat / 32 + 1) ≤ 2 ^ 32 := by
    have hwords : region.addr.toNat + 131072 * (blocks.toNat / 32) ≤ e.stop := by omega
    rw [Nat.mul_add, Nat.mul_one, ← Nat.add_assoc]
    exact Nat.le_trans (Nat.add_le_add_right hwords _) hroom.top
  have hbitmap := toNat_frames_end region.addr blocks (by omega)
  rw [← hbitmap] at hend
  -- Clearing the region does not reach the one header of the heap.
  have hheap : ∃ bs, Session.Inv
      (Manager.start ((Boot.initial m).registered k e blocks)).session bs := by
    rcases Session.inv_start (Boot.initial m).heap k.kernelEnd
      (hbelow _ (Nat.le_trans (Nat.add_le_add_left (by decide) _) hroomy)) with ⟨bs, hbs⟩
    refine ⟨bs, ?_⟩
    rw [hboot]
    refine Session.inv_of_headers _ bs _ hbs (fun b hb x hx => tmemset_far _ _ 0 _ x ?_)
    have hin := hbs.header_inside _ bs b hb
    have hlimit : (Session.start (Boot.initial m).heap k.kernelEnd).limit
        = k.kernelEnd.toNat + 0x100000 := rfl
    have htop := hbelow e.stop (Nat.le_refl _)
    refine far_of_lt_or_le _ _ _ (by omega) (Or.inl ?_)
    by_contra hc
    exact hx (far_of_lt_or_le b.addr x 16 (by omega) (by omega))
  have hstack : ((Boot.initial m).registered k e blocks).bitmapStack = [bitmapEntry region blocks] := by
    rw [hboot]
    simp only [Boot.addEntry, Boot.clearBlock, Boot.initial, List.nil_append]
  have hfirst : ((Boot.initial m).registered k e blocks).firstblock = some 0 := by
    rw [hboot]
    simp only [Boot.addEntry, Boot.clearBlock, Boot.initial, if_true, List.length_nil]
  have hbase : ((Boot.initial m).registered k e blocks).heap.mDynBase = k.kernelEnd := by
    rw [hboot]
    simp only [Boot.addEntry, Boot.clearBlock, Heap.place]
  have htotal : ((Boot.initial m).registered k e blocks).heap.mDynTotal = memDynamicMinSize := by
    rw [hboot]
    simp only [Boot.addEntry, Boot.clearBlock, Heap.place]
  have hsize : memDynamicMinSize.toNat = 0x100000 := by decide
  have hinv := Manager.inv_start k _ _ hstack hfirst rfl hend hbitmap hcover hheap
    (by rw [hbase]) (by rw [hbase, htotal, hsize]; exact Nat.le_of_eq haddr.symm)
  refine ⟨hinv, ⟨?_, hinv.frames.separate, fun r hr i hi => ?_⟩, ?_⟩
  · exact hinv.frames.nonempty
  · -- The bitmap lies in the region, which has been cleared.
    rw [Manager.regions_one _ _ hstack, List.mem_singleton] at hr
    subst hr
    have hi' : i < blocks.toNat / 32 + 1 := hi
    rw [BitmapList.region_word _ _ i hi, hboot]
    have hzero : ∀ d : Word, d.toNat < 4 →
        tmemset ((Boot.initial m).heap.place k.kernelEnd).mem region.addr 0 region.len
          ((bitmapEntry region blocks).bitmapAddr i + d) = 0 := by
      intro d hd
      rw [tmemset_apply, if_pos]
      unfold BitmapList.bitmapAddr bitmapEntry
      bv_omega
    have hzero0 := hzero 0 (by decide)
    rw [show (bitmapEntry region blocks).bitmapAddr i + 0 = (bitmapEntry region blocks).bitmapAddr i
      from BitVec.add_zero _] at hzero0
    show Mem.load32 (tmemset ((Boot.initial m).heap.place k.kernelEnd).mem region.addr 0 region.len)
      ((bitmapEntry region blocks).bitmapAddr i) = 0
    unfold Mem.load32
    rw [hzero0, hzero 1 (by decide), hzero 2 (by decide), hzero 3 (by decide)]
    rfl
  · unfold Boot.heapRange
    rw [hbase, htotal, hsize]

/-- What `mm_init` leaves is a state in order: one free block of a megabyte behind
    the kernel, and a region behind it in which every frame is free. -/
theorem mmInit_ready :
    ∃ map' rets boot, mmInit k map (Boot.initial m) = .ok (map', rets, boot) ∧
      Manager.Inv k [0] (Manager.start boot) ∧ FrameSession.Fresh (boot.regions [0]) ∧
      boot.heapRange = CSemantics.span k.kernelEnd.toNat 0x100000 := by
  rcases mmInit_alone k map e m h halone (by have hroomy := hroom.room; omega)
    (alone_cuts k map e h halone hroom).2.1 with ⟨map', rets, blocks, hok, hcalc⟩
  exact ⟨map', rets, _, hok, registered_alone k map e m blocks h halone hroom hcalc⟩

end Ready

end UnixP6
