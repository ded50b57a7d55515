import UnixP6.Theory.Boot.Chain

/-!
# What Boot Writes, and What It Rests on

`mm_init` clears every region it registers, and writes a header where it places
the dynamic heap. The pool `bitmap_stack`, the head `firstblock`, the stack and
the code that runs are in memory too: the linker script puts them all between
`__kernel_start` and `__kernel_end`. So is the map, of which the entry the walk
is at and those after it are still read. The pool and the head are no part of
`heap.mem` in `Boot`, so a clear that goes over the image is seen here as bytes
of the image that are not what they were. The cuts are written into the entries
themselves; they are in the map that `mmInit` returns and not here, since a map
is not part of the image.

None of the writes looks at memory first. Which addresses a map has overwritten
is therefore known from the map alone, and `bootWrites` computes it with the
cuts. A walk leaves the image and the rest of the map alone in every memory
exactly when none of these addresses is one of theirs, which is what
`mmInit_chain` adds to the condition on the pool and on the order of entries.

## Main definitions

* `entryMem`, `bootMem`: Memory once one entry, or a whole map, has been walked.
* `entryWrites`, `bootWrites`: The addresses these overwrite.
* `restsOn`: The image, and the entries that are still read.
* `ChainKept`: The chain is exact and what the walk rests on is left alone.

## Theorems

* `mmInitFrom_mem`: The memory a walk leaves.
* `bootMem_overwrites`: A walk overwrites exactly the addresses computed.
* `mmInit_chain`: When the chain is what it should be, whatever is in memory.
* `mmInit_chain_broken`: A rejected entry between two usable ones loses one.
-/

namespace UnixP6

open CSemantics

/-! ### One entry -/

/-- Memory with the header of the dynamic heap placed at `base`. -/
def placeMem (base : Word) (m : Mem) : Mem :=
  MemBlock.setNext (MemBlock.setSize (MemBlock.setFree m base 1) base (memDynamicMinSize - 16))
    base 0

/-- The fields of the header that are written. -/
def headerBytes (base : Word) : Set Word :=
  addresses (base + 8) 4 ∪ addresses (base + 12) 4 ∪ addresses base 4

/-- Memory once an entry has been looked at: it may have taken the heap. -/
def seenMem (k : Kernel) (first : Word) (block : MemblockEntry) (m : Mem) : Mem :=
  if ¬ block.isUnder1mb ∧ takesHeap first (cutFixed k block) then
    placeMem (cutFixed k block).addr m
  else m

/-- Memory with what is left of the entry cleared, if it yields a region. -/
def clearMem (k : Kernel) (first : Word) (block : MemblockEntry) (m : Mem) : Mem :=
  if usableBlock k first block then
    tmemset m (regionBlock k first block).addr 0 (regionBlock k first block).len
  else m

/-- Memory once the entry has been walked. -/
def entryMem (k : Kernel) (first : Word) (block : MemblockEntry) (m : Mem) : Mem :=
  clearMem k first block (seenMem k first block m)

/-- The addresses an entry has overwritten: a header, if it takes the heap, and
    the region, if it yields one. -/
def entryWrites (k : Kernel) (first : Word) (block : MemblockEntry) : Set Word :=
  {x | (¬ block.isUnder1mb ∧ takesHeap first (cutFixed k block)) ∧
      x ∈ headerBytes (cutFixed k block).addr} ∪
    {x | usableBlock k first block ∧
      x ∈ addresses (regionBlock k first block).addr (regionBlock k first block).len.toNat}

theorem placeMem_overwrites (base : Word) : Overwrites (headerBytes base) (placeMem base) :=
  Overwrites.comp _ _ (fun m => MemBlock.setSize (MemBlock.setFree m base 1) base _) _
    (Overwrites.comp _ _ (fun m => MemBlock.setFree m base 1) _ (Overwrites.store32 (base + 8) 1)
      (Overwrites.store32 (base + 12) (memDynamicMinSize - 16))) (Overwrites.store32 base 0)

theorem tmemset_overwrites (ptr : Word) (n : Byte) (size : Word) :
    Overwrites (addresses ptr size.toNat) (fun m => tmemset m ptr n size) where
  fixed x hx m m' := by
    have hin : (x - ptr).toNat < size.toNat := Nat.not_le.mp hx
    rw [tmemset_apply, tmemset_apply, if_pos hin, if_pos hin]
  kept x hx m := tmemset_far m ptr n size x (not_not.mp hx)

theorem entryMem_overwrites (k : Kernel) (first : Word) (block : MemblockEntry) :
    Overwrites (entryWrites k first block) (entryMem k first block) :=
  Overwrites.comp _ _ (seenMem k first block) (clearMem k first block)
    (Overwrites.ite _ _ _ (placeMem_overwrites _)) (Overwrites.ite _ _ _ (tmemset_overwrites _ 0 _))

theorem seen_mem (k : Kernel) (block : MemblockEntry) (boot : Boot) :
    (boot.seen k block).heap.mem = seenMem k boot.heap.mDynFirstBlock block boot.heap.mem := by
  unfold Boot.seen Boot.placeHeap seenMem
  by_cases hlow : block.isUnder1mb = true
  · rw [if_pos hlow, if_neg (fun h => h.1 hlow)]
  · rw [if_neg hlow]
    by_cases htakes : takesHeap boot.heap.mDynFirstBlock (cutFixed k block) = true
    · rw [if_pos htakes, if_pos ⟨hlow, htakes⟩]
      rfl
    · rw [if_neg htakes, if_neg (fun h => htakes h.2)]

/-- A rejected entry can only have taken the heap. -/
theorem entryMem_rejected (k : Kernel) (block : MemblockEntry) (boot : Boot)
    (h : usableBlock k boot.heap.mDynFirstBlock block = false) :
    (boot.seen k block).heap.mem
      = entryMem k boot.heap.mDynFirstBlock block boot.heap.mem := by
  rw [seen_mem, entryMem, clearMem, if_neg (by rw [h]; exact Bool.false_ne_true)]

/-- A usable entry is cleared after it may have taken the heap. -/
theorem entryMem_usable (k : Kernel) (block : MemblockEntry) (boot : Boot) (blocks : Word)
    (h : usableBlock k boot.heap.mDynFirstBlock block = true) :
    (boot.registered k block blocks).heap.mem
      = entryMem k boot.heap.mDynFirstBlock block boot.heap.mem := by
  show tmemset (boot.seen k block).heap.mem _ 0 _ = _
  rw [seen_mem, entryMem, clearMem, if_pos h]

/-! ### The walk -/

/-- Memory once the map has been walked. -/
def bootMem (k : Kernel) : Word → List MemblockEntry → Mem → Mem
  | _, [] => fun m => m
  | first, me :: map =>
    if me.type = memBlockAvailable then fun m =>
      bootMem k (heapAfter k first me) map (entryMem k first me m)
    else bootMem k first map

/-- The addresses the walk over a map overwrites. -/
def bootWrites (k : Kernel) : Word → List MemblockEntry → Set Word
  | _, [] => ∅
  | first, me :: map =>
    if me.type = memBlockAvailable then
      entryWrites k first me ∪ bootWrites k (heapAfter k first me) map
    else bootWrites k first map

instance (k : Kernel) (first : Word) (block : MemblockEntry) (x : Word) :
    Decidable (x ∈ entryWrites k first block) :=
  inferInstanceAs (Decidable ((_ ∧ ((¬ Far _ _ _ ∨ ¬ Far _ _ _) ∨ ¬ Far _ _ _)) ∨
    (_ ∧ ¬ Far _ _ _)))

/-- The addresses overwritten are decided entry by entry. -/
def decideBootWrites (k : Kernel) :
    (first : Word) → (map : List MemblockEntry) → (x : Word) →
      Decidable (x ∈ bootWrites k first map)
  | _, [], x => .isFalse (Set.notMem_empty x)
  | first, me :: map, x =>
    if htype : me.type = memBlockAvailable then
      have := decideBootWrites k (heapAfter k first me) map x
      decidable_of_iff (x ∈ entryWrites k first me ∨ x ∈ bootWrites k (heapAfter k first me) map)
        (by rw [bootWrites, if_pos htype]; rfl)
    else
      have := decideBootWrites k first map x
      decidable_of_iff (x ∈ bootWrites k first map) (by rw [bootWrites, if_neg htype])

instance (k : Kernel) (first : Word) (map : List MemblockEntry) (x : Word) :
    Decidable (x ∈ bootWrites k first map) :=
  decideBootWrites k first map x

/-- A walk overwrites exactly the addresses computed from the map. -/
theorem bootMem_overwrites (k : Kernel) (map : List MemblockEntry) :
    ∀ first : Word, Overwrites (bootWrites k first map) (bootMem k first map) := by
  induction map with
  | nil => exact fun _ => Overwrites.nothing
  | cons me map ih =>
      intro first
      unfold bootWrites bootMem
      by_cases htype : me.type = memBlockAvailable
      · simp only [if_pos htype]
        exact Overwrites.comp _ _ _ _ (entryMem_overwrites k first me)
          (ih (heapAfter k first me))
      · simp only [if_neg htype]
        exact ih first

/-- The memory a walk that returns leaves. -/
theorem mmInitFrom_mem (k : Kernel) (map : List MemblockEntry) :
    ∀ (newblock : Option Nat) (boot : Boot) (res : List MemblockEntry × List (Option Nat) × Boot),
      mmInitFrom k map newblock boot = .ok res →
        res.2.2.heap.mem = bootMem k boot.heap.mDynFirstBlock map boot.heap.mem := by
  induction map with
  | nil =>
      intro newblock boot res h
      rw [mmInitFrom, Except.ok.injEq] at h
      rw [← h, bootMem]
  | cons me map ih =>
      intro newblock boot res h
      rcases mmInitFrom_cons k me map newblock boot res h with
        ⟨htype, rest, hrest, rfl⟩ | ⟨htype, husable, me', rest, hrest, rfl⟩ |
          ⟨htype, husable, blocks, rest, _, hrest, rfl⟩
      · rw [bootMem, if_neg htype]
        exact ih newblock boot rest hrest
      · have hih := ih none _ rest hrest
        rw [link_heap, seen_heap, entryMem_rejected k me boot husable] at hih
        rw [bootMem, if_pos htype]
        exact hih
      · have hih := ih _ _ rest hrest
        rw [link_heap, registered_heap, entryMem_usable k me boot blocks husable] at hih
        rw [bootMem, if_pos htype]
        exact hih

/-! ### What the walk rests on -/

/-- What the walk rests on while it is at its entry `j`, counted from one: the
    kernel image, with the pool, the chain's head, the stack and the code in it,
    and the entries of 24 bytes from this one on. The entry itself is read again
    after its region has been cleared. -/
def restsOn (k : Kernel) (mmapAddr : Word) (map : List MemblockEntry) (j : Nat) : Set Word :=
  {x | k.kernelStart ≤ x ∧ x < k.kernelEnd} ∪
    addresses (mmapAddr + BitVec.ofNat 32 (24 * (j - 1))) (24 * (map.length - (j - 1)))

/-- `mm_init` builds the chain of exactly the entries it got, in order, and at
    every entry has left alone what it rests on. -/
structure ChainKept (k : Kernel) (map : List MemblockEntry) (mmapAddr : Word) (m : Mem) :
    Prop where
  chain : ∃ map' rets boot, mmInit k map (Boot.initial m) = .ok (map', rets, boot) ∧
    ChainExact boot rets
  kept : ∀ j map' rets boot, mmInit k (map.take j) (Boot.initial m) = .ok (map', rets, boot) →
    ∀ x ∈ restsOn k mmapAddr map j, boot.heap.mem x = m x

/-- The first entries of a map are usable as they are in the whole map. -/
theorem usables_take (k : Kernel) (map : List MemblockEntry) :
    ∀ (first : Word) (j : Nat), usables k first (map.take j) <+: usables k first map := by
  induction map with
  | nil =>
      intro first j
      rw [List.take_nil]
  | cons me map ih =>
      intro first j
      cases j with
      | zero =>
          rw [List.take_zero]
          exact List.nil_prefix
      | succ j =>
          rw [List.take_succ_cons]
          by_cases htype : me.type = memBlockAvailable
          · rw [usables_available k first me _ htype, usables_available k first me _ htype]
            exact (List.prefix_cons_inj _).mpr (ih (heapAfter k first me) j)
          · rw [usables_other k first me _ htype, usables_other k first me _ htype]
            exact ih first j

/-- The walk over the first entries leaves the memory computed from them, and
    returns if the pool lasts for the whole map. -/
theorem mmInit_take (k : Kernel) (map : List MemblockEntry) (m : Mem) (j : Nat)
    (hfits : (usables k 0 map).count true ≤ bitmapStackSize) :
    ∃ map' rets boot, mmInit k (map.take j) (Boot.initial m) = .ok (map', rets, boot) := by
  have hcount := (usables_take k map 0 j).sublist.count_le true
  rcases mmInit_firstRun k (map.take j) m (hcount.trans hfits) with ⟨map', rets, boot, hok, _⟩
  exact ⟨map', rets, boot, hok⟩

/-- Whatever is in memory, `mm_init` builds the chain of exactly the entries it
    got, in order, and leaves alone what it rests on, if and only if the usable
    entries fit in the pool, no rejected entry stands between two of them, and
    nothing it writes is in the image, in the entry it is at or in a later one. -/
theorem mmInit_chain (k : Kernel) (map : List MemblockEntry) (mmapAddr : Word) :
    (∀ m, ChainKept k map mmapAddr m) ↔
      (usables k 0 map).count true ≤ bitmapStackSize ∧ Contiguous (usables k 0 map) ∧
        ∀ j, Disjoint (bootWrites k 0 (map.take j)) (restsOn k mmapAddr map j) := by
  constructor
  · intro hall
    rcases (mmInit_chainExact k map (fun _ => 0)).mp (hall _).chain with ⟨hfits, hcontig⟩
    refine ⟨hfits, hcontig, fun j => ?_⟩
    refine ((bootMem_overwrites k (map.take j) 0).keeps_iff _ _ _).mp (fun m x hx => ?_)
    rcases mmInit_take k map m j hfits with ⟨map', rets, boot, hok⟩
    rw [← (hall m).kept j map' rets boot hok x hx]
    exact congrFun (mmInitFrom_mem k (map.take j) none (Boot.initial m) _ hok).symm x
  · rintro ⟨hfits, hcontig, hapart⟩ m
    refine ⟨(mmInit_chainExact k map m).mpr ⟨hfits, hcontig⟩, fun j map' rets boot hok x hx => ?_⟩
    have hkeeps := ((bootMem_overwrites k (map.take j) 0).keeps_iff _ _ _).mpr (hapart j)
    refine Eq.trans ?_ (hkeeps m x hx)
    exact congrFun (mmInitFrom_mem k (map.take j) none (Boot.initial m) _ hok) x

-- An entry that is all kernel image is cut by neither test, and clears the image.
example : (0x100000 : Word) ∈ bootWrites ⟨0x100000, 0x200000⟩ 0
    [⟨0x200000, 0x1000000, 1⟩, ⟨0x100000, 0x100000, 1⟩] := by decide

/-- Two ranges of memory with a range of low memory between them in the map. -/
def splitMap : List MemblockEntry :=
  [⟨0x100000, 0x1000000, 1⟩, ⟨0, 0x9f000, 1⟩, ⟨0x2000000, 0x1000000, 1⟩]

/-- The low range is rejected and the region after it hangs off nothing. -/
theorem mmInit_chain_broken :
    ¬ ∀ (k : Kernel) (map : List MemblockEntry) (m : Mem),
      ∃ map' rets boot, mmInit k map (Boot.initial m) = .ok (map', rets, boot) ∧
        ChainExact boot rets := by
  intro hall
  have hus : usables ⟨0x100000, 0x200000⟩ 0 splitMap = [true, false, true] := by decide
  rcases hall ⟨0x100000, 0x200000⟩ splitMap (fun _ => 0) with ⟨map', rets, boot, hok, hexact⟩
  rcases mmInit_firstRun ⟨0x100000, 0x200000⟩ splitMap (fun _ => 0) (by rw [hus]; decide) with
    ⟨map'', rets', boot', hok', hfilter, hchain⟩
  rw [hok, Except.ok.injEq, Prod.mk.injEq, Prod.mk.injEq] at hok'
  rcases hok' with ⟨_, rfl, rfl⟩
  have hrun := (chainExact_iff boot rets _ _ hfilter hchain).mp hexact
  rw [hus] at hrun
  exact absurd hrun (by decide)

end UnixP6
