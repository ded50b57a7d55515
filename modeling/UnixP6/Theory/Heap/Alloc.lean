import UnixP6.Theory.Heap.Chain

/-!
# Allocation on the Chain

`kmalloc` as an operation on the list of blocks: it takes the first block that
`fits`, records the requested size in it and puts a free header after it, four
bytes past the header for every byte requested.

The split is stated under what it needs and no more. The header of the
remainder must not be at null and must be apart from every header of the
chain. Whether it lies inside the heap, or on top of somebody's payload, is a
question about the layout and is answered in `Session`.

## Main definitions

* `Block.fits`: The test `kaligned_alloc` makes of each block.

## Theorems

* `Represents.insert`: Rewriting one header and linking in another after it.
* `findBlock_skip`: The search passes over blocks that do not fit.
* `findBlock_found`, `findBlock_none`: The search is first-fit on the list.
* `splitBlock_one`: What a split with alignment one writes.
* `splitBlock_spec`: The split replaces one block by two.
* `firstFit_cases`: Either no block fits, or one does and none before it.
* `kalignedAlloc_spec`, `kmalloc_spec`: An allocation that finds a block splits
  it.
* `kalignedAlloc_none`, `kmalloc_none`: An allocation that finds none changes
  nothing.
* `kalignedAlloc_found`: Every result other than null comes from such a split.
-/

namespace UnixP6

open CSemantics Block MemBlock

/-- The test `kaligned_alloc` makes of a block. The sum wraps. -/
def Block.fits (size alignment : Word) (b : Block) : Bool :=
  b.isFree && decide (alignment + 16 + size ≤ b.size)

/-! ### Linking a header in -/

/-- The fields of a header depend on its bytes only. -/
theorem fields_congr (m m' : Mem) (b : Word) (h : ∀ x, ¬ Far b 16 x → m' x = m x) :
    next m' b = next m b ∧ free m' b = free m b ∧ MemBlock.size m' b = MemBlock.size m b := by
  have hword : ∀ i : Word, i.toNat ≤ 12 → m'.load32 (b + i) = m.load32 (b + i) := by
    intro i hi
    refine Mem.load32_congr m m' (b + i) (h _ ?_) (h _ ?_) (h _ ?_) (h _ ?_) <;>
      simp only [Far] <;> bv_omega
  have h0 := hword 0 (by decide)
  simp only [BitVec.ofNat_eq_ofNat, BitVec.add_zero] at h0
  exact ⟨h0, hword 8 (by decide), hword 12 (by decide)⟩

/-- An address inside one of two ranges that are apart is outside the other. -/
theorem far_of_apart (a b x : Word) (n k : Nat) (hab : Apart a n b k) (hx : ¬ Far b k x) :
    Far a n x := by
  rcases hab with ⟨ha, hb⟩
  simp only [Far] at hx ⊢
  bv_omega

/-- Rewriting one header and linking a new one in after it. Memory differs
    only within these two headers. -/
theorem Represents.insert (m m' : Mem) (first : Word) (pre rest : List Block) (b b' t : Block)
    (h : Represents m first (pre ++ b :: rest)) (haddr : b'.addr = b.addr) (ht0 : t.addr ≠ 0)
    (htapart : ∀ c ∈ pre ++ b :: rest, Apart t.addr 16 c.addr 16)
    (hkeep : ∀ x, Far b.addr 16 x → Far t.addr 16 x → m' x = m x)
    (hb : next m' b.addr = t.addr ∧ free m' b.addr = b'.free ∧ MemBlock.size m' b.addr = b'.size)
    (ht : next m' t.addr = next m b.addr ∧ free m' t.addr = t.free ∧
      MemBlock.size m' t.addr = t.size) :
    Represents m' first (pre ++ b' :: t :: rest) := by
  rcases h.apart_of_mem m first pre rest b with ⟨hpre, hrest⟩
  have hmemPre : ∀ c ∈ pre, c ∈ pre ++ b :: rest := fun c hc => List.mem_append_left _ hc
  have hmemRest : ∀ c ∈ rest, c ∈ pre ++ b :: rest :=
    fun c hc => List.mem_append_right pre (List.mem_cons_of_mem b hc)
  -- Every other header keeps its fields.
  have hother : ∀ c, c ∈ pre ++ b :: rest → Apart b.addr 16 c.addr 16 →
      next m' c.addr = next m c.addr ∧ free m' c.addr = free m c.addr ∧
        MemBlock.size m' c.addr = MemBlock.size m c.addr := by
    intro c hc hbc
    refine fields_congr m m' c.addr (fun x hx => hkeep x ?_ ?_)
    · exact far_of_apart b.addr c.addr x 16 16 hbc hx
    · exact far_of_apart t.addr c.addr x 16 16 (htapart c hc) hx
  refine ⟨?_, ?_, ?_⟩
  · -- The links: `b` leads to the new header, and that to where `b` led.
    have hl := h.links
    rw [List.map_append, List.map_cons] at hl ⊢
    rw [haddr, List.map_cons]
    refine Links.relink (next m) (next m') 0 (pre.map addr) first b.addr (rest.map addr) _ hl
      (fun x hx => ?_) ⟨hb.1, ht0, ?_⟩
    · rcases List.mem_map.mp hx with ⟨c, hc, rfl⟩
      exact (hother c (hmemPre c hc) (hpre c hc)).1
    · rw [ht.1]
      refine Links.congr (next m) (next m') 0 (rest.map addr) _ (fun x hx => ?_)
        (Links.suffix _ _ _ _ _ _ hl).2
      rcases List.mem_map.mp hx with ⟨c, hc, rfl⟩
      exact (hother c (hmemRest c hc) (hrest c hc)).1
  · intro c hc
    rcases List.mem_append.mp hc with hc | hc
    · have hk := hother c (hmemPre c hc) (hpre c hc)
      have hf := h.fields c (hmemPre c hc)
      exact ⟨hk.2.1.trans hf.1, hk.2.2.trans hf.2⟩
    · rcases List.mem_cons.mp hc with rfl | hc
      · rw [haddr]
        exact hb.2
      · rcases List.mem_cons.mp hc with rfl | hc
        · exact ht.2
        · have hk := hother c (hmemRest c hc) (hrest c hc)
          have hf := h.fields c (hmemRest c hc)
          exact ⟨hk.2.1.trans hf.1, hk.2.2.trans hf.2⟩
  · -- The new header is apart from all others, wherever it stands.
    have hperm : ((pre ++ b' :: t :: rest).map addr).Perm
        (t.addr :: (pre ++ b :: rest).map addr) := by
      rw [List.map_append, List.map_cons, List.map_cons, haddr, List.map_append, List.map_cons]
      exact ((List.Perm.swap t.addr b.addr _).append_left _).trans List.perm_middle
    rw [hperm.pairwise_iff (fun hxy => hxy.symm)]
    refine List.Pairwise.cons (fun x hx => ?_) h.apart
    rcases List.mem_map.mp hx with ⟨c, hc, rfl⟩
    exact htapart c hc

/-! ### The search -/

section Search

variable (m : Mem) (size alignment : Word)

theorem findBlockTurn_skip (b : Block) (p : Word) (hp : p = b.addr) (h0 : b.addr ≠ 0)
    (hfree : free m b.addr = b.free) (hsize : MemBlock.size m b.addr = b.size)
    (hfits : b.fits size alignment = false) :
    findBlockTurn m size alignment p = some (.again (next m b.addr)) := by
  have hno : ¬ (b.free ≠ 0 ∧ alignment + 16 + size ≤ b.size) := by
    rintro ⟨hf, hs⟩
    simp only [Block.fits, Block.isFree, Bool.and_eq_false_iff, bne_eq_false_iff_eq,
      decide_eq_false_iff_not] at hfits
    exact hfits.elim hf (fun h => h hs)
  rw [findBlockTurn, hp, if_neg h0, hfree, hsize, if_neg hno]

/-- The search passes over blocks that do not fit. -/
theorem findBlock_skip (rest : List Block) (k : Nat) :
    ∀ (cs : List Block) (p : Word), (∀ c ∈ cs, c.fits size alignment = false) →
      (∀ c ∈ cs, free m c.addr = c.free ∧ MemBlock.size m c.addr = c.size) →
      Links (next m) 0 p ((cs ++ rest).map addr) →
      runLoop (findBlockTurn m size alignment) (cs.length + k) p
        = runLoop (findBlockTurn m size alignment) k ((rest.map addr).headD 0) := by
  intro cs
  induction cs with
  | nil =>
      intro p _ _ hl
      rw [List.length_nil, Nat.zero_add, Links.head _ _ _ _ hl]
      rfl
  | cons c cs ih =>
      intro p hcs hfields hl
      rcases hl with ⟨hp, hc0, hl⟩
      rcases hfields c List.mem_cons_self with ⟨hfree, hsize⟩
      have hturn := findBlockTurn_skip m size alignment c p hp hc0 hfree hsize
        (hcs c List.mem_cons_self)
      rw [List.length_cons, show cs.length + 1 + k = cs.length + k + 1 by omega,
        runLoop_again _ _ _ _ hturn]
      exact ih (next m c.addr) (fun d hd => hcs d (List.mem_cons_of_mem c hd))
        (fun d hd => hfields d (List.mem_cons_of_mem c hd)) hl

/-- The search stops at the first block that fits. -/
theorem findBlock_found (first : Word) (pre rest : List Block) (b : Block)
    (h : Represents m first (pre ++ b :: rest)) (hpre : ∀ c ∈ pre, c.fits size alignment = false)
    (hb : b.fits size alignment = true) : findBlock m size alignment first = some b.addr := by
  have hlen := h.length_lt m first _
  rw [List.length_append, List.length_cons] at hlen
  rcases Nat.exists_eq_add_of_le (show pre.length + 1 ≤ turnBound by omega) with ⟨k, hk⟩
  have hb0 := h.addr_ne_zero m first pre rest b
  rcases h.header m first pre rest b with ⟨hfree, hsize⟩
  simp only [Block.fits, Block.isFree, Bool.and_eq_true, bne_iff_ne, decide_eq_true_eq] at hb
  -- The blocks in front take a turn each, and one turn is left for `b`.
  rw [findBlock, hk, show pre.length + 1 + k = pre.length + (k + 1) by omega,
    findBlock_skip m size alignment (b :: rest) (k + 1) pre first hpre
      (fun c hc => h.fields c (List.mem_append_left _ hc)) h.links]
  refine runLoop_exit _ k b.addr _ ?_
  rw [findBlockTurn, if_neg hb0, hfree, hsize, if_pos hb]

/-- The search runs off a chain in which no block fits. -/
theorem findBlock_none (first : Word) (bs : List Block) (h : Represents m first bs)
    (hbs : ∀ c ∈ bs, c.fits size alignment = false) :
    findBlock m size alignment first = some 0 := by
  have hlen := h.length_lt m first bs
  rcases Nat.exists_eq_add_of_le (show bs.length + 1 ≤ turnBound by omega) with ⟨k, hk⟩
  rw [findBlock, hk, show bs.length + 1 + k = bs.length + (k + 1) by omega,
    findBlock_skip m size alignment [] (k + 1) bs first hbs h.fields
      (by rw [List.append_nil]; exact h.links)]
  exact runLoop_exit _ k 0 _ (if_pos rfl)

end Search

/-! ### The split -/

/-- With alignment one the request goes into the block itself. -/
theorem secondHeader_one (b : Word) : secondHeader b 1 = b := by
  have hmod : (data b + 4 * 1 - 4) % (1 : Word) = 0 := BitVec.umod_one
  have haddr : data b + 4 * 1 - 4 - (0 + 16) = b := by
    simp only [data]
    bv_omega
  rw [secondHeader]
  simp only [hmod]
  exact haddr

/-- What the split records as left over: the difference of the two `data`
    addresses counts in units of a pointer. -/
def sizeLeft (b : Block) (size : Word) : Word :=
  b.size - (data (thirdHeader b.addr size) - data b.addr).sshiftRight 2

/-- A split with alignment one writes the header of what is left and then that of
    the block. The new header takes the link of the block, as long as the two
    headers are apart. -/
theorem splitBlock_one (m : Mem) (block size : Word) :
    ∃ m1, SameOutside (thirdHeader block size) 16 m m1 ∧
      SameOutside block 16 m1 (splitBlock m block size 1) ∧
      next (splitBlock m block size 1) block = thirdHeader block size ∧
      free (splitBlock m block size 1) block = 0 ∧
      MemBlock.size (splitBlock m block size 1) block = size ∧
      (Apart (thirdHeader block size) 16 block 16 →
        next m1 (thirdHeader block size) = next m block ∧ free m1 (thirdHeader block size) = 1 ∧
          MemBlock.size m1 (thirdHeader block size) = MemBlock.size m block
            - (data (thirdHeader block size) - data block).sshiftRight 2) := by
  generalize hthird : thirdHeader block size = t
  -- The four writes to the new header, then the four to the old one.
  let m1 := tmemset m t 0 16
  let m2 := setSize m1 t (MemBlock.size m1 block - (data t - data block).sshiftRight 2)
  let m3 := setNext m2 t (next m2 block)
  let m4 := setFree m3 t 1
  let m5 := setSize m4 block size
  let m6 := setNext m5 block t
  let m7 := setFree m6 block 0
  let m8 := setTaskId m7 block 0
  have hsplit : splitBlock m block size 1 = m8 := by
    simp only [splitBlock, secondHeader_one, hthird, ne_eq, not_true_eq_false, if_false, m8, m7, m6,
      m5, m4, m3, m2, m1]
  have hclear : SameOutside t 16 m m1 := fun x hx => tmemset_far m t 0 16 x hx
  have hnew2 : SameOutside t 16 m m2 := hclear.trans _ _ _ _ _ (sameOutside_setSize m1 t _)
  have hnew : SameOutside t 16 m m4 :=
    (hnew2.trans _ _ _ _ _ (sameOutside_setNext m2 t _)).trans _ _ _ _ _
      (sameOutside_setFree m3 t 1)
  have hold : SameOutside block 16 m4 m8 :=
    (((sameOutside_setSize m4 block size).trans _ _ _ _ _
      (sameOutside_setNext m5 block t)).trans _ _ _ _ _
      (sameOutside_setFree m6 block 0)).trans _ _ _ _ _ (sameOutside_setTaskId m7 block 0)
  rw [hsplit]
  refine ⟨m4, hnew, hold, ?_, ?_, ?_, fun hapart => ⟨?_, ?_, ?_⟩⟩
  · simp only [m8, m7, m6, next_setTaskId, next_setFree, next_setNext]
  · simp only [m8, m7, free_setTaskId, free_setFree]
  · simp only [m8, m7, m6, m5, size_setTaskId, size_setFree, size_setNext, size_setSize]
  · -- Clearing the new header leaves the old one readable.
    have hread := fields_sameOutside m m2 t block 16 hnew2 hapart
    simp only [m4, m3, next_setFree, next_setNext]
    exact hread.1
  · simp only [m4, free_setFree]
  · have hread := fields_sameOutside m m1 t block 16 hclear hapart
    simp only [m4, m3, m2, size_setFree, size_setNext, size_setSize]
    rw [hread.2.2]

/-- A split with alignment one replaces the block by a used block and a free
    one. Memory changes within their headers only. -/
theorem splitBlock_spec (m : Mem) (first size : Word) (pre rest : List Block) (b : Block)
    (h : Represents m first (pre ++ b :: rest)) (ht0 : thirdHeader b.addr size ≠ 0)
    (htapart : ∀ c ∈ pre ++ b :: rest, Apart (thirdHeader b.addr size) 16 c.addr 16) :
    Represents (splitBlock m b.addr size 1) first
        (pre ++ ⟨b.addr, 0, size⟩ :: ⟨thirdHeader b.addr size, 1, sizeLeft b size⟩ :: rest) ∧
      ∀ x, Far b.addr 16 x → Far (thirdHeader b.addr size) 16 x →
        splitBlock m b.addr size 1 x = m x := by
  have hmem : b ∈ pre ++ b :: rest := List.mem_append_right pre List.mem_cons_self
  have htb := htapart b hmem
  rcases splitBlock_one m b.addr size with ⟨m1, hnew, hold, hnext, hfree, hsize, hleft⟩
  rcases hleft htb with ⟨htnext, htfree, htsize⟩
  have hkeep : ∀ x, Far b.addr 16 x → Far (thirdHeader b.addr size) 16 x →
      splitBlock m b.addr size 1 x = m x :=
    fun x hxb hxt => (hold x hxb).trans (hnew x hxt)
  -- Writing the old header leaves the new one as it is.
  have htread := fields_sameOutside m1 _ b.addr (thirdHeader b.addr size) 16 hold htb.symm
  refine ⟨?_, hkeep⟩
  refine Represents.insert m _ first pre rest b ⟨b.addr, 0, size⟩
    ⟨thirdHeader b.addr size, 1, sizeLeft b size⟩ h rfl ht0 htapart hkeep ⟨hnext, hfree, hsize⟩
    ⟨htread.1.trans htnext, htread.2.1.trans htfree, ?_⟩
  rw [htread.2.2, htsize, (h.fields b hmem).2, sizeLeft]

/-! ### Allocation -/

/-- Either no block fits, or one does and none before it. -/
theorem firstFit_cases (size alignment : Word) (bs : List Block) :
    (∀ c ∈ bs, c.fits size alignment = false) ∨
      ∃ pre b rest, bs = pre ++ b :: rest ∧ (∀ c ∈ pre, c.fits size alignment = false) ∧
        b.fits size alignment = true := by
  rcases hfind : bs.find? (fun c => c.fits size alignment) with _ | b
  · rw [List.find?_eq_none] at hfind
    exact Or.inl fun c hc => Bool.eq_false_iff.mpr (hfind c hc)
  · rw [List.find?_eq_some_iff_append] at hfind
    rcases hfind with ⟨hfits, pre, rest, hbs, hpre⟩
    exact Or.inr ⟨pre, b, rest, hbs, fun c hc => by simpa only [Bool.not_eq_true'] using hpre c hc,
      hfits⟩

/-- An allocation that finds a block splits it and returns the data address of
    the header it places. -/
theorem kalignedAlloc_spec (h : Heap) (size alignment : Word) (pre rest : List Block) (b : Block)
    (hsize : size ≠ 0) (hrep : Represents h.mem h.mDynFirstBlock (pre ++ b :: rest))
    (hpre : ∀ c ∈ pre, c.fits size alignment = false) (hb : b.fits size alignment = true) :
    kalignedAlloc size alignment h
      = some (data (secondHeader b.addr alignment),
        { h with mem := splitBlock h.mem b.addr size alignment }) := by
  have hfind := findBlock_found h.mem size alignment h.mDynFirstBlock pre rest b hrep hpre hb
  have hb0 := hrep.addr_ne_zero h.mem h.mDynFirstBlock pre rest b
  rw [kalignedAlloc, if_neg hsize, hfind, Option.map_some, if_neg hb0]

/-- An allocation of nothing, or one that no block fits, changes nothing. -/
theorem kalignedAlloc_none (h : Heap) (size alignment : Word) (bs : List Block)
    (hrep : Represents h.mem h.mDynFirstBlock bs)
    (hbs : size = 0 ∨ ∀ c ∈ bs, c.fits size alignment = false) :
    kalignedAlloc size alignment h = some (0, h) := by
  by_cases hsize : size = 0
  · rw [kalignedAlloc, if_pos hsize]
  · have hfind := findBlock_none h.mem size alignment h.mDynFirstBlock bs hrep
      (hbs.resolve_left hsize)
    rw [kalignedAlloc, if_neg hsize, hfind, Option.map_some, if_pos rfl]

/-- A result other than null comes from splitting the first block that fits. -/
theorem kalignedAlloc_found (h h' : Heap) (size alignment p : Word) (bs : List Block)
    (hrep : Represents h.mem h.mDynFirstBlock bs)
    (hcall : kalignedAlloc size alignment h = some (p, h')) (hp : p ≠ 0) :
    ∃ pre b rest, bs = pre ++ b :: rest ∧ (∀ c ∈ pre, c.fits size alignment = false) ∧
      b.fits size alignment = true ∧ p = data (secondHeader b.addr alignment) ∧
      h' = { h with mem := splitBlock h.mem b.addr size alignment } := by
  have hnull : ¬ (size = 0 ∨ ∀ c ∈ bs, c.fits size alignment = false) := by
    intro hnone
    rw [kalignedAlloc_none h size alignment bs hrep hnone, Option.some.injEq,
      Prod.mk.injEq] at hcall
    exact hp hcall.1.symm
  rw [not_or] at hnull
  rcases (firstFit_cases size alignment bs).resolve_left hnull.2 with
    ⟨pre, b, rest, rfl, hpre, hb⟩
  rw [kalignedAlloc_spec h size alignment pre rest b hnull.1 hrep hpre hb, Option.some.injEq,
    Prod.mk.injEq] at hcall
  exact ⟨pre, b, rest, rfl, hpre, hb, hcall.1.symm, hcall.2.symm⟩

/-- An allocation that finds a block splits it and returns its data address. -/
theorem kmalloc_spec (h : Heap) (size : Word) (pre rest : List Block) (b : Block)
    (hsize : size ≠ 0) (hrep : Represents h.mem h.mDynFirstBlock (pre ++ b :: rest))
    (hpre : ∀ c ∈ pre, c.fits size 1 = false) (hb : b.fits size 1 = true) :
    kmalloc size h
      = some (data b.addr, { h with mem := splitBlock h.mem b.addr size 1 }) := by
  rw [kmalloc, kalignedAlloc_spec h size 1 pre rest b hsize hrep hpre hb, secondHeader_one]

theorem kmalloc_none (h : Heap) (size : Word) (bs : List Block)
    (hrep : Represents h.mem h.mDynFirstBlock bs)
    (hbs : size = 0 ∨ ∀ c ∈ bs, c.fits size 1 = false) : kmalloc size h = some (0, h) :=
  kalignedAlloc_none h size 1 bs hrep hbs

end UnixP6
