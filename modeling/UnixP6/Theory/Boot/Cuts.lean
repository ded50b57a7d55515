import UnixP6.Theory.Boot.Chain

/-!
# The Cuts of a Memory-Map Entry

Where an entry is after the cuts, on a memory map as a boot loader gives it
and a kernel image that starts at one megabyte. There are three outcomes. An
entry that ends below the kernel is `Idle`: it yields nothing. An entry that
ends above the kernel is moved to start at the end of the kernel, also when it
started above it. And the entry that ends exactly with the kernel is not cut
at all.

`block_setstart` computes the new length modulo `2^32`, so an entry moved down
may come out shorter, gone, or almost as long as the address space.

## Main definitions

* `MemoryMap`: The maps and kernel images considered.
* `Idle`: An entry that yields nothing.
* `leftover`: A rest of a region so short that its range comes out empty.
* `BitmapList.extent`, `extentOf`: The range of a region with its bitmap.

## Theorems

* `cutLow_spec`: The first cut keeps the end.
* `cutFixed_above`: An entry ending above the kernel is moved to its end.
* `cutFixed_exact`: An entry ending with the kernel keeps the kernel.
* `idle_of_below`: Other entries yield nothing.
* `extentOf_region`, `extentOf_short`: The range of a region.
* `mem_extentOf`: A block is in its range unless it is a leftover.
-/

namespace UnixP6

open CSemantics

/-- The entry as a range of addresses. -/
def MemblockEntry.span (e : MemblockEntry) : Set Nat := CSemantics.span e.addr.toNat e.len.toNat

/-- A memory map without wrapping or overlapping entries, at most 32 of them
    available, and a page-aligned kernel image from one megabyte on inside one
    available entry. -/
structure MemoryMap (k : Kernel) (map : List MemblockEntry) : Prop where
  start : k.kernelStart = 0x100000
  nonempty : 0x100000 < k.kernelEnd.toNat
  aligned : k.kernelEnd.toNat % 4096 = 0
  few : (map.filter fun e => e.type = memBlockAvailable).length ≤ 32
  noWrap : ∀ e ∈ map, e.addr.toNat + e.len.toNat < 2 ^ 32
  apart : map.Pairwise fun e f => Disjoint e.span f.span
  kernel : ∃ e ∈ map, e.type = memBlockAvailable ∧ e.addr.toNat ≤ 0x100000 ∧
    k.kernelEnd.toNat ≤ e.addr.toNat + e.len.toNat

/-- The entry ends in low memory, or nothing is left of it and it is too short
    for the heap. -/
def Idle (k : Kernel) (e : MemblockEntry) : Prop :=
  e.isUnder1mb = true ∨
    ((cutFixed k e).len.toNat < 0x100000 ∧ isUsedUp (cutFixed k e) = true)

/-- The range of a region with its bitmap. -/
def BitmapList.extent (e : BitmapList) : Set Nat :=
  Set.Ico e.firstBlock.toNat (e.firstBitmap.toNat + 4 * (e.blocksCount.toNat / 32 + 1))

/-- The range of the region a block is made into. -/
def extentOf (block : MemblockEntry) : Set Nat :=
  match calcBlocksAndBitmaps block.len with
  | none => ∅
  | some (blocks, _) => (bitmapEntry block blocks).extent

/-- The block is too short for its bitmap, and high enough for the end of the
    bitmap to come out at its start. -/
def leftover (block : MemblockEntry) : Bool :=
  decide (block.len < 4) && decide (0x1801D000 ≤ block.addr)

/-! ### Moving the start -/

theorem setStart_addr (b : MemblockEntry) (new : Word) : (b.setStart new).addr = new := rfl

theorem zero_slt_iff (w : Word) : (0 : Word).slt w = true ↔ 0 < w.toInt := by
  have hzero : (0 : Word).toInt = 0 := rfl
  rw [BitVec.slt_eq_decide, decide_eq_true_eq, hzero]

/-- A difference of half the address space or more counts as negative. -/
theorem not_slt_of_half (w : Word) (h : w.toNat = 0 ∨ 2 ^ 31 ≤ w.toNat) :
    ¬ (0 : Word).slt w = true := by
  rw [zero_slt_iff, BitVec.toInt_eq_toNat_cond]
  have hlt := w.isLt
  omega

/-- Moving the start up by less than half the address space. -/
theorem setStart_len_up (b : MemblockEntry) (new : Word) (hle : b.addr.toNat ≤ new.toNat)
    (hhalf : new.toNat - b.addr.toNat < 2 ^ 31) (hroom : new.toNat ≤ b.addr.toNat + b.len.toNat) :
    (b.setStart new).len.toNat = b.addr.toNat + b.len.toNat - new.toNat := by
  have hold : (new - b.addr).toNat = new.toNat - b.addr.toNat := by bv_omega
  simp only [MemblockEntry.setStart]
  -- A difference of zero takes the other branch and subtracts nothing.
  by_cases hpos : (0 : Word).slt (new - b.addr) = true
  · rw [if_pos hpos]
    bv_omega
  · rw [if_neg hpos]
    have hzero : (new - b.addr).toNat = 0 := by
      rw [zero_slt_iff, BitVec.toInt_eq_toNat_of_lt (by omega)] at hpos
      omega
    bv_omega

/-- Moving the start to where it is. -/
theorem setStart_self (b : MemblockEntry) : b.setStart b.addr = b := by
  have hlt : ¬ (0 : Word).slt 0#32 = true := by decide
  simp only [MemblockEntry.setStart, BitVec.sub_self, if_neg hlt, BitVec.neg_zero, BitVec.sub_zero]

/-- The next page boundary, short of the top of the address space. -/
theorem toNat_alignUp (a : Word) (h : a.toNat ≤ 2 ^ 32 - 4096) :
    (alignUp a 4096).toNat = (a.toNat + 4095) / 4096 * 4096 := by
  have hrem : (a % 4096).toNat = a.toNat % 4096 := by
    rw [BitVec.toNat_umod]
    rfl
  unfold alignUp
  rw [if_neg (by decide)]
  by_cases hpage : a % 4096 = 0
  · rw [hpage, toNat_word_zero] at hrem
    rw [if_pos hpage]
    omega
  · have hne : a.toNat % 4096 ≠ 0 := by
      intro hc
      rw [hc] at hrem
      exact hpage (BitVec.eq_of_toNat_eq hrem)
    rw [if_neg hpage]
    generalize a % 4096 = r at hrem
    bv_omega

theorem toNat_getEnd (e : MemblockEntry) (h : e.addr.toNat + e.len.toNat < 2 ^ 32) :
    e.getEnd.toNat = e.addr.toNat + e.len.toNat := by
  unfold MemblockEntry.getEnd
  rw [BitVec.toNat_add]
  exact Nat.mod_eq_of_lt h

theorem isUnder1mb_iff (e : MemblockEntry) (h : e.addr.toNat + e.len.toNat < 2 ^ 32) :
    e.isUnder1mb = true ↔ e.addr.toNat + e.len.toNat < 0x100000 := by
  unfold MemblockEntry.isUnder1mb
  rw [decide_eq_true_eq, BitVec.lt_def, toNat_getEnd e h]
  rfl

/-- The first cut moves the start out of low memory and keeps the end. -/
theorem cutLow_spec (e : MemblockEntry) (h : e.addr.toNat + e.len.toNat < 2 ^ 32)
    (hlow : 0x100000 ≤ e.addr.toNat + e.len.toNat) :
    (cutLow e).addr.toNat = max e.addr.toNat 0x100000 ∧
      (cutLow e).addr.toNat + (cutLow e).len.toNat = e.addr.toNat + e.len.toNat := by
  have hend := toNat_getEnd e h
  have hconst : (0x100000 : Word).toNat = 0x100000 := rfl
  unfold cutLow
  by_cases hpart : e.isPartUnder1mb = true
  · rw [if_pos hpart]
    simp only [MemblockEntry.isPartUnder1mb, Bool.and_eq_true, decide_eq_true_eq] at hpart
    have hbelow : e.addr.toNat < 0x100000 := by
      have hlt := hpart.2
      rw [BitVec.lt_def, hconst] at hlt
      exact hlt
    have hlen := setStart_len_up e 0x100000 (by omega) (by omega) (by omega)
    rw [setStart_addr, hlen, hconst]
    omega
  · rw [if_neg hpart]
    -- It ends in high memory and is not cut, so it starts there.
    have habove : 0x100000 ≤ e.addr.toNat := by
      by_contra hc
      refine hpart ?_
      simp only [MemblockEntry.isPartUnder1mb, Bool.and_eq_true, decide_eq_true_eq]
      rw [BitVec.le_def, BitVec.lt_def, hend, hconst]
      omega
    omega

section Kernel

variable (k : Kernel) (e : MemblockEntry) (hstart : k.kernelStart = 0x100000)
  (h : e.addr.toNat + e.len.toNat < 2 ^ 32)

include hstart h

/-- The start of an entry is never below the kernel after the first cut, so the
    second has two outcomes. -/
theorem cutFixed_eq (hlow : 0x100000 ≤ e.addr.toNat + e.len.toNat) :
    cutFixed k e = if k.kernelEnd.toNat < e.addr.toNat + e.len.toNat
      then (cutLow e).setStart k.kernelEnd else cutLow e := by
  rcases cutLow_spec e h hlow with ⟨haddr, hend⟩
  have hgetEnd := toNat_getEnd (cutLow e) (by omega)
  -- The redundant half of the test cannot matter: `b` is false.
  have hb : ¬ (cutLow e).addr < k.kernelStart := by
    rw [hstart, BitVec.lt_def, haddr]
    exact Nat.not_lt.mpr (Nat.le_max_right _ _)
  have ht : k.kernelEnd < (cutLow e).getEnd ↔ k.kernelEnd.toNat < e.addr.toNat + e.len.toNat := by
    rw [BitVec.lt_def, hgetEnd, hend]
  unfold cutFixed cutKernel
  by_cases habove : k.kernelEnd.toNat < e.addr.toNat + e.len.toNat
  · rw [if_pos habove, if_pos (Or.inr (ht.mpr habove))]
  · have hnot : ¬ ((cutLow e).addr < k.kernelStart ∧ k.kernelEnd < (cutLow e).getEnd ∨
        k.kernelEnd < (cutLow e).getEnd) := by
      rw [ht]
      exact fun hc => hc.elim (fun h => habove h.2) habove
    rw [if_neg habove, if_neg hnot, if_neg hb]

variable (hnonempty : 0x100000 < k.kernelEnd.toNat)

include hnonempty

/-- An entry that ends above the kernel is moved to the end of the kernel. -/
theorem cutFixed_above (habove : k.kernelEnd.toNat < e.addr.toNat + e.len.toNat) :
    e.isUnder1mb = false ∧ (cutFixed k e).addr = k.kernelEnd := by
  refine ⟨?_, ?_⟩
  · rw [Bool.eq_false_iff, ne_eq, isUnder1mb_iff e h]
    omega
  · rw [cutFixed_eq k e hstart h (by omega), if_pos habove]
    rfl

/-- With the kernel near the top of the address space, the length of an entry
    moved to its end comes out short, or wraps to almost all of it. -/
theorem cutFixed_len_high (hhigh : 0xFFF00000 ≤ k.kernelEnd.toNat)
    (habove : k.kernelEnd.toNat < e.addr.toNat + e.len.toNat)
    (hside : e.addr.toNat ≤ 0x100000 ∨ k.kernelEnd.toNat ≤ e.addr.toNat) :
    (k.kernelEnd.toNat ≤ e.addr.toNat ∧ (cutFixed k e).len.toNat < 0x100000) ∨
      2 ^ 32 - 2 ^ 22 ≤ (cutFixed k e).len.toNat := by
  rcases cutLow_spec e h (by omega) with ⟨haddr, hkeep⟩
  have hlast := k.kernelEnd.isLt
  -- So near the top the difference is taken for negative, and its magnitude is wrong.
  have hneg : ¬ (0 : Word).slt (k.kernelEnd - (cutLow e).addr) = true :=
    not_slt_of_half _ (by bv_omega)
  have hlen : (cutFixed k e).len = (cutLow e).len - -(k.kernelEnd - (cutLow e).addr) := by
    rw [cutFixed_eq k e hstart h (by omega), if_pos habove]
    simp only [MemblockEntry.setStart, if_neg hneg]
  rw [hlen]
  bv_omega

/-- An entry around the kernel that ends with it keeps the kernel. -/
theorem cutFixed_exact (haddr : e.addr.toNat ≤ 0x100000)
    (hend : e.addr.toNat + e.len.toNat = k.kernelEnd.toNat) :
    e.isUnder1mb = false ∧ (cutFixed k e).addr = 0x100000 ∧
      (cutFixed k e).len.toNat = k.kernelEnd.toNat - 0x100000 := by
  rcases cutLow_spec e h (by omega) with ⟨hlow, hkeep⟩
  rw [Nat.max_eq_right haddr] at hlow
  rw [cutFixed_eq k e hstart h (by omega), if_neg (by omega)]
  refine ⟨?_, BitVec.eq_of_toNat_eq hlow, by omega⟩
  rw [Bool.eq_false_iff, ne_eq, isUnder1mb_iff e h]
  omega

/-- The start of an entry that is not below one megabyte is not null. -/
theorem cutFixed_addr_ne_zero (hlow : e.isUnder1mb = false) : (cutFixed k e).addr ≠ 0 := by
  have hle : 0x100000 ≤ e.addr.toNat + e.len.toNat := by
    rw [Bool.eq_false_iff, ne_eq, isUnder1mb_iff e h] at hlow
    omega
  rcases cutLow_spec e h hle with ⟨haddr, _⟩
  have hmax := Nat.le_max_right e.addr.toNat 0x100000
  intro hzero
  rw [cutFixed_eq k e hstart h hle] at hzero
  by_cases habove : k.kernelEnd.toNat < e.addr.toNat + e.len.toNat
  · rw [if_pos habove, setStart_addr] at hzero
    rw [hzero] at hnonempty
    exact absurd hnonempty (by decide)
  · rw [if_neg habove] at hzero
    rw [hzero] at haddr
    have hz : (0 : Word).toNat = 0 := rfl
    omega

/-- An entry that ends no later than the kernel and is apart from the entry
    around it yields nothing. -/
theorem idle_of_below (haligned : k.kernelEnd.toNat % 4096 = 0) (f : MemblockEntry)
    (hf : f.addr.toNat ≤ 0x100000) (hfend : k.kernelEnd.toNat ≤ f.addr.toNat + f.len.toNat)
    (hapart : Disjoint e.span f.span) (hbelow : e.addr.toNat + e.len.toNat ≤ k.kernelEnd.toNat) :
    Idle k e := by
  by_cases hlow : e.addr.toNat + e.len.toNat < 0x100000
  · exact Or.inl ((isUnder1mb_iff e h).mpr hlow)
  · rcases cutLow_spec e h (by omega) with ⟨haddr, hkeep⟩
    -- What is left of it is empty: it is empty itself or ends with low memory.
    have hempty : (cutLow e).len.toNat = 0 := by
      by_cases hlen : e.len.toNat = 0
      · omega
      · have hor := le_of_disjoint_span _ _ _ _ (Nat.pos_of_ne_zero hlen) (by omega) hapart
        omega
    have hlast := k.kernelEnd.isLt
    refine Or.inr ?_
    rw [cutFixed_eq k e hstart h (by omega), if_neg (by omega)]
    refine ⟨by omega, ?_⟩
    have hzero : (cutLow e).len = 0 := BitVec.eq_of_toNat_eq hempty
    have hle : (cutLow e).addr.toNat ≤ k.kernelEnd.toNat := by omega
    have hup := toNat_alignUp (cutLow e).addr (by omega)
    unfold isUsedUp
    rw [decide_eq_true_eq, hzero, BitVec.le_def, BitVec.toNat_add, hup, toNat_word_zero]
    omega

end Kernel

/-! ### What a block on a page boundary leaves -/

section Page

variable (b : MemblockEntry) (hpage : b.addr.toNat % 4096 = 0)

include hpage

theorem alignUp_self : alignUp b.addr 4096 = b.addr := by
  have hlt := b.addr.isLt
  refine BitVec.eq_of_toNat_eq ?_
  rw [toNat_alignUp b.addr (by omega)]
  omega

/-- Its start does not move. -/
theorem cutPage_self : cutPage b = b := by
  unfold cutPage
  rw [alignUp_self b hpage, setStart_self]

/-- It is not used up if it is not empty and does not wrap. -/
theorem isUsedUp_iff :
    isUsedUp b = false ↔ 0 < b.len.toNat ∧ b.addr.toNat + b.len.toNat < 2 ^ 32 := by
  have haddr := b.addr.isLt
  have hlen := b.len.isLt
  unfold isUsedUp
  rw [alignUp_self b hpage, decide_eq_false_iff_not, BitVec.le_def, BitVec.toNat_add]
  omega

end Page

/-! ### The range of a region -/

/-- The range starts with the block. -/
theorem extentOf_eq (b : MemblockEntry) : ∃ blocks last,
    calcBlocksAndBitmaps b.len = some (blocks, blocks / 32 + 1) ∧
      last = (bitmapEntry b blocks).firstBitmap.toNat + 4 * (blocks.toNat / 32 + 1) ∧
      extentOf b = Set.Ico b.addr.toNat last := by
  rcases calc_total b.len with ⟨blocks, hcalc⟩
  refine ⟨blocks, _, hcalc, rfl, ?_⟩
  unfold extentOf
  rw [hcalc]
  rfl

theorem le_of_mem_extentOf (b : MemblockEntry) (x : Nat) (h : x ∈ extentOf b) :
    b.addr.toNat ≤ x := by
  rcases extentOf_eq b with ⟨blocks, last, _, _, hextent⟩
  rw [hextent] at h
  exact h.1

/-- From four bytes on, the range holds all the frames and their bitmap. -/
theorem extentOf_region (b : MemblockEntry) (hlen : 4 ≤ b.len.toNat)
    (h : b.addr.toNat + b.len.toNat < 2 ^ 32) : ∃ blocks,
      calcBlocksAndBitmaps b.len = some (blocks, blocks / 32 + 1) ∧
      extentOf b = Set.Ico b.addr.toNat
        (b.addr.toNat + 4096 * blocks.toNat + 4 * (blocks.toNat / 32 + 1)) := by
  rcases extentOf_eq b with ⟨blocks, last, hcalc, hlast, hextent⟩
  have hle := calc_le b.len hlen blocks _ hcalc
  refine ⟨blocks, hcalc, ?_⟩
  rw [hextent, hlast]
  have hfirst : (bitmapEntry b blocks).firstBitmap.toNat = b.addr.toNat + 4096 * blocks.toNat := by
    unfold bitmapEntry
    rw [BitVec.toNat_add, BitVec.toNat_mul, show (4096 : Word).toNat = 4096 from rfl]
    omega
  rw [hfirst]

/-- Below four bytes the bitmap of the wrapped count ends where the block starts,
    or all around the address space above it. -/
theorem extentOf_short (b : MemblockEntry) (hlen : b.len.toNat < 4) :
    extentOf b = Set.Ico b.addr.toNat
      (if 0x1801D000 ≤ b.addr.toNat then b.addr.toNat else b.addr.toNat + 2 ^ 32) := by
  have hlt := b.addr.isLt
  have hcalc := calc_small b.len hlen
  unfold extentOf
  rw [hcalc]
  simp only [BitmapList.extent, bitmapEntry]
  congr 1
  rw [BitVec.toNat_add, show (wrappedBlocks * 4096 : Word).toNat = 2 ^ 32 - 0x1801D000 from rfl,
    show wrappedBlocks.toNat = 3222175715 from rfl]
  -- The bitmap of the wrapped count ends just short of where its frames began.
  by_cases hhigh : 0x1801D000 ≤ b.addr.toNat
  · rw [if_pos hhigh]
    omega
  · rw [if_neg hhigh]
    omega

theorem leftover_iff (b : MemblockEntry) :
    leftover b = true ↔ b.len.toNat < 4 ∧ 0x1801D000 ≤ b.addr.toNat := by
  unfold leftover
  rw [Bool.and_eq_true, decide_eq_true_eq, decide_eq_true_eq, BitVec.lt_def, BitVec.le_def]
  rfl

/-- The range of a leftover is empty. -/
theorem extentOf_leftover (b : MemblockEntry) (h : leftover b = true) : extentOf b = ∅ := by
  rw [leftover_iff] at h
  rw [extentOf_short b h.1, if_pos h.2, Set.Ico_self]

/-- Any other block is in its range. -/
theorem mem_extentOf (b : MemblockEntry) (hleft : leftover b = false)
    (h : b.addr.toNat + b.len.toNat < 2 ^ 32) : b.addr.toNat ∈ extentOf b := by
  by_cases hlen : b.len.toNat < 4
  · have hlow : ¬ 0x1801D000 ≤ b.addr.toNat := fun hc =>
      Bool.eq_false_iff.mp hleft ((leftover_iff b).mpr ⟨hlen, hc⟩)
    rw [extentOf_short b hlen, if_neg hlow]
    exact ⟨Nat.le_refl _, by omega⟩
  · rcases extentOf_region b (by omega) h with ⟨blocks, _, hextent⟩
    rw [hextent]
    exact ⟨Nat.le_refl _, by omega⟩

end UnixP6
