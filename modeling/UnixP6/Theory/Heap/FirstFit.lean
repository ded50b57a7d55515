import UnixP6.Theory.Heap.Session

/-!
# First Fit on the Heap

Whether `kmalloc` is first-fit for every size. The test it makes of a block adds
17 to the size as a `size_t`, and the check of the request against
`m_dyn_available`, which might have kept the sum from wrapping, has an empty
body. Below `2^32 - 17` the test is exact. From there on the sum is at most 16,
so a request no block can meet is granted by the first free block of that size.

The other exception is a block whose payload would be at null. Such a block is
split like any other, but the caller is told that there was none.

## Main definitions

* `Block.HasRoom`: The block can take the request, in exact numbers.
* `FirstFitExact`: The result a first-fit allocator gives.

## Theorems

* `fits_iff`: While the sum does not wrap, the test is exact.
* `first_unique`: There is one first block that fits.
* `kmalloc_firstFit_iff`: When `kmalloc` is first-fit.
-/

namespace UnixP6

open CSemantics Block MemBlock

/-- A free block with room for the request, a header and one byte. -/
def Block.HasRoom (size : Word) (b : Block) : Prop :=
  b.isFree = true ∧ size.toNat + 17 ≤ b.size.toNat

/-- The result of a first-fit allocator. An address comes from the first block
    with room, which it records as used; null comes with the chain as it was. -/
structure FirstFitExact (bs : List Block) (size p : Word) (h' : Heap) : Prop where
  found_iff : p ≠ 0 ↔ 0 < size.toNat ∧ ∃ b ∈ bs, b.HasRoom size
  first : p ≠ 0 → ∃ pre b rest, bs = pre ++ b :: rest ∧ (∀ c ∈ pre, ¬ c.HasRoom size) ∧
    b.HasRoom size ∧ p = data b.addr ∧ free h'.mem b.addr = 0 ∧
    MemBlock.size h'.mem b.addr = size
  unchanged : p = 0 → Represents h'.mem h'.mDynFirstBlock bs

/-- While the sum does not wrap, the test of a block is exact. -/
theorem fits_iff (size : Word) (b : Block) (hwrap : size.toNat + 17 < 2 ^ 32) :
    b.fits size 1 = true ↔ b.HasRoom size := by
  have hsum : (1 + 16 + size : Word).toNat = size.toNat + 17 := by bv_omega
  simp only [Block.fits, Block.HasRoom, Bool.and_eq_true, decide_eq_true_eq, BitVec.le_def, hsum]

/-- A block with room keeps the sum from wrapping. -/
theorem Block.HasRoom.lt (size : Word) (b : Block) (h : b.HasRoom size) : size.toNat + 17 < 2 ^ 32 :=
  Nat.lt_of_le_of_lt h.2 b.size.isLt

/-- There is one first block that fits. -/
theorem first_unique (size alignment : Word) (pre pre' rest rest' : List Block) (b b' : Block)
    (heq : pre ++ b :: rest = pre' ++ b' :: rest')
    (hpre : ∀ c ∈ pre, c.fits size alignment = false)
    (hpre' : ∀ c ∈ pre', c.fits size alignment = false)
    (hb : b.fits size alignment = true) (hb' : b'.fits size alignment = true) : b = b' := by
  have hfind : ∀ (xs ys : List Block) (c : Block), (∀ d ∈ xs, d.fits size alignment = false) →
      c.fits size alignment = true →
      (xs ++ c :: ys).find? (fun d => d.fits size alignment) = some c := by
    intro xs ys c hxs hc
    refine List.find?_eq_some_iff_append.mpr ⟨hc, xs, ys, rfl, fun d hd => ?_⟩
    simp only [hxs d hd, Bool.not_false]
  have hfound := hfind pre rest b hpre hb
  rw [heq, hfind pre' rest' b' hpre' hb', Option.some.injEq] at hfound
  exact hfound.symm

/-- `kmalloc` is first-fit unless the first block that passes its test passes it
    by wrapping or has its payload at null. -/
theorem kmalloc_firstFit_iff (h : Heap) (size : Word) (bs : List Block)
    (hrep : Represents h.mem h.mDynFirstBlock bs) :
    (∃ p h', kmalloc size h = some (p, h') ∧ FirstFitExact bs size p h') ↔
      size = 0 ∨ ∀ pre b rest, bs = pre ++ b :: rest → (∀ c ∈ pre, c.fits size 1 = false) →
        b.fits size 1 = true → size.toNat + 17 < 2 ^ 32 ∧ data b.addr ≠ 0 := by
  by_cases hnone : size = 0 ∨ ∀ c ∈ bs, c.fits size 1 = false
  · -- Nothing passes the test, and nothing has room.
    have hleft : FirstFitExact bs size 0 h := by
      refine ⟨⟨fun hp => absurd rfl hp, ?_⟩, fun hp => absurd rfl hp, fun _ => hrep⟩
      rintro ⟨hpos, b, hb, hroom⟩
      rcases hnone with rfl | hno
      · exact absurd hpos (Nat.lt_irrefl 0)
      · have hfits := (fits_iff size b (hroom.lt size b)).mpr hroom
        rw [hno b hb] at hfits
        exact absurd hfits Bool.false_ne_true
    refine iff_of_true ⟨0, h, kmalloc_none h size bs hrep hnone, hleft⟩ ?_
    refine hnone.imp id (fun hno pre b rest hbs _ hb => ?_)
    rw [hno b (by rw [hbs]; exact List.mem_append_right pre List.mem_cons_self)] at hb
    exact absurd hb Bool.false_ne_true
  · rw [not_or] at hnone
    rcases hnone with ⟨hsize, hsome⟩
    rcases (firstFit_cases size 1 bs).resolve_left hsome with ⟨pre, b, rest, rfl, hpre, hb⟩
    have hcall := kmalloc_spec h size pre rest b hsize hrep hpre hb
    rcases splitBlock_one h.mem b.addr size with ⟨_, _, _, _, hused, hrecorded, _⟩
    constructor
    · rintro ⟨p, h', hcall', hexact⟩
      rw [hcall, Option.some.injEq, Prod.mk.injEq] at hcall'
      rcases hcall' with ⟨rfl, rfl⟩
      refine Or.inr fun pre' b' rest' heq hpre' hb' => ?_
      rw [← first_unique size 1 pre pre' rest rest' b b' heq hpre hpre' hb hb']
      -- A null result would leave the block free, but it is in use.
      have hnull : data b.addr ≠ 0 := by
        intro hp
        have hfree := ((hexact.unchanged hp).header _ _ pre rest b).1
        rw [hused] at hfree
        simp only [Block.fits, Block.isFree, Bool.and_eq_true, bne_iff_ne] at hb
        exact hb.1 hfree.symm
      rcases (hexact.found_iff.mp hnull).2 with ⟨c, _, hroom⟩
      exact ⟨hroom.lt size c, hnull⟩
    · intro hcond
      rcases hcond.resolve_left hsize pre b rest rfl hpre hb with ⟨hwrap, hnull⟩
      have hroom := (fits_iff size b hwrap).mp hb
      have hmem : b ∈ pre ++ b :: rest := List.mem_append_right pre List.mem_cons_self
      refine ⟨data b.addr, _, hcall, ⟨fun _ => ⟨by bv_omega, b, hmem, hroom⟩, fun _ => hnull⟩,
        fun _ => ⟨pre, b, rest, rfl, fun c hc hno => ?_, hroom, rfl, hused, hrecorded⟩,
        fun hp => absurd hp hnull⟩
      have hfits := (fits_iff size c hwrap).mpr hno
      rw [hpre c hc] at hfits
      exact absurd hfits Bool.false_ne_true

theorem kmalloc_firstFit_iff_sixteen :
    ∃ p h', kmalloc 16 (Session.blank.place 0x200000) = some (p, h') ∧
      FirstFitExact Session.oneBlock 16 p h' := by
  refine (kmalloc_firstFit_iff (Session.blank.place 0x200000) 16 Session.oneBlock
    (Session.represents_place Session.blank 0x200000 (by decide))).mpr
    (Or.inr fun pre b rest hbs _ _ => ?_)
  have hmem : b ∈ Session.oneBlock := by
    rw [hbs]
    exact List.mem_append_right pre List.mem_cons_self
  rw [List.mem_singleton.mp hmem]
  exact ⟨by decide, by decide⟩

/-- A request for `2^32 - 1` bytes is granted by a heap of a megabyte. -/
theorem kmalloc_not_firstFit :
    ¬ ∀ (h : Heap) (size : Word) (bs : List Block), Represents h.mem h.mDynFirstBlock bs →
      ∃ p h', kmalloc size h = some (p, h') ∧ FirstFitExact bs size p h' := by
  intro hall
  rcases hall (Session.blank.place 0x200000) 0xFFFFFFFF Session.oneBlock
    (Session.represents_place Session.blank 0x200000 (by decide)) with ⟨p, h', hcall, hexact⟩
  rw [Session.kmalloc_oneBlock 0xFFFFFFFF (by decide) (by decide), Option.some.injEq,
    Prod.mk.injEq] at hcall
  rcases hcall with ⟨rfl, rfl⟩
  rcases hexact.found_iff.mp (by decide) with ⟨_, b, _, hroom⟩
  exact absurd (hroom.lt 0xFFFFFFFF b) (by decide)

end UnixP6
