import UnixP6.Theory.Heap.FirstFit

/-!
# Aligned Allocation

Where `kaligned_alloc` puts the header of an aligned request. It moves up from
the data of the block by `alignment - 1`, rounds down to the alignment and moves
back by one header. The address it returns is therefore always aligned. Whether
the new header is clear of the old one is another matter: the move up counts in
units of a pointer, so it is `4 * (alignment - 1)` bytes, of which rounding takes
back less than `alignment`, and 16 bytes have to be left.

That is so from an alignment of seven on. For two, three and four it never is,
and the new header overlaps the old one. For five and six it depends on the
address of the block. With an alignment of one the two headers are the same.

## Main definitions

* `reach`: The address the search for an aligned one starts from.
* `AlignedCut`: The address is aligned, and the header of the block is intact.

## Theorems

* `toNat_secondHeader`: Where the new header is, in exact numbers.
* `secondHeader_eq_iff`, `data_le_secondHeader_iff`: Whether it is the old one or clear of it.
* `splitBlock_front`: What the split leaves of the block in front.
* `alignedCut_iff`: When the new header is clear of the old one.
* `room_of_seven_le`: From an alignment of seven on it always is.
* `kalignedAlloc_iff`: When an aligned allocation keeps its block intact.
-/

namespace UnixP6

open CSemantics Block MemBlock

/-- `block->data + alignment - 1`, as a number. -/
def reach (b : Block) (alignment : Word) : Nat :=
  b.addr.toNat + 16 + 4 * (alignment.toNat - 1)

/-- The address returned is a multiple of the alignment. The header in front of
    it is that of the block, or it starts after it; then the block stays free,
    ends where the new header starts and links to it. -/
structure AlignedCut (alignment p : Word) (b : Block) (m : Mem) : Prop where
  multiple : alignment.toNat ∣ p.toNat
  placed : p - 16 = b.addr ∨
    ((data b.addr).toNat ≤ (p - 16).toNat ∧ free m b.addr ≠ 0 ∧
      (MemBlock.size m b.addr).toNat = (p - 16).toNat - (data b.addr).toNat ∧
      next m b.addr = p - 16)

section Place

variable (b : Block) (alignment : Word) (hpos : 1 ≤ alignment.toNat)
  (hwrap : reach b alignment < 2 ^ 32)

include hpos hwrap

/-- The address returned, in exact numbers. -/
theorem toNat_data_secondHeader :
    (data (secondHeader b.addr alignment)).toNat
      = reach b alignment - reach b alignment % alignment.toNat := by
  unfold reach at hwrap ⊢
  have hreach : (data b.addr + 4 * alignment - 4).toNat
      = b.addr.toNat + 16 + 4 * (alignment.toNat - 1) := by
    simp only [data]
    bv_omega
  have hmod : (data (secondHeader b.addr alignment))
      = (data b.addr + 4 * alignment - 4) - (data b.addr + 4 * alignment - 4) % alignment := by
    rw [secondHeader]
    generalize data b.addr + 4 * alignment - 4 = a
    generalize a % alignment = r
    simp only [data]
    ring
  have hle : (data b.addr + 4 * alignment - 4) % alignment ≤ data b.addr + 4 * alignment - 4 := by
    rw [BitVec.le_def, BitVec.toNat_umod]
    exact Nat.mod_le _ _
  rw [hmod, BitVec.toNat_sub_of_le hle, BitVec.toNat_umod, hreach]

theorem toNat_secondHeader :
    (secondHeader b.addr alignment).toNat + 16
      = reach b alignment - reach b alignment % alignment.toNat := by
  have hdata := toNat_data_secondHeader b alignment hpos hwrap
  have hmod := Nat.mod_lt (reach b alignment) hpos
  rw [← hdata]
  simp only [data, reach] at hdata hmod ⊢
  bv_omega

omit hpos in
theorem toNat_data_block : (data b.addr).toNat = b.addr.toNat + 16 := by
  unfold reach at hwrap
  simp only [data]
  bv_omega

/-- The new header is that of the block only without an alignment. -/
theorem secondHeader_eq_iff :
    secondHeader b.addr alignment = b.addr ↔ alignment.toNat = 1 := by
  have hsecond := toNat_secondHeader b alignment hpos hwrap
  have hmod := Nat.mod_lt (reach b alignment) hpos
  rw [← BitVec.toNat_inj]
  unfold reach at hsecond hmod
  constructor
  · intro heq
    omega
  · intro heq
    rw [heq, Nat.mod_one] at hsecond
    omega

/-- It is clear of the header of the block if the move up leaves room for a
    header after rounding. -/
theorem data_le_secondHeader_iff :
    (data b.addr).toNat ≤ (secondHeader b.addr alignment).toNat ↔
      16 + reach b alignment % alignment.toNat ≤ 4 * (alignment.toNat - 1) := by
  have hsecond := toNat_secondHeader b alignment hpos hwrap
  have hle := Nat.mod_le (reach b alignment) alignment.toNat
  rw [toNat_data_block b alignment hwrap]
  unfold reach at hsecond hle ⊢
  omega

end Place

/-- What a split leaves in the header of the block when the request does not go
    into the block itself. These fields are written last. -/
theorem splitBlock_front (m : Mem) (block size alignment : Word)
    (hne : block ≠ secondHeader block alignment) :
    next (splitBlock m block size alignment) block = secondHeader block alignment ∧
      free (splitBlock m block size alignment) block = 1 ∧
      MemBlock.size (splitBlock m block size alignment) block
        = secondHeader block alignment - data block := by
  simp only [splitBlock, if_pos hne, next_setFree, next_setSize, next_setNext, free_setFree,
    size_setFree, size_setSize, ne_eq, and_self]

/-- The new header is clear of the old one, or is the old one, exactly when the
    move up leaves room for a header after rounding. -/
theorem alignedCut_iff (m : Mem) (b : Block) (size alignment : Word) (hpos : 1 ≤ alignment.toNat)
    (hwrap : reach b alignment < 2 ^ 32) :
    AlignedCut alignment (data (secondHeader b.addr alignment)) b
        (splitBlock m b.addr size alignment) ↔
      alignment.toNat = 1 ∨
        16 + reach b alignment % alignment.toNat ≤ 4 * (alignment.toNat - 1) := by
  have hsame := secondHeader_eq_iff b alignment hpos hwrap
  have hafter := data_le_secondHeader_iff b alignment hpos hwrap
  have hback : data (secondHeader b.addr alignment) - 16 = secondHeader b.addr alignment := by
    simp only [data, BitVec.add_sub_cancel]
  constructor
  · rintro ⟨_, hplaced⟩
    rw [hback] at hplaced
    exact hplaced.imp hsame.mp (fun h => hafter.mp h.1)
  · intro hcond
    refine ⟨?_, ?_⟩
    · rw [toNat_data_secondHeader b alignment hpos hwrap]
      exact Nat.dvd_sub_mod _
    · rw [hback]
      refine hcond.imp hsame.mpr (fun h => ?_)
      have hclear := hafter.mpr h
      have hne : b.addr ≠ secondHeader b.addr alignment := by
        intro heq
        rw [← heq, toNat_data_block b alignment hwrap] at hclear
        omega
      rcases splitBlock_front m b.addr size alignment hne with ⟨hnext, hfree, hsize⟩
      refine ⟨hclear, ?_, ?_, hnext⟩
      · rw [hfree]
        decide
      · rw [hsize]
        exact BitVec.toNat_sub_of_le (BitVec.le_def.mpr hclear)

/-- From an alignment of seven on there is always room. -/
theorem room_of_seven_le (b : Block) (alignment : Word) (h : 7 ≤ alignment.toNat) :
    16 + reach b alignment % alignment.toNat ≤ 4 * (alignment.toNat - 1) := by
  have hmod := Nat.mod_lt (reach b alignment) (Nat.lt_of_lt_of_le (Nat.succ_pos 6) h)
  omega

/-- An aligned allocation whose addresses do not wrap returns an aligned address
    and keeps its block intact exactly when the move up leaves room for a
    header after rounding. -/
theorem kalignedAlloc_iff (h h' : Heap) (size alignment p : Word) (bs : List Block)
    (hrep : Represents h.mem h.mDynFirstBlock bs) (hpos : 1 ≤ alignment.toNat)
    (hcall : kalignedAlloc size alignment h = some (p, h')) (hp : p ≠ 0) :
    ∃ pre b rest, bs = pre ++ b :: rest ∧ (∀ c ∈ pre, c.fits size alignment = false) ∧
      b.fits size alignment = true ∧
      (reach b alignment < 2 ^ 32 →
        (AlignedCut alignment p b h'.mem ↔ alignment.toNat = 1 ∨
          16 + reach b alignment % alignment.toNat ≤ 4 * (alignment.toNat - 1))) := by
  rcases kalignedAlloc_found h h' size alignment p bs hrep hcall hp with
    ⟨pre, b, rest, hbs, hpre, hb, rfl, rfl⟩
  exact ⟨pre, b, rest, hbs, hpre, hb, fun hwrap =>
    alignedCut_iff h.mem b size alignment hpos hwrap⟩

theorem kalignedAlloc_oneBlock (alignment : Word)
    (hfits : (⟨0x200000, 1, 0xFFFF0⟩ : Block).fits 16 alignment = true) :
    kalignedAlloc 16 alignment (Session.blank.place 0x200000)
      = some (data (secondHeader 0x200000 alignment), { Session.blank.place 0x200000 with
          mem := splitBlock (Session.blank.place 0x200000).mem 0x200000 16 alignment }) :=
  kalignedAlloc_spec (Session.blank.place 0x200000) 16 alignment [] [] ⟨0x200000, 1, 0xFFFF0⟩
    (by decide) (Session.represents_place Session.blank 0x200000 (by decide))
    (fun _ hc => absurd hc List.not_mem_nil) hfits

/-- A page-aligned request in a heap just set up. -/
theorem kalignedAlloc_iff_page :
    AlignedCut 4096 0x204000 ⟨0x200000, 1, 0xFFFF0⟩
      (splitBlock (Session.blank.place 0x200000).mem 0x200000 16 4096) := by
  rcases kalignedAlloc_iff (Session.blank.place 0x200000) _ 16 4096 _ Session.oneBlock
    (Session.represents_place Session.blank 0x200000 (by decide)) (by decide)
    (kalignedAlloc_oneBlock 4096 (by decide)) (by decide) with ⟨pre, b, rest, hbs, _, _, hiff⟩
  have hmem : b ∈ Session.oneBlock := by
    rw [hbs]
    exact List.mem_append_right pre List.mem_cons_self
  rw [List.mem_singleton.mp hmem] at hiff
  exact (hiff (by decide)).mpr (Or.inr (room_of_seven_le _ 4096 (by decide)))

/-- With an alignment of four the new header overlaps the old one. -/
theorem kalignedAlloc_overlap :
    ¬ ∀ (h h' : Heap) (size alignment p : Word) (pre rest : List Block) (b : Block),
      Represents h.mem h.mDynFirstBlock (pre ++ b :: rest) → 1 ≤ alignment.toNat →
      (∀ c ∈ pre, c.fits size alignment = false) → b.fits size alignment = true →
      kalignedAlloc size alignment h = some (p, h') → p ≠ 0 →
      reach b alignment < 2 ^ 32 → p.toNat + 4 * size.toNat + 16 ≤ 2 ^ 32 →
      AlignedCut alignment p b h'.mem := by
  intro hall
  have hcut := hall (Session.blank.place 0x200000) _ 16 4 _ [] [] ⟨0x200000, 1, 0xFFFF0⟩
    (Session.represents_place Session.blank 0x200000 (by decide)) (by decide)
    (fun _ hc => absurd hc List.not_mem_nil) (by decide)
    (kalignedAlloc_oneBlock 4 (by decide)) (by decide) (by decide) (by decide)
  rcases hcut.placed with hsame | hafter
  · exact absurd hsame (by decide)
  · exact absurd hafter.1 (by decide)

end UnixP6
