import UnixP6.Core.Descriptors

/-!
# Descriptors as the Processor Reads Them

The processor knows nothing of members: it takes a base, a limit and the access
bits out of the eight bytes of a segment descriptor, and an address, a selector
and a type out of those of a gate. These readings are written here from the
layout of the bytes alone, so that an encoder with a member of a wrong width or
in a wrong place would not agree with them.

Every byte lies within the members the encoder stores to, so what it reads is
found by passing over the stores to the members apart from it.

## Main definitions

* `byteOf`: A byte of a descriptor.
* `Segment`, `Segment.ofBytes`: What a segment descriptor says.
* `Gate`, `Gate.ofBytes`: What a gate descriptor says.

## Theorems

* `segment_setgate`: What `gdt_setgate` writes.
* `gate_setentry`: What `idt_setentry` writes.
* `descriptors_faithful`: Both encoders are undone by the processor's reading.
-/

namespace UnixP6

open CSemantics

/-- Byte `i` of a descriptor, in the order of memory. -/
def byteOf (d : BitVec 64) (i : Nat) : Byte := d.extractLsb' (8 * i) 8

/-- What a segment descriptor says. -/
structure Segment where
  base : Word
  limit : BitVec 20
  present : BitVec 1
  dpl : BitVec 2
  /-- Set for code and data, clear for the descriptors of the system. -/
  codeOrData : BitVec 1
  code : BitVec 1
  conforming : BitVec 1
  writable : BitVec 1
  accessed : BitVec 1
  granularity : BitVec 1
  bits32 : BitVec 1
  long : BitVec 1
  available : BitVec 1
deriving DecidableEq

/-- A segment descriptor by its bytes: the base in bytes 2 to 4 and 7, the limit
    in bytes 0 and 1 and the low half of byte 6, the access bits in byte 5 and
    the flags in the high half of byte 6. -/
def Segment.ofBytes (b : Nat → Byte) : Segment :=
  { base := b 7 ++ b 4 ++ b 3 ++ b 2
    limit := (b 6).extractLsb' 0 4 ++ b 1 ++ b 0
    present := (b 5).extractLsb' 7 1
    dpl := (b 5).extractLsb' 5 2
    codeOrData := (b 5).extractLsb' 4 1
    code := (b 5).extractLsb' 3 1
    conforming := (b 5).extractLsb' 2 1
    writable := (b 5).extractLsb' 1 1
    accessed := (b 5).extractLsb' 0 1
    granularity := (b 6).extractLsb' 7 1
    bits32 := (b 6).extractLsb' 6 1
    long := (b 6).extractLsb' 5 1
    available := (b 6).extractLsb' 4 1 }

/-- What a gate descriptor says. -/
structure Gate where
  address : Word
  selector : Half
  flags : Byte
deriving DecidableEq

/-- A gate descriptor by its bytes: the address in bytes 0, 1, 6 and 7, the
    selector in bytes 2 and 3 and the type with its attributes in byte 5. -/
def Gate.ofBytes (b : Nat → Byte) : Gate :=
  { address := b 7 ++ b 6 ++ b 1 ++ b 0
    selector := b 3 ++ b 2
    flags := b 5 }

/-! ### Reading what was stored -/

theorem byteOf_eq_get (d : BitVec 64) (i : Nat) : byteOf d i = Field.get ⟨8 * i, 8⟩ d := rfl

/-- Some bits of a byte are a field of the descriptor. -/
theorem bits_byteOf (d : BitVec 64) (i pos width : Nat) (h : pos + width ≤ 8) :
    (byteOf d i).extractLsb' pos width = Field.get ⟨8 * i + pos, width⟩ d :=
  Field.get_get ⟨8 * i, 8⟩ ⟨pos, width⟩ d h

/-- Two neighbouring parts of a word are one part. -/
theorem adjoin (x : Word) (pos low high : Nat) :
    x.extractLsb' (pos + low) high ++ x.extractLsb' pos low = x.extractLsb' pos (high + low) :=
  BitVec.extractLsb'_append_extractLsb'_eq_extractLsb' rfl

/-- The bytes of a base, as `gdt_setgate` takes it apart, make it up again. -/
theorem base_pieces (x : Word) :
    (x >>> 24).extractLsb' 0 8 ++ ((x >>> 16) &&& 0xFF).extractLsb' 0 8 ++
      (x &&& 0xFFFF).extractLsb' 8 8 ++ (x &&& 0xFFFF).extractLsb' 0 8 = x := by
  rw [extractLsb'_mask (x >>> 16) 0xFF 0 8 rfl, extractLsb'_mask x 0xFFFF 8 8 rfl,
    extractLsb'_mask x 0xFFFF 0 8 rfl, extractLsb'_ushiftRight, extractLsb'_ushiftRight,
    adjoin x 16 8 8, adjoin x 8 8 (8 + 8), adjoin x 0 8 (8 + 8 + 8)]
  exact BitVec.extractLsb'_eq_self

/-- The pieces of a limit, of which there are twenty bits. -/
theorem limit_pieces (x : Word) :
    ((x >>> 16) &&& 0xFF).extractLsb' 0 4 ++ (x &&& 0xFFFF).extractLsb' 8 8 ++
      (x &&& 0xFFFF).extractLsb' 0 8 = x.setWidth 20 := by
  rw [extractLsb'_mask (x >>> 16) 0xFF 0 4 rfl, extractLsb'_mask x 0xFFFF 8 8 rfl,
    extractLsb'_mask x 0xFFFF 0 8 rfl, extractLsb'_ushiftRight, adjoin x 8 8 4,
    adjoin x 0 8 (4 + 8)]
  exact (BitVec.setWidth_eq_extractLsb' (show 20 ≤ 32 by decide)).symm

theorem segment_setgate (entry : GdtEntry) (offset limit : Word) (dpl iscsords iscs : Byte) :
    Segment.ofBytes (byteOf (gdtSetgate entry offset limit dpl iscsords iscs)) =
      { base := offset
        limit := limit.setWidth 20
        present := 1
        dpl := dpl.setWidth 2
        codeOrData := (logicalNot iscsords).setWidth 1
        code := iscs.setWidth 1
        conforming := 0
        writable := 1
        accessed := 0
        granularity := 1
        bits32 := 1
        long := 0
        available := 0 } := by
  simp (disch := decide) only [Segment.ofBytes, bits_byteOf]
  simp (disch := decide) only [byteOf_eq_get, gdtSetgate, Field.get_set_inside,
    Field.get_set_apart]
  -- What is left are the bits of each member, with the masks and shifts of the source.
  rw [Segment.mk.injEq]
  refine ⟨?_, ?_, rfl, ?_, ?_, ?_, rfl, rfl, rfl, rfl, rfl, rfl, rfl⟩
  · exact base_pieces offset
  · exact limit_pieces limit
  · exact (BitVec.setWidth_eq_extractLsb' (show 2 ≤ 8 by decide)).symm
  · exact (BitVec.setWidth_eq_extractLsb' (show 1 ≤ 32 by decide)).symm
  · exact (BitVec.setWidth_eq_extractLsb' (show 1 ≤ 8 by decide)).symm

/-! ### Gates -/

/-- The pieces of an address, as `idt_setentry` takes it apart. -/
theorem address_pieces (x : Word) :
    (x >>> 16).extractLsb' 8 8 ++ (x >>> 16).extractLsb' 0 8 ++ x.extractLsb' 8 8 ++
      x.extractLsb' 0 8 = x := by
  rw [extractLsb'_ushiftRight, extractLsb'_ushiftRight, adjoin x 16 8 8, adjoin x 8 8 (8 + 8),
    adjoin x 0 8 (8 + 8 + 8)]
  exact BitVec.extractLsb'_eq_self

theorem gate_setentry (t : IdtTable) (vector : Byte) (isr : Word) (cs : Half) (flags : Byte) :
    Gate.ofBytes (byteOf (idtSetentry t vector isr cs flags vector)) =
      { address := isr, selector := cs, flags := flags } := by
  simp (disch := decide) only [Gate.ofBytes, byteOf_eq_get, idtSetentry, if_true,
    Field.get_set_inside, Field.get_set_apart]
  rw [Gate.mk.injEq]
  refine ⟨address_pieces isr, ?_, ?_⟩
  · exact (BitVec.extractLsb'_append_extractLsb'_eq_extractLsb' rfl).trans
      BitVec.extractLsb'_eq_self
  · exact BitVec.extractLsb'_eq_self

theorem setentry_other (t : IdtTable) (vector v : Byte) (isr : Word) (cs : Half) (flags : Byte)
    (h : v ≠ vector) : idtSetentry t vector isr cs flags v = t v := by
  simp only [idtSetentry, if_neg h]

/-- Both encoders are undone by the processor's reading: a segment with a limit
    of twenty bits and a privilege level of two, and an entry of the table of
    gates, which leaves the other entries alone. -/
theorem descriptors_faithful :
    (∀ (entry : GdtEntry) (base limit : Word) (dpl iscsords iscs : Byte),
      limit.toNat < 2 ^ 20 → dpl.toNat < 4 → iscs = isCs ∨ iscs = isDs →
      let d := Segment.ofBytes (byteOf (gdtSetgate entry base limit dpl iscsords iscs))
      d.base = base ∧ d.limit.toNat = limit.toNat ∧ d.dpl.toNat = dpl.toNat ∧
        (d.code = 1 ↔ iscs = isCs) ∧ (d.codeOrData = 1 ↔ iscsords = 0) ∧
        d.present = 1 ∧ d.granularity = 1 ∧ d.bits32 = 1) ∧
    ∀ (t : IdtTable) (vector : Byte) (isr : Word) (cs : Half) (flags : Byte),
      Gate.ofBytes (byteOf (idtSetentry t vector isr cs flags vector)) =
          { address := isr, selector := cs, flags := flags } ∧
        ∀ v ≠ vector, idtSetentry t vector isr cs flags v = t v := by
  refine ⟨fun entry base limit dpl iscsords iscs hlimit hdpl hiscs => ?_,
    fun t vector isr cs flags => ⟨gate_setentry t vector isr cs flags,
      fun v hv => setentry_other t vector v isr cs flags hv⟩⟩
  simp only [segment_setgate]
  refine ⟨trivial, ?_, ?_, ?_, ?_, trivial, trivial, trivial⟩
  · rw [BitVec.toNat_setWidth, Nat.mod_eq_of_lt hlimit]
  · rw [BitVec.toNat_setWidth, Nat.mod_eq_of_lt (by omega)]
  · rcases hiscs with rfl | rfl
    · decide
    · decide
  · unfold logicalNot
    by_cases hsystem : iscsords = 0
    · rw [if_pos hsystem]
      exact ⟨fun _ => hsystem, fun _ => rfl⟩
    · rw [if_neg hsystem]
      exact ⟨fun h => absurd h (by decide), fun h => absurd h hsystem⟩

/-- A segment whose base and limit have different digits throughout. -/
theorem descriptors_faithful_segment :
    let d := Segment.ofBytes (byteOf (gdtSetgate 0 0x12345678 0xABCDE dplUser 0 isCs))
    d.base = 0x12345678 ∧ d.limit.toNat = 0xABCDE ∧ d.dpl.toNat = 3 :=
  have h := descriptors_faithful.1 0 0x12345678 0xABCDE dplUser 0 isCs (by decide) (by decide)
    (Or.inl rfl)
  ⟨h.1, h.2.1, h.2.2.1⟩

end UnixP6
