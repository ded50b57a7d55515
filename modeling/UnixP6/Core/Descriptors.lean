import UnixP6.CSemantics.BitFields
import UnixP6.CSemantics.Memory

/-!
# Segment and Gate Descriptors

The descriptors of the processor as `x86.h` lays them out, with the functions
that fill them in: `gdt_setgate`, the `seg_init` of `arch/seg.c` that calls it,
and the `idt_setentry` of `arch/idt.c`.

Both kinds are eight bytes, held here as one word of 64 bits whose byte `k` is
the `k`th in memory. A member is a field of that word. `gdt_entry_t` packs its
members as bit-fields from the low bits up, which leaves no gaps; `idt_entry_t`
is a packed structure of whole bytes. Each function is the stores of the source
in their order, and a store to a member truncates what is stored.

## Main definitions

* `GdtEntry`, `gdtSetgate`: A segment descriptor and its encoder.
* `segInit`: The table of segments.
* `IdtEntry`, `idtSetentry`: A gate descriptor and its encoder.
-/

namespace UnixP6

open CSemantics

/-- `gdt_entry_t`. -/
abbrev GdtEntry := BitVec 64

namespace GdtEntry

def limitLow : Field := ⟨0, 16⟩
def offsetLow : Field := ⟨16, 16⟩
def offsetMiddle : Field := ⟨32, 8⟩
-- The union, by its first structure.
def a : Field := ⟨40, 1⟩
def rw : Field := ⟨41, 1⟩
def dc : Field := ⟨42, 1⟩
def e : Field := ⟨43, 1⟩
def s : Field := ⟨44, 1⟩
def dpl : Field := ⟨45, 2⟩
def p : Field := ⟨47, 1⟩
def limitHigh : Field := ⟨48, 4⟩
def res1 : Field := ⟨52, 1⟩
def res2 : Field := ⟨53, 1⟩
def db : Field := ⟨54, 1⟩
def g : Field := ⟨55, 1⟩
def offsetHigh : Field := ⟨56, 8⟩

end GdtEntry

/-- `!x` of an integer. -/
def logicalNot (x : Byte) : Word := if x = 0 then 1 else 0

/-- `gdt_setgate`. -/
def gdtSetgate (entry : GdtEntry) (offset limit : Word) (dpl iscsords iscs : Byte) : GdtEntry :=
  let entry := GdtEntry.offsetLow.set entry (offset &&& 0xFFFF)
  let entry := GdtEntry.offsetMiddle.set entry ((offset >>> 16) &&& 0xFF)
  let entry := GdtEntry.offsetHigh.set entry (offset >>> 24)
  let entry := GdtEntry.limitLow.set entry (limit &&& 0xFFFF)
  let entry := GdtEntry.limitHigh.set entry ((limit >>> 16) &&& 0xFF)
  let entry := GdtEntry.a.set entry (0 : Word)
  let entry := GdtEntry.p.set entry (1 : Word)
  let entry := GdtEntry.dpl.set entry dpl
  let entry := GdtEntry.s.set entry (logicalNot iscsords)
  let entry := GdtEntry.e.set entry iscs
  let entry := GdtEntry.db.set entry (1 : Word)
  let entry := GdtEntry.rw.set entry (1 : Word)
  let entry := GdtEntry.dc.set entry (0 : Word)
  let entry := GdtEntry.g.set entry (1 : Word)
  let entry := GdtEntry.res1.set entry (0 : Word)
  GdtEntry.res2.set entry (0 : Word)

/-- `DPL_KRNL`, `DPL_USER`, `IS_CS` and `IS_DS`. -/
def dplKrnl : Byte := 0
def dplUser : Byte := 3
def isCs : Byte := 1
def isDs : Byte := 0

/-- The five entries of `gdt_table`. -/
abbrev GdtTable := Fin 5 → GdtEntry

/-- `gdt_setgate` on an entry of the table. -/
def GdtTable.setgate (t : GdtTable) (i : Fin 5) (offset limit : Word)
    (dpl iscsords iscs : Byte) : GdtTable :=
  fun j => if j = i then gdtSetgate (t j) offset limit dpl iscsords iscs else t j

/-- `seg_init`, up to the load of the table. -/
def segInit (t : GdtTable) : GdtTable :=
  let t : GdtTable := fun j => if j = 0 then 0 else t j
  let t := t.setgate 1 0 0xFFFFF dplKrnl 0 isCs
  let t := t.setgate 2 0 0xFFFFF dplKrnl 0 isDs
  let t := t.setgate 3 0 0xFFFFF dplUser 0 isCs
  t.setgate 4 0 0xFFFFF dplUser 0 isDs

/-- `idt_entry_t`. -/
abbrev IdtEntry := BitVec 64

namespace IdtEntry

def isrLow : Field := ⟨0, 16⟩
def gdtCs : Field := ⟨16, 16⟩
def res : Field := ⟨32, 8⟩
def flags : Field := ⟨40, 8⟩
def isrHigh : Field := ⟨48, 16⟩

end IdtEntry

/-- The entries of `idt_table`, one for each value of a `uint8_t`. -/
abbrev IdtTable := Byte → IdtEntry

/-- `idt_setentry`. -/
def idtSetentry (t : IdtTable) (vector : Byte) (isr : Word) (cs : Half) (flags : Byte) :
    IdtTable :=
  let entry := t vector
  let entry := IdtEntry.isrLow.set entry isr
  let entry := IdtEntry.isrHigh.set entry (isr >>> 16)
  let entry := IdtEntry.gdtCs.set entry cs
  let entry := IdtEntry.res.set entry (0 : Word)
  let entry := IdtEntry.flags.set entry flags
  fun v => if v = vector then entry else t v

end UnixP6
