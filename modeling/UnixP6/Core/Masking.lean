import UnixP6.CSemantics.Update
import UnixP6.Core.Irq

/-!
# Masks, Access by Access

`irq_setmask` and `irq_clearmask` read the mask of a chip and write it back, and
`idt_setirqhandler` calls the second. Interrupts are on while they run, and the
handler that comes in between may call them too. Here the calls are cut at their
accesses to the chip. One that is interrupted goes on when the handler has
returned.

## Main definitions

* `MaskCall`: A call of one of the two.
* `Masking`: The controllers and the table, with the calls that have begun.
* `Masking.call`, `Masking.register`: The functions up to their first access.
* `Masking.inb`, `Masking.outb`: The accesses of the last call that has begun.
-/

namespace UnixP6

open CSemantics

/-- A call of `irq_setmask` or of `irq_clearmask`. -/
structure MaskCall where
  set : Bool
  line : Byte
deriving DecidableEq

/-- The byte that it writes, given the byte that it has read. -/
def MaskCall.value (c : MaskCall) (v : Byte) : Byte :=
  let bit := (linePort c.line).2
  if c.set then v ||| ((1 : Word) <<< bit.toNat).setWidth 8
  else v &&& (~~~((1 : Word) <<< bit.toNat)).setWidth 8

/-- The calls that have begun are those that were interrupted, the last one
    first. -/
structure Masking where
  ints : Interrupts
  calls : List (Begun MaskCall Byte)

namespace Masking

/-- One of the two functions is called. -/
def call (m : Masking) (c : MaskCall) : Masking := { m with calls := ⟨c, none⟩ :: m.calls }

/-- `idt_setirqhandler`, up to the accesses of `irq_clearmask`. -/
def register (m : Masking) (line : Byte) (handler : Word) (enable : Byte) : Masking :=
  if 15 < line then m
  else
    let m := { m with
      ints := { m.ints with
        irqHandlertable := fun i =>
          if i = line.toNat then handler else m.ints.irqHandlertable i } }
    if enable ≠ 0 then m.call ⟨false, line⟩ else m

/-- The mask is read. -/
def inb (m : Masking) : Option Masking :=
  match m.calls with
  | ⟨c, none⟩ :: rest =>
    some { m with calls := ⟨c, some (m.ints.pics.inb (linePort c.line).1)⟩ :: rest }
  | _ => none

/-- It is written back. -/
def outb (m : Masking) : Option Masking :=
  match m.calls with
  | ⟨c, some v⟩ :: rest =>
    some
      { ints := { m.ints with pics := m.ints.pics.outb (linePort c.line).1 (c.value v) }
        calls := rest }
  | _ => none

end Masking

end UnixP6
