import UnixP6.Core.Descriptors

/-!
# Interrupt Lines

`arch/irq.c`, and the part of `arch/idt.c` that sets interrupts up: the table of
gates, the two interrupt controllers, and the handlers of the lines.

The controllers are modelled as far as the kernel programs them. A command with
`ICW1_INIT` starts the initialisation sequence of a chip, during which the next
writes to its data port are the vector offset, the cascade word and the mode,
the last two as the command says. Outside the sequence a write to the data port
sets the mask and a read returns it. The sequence clears the mask, and an
end-of-interrupt command changes nothing here.

## Main definitions

* `Pic`, `Pics`: One controller, and the pair of them.
* `irqRemap`, `irqClear`: The controllers at boot.
* `irqSetmask`, `irqClearmask`: The mask of a line.
* `Interrupts`: The tables, the controllers and the processor's side.
* `idtInit`: Setting interrupts up.
* `idtSetirqhandler`: Registering the handler of a line.
-/

namespace UnixP6

open CSemantics

/-! ### The controllers -/

/-- What a controller takes the next write to its data port for. -/
inductive PicExpects
  | mask
  | icw2
  | icw3
  | icw4
deriving Repr, DecidableEq

/-- A controller: the command its initialisation was started with, and the
    offset, cascade, mode and mask words. -/
structure Pic where
  expects : PicExpects
  icw1 : Byte
  offset : Byte
  cascade : Byte
  mode : Byte
  mask : Byte
deriving Repr, DecidableEq

/-- `ICW1_ICW4`, `ICW1_SINGLE`, `ICW1_INIT`, `ICW4_8086` and `PIC_EOI`. -/
def icw1Icw4 : Byte := 0x01
def icw1Single : Byte := 0x02
def icw1Init : Byte := 0x10
def icw4_8086 : Byte := 0x01
def picEoi : Byte := 0x20

/-- A write to the command port. -/
def Pic.command (p : Pic) (v : Byte) : Pic :=
  if v &&& icw1Init ≠ 0 then { p with expects := .icw2, icw1 := v, mask := 0 } else p

/-- What follows the cascade word, or the offset of a chip that is alone. -/
def Pic.afterIcw3 (p : Pic) : PicExpects := if p.icw1 &&& icw1Icw4 ≠ 0 then .icw4 else .mask

/-- A write to the data port. -/
def Pic.data (p : Pic) (v : Byte) : Pic :=
  match p.expects with
  | .mask => { p with mask := v }
  | .icw2 =>
    { p with
      offset := v
      expects := if p.icw1 &&& icw1Single ≠ 0 then p.afterIcw3 else .icw3 }
  | .icw3 => { p with cascade := v, expects := p.afterIcw3 }
  | .icw4 => { p with mode := v, expects := .mask }

/-- The master and the slave. -/
structure Pics where
  master : Pic
  slave : Pic
deriving Repr, DecidableEq

/-- `PIC1_COMMAND`, `PIC1_DATA`, `PIC2_COMMAND` and `PIC2_DATA`. -/
def pic1Command : Half := 0x20
def pic1Data : Half := 0x21
def pic2Command : Half := 0xA0
def pic2Data : Half := 0xA1

/-- `outb`. Other ports, such as the one `io_wait` writes to, are not theirs. -/
def Pics.outb (p : Pics) (port : Half) (v : Byte) : Pics :=
  if port = pic1Command then { p with master := p.master.command v }
  else if port = pic1Data then { p with master := p.master.data v }
  else if port = pic2Command then { p with slave := p.slave.command v }
  else if port = pic2Data then { p with slave := p.slave.data v }
  else p

/-- `inb` from a data port, the only ports of theirs that are read. -/
def Pics.inb (p : Pics) (port : Half) : Byte :=
  if port = pic1Data then p.master.mask else if port = pic2Data then p.slave.mask else 0

/-- `irq_sendeoi`. -/
def irqSendeoi (p : Pics) (irq : Byte) : Pics :=
  (if 8 ≤ irq then p.outb pic2Command picEoi else p).outb pic1Command picEoi

/-- `irq_remap`. -/
def irqRemap (p : Pics) (startInt : Byte) : Pics :=
  let a1 := p.inb pic1Data
  let a2 := p.inb pic2Data
  let p := p.outb pic1Command (icw1Init ||| icw1Icw4)
  let p := p.outb pic2Command (icw1Init ||| icw1Icw4)
  let p := p.outb pic1Data startInt
  let p := p.outb pic2Data (startInt + 8)
  let p := p.outb pic1Data 4
  let p := p.outb pic2Data 2
  let p := p.outb pic1Data icw4_8086
  let p := p.outb pic2Data icw4_8086
  let p := p.outb pic1Data a1
  p.outb pic2Data a2

/-- The port of the chip a line belongs to, and the line's number on it. -/
def linePort (irqLine : Byte) : Half × Byte :=
  if irqLine < 8 then (pic1Data, irqLine) else (pic2Data, irqLine - 8)

/-- `irq_setmask`. -/
def irqSetmask (p : Pics) (irqLine : Byte) : Pics :=
  let port := (linePort irqLine).1
  let bit := (linePort irqLine).2
  p.outb port (p.inb port ||| ((1 : Word) <<< bit.toNat).setWidth 8)

/-- `irq_clearmask`. -/
def irqClearmask (p : Pics) (irqLine : Byte) : Pics :=
  let port := (linePort irqLine).1
  let bit := (linePort irqLine).2
  p.outb port (p.inb port &&& (~~~((1 : Word) <<< bit.toNat)).setWidth 8)

/-- `irq_clear`, which masks every line. -/
def irqClear (p : Pics) : Pics := (p.outb pic1Data 0xFF).outb pic2Data 0xFF

/-! ### Setting interrupts up -/

/-- `idtr_t`. -/
structure Idtr where
  limit : Half
  offset : Word
deriving Repr, DecidableEq

/-- The tables of `idt.c`, the controllers, and what the processor has been told:
    the table register, and whether interrupts are on. -/
structure Interrupts where
  idtTable : IdtTable
  irqHandlertable : Nat → Word
  idtr : Idtr
  loaded : Idtr
  interruptFlag : Bool
  pics : Pics

/-- Gates for so many stubs of a table, from a vector on. -/
def setentries (t : IdtTable) (first : Nat) (stubs : Nat → Word) (n : Nat) : IdtTable :=
  n.fold (fun i _ t => idtSetentry t (BitVec.ofNat 8 (i + first)) (stubs i) 0x08 0x8E) t

/-- `idt_init`, given where `idt_table` is and the stubs of `int_handlers.asm`. -/
def idtInit (s : Interrupts) (idtAddr : Word) (isrTable irqTable : Nat → Word) : Interrupts :=
  let s := { s with idtr := { limit := 256 * 8 - 1, offset := idtAddr } }
  let s := { s with idtTable := fun _ => 0 }
  let s := { s with idtTable := setentries s.idtTable 0 isrTable 32 }
  let s := { s with pics := irqClear (irqRemap s.pics 0x20) }
  let s := { s with idtTable := setentries s.idtTable 0x20 irqTable 16 }
  { s with loaded := s.idtr, interruptFlag := true }

/-- `idt_setirqhandler`. -/
def idtSetirqhandler (s : Interrupts) (line : Byte) (handler : Word) (enable : Byte) :
    Interrupts :=
  if 15 < line then s
  else
    let s := { s with irqHandlertable := fun i => if i = line.toNat then handler
      else s.irqHandlertable i }
    if enable ≠ 0 then { s with pics := irqClearmask s.pics line } else s

end UnixP6
