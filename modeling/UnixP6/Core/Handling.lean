import UnixP6.Core.IntHandlers
import UnixP6.Core.Irq

/-!
# Handling an Interrupt

`handle_irqint` of `arch/idt.c`, between the entry and the return that
`int_handlers.asm` has for it. It calls the handler of the line, if there is
one, and then `irq_sendeoi`. The writes of `irq_sendeoi` are a list here, since
other interrupts may come in between them.

The handler gets the address of the frame. It may change what it finds there,
but the number of the line is read again when it returns; a handler that
overwrites it is not modelled.

## Main definitions

* `sendeoiWrites`: The writes of `irq_sendeoi`, in their order.
* `handleIrqint`: The handler that is called, and what is written after it.

## Theorems

* `sendeoi_writes`: The writes make up `irq_sendeoi`.
-/

namespace UnixP6

open CSemantics

/-- The writes of `irq_sendeoi`. -/
def sendeoiWrites (irq : Byte) : List (Half × Byte) :=
  (if 8 ≤ irq then [(pic2Command, picEoi)] else []) ++ [(pic1Command, picEoi)]

/-- `handle_irqint`. A handler is called unless its entry of the table is null. -/
def handleIrqint (s : Interrupts) (ctx : IrqCtx) : Option Word × List (Half × Byte) :=
  (if s.irqHandlertable ctx.irq.toNat ≠ 0 then some (s.irqHandlertable ctx.irq.toNat) else none,
    sendeoiWrites (ctx.irq.setWidth 8))

theorem sendeoi_writes (p : Pics) (irq : Byte) :
    (sendeoiWrites irq).foldl (fun p w => p.outb w.1 w.2) p = irqSendeoi p irq := by
  unfold sendeoiWrites irqSendeoi
  by_cases hslave : 8 ≤ irq
  · rw [if_pos hslave, if_pos hslave]
    rfl
  · rw [if_neg hslave, if_neg hslave]
    rfl

end UnixP6
