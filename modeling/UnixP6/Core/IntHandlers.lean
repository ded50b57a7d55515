import UnixP6.CSemantics.Stack

/-!
# Interrupt Entry and Return

`arch/int_handlers.asm`, with the two structures of `x86.h` that the C handlers
take by value. An interrupt pushes the flags and where it came from, the stub
of its line pushes the number, and `irq_master` saves the general registers and
the data segment before it calls `handle_irqint`; an exception goes the same
way through `isr_master`.

The processor is modelled as far as these instructions see it: the general and
segment registers, the three it pushes on its own, and memory. There is one
privilege level in use, so an interrupt does not change stacks. Where control
is, within a stub, is the order of the definitions; the address a `call` leaves
on the stack is a parameter.

## Main definitions

* `Cpu`: The registers, with memory.
* `Cpu.interrupt`: What the processor pushes.
* `irqint`, `irqMaster`: The stub of a line up to the call of its handler.
* `isrErr`, `isrNoerr`, `isrMaster`: The same for an exception.
* `irqLeave`: The way back from a line's handler.
* `IrqCtx`, `IsrCtx`: The frame as the C handlers read it.
-/

namespace UnixP6

open CSemantics

/-- The registers the stubs touch, with memory. -/
structure Cpu where
  mem : Mem
  edi : Word
  esi : Word
  ebp : Word
  esp : Word
  ebx : Word
  edx : Word
  ecx : Word
  eax : Word
  ds : Half
  es : Half
  fs : Half
  gs : Half
  cs : Half
  eip : Word
  eflags : Word

/-- `push`. -/
def Cpu.push (c : Cpu) (v : Word) : Cpu :=
  { c with mem := c.mem.store32 (c.esp - 4) v, esp := c.esp - 4 }

/-- The word on top of the stack, and the stack without it. -/
def Cpu.top (c : Cpu) : Word := c.mem.load32 c.esp

def Cpu.drop (c : Cpu) (n : Word) : Cpu := { c with esp := c.esp + n }

/-- `pusha`, which pushes `esp` as it was before. -/
def Cpu.pusha (c : Cpu) : Cpu :=
  (((((((c.push c.eax).push c.ecx).push c.edx).push c.ebx).push c.esp).push c.ebp).push
    c.esi).push c.edi

/-- `popa`, which skips the word it would take `esp` from. -/
def Cpu.popa (c : Cpu) : Cpu :=
  { c with
    edi := c.mem.dword c.esp 0
    esi := c.mem.dword c.esp 1
    ebp := c.mem.dword c.esp 2
    ebx := c.mem.dword c.esp 4
    edx := c.mem.dword c.esp 5
    ecx := c.mem.dword c.esp 6
    eax := c.mem.dword c.esp 7
    esp := c.esp + 32 }

/-- `iret` without a change of privilege. -/
def Cpu.iret (c : Cpu) : Cpu :=
  { c with
    eip := c.mem.dword c.esp 0
    cs := (c.mem.dword c.esp 1).setWidth 16
    eflags := c.mem.dword c.esp 2
    esp := c.esp + 12 }

/-- `cli`, which clears the interrupt flag. -/
def Cpu.cli (c : Cpu) : Cpu := { c with eflags := c.eflags &&& ~~~0x200 }

/-- `mov ax, v`, which leaves the upper half of `eax`. -/
def Cpu.movAx (c : Cpu) (v : Half) : Cpu := { c with eax := c.eax.extractLsb' 16 16 ++ v }

/-- The four segment registers loaded from `ax`. -/
def Cpu.loadSegments (c : Cpu) : Cpu :=
  { c with
    ds := c.eax.setWidth 16
    es := c.eax.setWidth 16
    fs := c.eax.setWidth 16
    gs := c.eax.setWidth 16 }

/-- What the processor pushes at an interrupt, with the error code of the
    exceptions that have one. -/
def Cpu.interrupt (c : Cpu) (errcode : Option Word) : Cpu :=
  let c := ((c.push c.eflags).push (c.cs.setWidth 32)).push c.eip
  match errcode with
  | none => c
  | some e => c.push e

/-- What `irq_master` and `isr_master` do before the call: save the general
    registers and the data segment, and load the one of the kernel. -/
def Cpu.save (c : Cpu) : Cpu :=
  let c := c.pusha
  let c := c.movAx c.ds
  let c := c.push c.eax
  (c.movAx 0x10).loadSegments

/-- What they do after it: the data segment and the general registers come
    back, and the words pushed below them go. -/
def Cpu.restore (c : Cpu) (pushed : Word) : Cpu :=
  let c := { c.drop 4 with eax := c.top }
  ((c.loadSegments).popa).drop pushed

/-- `irq_master`, up to and with the call of `handle_irqint`. -/
def irqMaster (ret : Word) (c : Cpu) : Cpu := c.save.push ret

/-- `isr_master`, up to and with the call of `handle_exception`. -/
def isrMaster (ret : Word) (c : Cpu) : Cpu := c.save.push ret

/-- `irqint`: the stub of a line. -/
def irqint (line ret : Word) (c : Cpu) : Cpu := irqMaster ret (c.push line)

/-- `isr_general`: the part the stubs of all exceptions share. -/
def isrGeneral (vector ret : Word) (c : Cpu) : Cpu := isrMaster ret (c.push vector).cli

/-- `isr_err`: the stub of an exception with an error code. -/
def isrErr (vector ret : Word) (c : Cpu) : Cpu := isrGeneral vector ret c

/-- `isr_noerr`: the stub of an exception without one. -/
def isrNoerr (vector ret : Word) (c : Cpu) : Cpu := isrGeneral vector ret (c.push 0)

/-- The exceptions whose stub is an `isr_err`. -/
def errVectors : List Word := [8, 10, 11, 12, 13, 14, 17, 30]

/-- `isr_table`: the stub of a vector. -/
def isrStub (vector ret : Word) (c : Cpu) : Cpu :=
  if errVectors.contains vector then isrErr vector ret c else isrNoerr vector ret c

/-- `irq_master` after the call, from when the return address has been popped. -/
def irqLeave (c : Cpu) : Cpu := (c.restore 4).iret

/-- `irqctx_t`. -/
structure IrqCtx where
  edi : Word
  esi : Word
  ebp : Word
  esp : Word
  ebx : Word
  edx : Word
  ecx : Word
  eax : Word
  ds : Word
  irq : Word
  eip : Word
  cs : Word
  eflags : Word
  useresp : Word
  ss : Word

/-- `isrctx_t`. -/
structure IsrCtx where
  edi : Word
  esi : Word
  ebp : Word
  esp : Word
  ebx : Word
  edx : Word
  ecx : Word
  eax : Word
  ds : Word
  intnum : Word
  errcode : Word
  eip : Word
  cs : Word
  eflags : Word
  useresp : Word
  ss : Word

/-- An `irqctx_t` at an address. -/
def irqCtxAt (m : Mem) (a : Word) : IrqCtx :=
  { edi := m.dword a 0
    esi := m.dword a 1
    ebp := m.dword a 2
    esp := m.dword a 3
    ebx := m.dword a 4
    edx := m.dword a 5
    ecx := m.dword a 6
    eax := m.dword a 7
    ds := m.dword a 8
    irq := m.dword a 9
    eip := m.dword a 10
    cs := m.dword a 11
    eflags := m.dword a 12
    useresp := m.dword a 13
    ss := m.dword a 14 }

/-- An `isrctx_t` at an address. -/
def isrCtxAt (m : Mem) (a : Word) : IsrCtx :=
  { edi := m.dword a 0
    esi := m.dword a 1
    ebp := m.dword a 2
    esp := m.dword a 3
    ebx := m.dword a 4
    edx := m.dword a 5
    ecx := m.dword a 6
    eax := m.dword a 7
    ds := m.dword a 8
    intnum := m.dword a 9
    errcode := m.dword a 10
    eip := m.dword a 11
    cs := m.dword a 12
    eflags := m.dword a 13
    useresp := m.dword a 14
    ss := m.dword a 15 }

/-- The parameter `ctx` of a handler entered by `call`: the argument passed by
    value lies just above the return address. -/
def irqParameter (c : Cpu) : IrqCtx := irqCtxAt c.mem (c.esp + 4)

def isrParameter (c : Cpu) : IsrCtx := isrCtxAt c.mem (c.esp + 4)

end UnixP6
