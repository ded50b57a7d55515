import UnixP6.Core.IntHandlers
import UnixP6.Core.Kernel

/-!
# Exceptions

`handle_exception` of `arch/idt.c`, and the way of an exception from the
processor to it. The report is printed by `LOG`, and then the processor is
halted with interrupts off, so nothing is modelled behind it.

A name is looked up by the number in the frame. The table has one for each of
the 32 exceptions, eight of them empty.

## Main definitions

* `exceptionNames`: The names.
* `handleException`: The report.
* `raise`: An exception, up to the halt.
-/

namespace UnixP6

open CSemantics

/-- `exception_names`. -/
def exceptionNames : List (List Byte) :=
  [ascii ['D', 'i', 'v', 'i', 'd', 'e', 'B', 'y', 'Z', 'e', 'r', 'o'],
    ascii ['D', 'e', 'b', 'u', 'g'],
    ascii ['N', 'M', 'I'],
    ascii ['B', 'r', 'e', 'a', 'k', 'p', 'o', 'i', 'n', 't'],
    ascii ['O', 'v', 'e', 'r', 'f', 'l', 'o', 'w'],
    ascii ['B', 'o', 'u', 'n', 'd', 'R', 'a', 'n', 'g', 'e', 'E', 'x', 'c', 'e', 'e', 'd'],
    ascii ['I', 'n', 'v', 'a', 'l', 'i', 'd', 'O', 'p', 'c', 'o', 'd', 'e'],
    ascii ['C', 'o', 'p', 'r', 'o', 'c', 'e', 's', 's', 'o', 'r', 'N', 'o', 't', 'A', 'v', 'i', 'a',
      'b', 'l', 'e'],
    ascii ['D', 'o', 'u', 'b', 'l', 'e', 'F', 'a', 'u', 'l', 't'],
    ascii ['C', 'o', 'p', 'r', 'o', 'c', 'e', 's', 's', 'o', 'r', 'S', 'e', 'g', 'm', 'e', 'n', 't',
      'O', 'v', 'e', 'r', 'r', 'u', 'n'],
    ascii ['I', 'n', 'v', 'a', 'l', 'i', 'd', 'T', 'S', 'S'],
    ascii ['S', 'e', 'g', 'm', 'e', 'n', 't', 'N', 'o', 't', 'P', 'r', 'e', 's', 'e', 'n', 't'],
    ascii ['S', 't', 'a', 'c', 'k', 'F', 'a', 'u', 'l', 't'],
    ascii ['G', 'e', 'n', 'e', 'r', 'a', 'l', 'P', 'r', 'o', 't', 'e', 'c', 't', 'i', 'o', 'n'],
    ascii ['P', 'a', 'g', 'e', 'F', 'a', 'u', 'l', 't'],
    [],
    ascii ['x', '8', '7'],
    ascii ['A', 'l', 'i', 'g', 'n', 'm', 'e', 'n', 't', 'C', 'h', 'e', 'c', 'k'],
    ascii ['M', 'a', 'c', 'h', 'i', 'n', 'e', 'C', 'h', 'e', 'c', 'k'],
    ascii ['S', 'I', 'M', 'D'],
    ascii ['V', 'i', 'r', 't', 'u', 'a', 'l', 'i', 'z', 'a', 't', 'i', 'o', 'n'],
    ascii ['C', 'o', 'n', 't', 'r', 'o', 'l', 'P', 'r', 'o', 't', 'e', 'c', 't', 'i', 'o', 'n'],
    [], [], [], [], [], [], [],
    ascii ['H', 'y', 'p', 'e', 'r', 'v', 'i', 's', 'o', 'r', 'I', 'n', 'j', 'e', 'c', 't', 'i', 'o',
      'n'],
    ascii ['V', 'M', 'M', 'C', 'o', 'm', 'm', 'u', 'n', 'i', 'c', 'a', 't', 'i', 'o', 'n'],
    ascii ['S', 'e', 'c', 'u', 'r', 'i', 't', 'y', 'E', 'x', 'c', 'e', 'p', 't', 'i', 'o', 'n']]

/-- The formats `"\nAn exception occurred!\nISR:%i, Name:%s"`,
    `", Error Code:%x"` and `".\n"`. -/
def reportFormat : List Byte :=
  10 :: ascii ['A', 'n', ' ', 'e', 'x', 'c', 'e', 'p', 't', 'i', 'o', 'n', ' ', 'o', 'c', 'c', 'u',
    'r', 'r', 'e', 'd', '!'] ++ 10 :: ascii ['I', 'S', 'R', ':', '%', 'i', ',', ' ', 'N', 'a', 'm',
    'e', ':', '%', 's']
def codeFormat : List Byte :=
  ascii [',', ' ', 'E', 'r', 'r', 'o', 'r', ' ', 'C', 'o', 'd', 'e', ':', '%', 'x']
def endFormat : List Byte := ascii ['.'] ++ [10]

/-- Where these and the table of the names are, the `buffer` of `__doprnt` below
    the handler, and the address that `isr_master` leaves on the stack. -/
structure ExceptionImage where
  reportFmt : Word
  codeFmt : Word
  endFmt : Word
  names : Word
  buffer : Word
  ret : Word

/-- `handle_exception`, up to the halt. -/
def handleException (img : KernelImage) (ex : ExceptionImage) (k : KernelState) (ctx : IsrCtx) :
    Option KernelState :=
  (k.log img ex.buffer ex.reportFmt [ctx.intnum, k.mem.load32 (ex.names + 4 * ctx.intnum)]).bind
    fun k =>
  (if ctx.errcode ≠ 0 then k.log img ex.buffer ex.codeFmt [ctx.errcode >>> 3] else some k).bind
    fun k => k.log img ex.buffer ex.endFmt []

/-- An exception: the processor pushes what it pushes, with or without an error
    code, and the stub of the vector enters the handler. -/
def raise (img : KernelImage) (ex : ExceptionImage) (k : KernelState) (c : Cpu) (vector : Word)
    (errcode : Option Word) : Option KernelState :=
  let s := isrStub vector ex.ret ({ c with mem := k.mem }.interrupt errcode)
  handleException img ex { k with mem := s.mem } (isrParameter s)

end UnixP6
