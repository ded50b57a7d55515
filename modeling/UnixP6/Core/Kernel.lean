import UnixP6.Core.Console
import UnixP6.Core.Format
import UnixP6.Core.Irq
import UnixP6.Core.Multiboot
import UnixP6.Core.Tar

/-!
# The Kernel from Start to Halt

`_start` of `arch/kernel.asm` and the `kmain` of `kernel.c` that it calls: the
tables are set up, the boot information is read, and a file of the first module
is printed. `mm_init` is not called by anything, so all of this runs without a
heap.

`LOG` goes to the serial line, as `__log_out` is zero and nothing sets it. What
it prints is the text that `com_write` is called with. The calls in `sys_init`
and in `modules_init`, which it ends with, are left out, and the text kept is
what is printed once `sys_init` has returned. Of the drivers that are started
there only the text console touches memory.

## Main definitions

* `KernelState`: Memory and the globals of the kernel.
* `KernelImage`: The addresses that are known when it is linked or entered.
* `KernelState.log`: `LOG`.
* `kmainFile`, `kmain`: The kernel's main function.
* `KernelState.start`: `_start`.
-/

namespace UnixP6

open CSemantics

/-- Memory and the globals, with the text that was written to the serial line
    since `sys_init` returned. -/
structure KernelState where
  mem : Mem
  gdtTable : GdtTable
  interrupts : Interrupts
  modules : Modules
  dispDrv : Word
  tvgaCurattr : Byte
  cursorPos : Half
  mDynAvailable : Word
  mDynTotal : Word
  mDynBase : Word
  mDynFirstBlock : Word
  com : List Byte

/-- Characters by their codes. -/
def ascii (cs : List Char) : List Byte := cs.map fun c => BitVec.ofNat 8 c.toNat

/-- The strings `"paddr=%x size=%u\n"`, `"initrd/tar.h"` and `"%s"` of `kmain`, and
    `kernel_returned_string`. -/
def moduleFormat : List Byte :=
  ascii ['p', 'a', 'd', 'd', 'r', '=', '%', 'x', ' ', 's', 'i', 'z', 'e', '=', '%', 'u'] ++ [10]
def fileName : List Byte := ascii ['i', 'n', 'i', 't', 'r', 'd', '/', 't', 'a', 'r', '.', 'h']
def fileFormat : List Byte := ascii ['%', 's']
def returnedFormat : List Byte :=
  ascii ['K', 'e', 'r', 'n', 'e', 'l', ' ', 'r', 'e', 't', 'u', 'r', 'n', 'e', 'd', ' ', 'w', 'i',
    't', 'h', ' ', '%', 'i', '.'] ++ [10]

/-- Where these strings are, the stubs of `int_handlers.asm`, the `buffer` of
    `__doprnt` on the stack below `kmain` and below `_start`, and the words on the
    stack behind the arguments of a call. -/
structure KernelImage where
  moduleFmt : Word
  fileNm : Word
  fileFmt : Word
  returnedFmt : Word
  idtTable : Word
  isrTable : Nat → Word
  irqTable : Nat → Word
  buffer : Word
  startBuffer : Word
  stack : Nat → Word

namespace KernelState

/-- The state of the heap. -/
def heap (k : KernelState) : Heap :=
  { mem := k.mem
    mDynAvailable := k.mDynAvailable
    mDynTotal := k.mDynTotal
    mDynBase := k.mDynBase
    mDynFirstBlock := k.mDynFirstBlock }

def withHeap (k : KernelState) (h : Heap) : KernelState :=
  { k with
    mem := h.mem
    mDynAvailable := h.mDynAvailable
    mDynTotal := h.mDynTotal
    mDynBase := h.mDynBase
    mDynFirstBlock := h.mDynFirstBlock }

/-- A driver is started for a framebuffer. `vbe_init` only notes what it is given. -/
def startDriver (k : KernelState) : DriverCall → KernelState
  | .tvgaInit =>
    let c := tvgaInit ⟨k.mem, k.tvgaCurattr, k.cursorPos, []⟩
    { k with mem := c.mem, tvgaCurattr := c.tvgaCurattr, cursorPos := c.cursorPos }
  | .vbeInit _ _ _ _ => k

/-- `LOG`, given where `__doprnt` has its buffer. -/
def log (img : KernelImage) (buffer : Word) (k : KernelState) (fmt : Word) (args : List Word) :
    Option KernelState :=
  (doprnt k.mem fmt (fun n => (args[n]?).getD (img.stack (n - args.length))) buffer).map fun r =>
    { k with mem := r.mem, com := k.com ++ r.out }

end KernelState

/-- `kmain` from `module_get` on, with the file that was found and the value that
    is returned. -/
def kmainFile (img : KernelImage) (k : KernelState) : Option (Word × Tar × KernelState) :=
  let mdl := moduleGet k.modules 0
  (k.log img img.buffer img.moduleFmt
    [moduleStart k.mem mdl, moduleEnd k.mem mdl - moduleStart k.mem mdl]).bind fun k =>
  (tarInit (moduleStart k.mem mdl) (moduleEnd k.mem mdl - moduleStart k.mem mdl) k.heap).bind
    fun res =>
  let k := k.withHeap res.2
  (tarGetFile k.mem (Tar.load k.mem res.1) img.fileNm).bind fun file =>
  (k.log img img.buffer img.fileFmt [file.ptr]).map fun k => (1, file, k)

/-- `kmain`. What `sys_init` returns is not looked at. -/
def kmain (img : KernelImage) (k : KernelState) (magic addr : Word) :
    Option (Except SysFault (Word × Tar × KernelState)) :=
  let k := { k with gdtTable := segInit k.gdtTable }
  let k := { k with
    interrupts := idtInit k.interrupts img.idtTable img.isrTable img.irqTable }
  (sysInit k.mem magic addr ⟨k.modules, k.dispDrv, [], [], [], []⟩).bind fun res =>
    match res with
    | .error fault => some (.error fault)
    | .ok (_, st) =>
      -- The lines that `sys_init` has printed are not kept: the text begins here.
      let k := st.drivers.foldl KernelState.startDriver
        { k with modules := st.modules, dispDrv := st.dispDrv, com := [] }
      (kmainFile img k).map .ok

/-- `_start`, up to the halt. -/
def KernelState.start (img : KernelImage) (k : KernelState) (magic addr : Word) :
    Option (Except SysFault KernelState) :=
  (kmain img k magic addr).bind fun res =>
    match res with
    | .error fault => some (.error fault)
    | .ok (value, _, k) => (k.log img img.startBuffer img.returnedFmt [value]).map .ok

end UnixP6
