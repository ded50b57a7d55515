import UnixP6.Core.Tools

/-!
# The Linear Framebuffer

`drivers/vbe.c`. The driver is told where the framebuffer is and how large the
screen is, and from then on draws with 32-bit words, line behind line. The depth
is noted and never looked at.

The two arguments of `__vbe_fill_line` are both taken with `va_arg` in one call,
and C does not say which is taken first. So the order is a parameter.

## Main definitions

* `Vbe`: The driver's record, with memory.
* `Vbe.init`: `vbe_init`.
* `Vbe.sendcmd`: `vbe_sendcmd`.
* `Vbe.setPx`, `Vbe.getPx`: Single pixels.
-/

namespace UnixP6

open CSemantics

/-- `__vbe_info`, with memory. The address is kept twice, `_fb` being `addr`. -/
structure Vbe where
  mem : Mem
  addr : Word
  fb : Word
  h : Word
  w : Word
  bpp : Word
  palette : Word

/-- `VBE_CLEAR`, `VBE_FILL_LINE` and `VBE_GET_RES`. -/
def vbeClear : Word := 0
def vbeFillLine : Word := 2
def vbeGetRes : Word := 5

namespace Vbe

/-- `vbe_init`. -/
def init (s : Vbe) (fb w h bpp p : Word) : Vbe :=
  { s with addr := fb, fb := fb, w := w, h := h, bpp := bpp, palette := p }

/-- `__vbe_clear`. -/
def clear (s : Vbe) (color : Word) : Vbe :=
  { s with mem := tmemsetd s.mem s.addr color (s.w * s.h) }

/-- `__vbe_fill_line`. -/
def fillLine (s : Vbe) (color ln : Word) : Vbe :=
  { s with mem := tmemsetd s.mem (s.fb + 4 * (ln * s.w)) color s.w }

/-- `vbe_sendcmd`, given the arguments and whether the last argument of a call is
    the first to be taken. -/
def sendcmd (lastFirst : Bool) (s : Vbe) (cmd : Word) (args : Nat → Word) : Word × Vbe :=
  if cmd = vbeClear then (0, s.clear (args 0))
  else if cmd = vbeFillLine then
    (0, if lastFirst then s.fillLine (args 1) (args 0) else s.fillLine (args 0) (args 1))
  else if cmd = vbeGetRes then
    let m := s.mem.store32 (args 0) s.w
    (0, { s with mem := m.store32 (args 1) s.h })
  else (1, s)

/-- `vbe_set_px`. -/
def setPx (s : Vbe) (pos data : Word) : Vbe := { s with mem := s.mem.store32 (s.fb + 4 * pos) data }

/-- `vbe_get_px`. -/
def getPx (s : Vbe) (pos : Word) : Word := s.mem.load32 (s.fb + 4 * pos)

end Vbe

end UnixP6
