import UnixP6.Core.Tools

/-!
# The Text Console

`drivers/tvga.c`. The screen is 25 rows of 80 cells in memory from `0xB8000`,
a cell being a character with its attribute. The driver keeps the attribute and
the cursor, and tells the hardware where the cursor is through two ports.

A write to a port is only recorded. `tvga_scrollscreen` copies words, which
need not return, so whatever may scroll is an `Option`.

## Main definitions

* `Console`: The state of the driver, the memory and the port writes.
* `tvgaInit`: Clearing the screen at boot.
* `tvgaCommand`: The commands of the driver.
* `tvgaPutch`, `tvgaWrite`: Writing characters.
-/

namespace UnixP6

open CSemantics

/-- `VGA_WIDTH` and `VGA_HEIGHT`. -/
def vgaWidth : Nat := 80
def vgaHeight : Nat := 25

/-- `VGA_BUFFER_ADDRESS`. -/
def tvgaVbuffer : Word := 0xB8000

/-- `DEFAULT_COLOR`. -/
def defaultColor : Byte := 0x0F

/-- A write to a port by `outb`. -/
structure PortWrite where
  port : Half
  value : Byte
deriving Repr, DecidableEq

/-- The state of the driver, with memory and the port writes in order. -/
structure Console where
  mem : Mem
  tvgaCurattr : Byte
  cursorPos : Half
  ports : List PortWrite

/-- The commands of the driver. -/
def vgaCmdSetcursor : Word := 0
def vgaCmdSetcolor : Word := 1
def vgaCmdClear : Word := 2

/-- `attr_entry`. -/
def attrEntry (uc color : Byte) : Half := uc.setWidth 16 ||| color.setWidth 16 <<< 8

/-- `tvga_updatecursorio`. -/
def tvgaUpdatecursorio (c : Console) (pos : Half) : Console :=
  { c with ports := c.ports ++
      [⟨0x3D4, 0x0F⟩, ⟨0x3D5, (pos &&& 0xFF).setWidth 8⟩,
        ⟨0x3D4, 0x0E⟩, ⟨0x3D5, ((pos >>> 8) &&& 0xFF).setWidth 8⟩] }

/-- `tvga_updatecursor`. -/
def tvgaUpdatecursor (c : Console) (position : Word) : Console :=
  tvgaUpdatecursorio { c with cursorPos := position.setWidth 16 } (position.setWidth 16)

/-- `tvga_setattr`. -/
def tvgaSetattr (c : Console) (color : Byte) : Console := { c with tvgaCurattr := color }

/-- `tvga_clr`. -/
def tvgaClr (c : Console) : Console :=
  { c with
    mem := tmemsetw c.mem tvgaVbuffer (attrEntry 32 c.tvgaCurattr)
      (BitVec.ofNat 32 (vgaHeight * vgaWidth))
    cursorPos := 0 }

/-- `tvga_reset`, which is all `tvga_init` does. -/
def tvgaReset (c : Console) : Console := tvgaClr (tvgaSetattr c defaultColor)

def tvgaInit (c : Console) : Console := tvgaReset c

/-- `tvga_command`, with its one optional argument. -/
def tvgaCommand (c : Console) (cmd arg : Word) : Word × Console :=
  if cmd = vgaCmdSetcursor then
    if BitVec.ofNat 32 (vgaWidth * vgaHeight) ≤ arg then (2, c) else (0, tvgaUpdatecursor c arg)
  else if cmd = vgaCmdSetcolor then (0, tvgaSetattr c (arg.setWidth 8))
  else if cmd = vgaCmdClear then (0, tvgaClr c)
  else (1, c)

/-- `tvga_linefeed`. -/
def tvgaLinefeed (c : Console) : Console :=
  { c with cursorPos := (c.cursorPos / BitVec.ofNat 16 vgaWidth + 1) * BitVec.ofNat 16 vgaWidth }

/-- `tvga_carriagereturn`. -/
def tvgaCarriagereturn (c : Console) : Console :=
  { c with cursorPos := c.cursorPos - c.cursorPos % BitVec.ofNat 16 vgaWidth }

/-- `tvga_tab`, with four `TABSPACES`. -/
def tvgaTab (c : Console) : Console :=
  { c with cursorPos := c.cursorPos - c.cursorPos % 4 + 4 }

/-- `tvga_backspace`. -/
def tvgaBackspace (c : Console) : Console :=
  if 0 < c.cursorPos then { c with cursorPos := c.cursorPos - 1 } else c

/-- `tvga_scrollscreen`. -/
def tvgaScrollscreen (c : Console) : Option Console :=
  (tmemcpyw c.mem tvgaVbuffer (tvgaVbuffer + BitVec.ofNat 32 (2 * vgaWidth))
    (BitVec.ofNat 32 ((vgaHeight - 1) * vgaWidth))).map fun mem =>
    { c with
      mem := tmemsetw mem (tvgaVbuffer + BitVec.ofNat 32 (2 * ((vgaHeight - 1) * vgaWidth)))
        (attrEntry 32 c.tvgaCurattr) (BitVec.ofNat 32 vgaWidth)
      cursorPos := c.cursorPos - BitVec.ofNat 16 vgaWidth }

/-- The default branch of `tvga_putch`: store a cell at the cursor. -/
def tvgaStore (c : Console) (ch : Byte) : Console :=
  { c with
    mem := c.mem.store16 (tvgaVbuffer + BitVec.ofNat 32 (2 * c.cursorPos.toNat))
      (attrEntry ch c.tvgaCurattr)
    cursorPos := c.cursorPos + 1 }

/-- The switch of `tvga_putch`: newline, return, tab, backspace, or a cell. -/
def tvgaControl (c : Console) (ch : Byte) : Console :=
  -- `\n`, `\r`, `\t` and `\b`.
  if ch = 10 then tvgaLinefeed c
  else if ch = 13 then tvgaCarriagereturn c
  else if ch = 9 then tvgaTab c
  else if ch = 8 then tvgaBackspace c
  else tvgaStore c ch

/-- `tvga_putch`. -/
def tvgaPutch (c : Console) (ch : Byte) : Option Console :=
  let c := tvgaControl c ch
  -- A tab or a line feed can leave the window as a character can.
  (if vgaWidth * vgaHeight ≤ c.cursorPos.toNat then tvgaScrollscreen c else some c).map fun c =>
    tvgaUpdatecursor c (c.cursorPos.setWidth 32)

/-- The loop of `tvga_write`: so many characters from an address on, each read
    when it is its turn. -/
def tvgaWriteFrom : Nat → Word → Console → Option Console
  | 0, _, c => some c
  | k + 1, str, c => (tvgaPutch c (c.mem str)).bind (tvgaWriteFrom k (str + 1))

/-- `tvga_write`. -/
def tvgaWrite (c : Console) (str count : Word) : Option Console :=
  tvgaWriteFrom count.toNat str c

end UnixP6
