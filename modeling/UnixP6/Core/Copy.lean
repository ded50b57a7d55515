import UnixP6.Core.Tools

/-!
# The Unrolled Copy

`tfastcpy` of `tools/t_mem.c`: units of 32 bytes, eight of them to a turn of a
loop that is entered in its middle, and then single bytes. The pointers are
raised before each copy and start one unit below the buffers.

The variable `si` first is the number of units, then the number of turns. The
`switch` goes by the number of turns as well.

A unit is copied by assigning a `struct`. Here its bytes are copied upwards. The
order matters only where the two units overlap, and C leaves such an assignment
undefined.

## Main definitions

* `Copying`: The two pointers and memory.
* `copyUnit`, `copyUnits`: One unit, and several one after another.
* `tfastcpyTurn`: A turn of the loop over units.
* `tfastcpyTailTurn`: A turn of the loop over the bytes that are left.
* `tfastcpy`: The copy.
-/

namespace UnixP6

open CSemantics

/-- The pointers `d1` and `s1`, later `dst` and `src`, and memory. -/
structure Copying where
  d : Word
  s : Word
  mem : Mem

/-- `*++d1 = *++s1`, with units of 32 bytes. -/
def copyUnit (c : Copying) : Copying :=
  ⟨c.d + 32, c.s + 32, copyBytes c.mem (c.d + 32) (c.s + 32) 32⟩

def copyUnits : Nat → Copying → Copying
  | 0, c => c
  | k + 1, c => copyUnits k (copyUnit c)

/-- The end of a turn, `while (--si > 0)`, and the eight units of the next one. -/
def tfastcpyTurn (c : Word × Copying) : Option (Turn (Word × Copying) Copying) :=
  let si := c.1 - 1
  if 0 < si then some (.again (si, copyUnits 8 c.2)) else some (.exit c.2)

/-- One turn of the last loop: `*++dst = *++src` while `src < sa`. -/
def tfastcpyTailTurn (sa : Word) (c : Copying) : Option (Turn Copying Mem) :=
  if c.s < sa then
    some (.again ⟨c.d + 1, c.s + 1, c.mem.store8 (c.d + 1) (c.mem (c.s + 1))⟩)
  else some (.exit c.mem)

/-- `tfastcpy`. -/
def tfastcpy (m : Mem) (dst src s : Word) : Option Mem :=
  let sa := src + s
  let si := s / 32
  let si := (si + 7) / 8
  -- The cases of the `switch` stand in front of so many of the eight units.
  let entry := if si % 8 = 0 then 8 else (si % 8).toNat
  (runLoop tfastcpyTurn (turnBound + 1) (si, copyUnits entry ⟨dst - 32, src - 32, m⟩)).bind
    fun c => runLoop (tfastcpyTailTurn sa) (turnBound + 1) c

end UnixP6
