import UnixP6.Core.Tools

/-!
# Numbers as Text

The conversions of `tools/t_sai.c` between numbers and text. A number is written
to a buffer from its last digit on and the text is then turned round in place,
so the buffer is read and written through memory, and whatever is behind the
text stays there.

`int_to_str` and `uint_to_str` have one loop, over `int32_t` in the one and
`uint32_t` in the other. It is `digitTurn` under the operators of the type.

## Main definitions

* `strToUint`: Reading a number.
* `reverseStr`: Turning a string round in place.
* `digitTurn`, `putDigits`: Writing the digits of a number, the last one first.
* `uintToStr`, `intToStr`: Writing a number.
-/

namespace UnixP6

open CSemantics

/-- One turn of `str_to_uint`. A `char` is a signed byte. -/
def strToUintTurn (m : Mem) (s : Word × Word) : Option (Turn (Word × Word) Word) :=
  if (48 : Byte).sle (m s.1) ∧ (m s.1).sle 57 then
    some (.again (s.1 + 1, s.2 * 10 + ((m s.1).signExtend 32 - 48)))
  else some (.exit s.2)

/-- `str_to_uint`. -/
def strToUint (m : Mem) (str : Word) : Option Word :=
  runLoop (strToUintTurn m) (turnBound + 1) (str, 0)

/-- One turn of the first loop of `reverse_str`, which looks for the terminator. -/
def reverseLenTurn (m : Mem) (str len : Word) : Option (Turn Word Word) :=
  if m (str + len) ≠ 0 then some (.again (len + 1)) else some (.exit len)

/-- One turn of the second loop: the characters at `start` and `end`, which are
    of type `int`, are exchanged. -/
def reverseTurn (str : Word) (s : Word × Word × Mem) :
    Option (Turn (Word × Word × Mem) Mem) :=
  if s.1.slt s.2.1 then
    let temp := s.2.2 (str + s.1)
    let m := s.2.2.store8 (str + s.1) (s.2.2 (str + s.2.1))
    some (.again (s.1 + 1, s.2.1 - 1, m.store8 (str + s.2.1) temp))
  else some (.exit s.2.2)

/-- `reverse_str`. -/
def reverseStr (m : Mem) (str : Word) : Option Mem :=
  (runLoop (reverseLenTurn m str) (turnBound + 1) 0).bind fun len =>
    runLoop (reverseTurn str) (turnBound + 1) (0, len - 1, m)

/-- The operators of a type of 32 bits that the loop uses: `/`, `%` and `>`. -/
structure NumberOps where
  quot : Word → Word → Word
  rem : Word → Word → Word
  above : Word → Word → Bool

/-- Those of `uint32_t`. -/
def uintOps : NumberOps where
  quot i j := i / j
  rem i j := i % j
  above i j := j.ult i

/-- Those of `int32_t`, whose division truncates. -/
def intOps : NumberOps where
  quot i j := i.sdiv j
  rem i j := i.srem j
  above i j := j.slt i

/-- One turn of the loop, over `i`, `index` and the memory with the buffer: the
    last digit is stored, as a figure or as a capital letter, and dropped.
    Dividing by zero traps. -/
def digitTurn (ops : NumberOps) (base : Byte) (buf : Word) (s : Word × Word × Mem) :
    Option (Turn (Word × Word × Mem) (Word × Mem)) :=
  if base = 0 then none
  else
    let remainder := ops.rem s.1 (base.setWidth 32)
    let c := if ops.above remainder 9 then remainder - 10 + 65 else remainder + 48
    let m := s.2.2.store8 (buf + s.2.1) (c.setWidth 8)
    let i := ops.quot s.1 (base.setWidth 32)
    some (if ops.above i 0 then .again (i, s.2.1 + 1, m) else .exit (s.2.1 + 1, m))

/-- The whole loop, with the index and the memory it leaves. -/
def putDigits (ops : NumberOps) (m : Mem) (i : Word) (base : Byte) (buf : Word) :
    Option (Word × Mem) :=
  runLoop (digitTurn ops base buf) (turnBound + 1) (i, 0, m)

/-- `uint_to_str`. -/
def uintToStr (m : Mem) (i : Word) (base : Byte) (buf : Word) : Option Mem :=
  (putDigits uintOps m i base buf).bind fun s => reverseStr (s.2.store8 (buf + s.1) 0) buf

/-- `int_to_str`. -/
def intToStr (m : Mem) (i : Word) (base : Byte) (buf : Word) : Option Mem :=
  let negative := i.slt 0
  let i := if negative then i * -1 else i
  (putDigits intOps m i base buf).bind fun s =>
    -- The sign goes behind the digits, since the text is turned round.
    let s := if negative then (s.1 + 1, s.2.store8 (buf + s.1) 45) else s
    reverseStr (s.2.store8 (buf + s.1) 0) buf

end UnixP6
