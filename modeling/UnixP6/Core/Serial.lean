import UnixP6.Core.Console

/-!
# The Serial Line

`arch/com.c`. `com_write` asks for the line status until it says that the
transmitter is empty, and then writes the character to the data port, with a
carriage return in front of it if it is a newline.

The device works on while the processor does, so `com_write` is not a function
here but a program that goes from one access of a port to the next, each given
what the one before has read. Calls follow each other, and the state holds the
characters that are left to be written.

## Main definitions

* `ComWriter`: Calls of `com_write`, and where the first is.
* `ComWriter.next`: The port that is accessed next.
* `ComWriter.resume`: How the call goes on.
-/

namespace UnixP6

open CSemantics

/-- `COM1_PORT`. -/
def com1Port : Half := 0x3F8

/-- An access to a port. -/
inductive PortAccess
  | inb (port : Half)
  | outb (w : PortWrite)
deriving Repr, DecidableEq

/-- `com_is_transmit_empty`, given what is read. -/
def comIsTransmitEmpty (status : Byte) : Word := (status &&& 0x20).setWidth 32

/-- Where `com_write` is: in its loop, at the `'\r'`, or at the character. -/
inductive ComPoint
  | waiting
  | carriageReturn
  | character
deriving Repr, DecidableEq

/-- The characters that `com_write` is called with from now on, the first call
    being in progress. -/
structure ComWriter where
  point : ComPoint
  text : List Byte
deriving Repr, DecidableEq

/-- The next access of `com_write`. -/
def ComWriter.next (w : ComWriter) : Option PortAccess :=
  match w.text with
  | [] => none
  | c :: _ =>
    match w.point with
    | .waiting => some (.inb (com1Port + 5))
    | .carriageReturn => some (.outb ⟨com1Port, 13⟩)
    | .character => some (.outb ⟨com1Port, c⟩)

/-- How `com_write` goes on from an access, given what it has read. -/
def ComWriter.resume (w : ComWriter) (status : Byte) : ComWriter :=
  match w.text with
  | [] => w
  | c :: rest =>
    match w.point with
    | .waiting =>
      if comIsTransmitEmpty status = 0 then w
      else { w with point := if c = 10 then .carriageReturn else .character }
    | .carriageReturn => { w with point := .character }
    | .character => { point := .waiting, text := rest }

end UnixP6
