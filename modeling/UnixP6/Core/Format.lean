import UnixP6.Core.Numbers

/-!
# The Formatter

`tools/t_doprnt.c`, which is what `LOG` prints with. The format lies in memory,
and so does the local array `buffer` that numbers are converted in. The
arguments are the words that `va_arg` fetches, in order, all of the types it is
asked for being one word wide. What is passed to `_putch` is only recorded.

So is every index the format is read at. Within a turn an index may be read
more than once and is recorded the first time.

## Main definitions

* `Printing`: What the loop goes round with, and what it has printed and read.
* `doprntPutString`: Printing a string.
* `doprntConvert`: The `switch` over the character behind a `%`.
* `doprnt`: The formatter.
-/

namespace UnixP6

open CSemantics

/-- The loop of `__doprnt`: the index, the number of arguments taken, memory, the
    characters printed, and the indices of the format that were read. -/
structure Printing where
  i : Word
  argp : Nat
  mem : Mem
  out : List Byte
  reads : List Word

/-- The format is read at an index. -/
def Printing.read (s : Printing) (i : Word) : Printing := { s with reads := s.reads ++ [i] }

/-- `_putch`. -/
def Printing.putch (s : Printing) (c : Byte) : Printing := { s with out := s.out ++ [c] }

/-- `va_arg` takes an argument. -/
def Printing.vaArg (s : Printing) : Printing := { s with argp := s.argp + 1 }

/-- One turn of `__doprnt_put_string`, over the pointer and what was printed. -/
def doprntPutStringTurn (m : Mem) (s : Word × List Byte) :
    Option (Turn (Word × List Byte) (List Byte)) :=
  if m s.1 ≠ 0 then some (.again (s.1 + 1, s.2 ++ [m s.1])) else some (.exit s.2)

/-- `__doprnt_put_string`, with the characters it passes to `_putch`. -/
def doprntPutString (m : Mem) (str : Word) : Option (List Byte) :=
  runLoop (doprntPutStringTurn m) (turnBound + 1) (str, [])

def Printing.putString (s : Printing) (str : Word) : Option Printing :=
  (doprntPutString s.mem str).map fun t => { s with out := s.out ++ t }

/-- A number converted in `buffer` and printed from there. -/
def Printing.putNumber (s : Printing) (toStr : Mem → Word → Byte → Word → Option Mem)
    (i : Word) (base : Byte) (buffer : Word) : Option Printing :=
  (toStr s.mem i base buffer).bind fun mem => { s with mem := mem }.putString buffer

/-- `case 'l'`. Behind a second `l` the conversions are commented out and every
    case of the `switch` prints `buffer` as it is. -/
def doprntLong (fmt buffer : Word) (s : Printing) : Option Printing :=
  if s.mem (fmt + (s.i + 1)) = 108 then
    (((s.read (s.i + 1)).read (s.i + 2)).putString buffer).map fun s => { s with i := s.i + 1 + 1 }
  else some { s.read (s.i + 1) with i := s.i + 1 }

/-- The `switch` over `fmt[i]`, with `s`, `c`, `i` and `d`, `u`, `p` and `X` and `x`,
    and `l`. -/
def doprntConvert (fmt buffer : Word) (args : Nat → Word) (s : Printing) : Option Printing :=
  let c := s.mem (fmt + s.i)
  let arg := args s.argp
  if c = 115 then s.vaArg.putString arg
  else if c = 99 then some (s.vaArg.putch (arg.setWidth 8))
  else if c = 105 ∨ c = 100 then s.vaArg.putNumber intToStr arg 10 buffer
  else if c = 117 then s.vaArg.putNumber uintToStr arg 10 buffer
  else if c = 112 ∨ c = 88 ∨ c = 120 then s.vaArg.putNumber uintToStr arg 16 buffer
  else if c = 108 then doprntLong fmt buffer s
  else some (s.putch c)

/-- One turn of `__doprnt`. Only behind a `%` is the next character looked at. -/
def doprntTurn (fmt buffer : Word) (args : Nat → Word) (s : Printing) :
    Option (Turn Printing Printing) :=
  let c := s.mem (fmt + s.i)
  let next := s.mem (fmt + (s.i + 1))
  if c = 0 then some (.exit (s.read s.i))
  else
    (if c = 37 then
      let s := (s.read s.i).read (s.i + 1)
      if next ≠ 0 then doprntConvert fmt buffer args { s with i := s.i + 1 }
      else some (s.putch c)
    else some ((s.read s.i).putch c)).map fun s => .again { s with i := s.i + 1 }

/-- `__doprnt`. -/
def doprnt (m : Mem) (fmt : Word) (args : Nat → Word) (buffer : Word) : Option Printing :=
  runLoop (doprntTurn fmt buffer args) (turnBound + 1) ⟨0, 0, m, [], []⟩

end UnixP6
