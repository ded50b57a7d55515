import UnixP6.Core.Heap

/-!
# The Initial Ramdisk

`fs/tar.c`: decoding the size field of a header, and looking a file up by
name. The archive is read where the boot loader left it, and nothing bounds the
walk but a header whose name is empty: `tar_t` carries a size, which the lookup
does not read.

The record of the archive itself is allocated, and nothing looks at whether it
was.

## Main definitions

* `Tar`: A range of memory, the archive itself or a file in it.
* `tarInit`: The record of an archive.
* `tarGetSize`: Decoding a size field.
* `tarGetFile`: Looking a file up.
-/

namespace UnixP6

open CSemantics

/-- A `tar_t`. -/
structure Tar where
  ptr : Word
  size : Word
deriving Repr, DecidableEq

/-- The record at an address. -/
def Tar.load (m : Mem) (a : Word) : Tar := ⟨m.load32 a, m.load32 (a + 4)⟩

/-- `tar_init`. What `kmalloc` returns is written to in any case. -/
def tarInit (tarPtr tarSize : Word) (h : Heap) : Option (Word × Heap) :=
  (kmalloc 8 h).map fun res =>
    (res.1, { res.2 with
      mem := (res.2.mem.store32 res.1 tarPtr).store32 (res.1 + 4) tarSize })

/-- Where the size field of a `tar_header_t` is: after the name, the mode and
    the two owners. -/
def tarSizeOffset : Word := 124

/-- `tar_get_size`, with `size` and `count` as the loop leaves them. The loop
    goes from the last of eleven digits to the first, and a character is a
    signed byte. -/
def tarGetSize (m : Mem) (inp : Word) : Word :=
  (Nat.fold 11 (fun i _ (s : Word × Word) =>
    (s.1 + ((m (inp + BitVec.ofNat 32 (10 - i))).signExtend 32 - 48) * s.2, s.2 * 8)) (0, 1)).1

/-- One turn of the loop in `tar_get_file`: the header at the offset. -/
def tarGetFileTurn (m : Mem) (tar : Tar) (name offset : Word) : Option (Turn Word Tar) :=
  let th := tar.ptr + offset
  if m th = 0 then some (.exit ⟨0, 0⟩)
  else
    let size := tarGetSize m (th + tarSizeOffset)
    if strncmp m th name 100 = 0 then some (.exit ⟨tar.ptr + offset + 512, size⟩)
    else
      -- The header and the whole blocks, then one more for a part of a block.
      let offset := offset + (size / 512 + 1) * 512
      some (.again (if size % 512 ≠ 0 then offset + 512 else offset))

/-- `tar_get_file`. -/
def tarGetFile (m : Mem) (tar : Tar) (name : Word) : Option Tar :=
  runLoop (tarGetFileTurn m tar name) (turnBound + 1) 512

end UnixP6
