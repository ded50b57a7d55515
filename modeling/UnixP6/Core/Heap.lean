import UnixP6.Core.Tools

/-!
# The Dynamic Heap

`arch/dmm.c`: a chain of block headers threaded through memory, split on
allocation and coalesced on release.

A header is four words (`next`, `task_id`, `free`, `size`) followed by `data`,
which the source declares as `uint8_t* data[0]`. It is an array of pointers,
so every pointer sum from `data` moves four bytes per unit and every
difference of two `data` addresses is divided by four. `splitBlock` keeps those
factors as the source has them.

The header fields live in byte memory, so that a header written over another
one destroys it here as it does on the machine.

## Main definitions

* `MemBlock.next` and the other fields: Reading a header.
* `MemBlock.setNext` and the others: Writing a header.
* `Heap`: Memory with the four globals of the heap.
* `mergeBlocks`: Absorbing the free blocks after a block.
* `kalignedAlloc`, `kmalloc`: First-fit allocation.
* `kfree`: Release, then coalescing over the whole chain.
* `Heap.place`: The heap as `mm_initmemblock` sets it up.
-/

namespace UnixP6

open CSemantics

namespace MemBlock

def next (m : Mem) (b : Word) : Word := m.load32 b
def free (m : Mem) (b : Word) : Word := m.load32 (b + 8)
def size (m : Mem) (b : Word) : Word := m.load32 (b + 12)

/-- `block->data`: the address just past the header. -/
def data (b : Word) : Word := b + 16

def setNext (m : Mem) (b v : Word) : Mem := m.store32 b v
def setTaskId (m : Mem) (b v : Word) : Mem := m.store32 (b + 4) v
def setFree (m : Mem) (b v : Word) : Mem := m.store32 (b + 8) v
def setSize (m : Mem) (b v : Word) : Mem := m.store32 (b + 12) v

end MemBlock

open MemBlock

/-- Memory and the globals of `dmm.c`. -/
structure Heap where
  mem : Mem
  mDynAvailable : Word
  mDynTotal : Word
  mDynBase : Word
  mDynFirstBlock : Word

/-- One turn of the loop in `merge_blocks`: absorb the next block if it is
    free. -/
def mergeBlocksTurn (block : Word) (m : Mem) : Option (Turn Mem Mem) :=
  if next m block ≠ 0 ∧ free m (next m block) ≠ 0 then
    let m := setSize m block (size m block + (size m (next m block) + 16))
    -- The two branches of the source; a null link is written either way.
    if next m (next m block) ≠ 0 then
      some (.again (setNext m block (next m (next m block))))
    else some (.again (setNext m block 0))
  else some (.exit m)

/-- `merge_blocks`. -/
def mergeBlocks (m : Mem) (start : Word) : Option Mem :=
  if free m start = 0 then some m
  else runLoop (mergeBlocksTurn start) turnBound m

/-- One turn of the search in `kaligned_alloc`. The sum wraps, as `size_t`
    sums do. -/
def findBlockTurn (m : Mem) (size alignment block : Word) : Option (Turn Word Word) :=
  if block = 0 then some (.exit 0)
  else if free m block ≠ 0 ∧ alignment + 16 + size ≤ MemBlock.size m block then
    some (.exit block)
  else some (.again (next m block))

/-- The first block the request fits in, or null. -/
def findBlock (m : Mem) (size alignment first : Word) : Option Word :=
  runLoop (findBlockTurn m size alignment) turnBound first

/-- The header `kaligned_alloc` places for the request: `block->data +
    alignment - 1` in units of a pointer, rounded down, less one header. -/
def secondHeader (block alignment : Word) : Word :=
  let addr := data block + 4 * alignment - 4
  addr - (addr % alignment + 16)

/-- The header of what is left: `second->data + size`, in units of a
    pointer. -/
def thirdHeader (second size : Word) : Word :=
  data second + 4 * size

/-- The split at the end of `kaligned_alloc`. The difference of the two `data`
    addresses is in units of a pointer, hence the shift by two. -/
def splitBlock (m : Mem) (block size alignment : Word) : Mem :=
  let second := secondHeader block alignment
  let third := thirdHeader second size
  let m := tmemset m third 0 16
  let m := setSize m third (MemBlock.size m block - (data third - data block).sshiftRight 2)
  let m := setNext m third (next m block)
  let m := setFree m third 1
  -- For an alignment of one `second` is `block`, whose fields were read above.
  let m := setSize m second size
  let m := setNext m second third
  let m := setFree m second 0
  let m := setTaskId m second 0
  -- Otherwise the gap in front stays a free block.
  if block ≠ second then
    let m := setNext m block second
    let m := setSize m block (second - data block)
    setFree m block 1
  else m

/-- `kaligned_alloc`. The test of the request against `m_dyn_available` has an
    empty body, so it decides nothing. -/
def kalignedAlloc (size alignment : Word) (h : Heap) : Option (Word × Heap) :=
  if size = 0 then some (0, h)
  else (findBlock h.mem size alignment h.mDynFirstBlock).map fun block =>
    if block = 0 then (0, h)
    else (data (secondHeader block alignment),
      { h with mem := splitBlock h.mem block size alignment })

/-- `kmalloc`. -/
def kmalloc (size : Word) (h : Heap) : Option (Word × Heap) :=
  kalignedAlloc size 1 h

/-- One turn of the search in `kfree`, over the block and its predecessor. -/
def kfreeFindTurn (m : Mem) (ptr : Word) (s : Word × Word) :
    Option (Turn (Word × Word) (Option (Word × Word))) :=
  if s.1 = 0 then some (.exit none)
  else if data s.1 = ptr then some (.exit (some s))
  else some (.again (next m s.1, s.1))

/-- One turn of the loop at the end of `kfree`: coalesce here, then follow the
    link the coalescing left. -/
def mergeAllTurn (s : Word × Mem) : Option (Turn (Word × Mem) Mem) :=
  if s.1 = 0 then some (.exit s.2)
  else (mergeBlocks s.2 s.1).map fun m => .again (next m s.1, m)

/-- `kfree`, once the block and its predecessor are known. -/
def kfreeBlock (h : Heap) (block prev : Word) : Option Heap :=
  let m := setFree h.mem block 1
  -- First from the block before, then over the whole chain.
  (mergeBlocks m (if prev ≠ 0 then prev else block)).bind fun m =>
    (runLoop mergeAllTurn turnBound (h.mDynFirstBlock, m)).map fun m => { h with mem := m }

/-- `kfree`. -/
def kfree (ptr : Word) (h : Heap) : Option Heap :=
  if ptr = 0 then some h
  else (runLoop (kfreeFindTurn h.mem ptr) turnBound (h.mDynFirstBlock, 0)).bind fun found =>
    match found with
    | none => some h
    | some (block, prev) => kfreeBlock h block prev

/-- `MEM_DYNAMIC_MIN_SIZE`. -/
def memDynamicMinSize : Word := 0x100000

/-- The heap setup in `mm_initmemblock`: one free header at the base. -/
def Heap.place (h : Heap) (base : Word) : Heap :=
  let m := setFree h.mem base 1
  let m := setSize m base (memDynamicMinSize - 16)
  { h with
    mem := setNext m base 0
    mDynBase := base
    mDynTotal := memDynamicMinSize
    mDynFirstBlock := base }

end UnixP6
