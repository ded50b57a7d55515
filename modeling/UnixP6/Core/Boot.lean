import UnixP6.Core.Heap

/-!
# Boot-time Memory Setup

`mm_init` of `arch/pmm.c` and what it calls. The memory map of the boot loader
is walked once. Every entry of the available type is cut down to what may be
used, the dynamic heap is placed in the first that is large enough, and what is
left becomes a region of page frames with its bitmap after them.

The memory map is a list of entries, of which only `addr`, `len` and `type` are
ever read. The pool `bitmap_stack` is the list of the entries handed out so
far, and a pointer into it is an index or null. Writing through the null
pointer of an exhausted pool has no result here; it is a `BootFault`.

The pool, `firstblock` and the heap's globals lie in the kernel image. They are
kept apart from memory here, so a clear that goes over the image shows in the
bytes of the image and not in them.

`mmInit` also collects what `mm_initmemblock` returned for each available
entry, the `ret` of the line the source logs.

## Main definitions

* `Kernel`: Where the kernel image lies.
* `MemblockEntry`: An entry of the memory map.
* `calcBlocksAndBitmaps`: Dividing a range into frames and bitmap words.
* `cutLow`, `cutKernel`, `cutHeap`, `cutPage`: The cuts an entry goes through.
* `Boot`: The globals that `mm_init` sets up.
* `mmInitmemblock`, `mmInit`: One entry, and the whole map.
-/

namespace UnixP6

open CSemantics

/-- The linker symbols around the kernel image. -/
structure Kernel where
  kernelStart : Word
  kernelEnd : Word

/-- `MEM_BLOCK_AVAILABLE` and `MEM_BLOCK_RESERVED`. -/
def memBlockAvailable : Word := 1
def memBlockReserved : Word := 2

/-- What is read of a `memblock_entry_t`. -/
structure MemblockEntry where
  addr : Word
  len : Word
  type : Word
deriving Repr, DecidableEq

namespace MemblockEntry

/-- `block_setstart`. The difference is signed, and both branches subtract its
    magnitude. -/
def setStart (block : MemblockEntry) (new : Word) : MemblockEntry :=
  let old := new - block.addr
  { block with
    addr := new
    len := if (0 : Word).slt old then block.len - old else block.len - -old }

/-- `block_addstart`. -/
def addStart (block : MemblockEntry) (inc : Word) : MemblockEntry :=
  block.setStart (block.addr + inc)

/-- `block_setend`. -/
def setEnd (block : MemblockEntry) (new : Word) : MemblockEntry :=
  { block with len := new - block.addr }

/-- `block_getend`. -/
def getEnd (block : MemblockEntry) : Word := block.addr + block.len

/-- `is_block_under1mb`. -/
def isUnder1mb (block : MemblockEntry) : Bool := decide (block.getEnd < 0x100000)

/-- `is_partofblock_under1mb`. -/
def isPartUnder1mb (block : MemblockEntry) : Bool :=
  decide (0x100000 ≤ block.getEnd) && decide (block.addr < 0x100000)

end MemblockEntry

/-- `align_up`. -/
def alignUp (address align : Word) : Word :=
  if align ≤ 0 then address
  else if address % align = 0 then address
  else address + align - address % align

/-- `calcsize`. -/
def calcsize (blocks bitmaps : Word) : Word := blocks * 4096 + bitmaps * 4

/-- One turn of the loop in `calc_blocks_and_bitmaps`. -/
def calcTurn (size : Word) (s : Word × Word) : Option (Turn (Word × Word) (Word × Word)) :=
  if calcsize s.1 s.2 ≤ size then some (.exit s)
  else some (.again (s.1 - 1, (s.1 - 1) / 32 + 1))

/-- `calc_blocks_and_bitmaps`. -/
def calcBlocksAndBitmaps (size : Word) : Option (Word × Word) :=
  runLoop (calcTurn size) (turnBound + 1) (size / 4096, size / 4096 / 32 + 1)

/-- The first cut in `mm_initmemblock`: nothing below one megabyte. -/
def cutLow (block : MemblockEntry) : MemblockEntry :=
  if block.isPartUnder1mb then block.setStart 0x100000 else block

/-- The second cut: the conflict between the kernel image and the block. -/
def cutKernel (k : Kernel) (block : MemblockEntry) : MemblockEntry :=
  let b := block.addr < k.kernelStart
  let t := k.kernelEnd < block.getEnd
  -- The test as it is written: whatever ends above the image is moved behind it.
  if (b ∧ t) ∨ t then block.setStart k.kernelEnd
  else if b then block.setEnd k.kernelStart
  else block

/-- Whether the block takes the dynamic heap: it is large enough, and there is
    no heap yet. -/
def takesHeap (firstHeapBlock : Word) (block : MemblockEntry) : Bool :=
  decide (memDynamicMinSize ≤ block.len) && decide (firstHeapBlock = 0)

/-- The third cut: room for the dynamic heap at the start of the block. -/
def cutHeap (firstHeapBlock : Word) (block : MemblockEntry) : MemblockEntry :=
  if takesHeap firstHeapBlock block then block.addStart memDynamicMinSize else block

/-- Nothing is left of the block once its start is on a page. -/
def isUsedUp (block : MemblockEntry) : Bool :=
  decide (block.addr + block.len ≤ alignUp block.addr 4096)

/-- The last cut: the start moves up to a page. -/
def cutPage (block : MemblockEntry) : MemblockEntry :=
  block.setStart (alignUp block.addr 4096)

/-- A `bitmap_list_t`. -/
structure BitmapList where
  next : Option Nat
  searchNextStartblock : Word
  firstBitmap : Word
  blocksCount : Word
  firstBlock : Word
deriving Repr, DecidableEq

/-- The globals `mm_init` sets up: memory with the dynamic heap, the entries
    taken from the pool, and the head of the chain. -/
structure Boot where
  heap : Heap
  bitmapStack : List BitmapList
  firstblock : Option Nat

/-- What `mm_init` can do other than return: write through the null pointer of
    an exhausted pool, or not return from `calc_blocks_and_bitmaps`. -/
inductive BootFault
  | nullDereference
  | endless
deriving Repr, DecidableEq

/-- `BITMAP_STACK_SIZE`. -/
def bitmapStackSize : Nat := 32

/-- The entry `mm_initmemblock` fills in for a block with so many frames. -/
def bitmapEntry (block : MemblockEntry) (blocks : Word) : BitmapList :=
  { next := none
    searchNextStartblock := 0
    firstBitmap := block.addr + blocks * 4096
    blocksCount := blocks
    firstBlock := block.addr }

namespace Boot

/-- Place the dynamic heap at the start of the block, if the block takes it. -/
def placeHeap (boot : Boot) (block : MemblockEntry) : Boot :=
  if takesHeap boot.heap.mDynFirstBlock block then
    { boot with heap := boot.heap.place block.addr }
  else boot

/-- Clear the block with zero, the kernel image included where the block reaches
    into it. -/
def clearBlock (boot : Boot) (block : MemblockEntry) : Boot :=
  { boot with heap := { boot.heap with mem := tmemset boot.heap.mem block.addr 0 block.len } }

/-- Fill in the next entry of the pool, which becomes the head of the chain if
    there is none. -/
def addEntry (boot : Boot) (entry : BitmapList) : Boot :=
  { boot with
    bitmapStack := boot.bitmapStack ++ [entry]
    firstblock := if boot.firstblock = none then some boot.bitmapStack.length else boot.firstblock }

end Boot

/-- The end of `mm_initmemblock`: clear the block, divide it, and fill in an
    entry of the pool. -/
def registerBlock (block : MemblockEntry) (boot : Boot) : Except BootFault (Nat × Boot) :=
  match calcBlocksAndBitmaps block.len with
  | none => .error .endless
  | some (blocks, _) =>
    -- The pool is asked last, and its null is written through.
    if boot.bitmapStack.length < bitmapStackSize then
      .ok (boot.bitmapStack.length, (boot.clearBlock block).addEntry (bitmapEntry block blocks))
    else .error .nullDereference

/-- `mm_initmemblock`. It yields the block as it leaves it in the map, the entry
    it returns, and the globals. -/
def mmInitmemblock (k : Kernel) (block : MemblockEntry) (boot : Boot) :
    Except BootFault (MemblockEntry × Option Nat × Boot) :=
  if block.isUnder1mb then .ok ({ block with type := memBlockReserved }, none, boot)
  else
    let block := cutKernel k (cutLow block)
    -- The heap is taken before it is known whether anything is left.
    let rest := cutHeap boot.heap.mDynFirstBlock block
    let boot := boot.placeHeap block
    if isUsedUp rest then .ok ({ rest with type := memBlockReserved }, none, boot)
    else (registerBlock (cutPage rest) boot).map fun res => (cutPage rest, some res.1, res.2)

/-- `oldblock->next = newblock`, if there is an `oldblock`. -/
def Boot.link (boot : Boot) (oldblock newblock : Option Nat) : Boot :=
  match oldblock with
  | none => boot
  | some i =>
      { boot with bitmapStack := boot.bitmapStack.modify i fun e => { e with next := newblock } }

/-- The walk of `mm_init` over the map, with `newblock` as it stands. It yields
    the map as the walk leaves it, the entry returned for each available one,
    and the globals. -/
def mmInitFrom (k : Kernel) : List MemblockEntry → Option Nat → Boot →
    Except BootFault (List MemblockEntry × List (Option Nat) × Boot)
  | [], _, boot => .ok ([], [], boot)
  | me :: map, newblock, boot =>
    if me.type = memBlockAvailable then do
      -- `newblock` is whatever this returns, null included.
      let (me, ret, boot) ← mmInitmemblock k me boot
      let (map, rets, boot) ← mmInitFrom k map ret (boot.link newblock ret)
      .ok (me :: map, ret :: rets, boot)
    else do
      let (map, rets, boot) ← mmInitFrom k map newblock boot
      .ok (me :: map, rets, boot)

/-- `mm_init`. -/
def mmInit (k : Kernel) (map : List MemblockEntry) (boot : Boot) :
    Except BootFault (List MemblockEntry × List (Option Nat) × Boot) :=
  mmInitFrom k map none boot

/-- The globals before `mm_init`: no heap, an untouched pool, no chain. -/
def Boot.initial (m : Mem) : Boot :=
  { heap := { mem := m, mDynAvailable := 0, mDynTotal := 0, mDynBase := 0, mDynFirstBlock := 0 }
    bitmapStack := []
    firstblock := none }

end UnixP6
