import UnixP6.Core.Boot
import UnixP6.Core.Frames

/-!
# The Frame Allocator in Memory

`frame_alloc` and `frame_free` on the globals `mm_init` sets up. The bitmaps of
the regions lie in the memory the heap lies in, and both functions read and
write them through `first_bitmap`.

`Core/Frames.lean` has the search itself, over regions that carry their bitmap
with them. Here it is as the source has it: the entries are those of
`bitmap_stack`, the walk follows `next` from one to another, and only
`search_next_startblock` is ever written to an entry.

The walk reads its first entry before it tests anything, so a null `firstblock`
has no result. The line `frame_free` logs for an address of no region is left
out.

## Main definitions

* `BitmapList.bitmapAddr`: The address of a bitmap word.
* `searchWords`, `searchIn`: The search of one bitmap.
* `Boot.frameAlloc`, `Boot.frameFree`: Allocation and release of frames.
-/

namespace UnixP6

open CSemantics

namespace BitmapList

/-- The number of bitmap words, `repeatcount` in the source. -/
def repeatcount (e : BitmapList) : Nat := e.blocksCount.toNat / 32 + 1

/-- `&(curblock->first_bitmap)[i]`. -/
def bitmapAddr (e : BitmapList) (i : Nat) : Word := e.firstBitmap + BitVec.ofNat 32 (4 * i)

/-- Make word `i` the next start of the search, if it is to be. -/
def startSearchAt (e : BitmapList) (i : Nat) (move : Bool) : BitmapList :=
  if move then { e with searchNextStartblock := BitVec.ofNat 32 i } else e

/-- The test by which `frame_free` recognises the region of an address. -/
def owns (e : BitmapList) (addr : Word) : Bool :=
  decide (e.firstBlock ≤ addr) && decide (addr ≤ e.firstBlock + e.blocksCount)

/-- `frame_free` in the region found. -/
def freeFrames (e : BitmapList) (addr : Word) (count : Nat) (m : Mem) : Mem :=
  let addrint := (addr - e.firstBlock) / 4096
  let bitn := addrint % 31
  let bitmap := e.bitmapAddr ((addrint - bitn) / 32).toNat
  if 32 - bitn.toNat < count then m
  else m.store32 bitmap (clearRun (m.load32 bitmap) ((1 : Word) <<< bitn.toNat) count)

end BitmapList

/-- The scan of the bitmap from word `i` on, with `n` words left. It yields the
    address of the frames, the entry and memory. -/
def searchWords (count alignUp : Nat) :
    Nat → Nat → Bool → BitmapList → Mem → Option Word × BitmapList × Mem
  | 0, _, _, e, m => (none, e, m)
  | n + 1, i, isnotset, e, m =>
    if m.load32 (e.bitmapAddr i) = 0xffffffff then searchWords count alignUp n (i + 1) isnotset e m
    else
      let scan := scanBits (m.load32 (e.bitmapAddr i)) count alignUp 32 0
        { bit := 1, streak := 0, firstj := 0 }
      let e := e.startSearchAt i (isnotset && scan.2)
      match scan.1 with
      | some (j, firstj) =>
        (some (e.firstBlock + calcPageaddr i firstj), e,
          m.store32 (e.bitmapAddr i) (setRun (m.load32 (e.bitmapAddr i)) ((1 : Word) <<< j) count))
      | none => searchWords count alignUp n (i + 1) (isnotset && !scan.2) e m

/-- One region of the walk in `frame_alloc`. -/
def searchIn (count alignUp : Nat) (e : BitmapList) (m : Mem) : Option Word × BitmapList × Mem :=
  searchWords count alignUp (e.repeatcount - e.searchNextStartblock.toNat)
    e.searchNextStartblock.toNat true e m

namespace Boot

/-- Write an entry of the pool back, and memory. -/
def update (boot : Boot) (i : Nat) (e : BitmapList) (m : Mem) : Boot :=
  { boot with
    heap := { boot.heap with mem := m }
    bitmapStack := boot.bitmapStack.set i e }

/-- One turn of the walk in `frame_alloc`. -/
def allocTurn (count alignUp : Nat) (s : Boot × Nat) : Option (Turn (Boot × Nat) (Word × Boot)) :=
  (s.1.bitmapStack[s.2]?).map fun e =>
    match searchIn count alignUp e s.1.heap.mem with
    | (some p, e, m) => .exit (p, s.1.update s.2 e m)
    | (none, e, m) =>
      match e.next with
      | none => .exit (0, s.1.update s.2 e m)
      | some k => .again (s.1.update s.2 e m, k)

/-- `frame_alloc`. -/
def frameAlloc (count alignUp : Word) (boot : Boot) : Option (Word × Boot) :=
  if count = 0 ∨ 32 < count then some (0, boot)
  else boot.firstblock.bind fun i =>
    runLoop (allocTurn count.toNat (if alignUp = 0 then 1 else alignUp.toNat)) turnBound (boot, i)

/-- One turn of the walk in `frame_free`. -/
def freeTurn (addr : Word) (count : Nat) (boot : Boot) (i : Nat) : Option (Turn Nat Boot) :=
  (boot.bitmapStack[i]?).map fun e =>
    if e.owns addr then
      .exit { boot with heap := { boot.heap with mem := e.freeFrames addr count boot.heap.mem } }
    else
      match e.next with
      | none => .exit boot
      | some k => .again k

/-- `frame_free`. -/
def frameFree (addr count : Word) (boot : Boot) : Option Boot :=
  if count = 0 ∨ 32 < count then some boot
  else boot.firstblock.bind fun i => runLoop (freeTurn addr count.toNat boot) turnBound i

end Boot

end UnixP6
