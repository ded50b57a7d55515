import UnixP6.CSemantics.Bits
import UnixP6.CSemantics.Memory

/-!
# The Frame Allocator

`frame_alloc` and `frame_free` of `arch/pmm.c`: page frames handed out from
the bitmaps of a chain of regions, in runs of up to 32 frames that never cross
a bitmap word.

The chain is the list of the regions `next` passes, and the bitmap of a region
is a function of the word index. An empty list is a null `firstblock`, which
both functions dereference, so it has no result.

The scan of a word moves three things along: the bit number `j`, the mask
`bit`, and the streak of clear bits. They do not always move together. A turn
that skips an unaligned `j` goes on to the next `j` without moving the mask, as
`continue` does in the source.

## Main definitions

* `Region`: One entry of the chain, with its bitmap.
* `calcPageaddr`: The offset of a frame in its region.
* `scanBits`: The scan of one word.
* `scanWords`: The scan of the bitmap of one region.
* `frameAlloc`, `frameFree`: Allocation and release.
-/

namespace UnixP6

open CSemantics

/-- A `bitmap_list_t` with the bitmap it points to. -/
structure Region where
  searchNextStartblock : Word
  firstBitmap : Nat → Word
  blocksCount : Word
  firstBlock : Word

/-- The number of bitmap words, `repeatcount` in the source. -/
def Region.repeatcount (r : Region) : Nat := r.blocksCount.toNat / 32 + 1

/-- Write one bitmap word. -/
def Region.setWord (r : Region) (i : Nat) (v : Word) : Region :=
  { r with firstBitmap := fun k => if k = i then v else r.firstBitmap k }

/-- Make word `i` the next start of the search, if it is to be. -/
def Region.startSearchAt (r : Region) (i : Nat) (move : Bool) : Region :=
  if move then { r with searchNextStartblock := BitVec.ofNat 32 i } else r

/-- `calc_pageaddr`. -/
def calcPageaddr (bitmapi bit : Nat) : Word :=
  (BitVec.ofNat 32 bitmapi * 32 + BitVec.ofNat 32 bit) * 4096

/-- The locals of the bit scan that a turn carries over. -/
structure BitScan where
  bit : Word
  streak : Nat
  firstj : Nat

/-- The bit scan of one word from `j` on, with `n` turns left. It yields the bit
    the run is written from and `firstj`, if a run is found, and whether a
    clear bit was tested on the way. -/
def scanBits (word : Word) (count alignUp : Nat) : Nat → Nat → BitScan → Option (Nat × Nat) × Bool
  | 0, _, _ => (none, false)
  | n + 1, j, s =>
    -- `break`: too little is left of the word to start a run.
    if s.streak = 0 ∧ 32 - j < count then (none, false)
    else if s.streak = 0 ∧ j % alignUp ≠ 0 then
      -- `continue`: the mask stays where it is.
      scanBits word count alignUp n (j + 1) s
    else if testMask word s.bit then
      scanBits word count alignUp n (j + 1) { s with bit := s.bit <<< 1, streak := 0 }
    else
      let firstj := if s.streak = 0 then j else s.firstj
      -- The run is complete with this bit.
      if s.streak + 1 = count then (some (j - s.streak, firstj), true)
      else
        ((scanBits word count alignUp n (j + 1)
          { bit := s.bit <<< 1, streak := s.streak + 1, firstj := firstj }).1, true)

/-- The scan of the bitmap from word `i` on, with `n` words left. The first
    word in which a clear bit is tested becomes the next start of the search. -/
def scanWords (count alignUp : Nat) : Nat → Nat → Bool → Region → Option Word × Region
  | 0, _, _, r => (none, r)
  | n + 1, i, isnotset, r =>
    if r.firstBitmap i = 0xffffffff then scanWords count alignUp n (i + 1) isnotset r
    else
      -- A word that is not full is scanned with fresh locals.
      let scan := scanBits (r.firstBitmap i) count alignUp 32 0 { bit := 1, streak := 0, firstj := 0 }
      let r := r.startSearchAt i (isnotset && scan.2)
      match scan.1 with
      | some (j, firstj) =>
        (some (r.firstBlock + calcPageaddr i firstj),
          r.setWord i (setRun (r.firstBitmap i) ((1 : Word) <<< j) count))
      | none => scanWords count alignUp n (i + 1) (isnotset && !scan.2) r

/-- One region of the walk in `frame_alloc`. -/
def allocIn (count alignUp : Nat) (r : Region) : Option Word × Region :=
  scanWords count alignUp (r.repeatcount - r.searchNextStartblock.toNat)
    r.searchNextStartblock.toNat true r

/-- The walk in `frame_alloc`; running off the chain gives null. -/
def allocFrom (count alignUp : Nat) : List Region → Word × List Region
  | [] => (0, [])
  | r :: rs =>
    match allocIn count alignUp r with
    | (some p, r) => (p, r :: rs)
    | (none, r) =>
      let rest := allocFrom count alignUp rs
      (rest.1, r :: rest.2)

/-- `frame_alloc`. -/
def frameAlloc (count alignUp : Word) (rs : List Region) : Option (Word × List Region) :=
  if count = 0 ∨ 32 < count then some (0, rs)
  -- The first region is read before the chain is tested for its end.
  else if rs = [] then none
  else some (allocFrom count.toNat (if alignUp = 0 then 1 else alignUp.toNat) rs)

/-- The test by which `frame_free` recognises the region of an address. The
    bound is in blocks, the address in bytes. -/
def Region.owns (r : Region) (addr : Word) : Bool :=
  decide (r.firstBlock ≤ addr) && decide (addr ≤ r.firstBlock + r.blocksCount)

/-- `frame_free` in the region found. -/
def Region.freeFrames (r : Region) (addr : Word) (count : Nat) : Region :=
  let addrint := (addr - r.firstBlock) / 4096
  -- 31, though the bitmap has 32 bits to a word.
  let bitn := addrint % 31
  let bitmapn := ((addrint - bitn) / 32).toNat
  if 32 - bitn.toNat < count then r
  else r.setWord bitmapn (clearRun (r.firstBitmap bitmapn) ((1 : Word) <<< bitn.toNat) count)

/-- The walk in `frame_free`. -/
def freeFrom (addr : Word) (count : Nat) : List Region → List Region
  | [] => []
  | r :: rs => if r.owns addr then r.freeFrames addr count :: rs else r :: freeFrom addr count rs

/-- `frame_free`. -/
def frameFree (addr count : Word) (rs : List Region) : Option (List Region) :=
  if count = 0 ∨ 32 < count then some rs
  else if rs = [] then none
  else some (freeFrom addr count.toNat rs)

end UnixP6
