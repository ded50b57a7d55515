import UnixP6.Theory.Boot.Partition

/-!
# A Region inside its Entry

Whether `mm_initmemblock` keeps a region and its bitmap inside the entry it was
made from, for any entry that starts no later than the kernel ends. The cuts
are read off as numbers first: where the entry starts after them, how long it
is, and how much of it the heap takes.

An entry that ends by the end of the kernel is not cut for it, and what is left
of it lies in the kernel. An entry that ends above it is moved to the end of the
kernel, and its length is what it was less the distance it was moved. That
distance is measured the shorter way around the address space and has no
direction: a move by more than half of it leaves the entry too long, and a move
down, to a kernel that ends in low memory, too short. A region of fewer than
four bytes gets a number of frames that has wrapped.

## Main definitions

* `distance`: How far an address is from another around the address space.
* `leftStart`, `leftLen`: Where an entry starts after the cuts, and its length.
* `heapShare`: What the heap takes of it.
* `NothingLeft`: The entry is rejected.
* `RegionFits`: The region stays inside the entry.
* `InsideEntry`: What one call should do.

## Theorems

* `setStart_len`: Moving the start takes the distance off the length.
* `cutFixed_left`, `cutHeap_left`: The cuts as numbers.
* `usableBlock_iff`: An entry is rejected exactly when nothing is left of it.
* `insideEntry_of_fits`, `fits_of_insideEntry`: The two directions.
* `insideEntry_iff`: When one call does what it should.
* `not_insideEntry`: An entry that ends in the kernel hands the kernel out.
-/

namespace UnixP6

open CSemantics

/-! ### The cuts as numbers -/

/-- The distance between two addresses, the shorter way around the address
    space. -/
def distance (a b : Nat) : Nat := min ((b + 2 ^ 32 - a) % 2 ^ 32) ((a + 2 ^ 32 - b) % 2 ^ 32)

namespace MemblockEntry

/-- Where the entry ends. -/
def stop (e : MemblockEntry) : Nat := e.addr.toNat + e.len.toNat

/-- Where the entry starts outside low memory. -/
def lowest (e : MemblockEntry) : Nat := max e.addr.toNat 0x100000

end MemblockEntry

/-- Where the entry starts after the cuts for low memory and for the kernel. -/
def leftStart (k : Kernel) (e : MemblockEntry) : Nat :=
  if k.kernelEnd.toNat < e.stop then k.kernelEnd.toNat else e.lowest

/-- How long it is then. -/
def leftLen (k : Kernel) (e : MemblockEntry) : Nat :=
  if k.kernelEnd.toNat < e.stop then
    (e.stop - e.lowest + (2 ^ 32 - distance e.lowest k.kernelEnd.toNat)) % 2 ^ 32
  else e.stop - e.lowest

/-- What the heap takes of it. -/
def heapShare (k : Kernel) (first : Word) (e : MemblockEntry) : Nat :=
  if first = 0 ∧ 0x100000 ≤ leftLen k e then 0x100000 else 0

/-- A difference of less than half the address space counts as positive. -/
theorem zero_slt_iff_half (w : Word) :
    (0 : Word).slt w = true ↔ 0 < w.toNat ∧ w.toNat < 2147483648 := by
  rw [zero_slt_iff, BitVec.toInt_eq_toNat_cond]
  have hlt := w.isLt
  omega

/-- The heap takes a megabyte or nothing. -/
theorem heapShare_cases (k : Kernel) (first : Word) (e : MemblockEntry) :
    heapShare k first e = 0 ∨ (heapShare k first e = 0x100000 ∧ 0x100000 ≤ leftLen k e) := by
  unfold heapShare
  by_cases htakes : first = 0 ∧ 0x100000 ≤ leftLen k e
  · rw [if_pos htakes]
    exact Or.inr ⟨rfl, htakes.2⟩
  · rw [if_neg htakes]
    exact Or.inl rfl

/-- The entry is rejected: it ends in low memory, or what the heap leaves of it
    holds no page boundary, is empty, or reaches the top of the address space. -/
def NothingLeft (k : Kernel) (first : Word) (e : MemblockEntry) : Prop :=
  e.stop < 0x100000 ∨
    (e.stop ≤ k.kernelEnd.toNat ∧
      e.stop ≤ (e.lowest + heapShare k first e + 4095) / 4096 * 4096) ∨
    (k.kernelEnd.toNat < e.stop ∧ (leftLen k e = heapShare k first e ∨
      (k.kernelEnd.toNat + heapShare k first e < 2 ^ 32 ∧
        2 ^ 32 ≤ k.kernelEnd.toNat + leftLen k e)))

/-- Moving the start takes the distance off the length, in either direction. -/
theorem setStart_len (b : MemblockEntry) (new : Word) : (b.setStart new).len.toNat
    = (b.len.toNat + (2 ^ 32 - distance b.addr.toNat new.toNat)) % 2 ^ 32 := by
  have haddr := b.addr.isLt
  have hnew := new.isLt
  have hold : (new - b.addr).toNat = (new.toNat + 2 ^ 32 - b.addr.toNat) % 2 ^ 32 := by bv_omega
  have hback : (-(new - b.addr)).toNat = (b.addr.toNat + 2 ^ 32 - new.toNat) % 2 ^ 32 := by bv_omega
  -- The magnitude of the difference is the shorter of the two ways around.
  have hmin : distance b.addr.toNat new.toNat
      = if (0 : Word).slt (new - b.addr) then (new - b.addr).toNat
        else (-(new - b.addr)).toNat := by
    unfold distance
    rw [← hold, ← hback]
    by_cases hpos : (0 : Word).slt (new - b.addr) = true
    · rw [if_pos hpos]
      rw [zero_slt_iff_half] at hpos
      omega
    · rw [if_neg hpos]
      rw [zero_slt_iff_half] at hpos
      omega
  rw [hmin]
  simp only [MemblockEntry.setStart]
  by_cases hpos : (0 : Word).slt (new - b.addr) = true
  · rw [if_pos hpos, if_pos hpos, BitVec.toNat_sub, Nat.add_comm]
  · rw [if_neg hpos, if_neg hpos, BitVec.toNat_sub, Nat.add_comm]

section Entry

variable (k : Kernel) (first : Word) (e : MemblockEntry) (hstart : k.kernelStart = 0x100000)
  (h : e.addr.toNat + e.len.toNat < 2 ^ 32) (hlow : 0x100000 ≤ e.stop)

include hstart h hlow

/-- The entry after the cuts for low memory and for the kernel. -/
theorem cutFixed_left : (cutFixed k e).addr.toNat = leftStart k e ∧
    (cutFixed k e).len.toNat = leftLen k e := by
  rcases cutLow_spec e h hlow with ⟨haddr, hkeep⟩
  have hlen : (cutLow e).len.toNat = e.stop - e.lowest := by
    unfold MemblockEntry.stop MemblockEntry.lowest
    omega
  rw [cutFixed_eq k e hstart h hlow, show e.addr.toNat + e.len.toNat = e.stop from rfl]
  unfold leftStart leftLen
  by_cases habove : k.kernelEnd.toNat < e.stop
  · rw [if_pos habove, if_pos habove, if_pos habove, setStart_len, hlen, haddr]
    exact ⟨rfl, rfl⟩
  · rw [if_neg habove, if_neg habove, if_neg habove]
    exact ⟨haddr, hlen⟩

/-- It takes the heap if there is none and it is long enough. -/
theorem takesHeap_iff :
    takesHeap first (cutFixed k e) = true ↔ first = 0 ∧ 0x100000 ≤ leftLen k e := by
  unfold takesHeap
  rw [Bool.and_eq_true, decide_eq_true_eq, decide_eq_true_eq, BitVec.le_def,
    (cutFixed_left k e hstart h hlow).2, memDynamicMinSize_eq]
  exact and_comm

/-- The entry after the cut for the heap. -/
theorem cutHeap_left : (cutHeap first (cutFixed k e)).addr.toNat
      = (leftStart k e + heapShare k first e) % 2 ^ 32 ∧
    (cutHeap first (cutFixed k e)).len.toNat = leftLen k e - heapShare k first e := by
  rcases cutFixed_left k e hstart h hlow with ⟨haddr, hlen⟩
  have hiff := takesHeap_iff k first e hstart h hlow
  unfold heapShare
  cases htakes : takesHeap first (cutFixed k e) with
  | true =>
      rcases cutHeap_takes first _ htakes with ⟨haddr', hlen', _⟩
      rw [if_pos (hiff.mp htakes), haddr', hlen', BitVec.toNat_add, haddr, hlen, memDynamicMinSize_eq]
      exact ⟨rfl, rfl⟩
  | false =>
      rw [if_neg (fun hc => absurd (hiff.mpr hc) (Bool.eq_false_iff.mp htakes)),
        cutHeap_leaves first _ htakes, Nat.add_zero, Nat.sub_zero, ← haddr, ← hlen]
      exact ⟨(Nat.mod_eq_of_lt (cutFixed k e).addr.isLt).symm, rfl⟩

variable (haligned : k.kernelEnd.toNat % 4096 = 0)

include haligned

/-- An entry that ends above the kernel stays on a page. -/
theorem cutHeap_page (habove : k.kernelEnd.toNat < e.stop) :
    (cutHeap first (cutFixed k e)).addr.toNat % 4096 = 0 := by
  have hshare := heapShare_cases k first e
  rw [(cutHeap_left k first e hstart h hlow).1, leftStart, if_pos habove]
  omega

/-- An entry that ends by the end of the kernel is used up if no page boundary
    is left in it. -/
theorem isUsedUp_below (hbelow : e.stop ≤ k.kernelEnd.toNat) :
    isUsedUp (cutHeap first (cutFixed k e)) = true ↔
      e.stop ≤ (e.lowest + heapShare k first e + 4095) / 4096 * 4096 := by
  rcases cutHeap_left k first e hstart h hlow with ⟨haddr, hlen⟩
  have hshare := heapShare_cases k first e
  have hlast := k.kernelEnd.isLt
  rw [leftStart, if_neg (Nat.not_lt.mpr hbelow)] at haddr
  rw [leftLen, if_neg (Nat.not_lt.mpr hbelow)] at hlen hshare
  have hle : e.lowest ≤ e.stop := by
    unfold MemblockEntry.lowest
    exact Nat.max_le.mpr ⟨Nat.le_add_right _ _, hlow⟩
  have haddr' : (cutHeap first (cutFixed k e)).addr.toNat = e.lowest + heapShare k first e := by
    rw [haddr]
    exact Nat.mod_eq_of_lt (by omega)
  unfold isUsedUp
  rw [decide_eq_true_eq, BitVec.le_def, toNat_alignUp _ (by omega), BitVec.toNat_add, haddr', hlen,
    Nat.mod_eq_of_lt (by omega)]
  omega

/-- An entry that ends above the kernel is used up if it is empty or wraps. -/
theorem isUsedUp_above (habove : k.kernelEnd.toNat < e.stop) :
    isUsedUp (cutHeap first (cutFixed k e)) = true ↔ leftLen k e = heapShare k first e ∨
      (k.kernelEnd.toNat + heapShare k first e < 2 ^ 32 ∧
        2 ^ 32 ≤ k.kernelEnd.toNat + leftLen k e) := by
  rcases cutHeap_left k first e hstart h hlow with ⟨haddr, hlen⟩
  have hshare := heapShare_cases k first e
  have hlast := k.kernelEnd.isLt
  have hused := isUsedUp_iff _ (cutHeap_page k first e hstart h hlow haligned habove)
  have hleft := (cutFixed k e).len.isLt
  rw [(cutFixed_left k e hstart h hlow).2] at hleft
  rw [leftStart, if_pos habove] at haddr
  rw [haddr, hlen] at hused
  rw [← Bool.not_eq_false, hused]
  omega

end Entry

/-- An entry is rejected exactly when nothing is left of it. -/
theorem usableBlock_iff (k : Kernel) (first : Word) (e : MemblockEntry)
    (hstart : k.kernelStart = 0x100000) (h : e.addr.toNat + e.len.toNat < 2 ^ 32)
    (haligned : k.kernelEnd.toNat % 4096 = 0) :
    usableBlock k first e = false ↔ NothingLeft k first e := by
  have hunder := isUnder1mb_iff e h
  unfold usableBlock NothingLeft
  rw [Bool.and_eq_false_iff, Bool.not_eq_false', Bool.not_eq_false', hunder,
    show e.addr.toNat + e.len.toNat = e.stop from rfl]
  by_cases hlow : e.stop < 0x100000
  · exact ⟨fun _ => Or.inl hlow, fun _ => Or.inl hlow⟩
  · refine or_congr_right ?_
    by_cases habove : k.kernelEnd.toNat < e.stop
    · rw [isUsedUp_above k first e hstart h (Nat.le_of_not_lt hlow) haligned habove]
      omega
    · rw [isUsedUp_below k first e hstart h (Nat.le_of_not_lt hlow) haligned
        (Nat.le_of_not_lt habove)]
      omega

/-! ### The region -/

/-- The range of a region with its bitmap, as numbers. -/
def BitmapList.room (r : BitmapList) : Set Nat :=
  CSemantics.span r.firstBlock.toNat (4096 * r.blocksCount.toNat + 4 * (r.blocksCount.toNat / 32 + 1))

/-- A region on a page boundary, inside the entry, outside low memory and apart
    from the kernel. -/
structure BitmapList.Inside (r : BitmapList) (k : Kernel) (e : MemblockEntry) : Prop where
  page : r.firstBlock.toNat % 4096 = 0
  inside : r.room ⊆ e.span
  high : r.room ⊆ Set.Ici 0x100000
  kernel : Disjoint r.room (Set.Ico k.kernelStart.toNat k.kernelEnd.toNat)

/-- One call rejects the entry, or returns a region inside it that is apart from
    a heap placed by the same call. -/
def InsideEntry (k : Kernel) (e : MemblockEntry) (boot : Boot) : Prop :=
  (∃ e' boot', mmInitmemblock k e boot = .ok (e', none, boot') ∧ e'.type = memBlockReserved) ∨
    ∃ e' i boot' r, mmInitmemblock k e boot = .ok (e', some i, boot') ∧
      boot'.bitmapStack[i]? = some r ∧ r.Inside k e ∧
      (takesHeap boot.heap.mDynFirstBlock (cutFixed k e) = true → Disjoint r.room boot'.heapRange)

/-- The entry goes on past the kernel, and behind the heap there is room for a
    region that ends by the end of the entry, however many frames the length
    it is left with allows. -/
def RegionFits (k : Kernel) (first : Word) (e : MemblockEntry) : Prop :=
  k.kernelEnd.toNat < e.stop ∧ 0x100000 ≤ k.kernelEnd.toNat + heapShare k first e ∧
    heapShare k first e + 4 ≤ leftLen k e ∧
    ∀ n, 4096 * n + 4 * (n / 32 + 1) ≤ leftLen k e - heapShare k first e →
      k.kernelEnd.toNat + heapShare k first e + (4096 * n + 4 * (n / 32 + 1)) ≤ e.stop

/-- What being inside says of the numbers of a region. -/
theorem BitmapList.Inside.bounds (r : BitmapList) (k : Kernel) (e : MemblockEntry)
    (h : r.Inside k e) (hstart : k.kernelStart = 0x100000) :
    0x100000 ≤ r.firstBlock.toNat ∧ k.kernelEnd.toNat ≤ r.firstBlock.toNat ∧
      r.firstBlock.toNat + (4096 * r.blocksCount.toNat + 4 * (r.blocksCount.toNat / 32 + 1))
        ≤ e.stop := by
  have hlt : r.firstBlock.toNat
      < r.firstBlock.toNat + (4096 * r.blocksCount.toNat + 4 * (r.blocksCount.toNat / 32 + 1)) :=
    Nat.lt_add_of_pos_right (by omega)
  have hfirst : r.firstBlock.toNat ∈ r.room := ⟨Nat.le_refl _, hlt⟩
  have hhigh : 0x100000 ≤ r.firstBlock.toNat := h.high hfirst
  refine ⟨hhigh, ?_, ((Set.Ico_subset_Ico_iff hlt).mp h.inside).2⟩
  -- It is not in the kernel, which starts where low memory ends.
  by_contra hc
  refine Set.disjoint_left.mp h.kernel hfirst ⟨?_, Nat.lt_of_not_le hc⟩
  rw [hstart]
  exact hhigh

/-- Such numbers put a region inside an entry that starts by the end of the
    kernel. -/
theorem BitmapList.inside_of_bounds (r : BitmapList) (k : Kernel) (e : MemblockEntry)
    (hle : e.addr.toNat ≤ k.kernelEnd.toNat) (hpage : r.firstBlock.toNat % 4096 = 0)
    (hhigh : 0x100000 ≤ r.firstBlock.toNat) (habove : k.kernelEnd.toNat ≤ r.firstBlock.toNat)
    (hend : r.firstBlock.toNat + (4096 * r.blocksCount.toNat + 4 * (r.blocksCount.toNat / 32 + 1))
      ≤ e.stop) : r.Inside k e := by
  refine ⟨hpage, span_subset _ _ _ _ (hle.trans habove) hend, fun x hx => hhigh.trans hx.1, ?_⟩
  exact Set.disjoint_left.mpr fun x hx hx' =>
    absurd (habove.trans hx.1) (Nat.not_le.mpr hx'.2)

theorem registered_entry (boot : Boot) (k : Kernel) (e : MemblockEntry) (blocks : Word) :
    (boot.registered k e blocks).bitmapStack[boot.bitmapStack.length]?
      = some (bitmapEntry (regionBlock k boot.heap.mDynFirstBlock e) blocks) := by
  simp only [Boot.registered, Boot.addEntry, Boot.clearBlock, (seen_stack k e boot).1,
    List.getElem?_concat_length]

/-- The heap a call has placed starts with the block it was given. -/
theorem registered_heapRange (boot : Boot) (k : Kernel) (e : MemblockEntry) (blocks : Word)
    (hlow : e.isUnder1mb = false)
    (htakes : takesHeap boot.heap.mDynFirstBlock (cutFixed k e) = true) :
    (boot.registered k e blocks).heapRange
      = CSemantics.span (cutFixed k e).addr.toNat 0x100000 := by
  simp only [Boot.heapRange, Boot.registered, Boot.addEntry, Boot.clearBlock, Boot.seen, hlow,
    Bool.false_eq_true, if_false, Boot.placeHeap, htakes, if_true]
  rfl

/-- A move of the start up by at most half the address space leaves what the
    entry has behind the kernel. -/
theorem leftLen_near (k : Kernel) (e : MemblockEntry) (habove : k.kernelEnd.toNat < e.stop)
    (hup : e.lowest ≤ k.kernelEnd.toNat) (hnear : k.kernelEnd.toNat - e.lowest ≤ 2147483648) :
    leftLen k e = e.stop - k.kernelEnd.toNat := by
  have hlast := k.kernelEnd.isLt
  have haddr := e.addr.isLt
  have hlen := e.len.isLt
  have hdistance : distance e.lowest k.kernelEnd.toNat = k.kernelEnd.toNat - e.lowest := by
    unfold distance
    omega
  have hstop : e.stop - e.lowest < 2 ^ 32 := by
    have hle : e.addr.toNat ≤ e.lowest := Nat.le_max_left _ _
    unfold MemblockEntry.stop
    omega
  rw [leftLen, if_pos habove, hdistance]
  omega

/-- Such an entry with four bytes behind the heap yields a region that fits. -/
theorem regionFits_near (k : Kernel) (first : Word) (e : MemblockEntry)
    (habove : k.kernelEnd.toNat < e.stop) (hup : e.lowest ≤ k.kernelEnd.toNat)
    (hnear : k.kernelEnd.toNat - e.lowest ≤ 2147483648)
    (hroom : heapShare k first e + 4 ≤ e.stop - k.kernelEnd.toNat) : RegionFits k first e := by
  have hlen := leftLen_near k e habove hup hnear
  have hlow : 0x100000 ≤ e.lowest := Nat.le_max_right _ _
  refine ⟨habove, by omega, by omega, fun n hn => ?_⟩
  rw [hlen] at hn
  omega

/-- A move up by more than half the address space leaves the entry too long, but
    not by more than it was moved. -/
theorem leftLen_far (k : Kernel) (e : MemblockEntry) (habove : k.kernelEnd.toNat < e.stop)
    (hstop : e.stop < 4294967296) (hfar : 2147483648 < k.kernelEnd.toNat - e.lowest) :
    leftLen k e + 4294967296 = e.stop + k.kernelEnd.toNat - 2 * e.lowest := by
  have hlast := k.kernelEnd.isLt
  have hdistance : distance e.lowest k.kernelEnd.toNat
      = 4294967296 - (k.kernelEnd.toNat - e.lowest) := by
    unfold distance
    omega
  rw [leftLen, if_pos habove, hdistance]
  omega

section Call

variable (k : Kernel) (e : MemblockEntry) (boot : Boot) (hstart : k.kernelStart = 0x100000)
  (haligned : k.kernelEnd.toNat % 4096 = 0) (hle : e.addr.toNat ≤ k.kernelEnd.toNat)
  (h : e.addr.toNat + e.len.toNat < 2 ^ 32)

include hle h in
/-- The length behind the heap stays short of the top of the address space. -/
theorem leftLen_le_top (first : Word) (habove : k.kernelEnd.toNat < e.stop)
    (hhigh : 0x100000 ≤ k.kernelEnd.toNat + heapShare k first e) :
    leftLen k e - heapShare k first e ≤ 2 ^ 32 - 2 ^ 20 := by
  have hlast := k.kernelEnd.isLt
  have hstop : e.stop < 2 ^ 32 := h
  have hlen : leftLen k e < 2 ^ 32 := by
    rw [leftLen, if_pos habove]
    exact Nat.mod_lt _ (by decide)
  rcases heapShare_cases k first e with hshare | ⟨hshare, _⟩
  · -- Without a heap the entry is moved up, from one megabyte or more.
    have hup : e.lowest ≤ k.kernelEnd.toNat := by
      rw [hshare] at hhigh
      exact Nat.max_le.mpr ⟨hle, hhigh⟩
    have hlow : 0x100000 ≤ e.lowest := Nat.le_max_right _ _
    by_cases hnear : k.kernelEnd.toNat - e.lowest ≤ 2147483648
    · have hnear' := leftLen_near k e habove hup hnear
      omega
    · have hfar := leftLen_far k e habove hstop (Nat.lt_of_not_le hnear)
      omega
  · omega

include hstart haligned h in
/-- An entry that is not rejected ends outside low memory. -/
theorem high_of_usable (first : Word) (husable : usableBlock k first e = true) :
    0x100000 ≤ e.stop ∧ e.isUnder1mb = false := by
  have hlow : 0x100000 ≤ e.stop := by
    by_contra hc
    rw [(usableBlock_iff k first e hstart h haligned).mpr (Or.inl (Nat.lt_of_not_le hc))] at husable
    exact Bool.false_ne_true husable
  refine ⟨hlow, ?_⟩
  rw [Bool.eq_false_iff, ne_eq, isUnder1mb_iff e h]
  exact Nat.not_lt.mpr hlow

include hstart haligned h in
/-- The region of an entry that ends above the kernel is what the heap leaves of
    it. -/
theorem regionBlock_above (first : Word) (hlow : 0x100000 ≤ e.stop)
    (habove : k.kernelEnd.toNat < e.stop) :
    (regionBlock k first e).addr.toNat = (k.kernelEnd.toNat + heapShare k first e) % 2 ^ 32 ∧
      (regionBlock k first e).len.toNat = leftLen k e - heapShare k first e := by
  have hleft := cutHeap_left k first e hstart h hlow
  rw [leftStart, if_pos habove] at hleft
  unfold regionBlock
  rw [cutPage_self _ (cutHeap_page k first e hstart h hlow haligned habove)]
  exact hleft

include hstart haligned hle h in
/-- An entry whose region fits does what it should. -/
theorem insideEntry_of_fits (hpool : boot.bitmapStack.length < bitmapStackSize)
    (hfits : RegionFits k boot.heap.mDynFirstBlock e) : InsideEntry k e boot := by
  cases husable : usableBlock k boot.heap.mDynFirstBlock e with
  | false =>
      rcases mmInitmemblock_rejected k e boot husable with ⟨e', htype, hcall⟩
      exact Or.inl ⟨e', _, hcall, htype⟩
  | true =>
      rcases hfits with ⟨habove, hhigh, hlong, hfits⟩
      rcases high_of_usable k e hstart haligned h _ husable with ⟨hlow, hunder⟩
      rcases regionBlock_above k e hstart haligned h boot.heap.mDynFirstBlock hlow habove with
        ⟨haddr, hlen⟩
      have hstop : e.stop < 2 ^ 32 := h
      have hbitmap := hfits 0 (by omega)
      rw [Nat.mod_eq_of_lt (by omega)] at haddr
      rcases mmInitmemblock_usable k e boot husable with ⟨blocks, hcalc, hcall⟩
      have hdivided := calc_fits _ (by omega)
        (hlen.trans_le (leftLen_le_top k e hle h _ habove hhigh)) blocks _ hcalc
      rw [hlen] at hdivided
      have hend := hfits blocks.toNat hdivided
      rw [if_pos hpool] at hcall
      have hshare := heapShare_cases k boot.heap.mDynFirstBlock e
      refine Or.inr ⟨_, _, _, _, hcall, registered_entry boot k e blocks,
        BitmapList.inside_of_bounds _ k e hle ?_ ?_ ?_ ?_, fun htakes => ?_⟩
      · rw [bitmapEntry, haddr]
        omega
      · rw [bitmapEntry, haddr]
        exact hhigh
      · rw [bitmapEntry, haddr]
        exact Nat.le_add_right _ _
      · rw [bitmapEntry, haddr]
        exact hend
      · -- The heap takes the first megabyte behind the kernel, and the region starts after it.
        rw [registered_heapRange boot k e blocks hunder htakes,
          (cutFixed_left k e hstart h hlow).1, leftStart, if_pos habove, BitmapList.room,
          bitmapEntry, haddr, heapShare, if_pos ((takesHeap_iff k _ e hstart h hlow).mp htakes)]
        exact disjoint_span _ _ _ _ (Or.inr (Nat.le_refl _))

include hstart haligned hle h in
/-- An entry that is not rejected and does what it should had a region that fits. -/
theorem fits_of_insideEntry (husable : usableBlock k boot.heap.mDynFirstBlock e = true)
    (hinside : InsideEntry k e boot) : boot.bitmapStack.length < bitmapStackSize ∧
      RegionFits k boot.heap.mDynFirstBlock e := by
  rcases high_of_usable k e hstart haligned h _ husable with ⟨hlow, _⟩
  rcases mmInitmemblock_usable k e boot husable with ⟨blocks, hcalc, hcall⟩
  by_cases hpool : boot.bitmapStack.length < bitmapStackSize
  · rw [if_pos hpool] at hcall
    refine ⟨hpool, ?_⟩
    rcases hinside with ⟨e', boot', hcall', _⟩ | ⟨e', i, boot', r, hcall', hr, hr', _⟩
    · simp only [hcall, Except.ok.injEq, Prod.mk.injEq, reduceCtorEq, false_and, and_false] at hcall'
    · rw [hcall, Except.ok.injEq, Prod.mk.injEq, Prod.mk.injEq, Option.some.injEq] at hcall'
      rcases hcall' with ⟨_, rfl, rfl⟩
      rw [registered_entry, Option.some.injEq] at hr
      rw [← hr] at hr'
      have hbounds := hr'.bounds _ _ _ hstart
      simp only [bitmapEntry] at hbounds
      rcases hbounds with ⟨hhigh, habove, hend⟩
      have hshare := heapShare_cases k boot.heap.mDynFirstBlock e
      have hlast := k.kernelEnd.isLt
      have hstop : e.stop < 2 ^ 32 := h
      have habove' : k.kernelEnd.toNat < e.stop := by omega
      rcases regionBlock_above k e hstart haligned h boot.heap.mDynFirstBlock hlow habove' with
        ⟨haddr, hlen⟩
      -- A heap that ends past the top would put the region into low memory.
      rw [Nat.mod_eq_of_lt (by omega)] at haddr
      rw [haddr] at hhigh hend
      have hlong : 4 ≤ (regionBlock k boot.heap.mDynFirstBlock e).len.toNat := by
        by_contra hc
        rw [calc_small _ (Nat.lt_of_not_le hc), Option.some.injEq, Prod.mk.injEq] at hcalc
        rw [← hcalc.1, show wrappedBlocks.toNat = 3222175715 from rfl] at hend
        omega
      refine ⟨habove', hhigh, by omega, fun n hn => ?_⟩
      have hmost := calc_most _ hlong
        (hlen.trans_le (leftLen_le_top k e hle h _ habove' hhigh)) blocks _ hcalc n
        (by rw [hlen]; exact hn)
      have hmono := room_mono n blocks.toNat hmost
      omega
  · rw [if_neg hpool] at hcall
    rcases hinside with ⟨e', boot', hcall', _⟩ | ⟨e', i, boot', r, hcall', _⟩
    · simp only [hcall, reduceCtorEq] at hcall'
    · simp only [hcall, reduceCtorEq] at hcall'

end Call

end UnixP6
