import UnixP6.Core.Frames

/-!
# The Frame Index of a Release

`frame_alloc` turns a word and a bit into an address by `calc_pageaddr`, and
`frame_free` has to turn the address back into a word and a bit. It divides by
31 where there are 32 bits to a word, so the two agree only while the number of
the frame has the same remainder by both, that is, for the first 31 of every
992 frames.

Elsewhere the release goes to other bits, which shows as soon as all of them
are set.

## Main definitions

* `InRun`: A bit of a bitmap lies in a run of bits of one word.
* `Cleared`: The bits a release of a frame clears.

## Theorems

* `freeFrames_index`: A release by the number of a frame.
* `freeFrames_bits`: What a release does to the bitmap of its region.
* `cleared_iff`: The first 31 of 992 frames.
* `agree_of_cleared`: No other frame has its own bits cleared.
* `freeFrom_first`: The region a release comes to.
* `free_inverts_iff`: The releases that clear the bits of their frames.
-/

namespace UnixP6

open CSemantics

/-- Bit `b` of word `k` lies in the run of `count` bits from bit `s` of word `i`. -/
def InRun (i s count k b : Nat) : Prop := k = i ∧ s ≤ b ∧ b < s + count

/-- The bits a release of `count` frames from frame `n` on clears. The number is
    taken from an address, of which there are `2^32`. Nothing is cleared where
    the run would leave the word. -/
def Cleared (n count k b : Nat) : Prop :=
  n % 1048576 % 31 + count ≤ 32 ∧
    InRun ((n % 1048576 - n % 1048576 % 31) / 32) (n % 1048576 % 31) count k b

/-- The address of a frame, modulo the width of an address. -/
theorem calcPageaddr_eq (i s : Nat) : calcPageaddr i s = BitVec.ofNat 32 (4096 * (32 * i + s)) := by
  have hbits : (32 : Word).toNat = 32 := rfl
  have hframe : (4096 : Word).toNat = 4096 := rfl
  apply BitVec.eq_of_toNat_eq
  unfold calcPageaddr
  rw [BitVec.toNat_mul, BitVec.toNat_add, BitVec.toNat_mul, BitVec.toNat_ofNat, BitVec.toNat_ofNat,
    BitVec.toNat_ofNat, hbits, hframe]
  omega

/-- The number `frame_free` takes from the address of a frame. -/
theorem index_of_address (r : Region) (n : Nat) :
    (((r.firstBlock + calcPageaddr (n / 32) (n % 32)) - r.firstBlock) / 4096).toNat
      = n % 1048576 := by
  rw [calcPageaddr_eq, Nat.div_add_mod, BitVec.add_comm, BitVec.add_sub_cancel, BitVec.toNat_udiv,
    BitVec.toNat_ofNat, show (4096 : Word).toNat = 4096 from rfl]
  omega

/-- A release in the region found, by the number taken from the address. -/
theorem freeFrames_index (r : Region) (addr : Word) (n count : Nat)
    (hn : ((addr - r.firstBlock) / 4096).toNat = n) :
    r.freeFrames addr count
      = if 32 - n % 31 < count then r
        else r.setWord ((n - n % 31) / 32)
          (clearRun (r.firstBitmap ((n - n % 31) / 32)) (BitVec.twoPow 32 (n % 31)) count) := by
  have hbit : ((addr - r.firstBlock) / 4096 % 31).toNat = n % 31 := by
    rw [BitVec.toNat_umod, hn, show (31 : Word).toNat = 31 from rfl]
  have hword : (((addr - r.firstBlock) / 4096 - (addr - r.firstBlock) / 4096 % 31) / 32).toNat
      = (n - n % 31) / 32 := by
    have hle : (addr - r.firstBlock) / 4096 % 31 ≤ (addr - r.firstBlock) / 4096 := by
      rw [BitVec.le_def, hbit, hn]
      exact Nat.mod_le n 31
    rw [BitVec.toNat_udiv, BitVec.toNat_sub_of_le hle, hbit, hn,
      show (32 : Word).toNat = 32 from rfl]
  simp only [Region.freeFrames, hbit, hword, BitVec.twoPow_eq]
  rfl

/-- What a release does to the bitmap of its region. -/
theorem freeFrames_bits (r : Region) (n count : Nat) :
    ∃ bitmap, r.freeFrames (r.firstBlock + calcPageaddr (n / 32) (n % 32)) count
        = { r with firstBitmap := bitmap } ∧
      ∀ k b, b < 32 →
        ((bitmap k).getLsbD b = true ↔ (r.firstBitmap k).getLsbD b = true ∧ ¬ Cleared n count k b)
    := by
  rw [freeFrames_index r _ (n % 1048576) count (index_of_address r n)]
  by_cases hroom : 32 - n % 1048576 % 31 < count
  · -- `return`: the run would leave the word.
    have hnone : ∀ k b, ¬ Cleared n count k b := by
      intro k b hcleared
      unfold Cleared at hcleared
      omega
    rw [if_pos hroom]
    exact ⟨r.firstBitmap, rfl, fun k b _ => ⟨fun h => ⟨h, hnone k b⟩, fun h => h.1⟩⟩
  · rw [if_neg hroom]
    refine ⟨_, rfl, fun k b hb => ?_⟩
    unfold Cleared InRun
    by_cases hk : k = (n % 1048576 - n % 1048576 % 31) / 32
    · rw [if_pos hk, getLsbD_clearRun, ← hk, Bool.and_eq_true, Bool.not_eq_true',
        decide_eq_false_iff_not]
      refine and_congr_right fun _ => not_congr ?_
      omega
    · rw [if_neg hk]
      exact ⟨fun h => ⟨h, fun hcleared => hk hcleared.2.1⟩, fun h => h.1⟩

/-- For the first 31 of every 992 frames, and as long as the address has not
    wrapped, the bits cleared are those of the frames. -/
theorem cleared_iff (n count k b : Nat) (hfit : n % 32 + count ≤ 32) (hn : n < 1048576)
    (hagree : n % 992 < 31) : Cleared n count k b ↔ InRun (n / 32) (n % 32) count k b := by
  have hm : n % 1048576 = n := Nat.mod_eq_of_lt hn
  have hbit : n % 31 = n % 32 := by omega
  have hword : (n - n % 32) / 32 = n / 32 := by omega
  unfold Cleared
  rw [hm, hbit, hword]
  exact ⟨fun h => h.2, fun h => ⟨hfit, h⟩⟩

/-- If exactly the bits of the frames are cleared, the first frame is among the
    first 31 of 992. -/
theorem agree_of_cleared (n count : Nat) (hcount : 1 ≤ count)
    (h : ∀ k b, b < 32 → (InRun (n / 32) (n % 32) count k b ↔ Cleared n count k b)) :
    n < 1048576 ∧ n % 992 < 31 := by
  -- The bit of the first frame is cleared, and the first bit cleared is its own.
  have hown := (h (n / 32) (n % 32) (Nat.mod_lt n (by decide))).mp
    ⟨rfl, Nat.le_refl _, by omega⟩
  rcases hown with ⟨hroom, hword, hlow, _⟩
  have hfirst := (h ((n % 1048576 - n % 1048576 % 31) / 32) (n % 1048576 % 31) (by omega)).mpr
    ⟨hroom, rfl, Nat.le_refl _, by omega⟩
  have hle := hfirst.2.1
  have hn : n < 1048576 := by omega
  rw [Nat.mod_eq_of_lt hn] at hword hlow hle
  exact ⟨hn, by omega⟩

/-! ### The walk -/

/-- The walk comes to the first region whose test the address passes. -/
theorem freeFrom_first (pre post : List Region) (r : Region) (addr : Word) (count : Nat)
    (hfirst : ∀ q ∈ pre, q.owns addr = false) (howns : r.owns addr = true) :
    freeFrom addr count (pre ++ r :: post) = pre ++ r.freeFrames addr count :: post := by
  induction pre with
  | nil => rw [List.nil_append, freeFrom, if_pos howns]; rfl
  | cons q pre ih =>
      have hq : ¬ q.owns addr = true := by
        rw [hfirst q List.mem_cons_self]
        exact Bool.false_ne_true
      rw [List.cons_append, freeFrom, if_neg hq,
        ih fun p hp => hfirst p (List.mem_cons_of_mem q hp)]
      rfl

/-- A release of frames by the address of the first one, in the region the test
    finds, clears their bits and no others whatever the bitmap holds, exactly if
    the frame is among the first 31 of 992. -/
theorem free_inverts_iff (pre post : List Region) (r : Region) (n : Nat) (count : Word)
    (hcount : 1 ≤ count.toNat) (hfit : n % 32 + count.toNat ≤ 32)
    (hfirst : ∀ q ∈ pre, q.owns (r.firstBlock + calcPageaddr (n / 32) (n % 32)) = false)
    (howns : r.owns (r.firstBlock + calcPageaddr (n / 32) (n % 32)) = true) :
    (∀ held : Nat → Word, ∃ bitmap,
        frameFree (r.firstBlock + calcPageaddr (n / 32) (n % 32)) count
            (pre ++ { r with firstBitmap := held } :: post)
          = some (pre ++ { r with firstBitmap := bitmap } :: post) ∧
        ∀ k b, b < 32 → ((bitmap k).getLsbD b = true ↔
          (held k).getLsbD b = true ∧ ¬ InRun (n / 32) (n % 32) count.toNat k b)) ↔
      n < 1048576 ∧ n % 992 < 31 := by
  -- The counts are those that `frame_free` goes on with.
  have hgoes : ¬ (count = 0 ∨ 32 < count) := by bv_omega
  have hcall : ∀ held : Nat → Word, ∃ bitmap,
      frameFree (r.firstBlock + calcPageaddr (n / 32) (n % 32)) count
          (pre ++ { r with firstBitmap := held } :: post)
        = some (pre ++ { r with firstBitmap := bitmap } :: post) ∧
      ∀ k b, b < 32 → ((bitmap k).getLsbD b = true ↔
        (held k).getLsbD b = true ∧ ¬ Cleared n count.toNat k b) := by
    intro held
    rcases freeFrames_bits { r with firstBitmap := held } n count.toNat with ⟨bitmap, hfree, hbits⟩
    have hsome : pre ++ { r with firstBitmap := held } :: post ≠ [] :=
      List.append_ne_nil_of_right_ne_nil pre (List.cons_ne_nil _ post)
    refine ⟨bitmap, ?_, hbits⟩
    rw [frameFree, if_neg hgoes, if_neg hsome,
      freeFrom_first pre post { r with firstBitmap := held } _ _ hfirst howns, hfree]
  constructor
  · intro hall
    -- With every bit set, what is left set tells which bits were cleared.
    rcases hall (fun _ => BitVec.allOnes 32) with ⟨wanted, hsame, hwanted⟩
    rcases hcall (fun _ => BitVec.allOnes 32) with ⟨bitmap, hgot, hbits⟩
    have hbitmap : bitmap = wanted := by
      simpa only [hgot, Option.some.injEq, List.append_cancel_left_eq, List.cons.injEq,
        Region.mk.injEq, true_and, and_true] using hsame
    refine agree_of_cleared n count.toNat hcount fun k b hb => ?_
    have hset : (BitVec.allOnes 32).getLsbD b = true := by
      rw [BitVec.getLsbD_allOnes, decide_eq_true hb]
    have hleft := (hwanted k b hb).symm.trans (hbitmap ▸ hbits k b hb)
    rw [and_iff_right hset, and_iff_right hset] at hleft
    exact not_iff_not.mp hleft
  · rintro ⟨hn, hagree⟩ held
    rcases hcall held with ⟨bitmap, hgot, hbits⟩
    refine ⟨bitmap, hgot, fun k b hb => (hbits k b hb).trans (and_congr_right fun _ => ?_)⟩
    rw [cleared_iff n count.toNat k b hfit hn hagree]

/-- A region of 131072 frames in which the last frame of the first word is taken. -/
def regionOfLast : Region :=
  { searchNextStartblock := 0, firstBitmap := fun k => if k = 0 then 0x80000000 else 0
    blocksCount := 131072, firstBlock := 0x100000 }

/-- The two frames after the first, where every frame is taken. -/
theorem free_inverts_iff_second :
    ∃ bitmap, frameFree (regionOfLast.firstBlock + calcPageaddr (1 / 32) (1 % 32)) 2
          [{ regionOfLast with firstBitmap := fun _ => BitVec.allOnes 32 }]
        = some [{ regionOfLast with firstBitmap := bitmap }] ∧
      ∀ k b, b < 32 → ((bitmap k).getLsbD b = true ↔
        (BitVec.allOnes 32).getLsbD b = true ∧ ¬ InRun 0 1 2 k b) :=
  (free_inverts_iff [] [] regionOfLast 1 2 (by decide) (by decide)
    (fun _ hq => absurd hq List.not_mem_nil) (by decide)).mpr ⟨by decide, by decide⟩
    (fun _ => BitVec.allOnes 32)

/-- The last frame of the first word stays taken: its release goes to bit 0. -/
theorem last_frame_stays :
    ¬ ∀ (pre post : List Region) (r : Region) (n : Nat) (count : Word),
      n < 32 * r.repeatcount → 1 ≤ count.toNat → n % 32 + count.toNat ≤ 32 →
      (∀ q ∈ pre, q.owns (r.firstBlock + calcPageaddr (n / 32) (n % 32)) = false) →
      r.owns (r.firstBlock + calcPageaddr (n / 32) (n % 32)) = true →
      ∃ bitmap, frameFree (r.firstBlock + calcPageaddr (n / 32) (n % 32)) count (pre ++ r :: post)
          = some (pre ++ { r with firstBitmap := bitmap } :: post) ∧
        ∀ k b, b < 32 → ((bitmap k).getLsbD b = true ↔
          (r.firstBitmap k).getLsbD b = true ∧ ¬ InRun (n / 32) (n % 32) count.toNat k b) := by
  intro hall
  rcases hall [] [] regionOfLast 31 1 (by decide) (by decide) (by decide)
    (fun _ hq => absurd hq List.not_mem_nil) (by decide) with ⟨bitmap, hcall, hbits⟩
  have hbit := congrArg (fun res => (res.getD []).map fun q => (q.firstBitmap 0).getLsbD 31) hcall
  have hstays : [true] = [(bitmap 0).getLsbD 31] := Eq.trans (by decide) hbit
  rw [List.cons.injEq] at hstays
  exact ((hbits 0 31 (by omega)).mp hstays.1.symm).2 ⟨by decide, by decide, by decide⟩

end UnixP6
