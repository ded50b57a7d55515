import UnixP6.CSemantics.Links
import UnixP6.Core.Heap
import UnixP6.Theory.Heap.Blocks

/-!
# The Chain in Memory

The headers `dmm.c` keeps in memory, tied to the list of blocks they stand for.
`Represents m first bs` says that following `next` from `first` passes exactly
the blocks of `bs`, that each header holds the flag and size recorded there,
and that no two headers overlap.

Everything the allocator does to an existing chain is a change to one header.
`Represents.edit` is that change: memory differs only within the header of one
block, and the chain from that block on is a new header followed by some later
part of the old chain. Setting a flag and absorbing a neighbour are both
instances.

## Main definitions

* `Represents`: The chain in memory is the list of blocks.
* `Untouched`: Memory is the same outside the headers of a list of blocks.

## Theorems

* `Represents.edit`: Changing one header, and with it what follows.
* `mergeBlocks_free`: From a free block, `merge_blocks` absorbs the run after it.
* `mergeBlocks_coalesce`: `merge_blocks` does not change the coalesced chain.
* `mergeAll_spec`: The loop at the end of `kfree` coalesces the chain.
* `kfree_spec`: `kfree` marks the block free and coalesces.
* `kfree_absent`: `kfree` of an address that is no block changes nothing.
-/

namespace UnixP6

open CSemantics Block MemBlock

/-! ### Header fields -/

theorem next_setNext (m : Mem) (b v : Word) : next (setNext m b v) b = v :=
  Mem.load32_store32_same m b v

theorem free_setFree (m : Mem) (b v : Word) : free (setFree m b v) b = v :=
  Mem.load32_store32_same m (b + 8) v

theorem size_setSize (m : Mem) (b v : Word) : MemBlock.size (setSize m b v) b = v :=
  Mem.load32_store32_same m (b + 12) v

section OtherFields

variable (m : Mem) (b v : Word)

theorem next_setTaskId : next (setTaskId m b v) b = next m b :=
  Mem.load32_store32_apart m _ _ v ⟨by bv_omega, by bv_omega⟩

theorem next_setFree : next (setFree m b v) b = next m b :=
  Mem.load32_store32_apart m _ _ v ⟨by bv_omega, by bv_omega⟩

theorem next_setSize : next (setSize m b v) b = next m b :=
  Mem.load32_store32_apart m _ _ v ⟨by bv_omega, by bv_omega⟩

theorem free_setNext : free (setNext m b v) b = free m b :=
  Mem.load32_store32_apart m _ _ v ⟨by bv_omega, by bv_omega⟩

theorem free_setTaskId : free (setTaskId m b v) b = free m b :=
  Mem.load32_store32_apart m _ _ v ⟨by bv_omega, by bv_omega⟩

theorem free_setSize : free (setSize m b v) b = free m b :=
  Mem.load32_store32_apart m _ _ v ⟨by bv_omega, by bv_omega⟩

theorem size_setNext : MemBlock.size (setNext m b v) b = MemBlock.size m b :=
  Mem.load32_store32_apart m _ _ v ⟨by bv_omega, by bv_omega⟩

theorem size_setTaskId : MemBlock.size (setTaskId m b v) b = MemBlock.size m b :=
  Mem.load32_store32_apart m _ _ v ⟨by bv_omega, by bv_omega⟩

theorem size_setFree : MemBlock.size (setFree m b v) b = MemBlock.size m b :=
  Mem.load32_store32_apart m _ _ v ⟨by bv_omega, by bv_omega⟩

theorem sameOutside_setNext : SameOutside b 16 m (setNext m b v) := by
  intro x hx
  simp only [Far] at hx
  exact Mem.store32_far m b x v (by simp only [Far]; omega)

theorem sameOutside_setTaskId : SameOutside b 16 m (setTaskId m b v) := by
  intro x hx
  simp only [Far] at hx
  exact Mem.store32_far m (b + 4) x v (by simp only [Far]; bv_omega)

theorem sameOutside_setFree : SameOutside b 16 m (setFree m b v) := by
  intro x hx
  simp only [Far] at hx
  exact Mem.store32_far m (b + 8) x v (by simp only [Far]; bv_omega)

theorem sameOutside_setSize : SameOutside b 16 m (setSize m b v) := by
  intro x hx
  simp only [Far] at hx
  exact Mem.store32_far m (b + 12) x v (by simp only [Far]; bv_omega)

end OtherFields

/-- A change within some range leaves the fields of a header apart from it. -/
theorem fields_sameOutside (m m' : Mem) (a b : Word) (n : Nat) (h : SameOutside a n m m')
    (hab : Apart a n b 16) :
    next m' b = next m b ∧ free m' b = free m b ∧ MemBlock.size m' b = MemBlock.size m b := by
  rcases hab with ⟨ha, hb⟩
  refine ⟨Mem.load32_sameOutside m m' a b n h ⟨by omega, by omega⟩,
    Mem.load32_sameOutside m m' a (b + 8) n h ⟨by bv_omega, by bv_omega⟩,
    Mem.load32_sameOutside m m' a (b + 12) n h ⟨by bv_omega, by bv_omega⟩⟩

/-! ### The chain -/

/-- Following `next` from `first` passes exactly these blocks, whose headers do
    not overlap. -/
structure Represents (m : Mem) (first : Word) (bs : List Block) : Prop where
  links : Links (next m) 0 first (bs.map addr)
  fields : ∀ b ∈ bs, free m b.addr = b.free ∧ MemBlock.size m b.addr = b.size
  apart : (bs.map addr).Pairwise fun a c => Apart a 16 c 16

/-- Memory is the same outside the headers of the blocks. -/
def Untouched (bs : List Block) (m m' : Mem) : Prop :=
  ∀ x, (∀ b ∈ bs, Far b.addr 16 x) → m' x = m x

theorem Untouched.trans (bs : List Block) (m m' m'' : Mem) (h : Untouched bs m m')
    (h' : Untouched bs m' m'') : Untouched bs m m'' :=
  fun x hx => (h' x hx).trans (h x hx)

/-- Fewer headers leave more untouched. -/
theorem Untouched.mono (bs cs : List Block) (m m' : Mem)
    (hsub : (bs.map addr).Sublist (cs.map addr)) (h : Untouched bs m m') : Untouched cs m m' := by
  intro x hx
  refine h x (fun b hb => ?_)
  rcases List.mem_map.mp (hsub.subset (List.mem_map_of_mem hb)) with ⟨c, hc, hcb⟩
  rw [← hcb]
  exact hx c hc

theorem untouched_of_sameOutside (bs : List Block) (b : Block) (m m' : Mem) (hb : b ∈ bs)
    (h : SameOutside b.addr 16 m m') : Untouched bs m m' :=
  fun x hx => h x (hx b hb)

/-- The header of a block in the middle of a chain is apart from all others. -/
theorem Represents.apart_of_mem (m : Mem) (first : Word) (pre rest : List Block) (b : Block)
    (h : Represents m first (pre ++ b :: rest)) :
    (∀ c ∈ pre, Apart b.addr 16 c.addr 16) ∧ (∀ c ∈ rest, Apart b.addr 16 c.addr 16) := by
  have hp := h.apart
  rw [List.map_append, List.map_cons, List.pairwise_append, List.pairwise_cons] at hp
  rcases hp with ⟨_, ⟨hrest, _⟩, hcross⟩
  refine ⟨fun c hc => ?_, fun c hc => hrest c.addr (List.mem_map_of_mem hc)⟩
  exact (hcross c.addr (List.mem_map_of_mem hc) b.addr List.mem_cons_self).symm

/-- The link of a block leads to the start of what follows it. -/
theorem Represents.next_eq (m : Mem) (first : Word) (pre rest : List Block) (b : Block)
    (h : Represents m first (pre ++ b :: rest)) :
    next m b.addr = (rest.map addr).headD 0 := by
  have hl := h.links
  rw [List.map_append, List.map_cons] at hl
  exact Links.head _ _ _ _ (Links.suffix _ _ _ _ _ _ hl).2

/-- A block of the chain is not at null. -/
theorem Represents.addr_ne_zero (m : Mem) (first : Word) (pre rest : List Block) (b : Block)
    (h : Represents m first (pre ++ b :: rest)) : b.addr ≠ 0 := by
  have hl := h.links
  rw [List.map_append, List.map_cons] at hl
  exact (Links.suffix _ _ _ _ _ _ hl).1

/-- The header of a block holds what the block records. -/
theorem Represents.header (m : Mem) (first : Word) (pre rest : List Block) (b : Block)
    (h : Represents m first (pre ++ b :: rest)) :
    free m b.addr = b.free ∧ MemBlock.size m b.addr = b.size :=
  h.fields b (List.mem_append_right pre List.mem_cons_self)

theorem Represents.free_eq_zero_iff (m : Mem) (first : Word) (pre rest : List Block) (b : Block)
    (h : Represents m first (pre ++ b :: rest)) : free m b.addr = 0 ↔ b.isFree = false := by
  rw [(h.header m first pre rest b).1]
  simp only [Block.isFree, bne_eq_false_iff_eq]

/-- Changing one header. Memory differs only within the header of `b`, which
    now reads `b'` and leads to a later part of the chain. -/
theorem Represents.edit (m m' : Mem) (first : Word) (pre gone rest : List Block) (b b' : Block)
    (h : Represents m first (pre ++ b :: (gone ++ rest)))
    (hsame : SameOutside b.addr 16 m m') (haddr : b'.addr = b.addr)
    (hfree : free m' b.addr = b'.free) (hsize : MemBlock.size m' b.addr = b'.size)
    (hnext : next m' b.addr = (rest.map addr).headD 0) :
    Represents m' first (pre ++ b' :: rest) := by
  rcases h.apart_of_mem m first pre (gone ++ rest) b with ⟨hpre, hrest⟩
  have hkeepPre : ∀ c ∈ pre, next m' c.addr = next m c.addr ∧ free m' c.addr = free m c.addr ∧
      MemBlock.size m' c.addr = MemBlock.size m c.addr :=
    fun c hc => fields_sameOutside m m' b.addr c.addr 16 hsame (hpre c hc)
  have hkeepRest : ∀ c ∈ rest, next m' c.addr = next m c.addr ∧ free m' c.addr = free m c.addr ∧
      MemBlock.size m' c.addr = MemBlock.size m c.addr :=
    fun c hc => fields_sameOutside m m' b.addr c.addr 16 hsame
      (hrest c (List.mem_append_right gone hc))
  refine ⟨?_, ?_, ?_⟩
  · -- The links: those in front of the header are kept, and the header is what changed.
    have hl := h.links
    rw [List.map_append, List.map_cons] at hl ⊢
    rw [haddr]
    refine Links.relink (next m) (next m') 0 (pre.map addr) first b.addr _ (rest.map addr) hl
      (fun x hx => ?_) ?_
    · rcases List.mem_map.mp hx with ⟨c, hc, rfl⟩
      exact (hkeepPre c hc).1
    · -- The rest of the chain keeps its links, and the header leads to it.
      have hafter := (Links.suffix _ _ _ _ _ _ hl).2
      rw [List.map_append] at hafter
      have hdrop := Links.drop (next m) 0 (gone.map addr) _ (rest.map addr) hafter
      rw [hnext]
      refine Links.congr (next m) (next m') 0 (rest.map addr) _ (fun x hx => ?_) hdrop
      rcases List.mem_map.mp hx with ⟨c, hc, rfl⟩
      exact (hkeepRest c hc).1
  · intro c hc
    rcases List.mem_append.mp hc with hc | hc
    · have hk := hkeepPre c hc
      have hf := h.fields c (List.mem_append_left _ hc)
      exact ⟨hk.2.1.trans hf.1, hk.2.2.trans hf.2⟩
    · rcases List.mem_cons.mp hc with rfl | hc
      · rw [haddr]
        exact ⟨hfree, hsize⟩
      · have hk := hkeepRest c hc
        have hf := h.fields c
          (List.mem_append_right pre (List.mem_cons_of_mem b (List.mem_append_right gone hc)))
        exact ⟨hk.2.1.trans hf.1, hk.2.2.trans hf.2⟩
  · refine h.apart.sublist ?_
    rw [List.map_append, List.map_append, List.map_cons, List.map_cons, List.map_append, haddr]
    exact (List.Sublist.refl _).append
      (List.Sublist.cons_cons b.addr (List.sublist_append_right (gone.map addr) (rest.map addr)))

/-! ### Merging from one block -/

/-- One turn of `merge_blocks` absorbs the next block when it is free. -/
theorem mergeBlocksTurn_absorb (m : Mem) (first : Word) (pre cs : List Block) (b c : Block)
    (h : Represents m first (pre ++ b :: c :: cs)) (hc : c.isFree = true) :
    ∃ m', mergeBlocksTurn b.addr m = some (.again m') ∧ SameOutside b.addr 16 m m' ∧
      Represents m' first (pre ++ b.absorb c :: cs) := by
  have hnext : next m b.addr = c.addr := h.next_eq m first pre (c :: cs) b
  have hmid : Represents m first ((pre ++ [b]) ++ c :: cs) := by
    rw [List.append_assoc]
    exact h
  have hc0 : c.addr ≠ 0 := hmid.addr_ne_zero m first (pre ++ [b]) cs c
  have hbf := h.header m first pre (c :: cs) b
  have hcf := hmid.header m first (pre ++ [b]) cs c
  have hapart : Apart b.addr 16 c.addr 16 :=
    (h.apart_of_mem m first pre (c :: cs) b).2 c List.mem_cons_self
  have hfree : free m c.addr ≠ 0 := by
    rw [ne_eq, hmid.free_eq_zero_iff m first (pre ++ [b]) cs c, hc]
    exact Bool.true_eq_false_eq_False
  -- The size is written first; the links read after it are unchanged.
  have hsize := sameOutside_setSize m b.addr (b.size + (c.size + 16))
  have hcnext : next (setSize m b.addr (b.size + (c.size + 16))) c.addr = next m c.addr :=
    (fields_sameOutside m _ b.addr c.addr 16 hsize hapart).1
  refine ⟨setNext (setSize m b.addr (b.size + (c.size + 16))) b.addr (next m c.addr), ?_, ?_, ?_⟩
  · simp only [mergeBlocksTurn, hnext, hbf.2, hcf.2, next_setSize, hcnext]
    rw [if_pos ⟨hc0, hfree⟩]
    by_cases hend : next m c.addr = 0
    · rw [if_neg (not_not.mpr hend), hend]
    · rw [if_pos hend]
  · exact SameOutside.trans _ _ _ _ _ hsize (sameOutside_setNext _ _ _)
  · refine Represents.edit m _ first pre [c] cs b (b.absorb c) h
      (SameOutside.trans _ _ _ _ _ hsize (sameOutside_setNext _ _ _)) rfl ?_ ?_ ?_
    · rw [free_setNext, free_setSize]
      exact hbf.1
    · rw [size_setNext, size_setSize]
      rfl
    · rw [next_setNext]
      exact hmid.next_eq m first (pre ++ [b]) cs c

/-- The loop of `merge_blocks` absorbs the run of free blocks after its block
    and stops there. -/
theorem mergeBlocksLoop (first : Word) (pre : List Block) :
    ∀ (rest : List Block) (b : Block) (m : Mem) (n : Nat), rest.length < n →
      Represents m first (pre ++ b :: rest) →
      ∃ m', runLoop (mergeBlocksTurn b.addr) n m = some m' ∧ SameOutside b.addr 16 m m' ∧
        Represents m' first
          (pre ++ b.grow (runSize (rest.takeWhile isFree)) :: rest.dropWhile isFree) := by
  intro rest
  induction rest with
  | nil =>
      intro b m n hn h
      have hnext : next m b.addr = 0 := h.next_eq m first pre [] b
      have hturn : mergeBlocksTurn b.addr m = some (.exit m) := by
        simp only [mergeBlocksTurn, hnext, ne_eq, not_true_eq_false, false_and, if_false]
      rcases Nat.exists_eq_add_of_le' (show 1 ≤ n by omega) with ⟨k, rfl⟩
      refine ⟨m, runLoop_exit _ k m m hturn, SameOutside.refl _ _ m, ?_⟩
      have hgrow : b.grow (runSize []) = b := grow_zero b
      rw [List.takeWhile_nil, List.dropWhile_nil, hgrow]
      exact h
  | cons c cs ih =>
      intro b m n hn h
      rw [List.length_cons] at hn
      rcases Nat.exists_eq_add_of_le' (show 1 ≤ n by omega) with ⟨k, rfl⟩
      by_cases hc : c.isFree = true
      · rcases mergeBlocksTurn_absorb m first pre cs b c h hc with ⟨m1, hturn, hsame, hrep⟩
        rcases ih (b.absorb c) m1 k (by omega) hrep with ⟨m', hrun, hsame', hrep'⟩
        refine ⟨m', ?_, SameOutside.trans _ _ _ _ _ hsame hsame', ?_⟩
        · rw [runLoop_again _ k m m1 hturn]
          exact hrun
        · rw [List.takeWhile_cons_of_pos hc, List.dropWhile_cons_of_pos hc, runSize_cons,
            ← grow_grow]
          exact hrep'
      · -- The next block is in use, so the loop leaves at once.
        have hnext : next m b.addr = c.addr := h.next_eq m first pre (c :: cs) b
        have hmid : Represents m first ((pre ++ [b]) ++ c :: cs) := by
          rw [List.append_assoc]
          exact h
        have hused : free m c.addr = 0 := by
          rw [hmid.free_eq_zero_iff m first (pre ++ [b]) cs c]
          exact Bool.eq_false_iff.mpr hc
        have hturn : mergeBlocksTurn b.addr m = some (.exit m) := by
          simp only [mergeBlocksTurn, hnext, hused, ne_eq, not_true_eq_false, and_false, if_false]
        refine ⟨m, runLoop_exit _ k m m hturn, SameOutside.refl _ _ m, ?_⟩
        have hgrow : b.grow (runSize []) = b := grow_zero b
        rw [List.takeWhile_cons_of_neg hc, List.dropWhile_cons_of_neg hc, hgrow]
        exact h

/-- A chain has fewer blocks than a loop over addresses has turns. -/
theorem Represents.length_lt (m : Mem) (first : Word) (bs : List Block)
    (h : Represents m first bs) : bs.length < turnBound := by
  have hlen := Links.length_lt (next m) 0 first (bs.map addr) h.links
  rw [List.length_map] at hlen
  exact hlen

/-- From a free block, `merge_blocks` absorbs the run of free blocks after it. -/
theorem mergeBlocks_free (m : Mem) (first : Word) (pre rest : List Block) (b : Block)
    (h : Represents m first (pre ++ b :: rest)) (hb : b.isFree = true) :
    ∃ m', mergeBlocks m b.addr = some m' ∧ SameOutside b.addr 16 m m' ∧
      Represents m' first
        (pre ++ b.grow (runSize (rest.takeWhile isFree)) :: rest.dropWhile isFree) := by
  have hfree : free m b.addr ≠ 0 := by
    rw [ne_eq, h.free_eq_zero_iff m first pre rest b, hb]
    exact Bool.true_eq_false_eq_False
  have hlen := h.length_lt m first _
  rw [List.length_append, List.length_cons] at hlen
  rw [mergeBlocks, if_neg hfree]
  exact mergeBlocksLoop first pre rest b m turnBound (by omega) h

/-- From a used block, `merge_blocks` does nothing. -/
theorem mergeBlocks_used (m : Mem) (first : Word) (pre rest : List Block) (b : Block)
    (h : Represents m first (pre ++ b :: rest)) (hb : b.isFree = false) :
    mergeBlocks m b.addr = some m := by
  have hused := (h.free_eq_zero_iff m first pre rest b).mpr hb
  rw [mergeBlocks, if_pos hused]

/-- Absorbing a run removes headers only. -/
theorem absorb_addr_sublist (pre rest : List Block) (b : Block) (d : Word) :
    ((pre ++ b.grow d :: rest.dropWhile isFree).map addr).Sublist ((pre ++ b :: rest).map addr) := by
  rw [List.map_append, List.map_append, List.map_cons, List.map_cons]
  exact (List.Sublist.refl _).append
    (List.Sublist.cons_cons b.addr ((List.dropWhile_sublist isFree).map addr))

/-- `merge_blocks` from any block of the chain leaves a chain that coalesces to
    the same one. -/
theorem mergeBlocks_coalesce (m : Mem) (first : Word) (pre rest : List Block) (b : Block)
    (h : Represents m first (pre ++ b :: rest)) :
    ∃ m' bs', mergeBlocks m b.addr = some m' ∧ Represents m' first bs' ∧
      coalesce bs' = coalesce (pre ++ b :: rest) ∧
      (bs'.map addr).Sublist ((pre ++ b :: rest).map addr) ∧
      Untouched (pre ++ b :: rest) m m' := by
  have hmem : b ∈ pre ++ b :: rest := List.mem_append_right pre List.mem_cons_self
  cases hb : b.isFree with
  | false =>
      exact ⟨m, _, mergeBlocks_used m first pre rest b h hb, h, rfl, List.Sublist.refl _,
        fun _ _ => rfl⟩
  | true =>
      rcases mergeBlocks_free m first pre rest b h hb with ⟨m', hrun, hsame, hrep⟩
      exact ⟨m', _, hrun, hrep, coalesce_absorb pre rest b hb, absorb_addr_sublist pre rest b _,
        untouched_of_sameOutside _ b m m' hmem hsame⟩

/-! ### Coalescing the whole chain -/

/-- The loop at the end of `kfree`, from any point of the chain on, coalesces
    what is left of it. The induction is on how much is left; what has been
    passed only grows the list in front. -/
theorem mergeAll_spec (first : Word) :
    ∀ (n : Nat) (pre bs : List Block) (m : Mem), bs.length < n →
      Represents m first (pre ++ bs) →
      ∃ m', runLoop mergeAllTurn n ((bs.map addr).headD 0, m) = some m' ∧
        Represents m' first (pre ++ coalesce bs) ∧ Untouched (pre ++ bs) m m' := by
  intro n
  induction n with
  | zero => intro pre bs m hn; omega
  | succ k ih =>
      intro pre bs m hn h
      cases bs with
      | nil => exact ⟨m, runLoop_exit _ k _ m rfl, h, fun _ _ => rfl⟩
      | cons b rest =>
          rw [List.length_cons] at hn
          have hb0 := h.addr_ne_zero m first pre rest b
          cases hb : b.isFree with
          | false =>
              -- A block in use is passed over.
              have hturn : mergeAllTurn (b.addr, m)
                  = some (.again ((rest.map addr).headD 0, m)) := by
                simp only [mergeAllTurn, if_neg hb0, mergeBlocks_used m first pre rest b h hb,
                  Option.map_some, h.next_eq m first pre rest b]
              rcases ih (pre ++ [b]) rest m (by omega)
                (by rw [List.append_assoc]; exact h) with ⟨m', hrun, hrep, hun⟩
              rw [List.append_assoc, List.cons_append, List.nil_append] at hrep hun
              refine ⟨m', ?_, ?_, hun⟩
              · exact (runLoop_again _ k _ _ hturn).trans hrun
              · rw [coalesce_cons, pushBlock_used b _ hb]
                exact hrep
          | true =>
              -- A free block takes in the run after it, and the loop goes on behind the run.
              rcases mergeBlocks_free m first pre rest b h hb with ⟨m1, hmerge, hsame, hrep1⟩
              have hturn : mergeAllTurn (b.addr, m)
                  = some (.again (((rest.dropWhile isFree).map addr).headD 0, m1)) := by
                have hnext := hrep1.next_eq m1 first pre (rest.dropWhile isFree) _
                rw [addr_grow] at hnext
                simp only [mergeAllTurn, if_neg hb0, hmerge, Option.map_some, hnext]
              have hshort : (rest.dropWhile isFree).length ≤ rest.length :=
                (List.dropWhile_sublist isFree).length_le
              rcases ih (pre ++ [b.grow (runSize (rest.takeWhile isFree))])
                (rest.dropWhile isFree) m1 (by omega) (by rw [List.append_assoc]; exact hrep1)
                with ⟨m', hrun, hrep, hun⟩
              rw [List.append_assoc, List.cons_append, List.nil_append] at hrep hun
              refine ⟨m', (runLoop_again _ k _ _ hturn).trans hrun, ?_, ?_⟩
              · rw [coalesce_cons_free rest b hb]
                exact hrep
              · have hmem : b ∈ pre ++ b :: rest := List.mem_append_right pre List.mem_cons_self
                exact Untouched.trans _ m m1 m' (untouched_of_sameOutside _ b m m1 hmem hsame)
                  (Untouched.mono _ _ m1 m' (absorb_addr_sublist pre rest b _) hun)

/-! ### Releasing a block -/

/-- The search of `kfree` finds the block with its predecessor. -/
theorem kfreeFind_spec (m : Mem) (ptr : Word) (rest : List Block) (b : Block)
    (hb : data b.addr = ptr) :
    ∀ (pre : List Block) (p prev : Word) (n : Nat), pre.length < n →
      Links (next m) 0 p ((pre ++ b :: rest).map addr) →
      (∀ c ∈ pre, data c.addr ≠ ptr) →
      runLoop (kfreeFindTurn m ptr) n (p, prev)
        = some (some (b.addr, (pre.map addr).getLastD prev)) := by
  intro pre
  induction pre with
  | nil =>
      intro p prev n hn hl _
      rcases Nat.exists_eq_add_of_le' (show 1 ≤ n by omega) with ⟨k, rfl⟩
      rcases hl with ⟨hp, hb0, _⟩
      refine runLoop_exit _ k _ _ ?_
      rw [kfreeFindTurn, hp, if_neg hb0, if_pos hb]
      rfl
  | cons c cs ih =>
      intro p prev n hn hl hpre
      rw [List.length_cons] at hn
      rcases Nat.exists_eq_add_of_le' (show 1 ≤ n by omega) with ⟨k, rfl⟩
      rcases hl with ⟨hp, hc0, hl⟩
      -- The predecessor is remembered, which is why the last of the blocks passed is returned.
      have hturn : kfreeFindTurn m ptr (p, prev) = some (.again (next m c.addr, c.addr)) := by
        rw [kfreeFindTurn, hp, if_neg hc0, if_neg (hpre c List.mem_cons_self)]
      rw [runLoop_again _ k _ _ hturn, ih (next m c.addr) c.addr k (by omega) hl
        (fun d hd => hpre d (List.mem_cons_of_mem c hd)), List.map_cons, List.getLastD_cons]

/-- The search of `kfree` for an address that is no block runs off the end. -/
theorem kfreeFind_absent (m : Mem) (ptr : Word) :
    ∀ (bs : List Block) (p prev : Word) (n : Nat), bs.length < n →
      Links (next m) 0 p (bs.map addr) → (∀ c ∈ bs, data c.addr ≠ ptr) →
      runLoop (kfreeFindTurn m ptr) n (p, prev) = some none := by
  intro bs
  induction bs with
  | nil =>
      intro p prev n hn hl _
      rcases Nat.exists_eq_add_of_le' (show 1 ≤ n by omega) with ⟨k, rfl⟩
      have hp : p = 0 := hl
      refine runLoop_exit _ k _ _ ?_
      rw [kfreeFindTurn, if_pos hp]
  | cons c cs ih =>
      intro p prev n hn hl hbs
      rw [List.length_cons] at hn
      rcases Nat.exists_eq_add_of_le' (show 1 ≤ n by omega) with ⟨k, rfl⟩
      rcases hl with ⟨hp, hc0, hl⟩
      have hturn : kfreeFindTurn m ptr (p, prev) = some (.again (next m c.addr, c.addr)) := by
        rw [kfreeFindTurn, hp, if_neg hc0, if_neg (hbs c List.mem_cons_self)]
      rw [runLoop_again _ k _ _ hturn, ih (next m c.addr) c.addr k (by omega) hl
        (fun d hd => hbs d (List.mem_cons_of_mem c hd))]

/-- Writing the free flag of a block in memory marks it in the list. -/
theorem represents_setFree (m : Mem) (first : Word) (pre rest : List Block) (b : Block)
    (h : Represents m first (pre ++ b :: rest)) :
    Represents (setFree m b.addr 1) first (pre ++ { b with free := 1 } :: rest) := by
  refine Represents.edit m _ first pre [] rest b { b with free := 1 } h
    (sameOutside_setFree m b.addr 1) rfl (free_setFree m b.addr 1) ?_ ?_
  · rw [size_setFree]
    exact (h.header m first pre rest b).2
  · rw [next_setFree]
    exact h.next_eq m first pre rest b

/-- In a chain, marking the block at an address is marking one list entry. -/
theorem markFree_middle (m : Mem) (first : Word) (pre rest : List Block) (b : Block)
    (h : Represents m first (pre ++ b :: rest)) :
    markFree b.addr (pre ++ b :: rest) = pre ++ { b with free := 1 } :: rest := by
  rcases h.apart_of_mem m first pre rest b with ⟨hpre, hrest⟩
  -- Headers that are apart do not start at one address.
  have hother : ∀ c : Block, Apart b.addr 16 c.addr 16 → c.addr ≠ b.addr := by
    intro c hc heq
    have hlo := hc.1
    rw [heq, BitVec.sub_self] at hlo
    exact absurd hlo (by decide)
  have hid : ∀ cs : List Block, (∀ c ∈ cs, Apart b.addr 16 c.addr 16) → markFree b.addr cs = cs := by
    intro cs hcs
    rw [markFree]
    refine (List.map_congr_left (fun c hc => ?_)).trans (List.map_id cs)
    rw [if_neg (hother c (hcs c hc)), id]
  have happ : markFree b.addr (pre ++ b :: rest)
      = markFree b.addr pre ++ markFree b.addr (b :: rest) := List.map_append
  rw [happ, hid pre hpre, markFree_cons, if_pos rfl, hid rest hrest]

/-- The first merge of `kfree` starts at the predecessor, or at the block itself
    when it has none. -/
theorem mergePrev_coalesce (m : Mem) (first : Word) (pre rest : List Block) (b : Block)
    (h : Represents m first (pre ++ b :: rest)) :
    ∃ m' bs', mergeBlocks m
        (if (pre.map addr).getLastD 0 ≠ 0 then (pre.map addr).getLastD 0 else b.addr) = some m' ∧
      Represents m' first bs' ∧ coalesce bs' = coalesce (pre ++ b :: rest) ∧
      (bs'.map addr).Sublist ((pre ++ b :: rest).map addr) ∧
      Untouched (pre ++ b :: rest) m m' := by
  rcases List.eq_nil_or_concat pre with rfl | ⟨pre', q, rfl⟩
  · have h0 : (([] : List Block).map addr).getLastD 0 = 0 := rfl
    rw [h0, if_neg (not_not.mpr rfl)]
    exact mergeBlocks_coalesce m first [] rest b h
  · have hq : ((pre'.concat q).map addr).getLastD 0 = q.addr := by
      rw [List.concat_eq_append, List.map_append]
      exact List.getLastD_concat
    have h' := h
    rw [List.concat_eq_append, List.append_assoc, List.cons_append, List.nil_append] at h'
    have hq0 := h'.addr_ne_zero m first pre' _ q
    rw [hq, if_pos hq0, List.concat_eq_append, List.append_assoc, List.cons_append,
      List.nil_append]
    exact mergeBlocks_coalesce m first pre' _ q h'

/-- `kfree` of the data address of a block marks the block free and coalesces
    the whole chain. Only headers of the chain are written. -/
theorem kfree_spec (h : Heap) (pre rest : List Block) (b : Block)
    (hrep : Represents h.mem h.mDynFirstBlock (pre ++ b :: rest)) (hnull : data b.addr ≠ 0) :
    ∃ m', kfree (data b.addr) h = some { h with mem := m' } ∧
      Represents m' h.mDynFirstBlock (coalesce (markFree b.addr (pre ++ b :: rest))) ∧
      Untouched (pre ++ b :: rest) h.mem m' := by
  have hlen := hrep.length_lt h.mem h.mDynFirstBlock _
  rw [List.length_append, List.length_cons] at hlen
  have happart := (hrep.apart_of_mem h.mem h.mDynFirstBlock pre rest b).1
  have hpre : ∀ c ∈ pre, data c.addr ≠ data b.addr := by
    intro c hc heq
    have hlo := (happart c hc).1
    simp only [data] at heq
    bv_omega
  have hfind := kfreeFind_spec h.mem (data b.addr) rest b rfl pre h.mDynFirstBlock 0 turnBound
    (by omega) hrep.links hpre
  -- The flag is set first.
  have hset := represents_setFree h.mem h.mDynFirstBlock pre rest b hrep
  have hmark := markFree_middle h.mem h.mDynFirstBlock pre rest b hrep
  have hmem : b ∈ pre ++ b :: rest := List.mem_append_right pre List.mem_cons_self
  have hun1 : Untouched (pre ++ b :: rest) h.mem (setFree h.mem b.addr 1) :=
    untouched_of_sameOutside _ b _ _ hmem (sameOutside_setFree h.mem b.addr 1)
  -- Then the predecessor merges, or the block itself when it has none.
  rcases mergePrev_coalesce _ h.mDynFirstBlock pre rest { b with free := 1 } hset with
    ⟨m2, bs2, hmerge, hrep2, hco, hsub, hun2⟩
  -- Last, the loop over the whole chain coalesces what is left.
  rcases mergeAll_spec h.mDynFirstBlock turnBound [] bs2 m2
    (hrep2.length_lt m2 h.mDynFirstBlock bs2) hrep2 with ⟨m', hrun, hrep', hun3⟩
  have hstart : h.mDynFirstBlock = (bs2.map addr).headD 0 :=
    Links.head _ _ _ _ hrep2.links
  rw [← hstart] at hrun
  refine ⟨m', ?_, ?_, ?_⟩
  · simp only [kfree, if_neg hnull, hfind, Option.bind_some, kfreeBlock, hmerge, hrun,
      Option.map_some]
  · rw [hmark, ← hco]
    exact hrep'
  · have haddr : (pre ++ { b with free := 1 } :: rest).map addr = (pre ++ b :: rest).map addr := by
      rw [List.map_append, List.map_append, List.map_cons, List.map_cons]
    have hun2' : Untouched (pre ++ b :: rest) (setFree h.mem b.addr 1) m2 :=
      Untouched.mono _ _ _ _ (by rw [haddr]) hun2
    have hun3' : Untouched (pre ++ b :: rest) m2 m' :=
      Untouched.mono _ _ _ _ (by rw [← haddr]; exact hsub) hun3
    exact Untouched.trans _ _ _ _ (Untouched.trans _ _ _ _ hun1 hun2') hun3'

/-- `kfree` of an address that is no block of the chain changes nothing. -/
theorem kfree_absent (h : Heap) (bs : List Block) (ptr : Word)
    (hrep : Represents h.mem h.mDynFirstBlock bs) (habs : ∀ c ∈ bs, data c.addr ≠ ptr) :
    kfree ptr h = some h := by
  by_cases hptr : ptr = 0
  · rw [kfree, if_pos hptr]
  · have hfind := kfreeFind_absent h.mem ptr bs h.mDynFirstBlock 0 turnBound
      (hrep.length_lt h.mem h.mDynFirstBlock bs) hrep.links habs
    simp only [kfree, if_neg hptr, hfind, Option.bind_some]

end UnixP6
