import UnixP6.Theory.Heap.Release

/-!
# Releasing what was just Allocated

Whether `kfree` undoes `kmalloc`. The chain before has no free neighbours, so the
block that is split is free between blocks in use, and the release merges its
two halves again. Headers and flags come back; the size does not. The split
takes the difference of two `data` addresses, which counts in units of a
pointer, and the merge adds bytes: four times the size recorded as taken plus
four is never four times the size given back (`sizeLeft_ne`). For a request of
up to a gigabyte the block comes back twelve bytes larger.

One chain is restored all the same. A request near `2^32` passes the fit test
by wrapping, and the header of the remainder may then come to lie at null. The
allocation cuts the chain off there, and if the block was the last one and had
exactly the size of the request, the release has nothing to merge.

## Theorems

* `sizeLeft_ne`: The sizes of the two halves do not add up to the block.
* `Represents.sameOutside`: A change apart from every header keeps the chain.
* `splitBlock_null`: A split whose remainder is at null cuts the chain off.
* `kfree_kmalloc`, `kfree_kmalloc_null`: What the release makes of a split.
* `kmalloc_kfree_iff`: When releasing what was just allocated restores the chain.
-/

namespace UnixP6

open CSemantics Block MemBlock

/-- Shifting two bits out at the top and back in loses nothing of a multiple of
    four. -/
theorem sshiftRight_shiftLeft_two (y : Word) :
    ((y <<< 2).sshiftRight 2) <<< 2 = y <<< 2 := by
  ext i hi
  simp only [BitVec.getElem_shiftLeft]
  by_cases hlow : i < 2
  · simp only [hlow, decide_true, Bool.not_true, Bool.false_and]
  · have hback : 2 + (i - 2) = i := by omega
    have hlt : i - 2 < 32 := by omega
    simp only [hlow, decide_false, Bool.not_false, Bool.true_and, BitVec.getElem_sshiftRight,
      BitVec.getElem_shiftLeft, hback, hi, dif_pos]

/-- The sizes a split records do not add up to the size of the block. -/
theorem sizeLeft_ne (b : Block) (size : Word) : size + (sizeLeft b size + 16) ≠ b.size := by
  have hdiff : data (thirdHeader b.addr size) - data b.addr = (size + 4) <<< 2 := by
    simp only [data, thirdHeader]
    bv_omega
  have hback := sshiftRight_shiftLeft_two (size + 4)
  rw [sizeLeft, hdiff]
  generalize (((size + 4) <<< 2).sshiftRight 2) = taken at hback ⊢
  -- Times four, the two sides would differ by 48.
  intro heq
  have htaken : taken = size + 16 := by bv_omega
  rw [htaken] at hback
  bv_omega

/-! ### The chain between the two calls -/

/-- A change apart from every header of a chain leaves the chain. -/
theorem Represents.sameOutside (m m' : Mem) (first t : Word) (bs : List Block)
    (h : Represents m first bs) (hsame : SameOutside t 16 m m')
    (hapart : ∀ c ∈ bs, Apart t 16 c.addr 16) : Represents m' first bs := by
  have hkeep : ∀ c ∈ bs, next m' c.addr = next m c.addr ∧ free m' c.addr = free m c.addr ∧
      MemBlock.size m' c.addr = MemBlock.size m c.addr :=
    fun c hc => fields_sameOutside m m' t c.addr 16 hsame (hapart c hc)
  refine ⟨?_, fun c hc => ?_, h.apart⟩
  · refine Links.congr (next m) (next m') 0 (bs.map addr) first (fun x hx => ?_) h.links
    rcases List.mem_map.mp hx with ⟨c, hc, rfl⟩
    exact (hkeep c hc).1
  · rcases hkeep c hc with ⟨_, hfree, hsize⟩
    exact ⟨hfree.trans (h.fields c hc).1, hsize.trans (h.fields c hc).2⟩

/-- A chain in memory is one list of blocks. -/
theorem Represents.unique (m : Mem) (first : Word) (bs cs : List Block)
    (h : Represents m first bs) (h' : Represents m first cs) : bs = cs := by
  -- The links determine the addresses, and the headers the rest.
  have hread : ∀ ds, Represents m first ds →
      ds = (ds.map addr).map fun a => ⟨a, free m a, MemBlock.size m a⟩ := by
    intro ds hds
    rw [List.map_map]
    refine (List.map_id ds).symm.trans (List.map_congr_left (fun d hd => ?_))
    rcases hds.fields d hd with ⟨hfree, hsize⟩
    simp only [id, Function.comp, hfree, hsize]
  rw [hread bs h, hread cs h', Links.unique _ _ _ _ _ h.links h'.links]

section Pair

variable (h : Heap) (size : Word) (pre rest : List Block) (b : Block)
  (hrep : Represents h.mem h.mDynFirstBlock (pre ++ b :: rest))
  (hapart : ∀ c ∈ pre ++ b :: rest, Apart (thirdHeader b.addr size) 16 c.addr 16)

include hrep hapart

/-- A split whose remainder would be at null leaves the block as the last of the
    chain. -/
theorem splitBlock_null (h0 : thirdHeader b.addr size = 0) :
    Represents (splitBlock h.mem b.addr size 1) h.mDynFirstBlock (pre ++ [⟨b.addr, 0, size⟩]) := by
  rcases splitBlock_one h.mem b.addr size with ⟨m1, hnew, hold, hnext, hfree, hsize, _⟩
  have hrep1 := hrep.sameOutside h.mem m1 h.mDynFirstBlock _ _ hnew hapart
  refine Represents.edit m1 _ h.mDynFirstBlock pre rest [] b ⟨b.addr, 0, size⟩ ?_ hold rfl hfree
    hsize (hnext.trans h0)
  rw [List.append_nil]
  exact hrep1

variable (hfree : b.isFree = true) (hdata : data b.addr ≠ 0)
  (hchain : (pre ++ b :: rest).IsChain fun c d => ¬ (c.isFree ∧ d.isFree))

include hfree hdata hchain

/-- Releasing what was just allocated merges the two halves, whose sizes do not
    add up to what they were. -/
theorem kfree_kmalloc (h0 : thirdHeader b.addr size ≠ 0) :
    ∃ m', kfree (data b.addr) { h with mem := splitBlock h.mem b.addr size 1 }
        = some { h with mem := m' } ∧
      Represents m' h.mDynFirstBlock
        (pre ++ ⟨b.addr, 1, size + (sizeLeft b size + 16)⟩ :: rest) := by
  have hsplit := (splitBlock_spec h.mem h.mDynFirstBlock size pre rest b hrep h0 hapart).1
  rcases kfree_spec { h with mem := splitBlock h.mem b.addr size 1 } pre _ ⟨b.addr, 0, size⟩ hsplit
    hdata with ⟨m', hcall, hrep', _⟩
  refine ⟨m', hcall, ?_⟩
  rw [markFree_middle _ _ pre _ ⟨b.addr, 0, size⟩ hsplit] at hrep'
  -- The two halves merge, and nothing else has free neighbours.
  have hmerged : (pre ++ (⟨b.addr, 1, size + (sizeLeft b size + 16)⟩ : Block) :: rest).IsChain
      fun c d => ¬ (c.isFree ∧ d.isFree) := by
    refine isChain_of_map_free isFree _ _ ?_ hchain
    rw [List.map_append, List.map_append, List.map_cons, List.map_cons, hfree]
    rfl
  have hco : coalesce (pre ++ ⟨b.addr, 1, size⟩ ::
      ⟨thirdHeader b.addr size, 1, sizeLeft b size⟩ :: rest)
      = pre ++ ⟨b.addr, 1, size + (sizeLeft b size + 16)⟩ :: rest := by
    rw [coalesce_eq, collapse_middle isFree absorb merging_absorb pre rest _ _ rfl rfl]
    exact collapse_of_isChain isFree absorb _ hmerged
  rw [← hco]
  exact hrep'

/-- With the remainder at null there is nothing to merge with. -/
theorem kfree_kmalloc_null (h0 : thirdHeader b.addr size = 0) :
    ∃ m', kfree (data b.addr) { h with mem := splitBlock h.mem b.addr size 1 }
        = some { h with mem := m' } ∧
      Represents m' h.mDynFirstBlock (pre ++ [⟨b.addr, 1, size⟩]) := by
  have hsplit := splitBlock_null h size pre rest b hrep hapart h0
  rcases kfree_spec { h with mem := splitBlock h.mem b.addr size 1 } pre [] ⟨b.addr, 0, size⟩ hsplit
    hdata with ⟨m', hcall, hrep', _⟩
  refine ⟨m', hcall, ?_⟩
  rw [markFree_middle _ _ pre _ ⟨b.addr, 0, size⟩ hsplit] at hrep'
  have hfront : (pre ++ [(⟨b.addr, 1, size⟩ : Block)]).IsChain
      fun c d => ¬ (c.isFree ∧ d.isFree) := by
    have hpre : (pre ++ [b]).IsChain fun c d => ¬ (c.isFree ∧ d.isFree) := by
      refine hchain.infix (List.IsPrefix.isInfix ⟨rest, ?_⟩)
      rw [List.append_assoc, List.singleton_append]
    refine isChain_of_map_free isFree _ _ ?_ hpre
    rw [List.map_append, List.map_append, List.map_singleton, List.map_singleton, hfree]
    rfl
  have hco : coalesce (pre ++ [⟨b.addr, 1, size⟩]) = pre ++ [⟨b.addr, 1, size⟩] := by
    rw [coalesce_eq]
    exact collapse_of_isChain isFree absorb _ hfront
  rw [← hco]
  exact hrep'

end Pair

/-- If nothing before the last element passes a test, what passes it is the last. -/
theorem last_of_first (test : Block → Bool) (pre rest pre' : List Block) (b b' : Block)
    (heq : pre ++ b :: rest = pre' ++ [b']) (hb : test b = true)
    (hpre' : ∀ c ∈ pre', test c = false) : pre = pre' ∧ b = b' ∧ rest = [] := by
  rcases List.eq_nil_or_concat rest with rfl | ⟨rest', c, rfl⟩
  · rcases List.append_inj' heq rfl with ⟨rfl, hbb⟩
    exact ⟨rfl, (List.cons.inj hbb).1, rfl⟩
  · -- Otherwise it would be one of those before.
    rw [List.concat_eq_append, ← List.cons_append, ← List.append_assoc] at heq
    have hmem : b ∈ pre' := by
      rw [← (List.append_inj' heq rfl).1]
      exact List.mem_append_right pre List.mem_cons_self
    rw [hpre' b hmem] at hb
    exact absurd hb Bool.false_ne_true

/-- Releasing what was just allocated gives the chain back only where the
    remainder is at null, the block was the last and it had the size of the
    request. -/
theorem kmalloc_kfree_iff (h h1 : Heap) (size p : Word) (bs : List Block)
    (hrep : Represents h.mem h.mDynFirstBlock bs)
    (hchain : bs.IsChain fun c d => ¬ (c.isFree ∧ d.isFree))
    (hcall : kmalloc size h = some (p, h1)) (hp : p ≠ 0)
    (hapart : ∀ c ∈ bs, Apart (p + 4 * size) 16 c.addr 16) :
    (∃ h2, kfree p h1 = some h2 ∧ Represents h2.mem h2.mDynFirstBlock bs) ↔
      ∃ pre b, bs = pre ++ [b] ∧ (∀ c ∈ pre, c.fits size 1 = false) ∧ b.free = 1 ∧
        b.size = size ∧ thirdHeader b.addr size = 0 := by
  rcases kalignedAlloc_found h h1 size 1 p bs hrep hcall hp with
    ⟨pre, b, rest, rfl, hpre, hb, rfl, rfl⟩
  rw [secondHeader_one] at hp hapart ⊢
  have hfree : b.isFree = true := by
    simp only [Block.fits, Bool.and_eq_true] at hb
    exact hb.1
  constructor
  · rintro ⟨h2, hret, hrep2⟩
    -- Whatever the release is known to leave is the chain there was.
    have hback : ∀ h' c cs, some h2 = some h' →
        Represents h'.mem h'.mDynFirstBlock (pre ++ c :: cs) → b = c ∧ rest = cs := by
      intro h' c cs hcall' hrep'
      rw [Option.some.inj hcall'] at hrep2
      have heq := hrep2.unique _ _ _ _ hrep'
      rw [List.append_cancel_left_eq, List.cons.injEq] at heq
      exact heq
    by_cases h0 : thirdHeader b.addr size = 0
    · rcases kfree_kmalloc_null h size pre rest b hrep hapart hfree hp hchain h0 with
        ⟨m', hcall', hrep'⟩
      rcases hback _ _ _ (hret.symm.trans hcall') hrep' with ⟨hblock, rfl⟩
      exact ⟨pre, b, rfl, hpre, by rw [hblock], by rw [hblock], h0⟩
    · rcases kfree_kmalloc h size pre rest b hrep hapart hfree hp hchain h0 with
        ⟨m', hcall', hrep'⟩
      have heq := hback _ _ _ (hret.symm.trans hcall') hrep'
      exact absurd (congrArg Block.size heq.1).symm (sizeLeft_ne b size)
  · rintro ⟨pre', b', heq, hpre', hone, hsize, h0⟩
    rcases last_of_first (fun c => c.fits size 1) pre rest pre' b b' heq hb hpre' with
      ⟨rfl, rfl, rfl⟩
    rcases kfree_kmalloc_null h size pre [] b hrep hapart hfree hp hchain h0 with
      ⟨m', hcall', hrep'⟩
    refine ⟨_, hcall', ?_⟩
    rw [← hone, ← hsize] at hrep'
    exact hrep'

theorem kmalloc_kfree_iff_sixteen :
    ¬ ∃ h2, kfree 0x200010 (Session.afterOne 16).heap = some h2 ∧
      Represents h2.mem h2.mDynFirstBlock Session.oneBlock := by
  intro hback
  rcases (kmalloc_kfree_iff (Session.blank.place 0x200000) (Session.afterOne 16).heap 16 0x200010
    Session.oneBlock (Session.represents_place Session.blank 0x200000 (by decide))
    (List.IsChain.singleton _) (Session.kmalloc_oneBlock 16 (by decide) (by decide)) (by decide)
    (fun c hc => by rw [List.mem_singleton.mp hc]; exact ⟨by decide, by decide⟩)).mp hback with
    ⟨pre, b, hb, _, _, hsize, _⟩
  have hmem : b ∈ Session.oneBlock := by
    rw [hb]
    exact List.mem_append_right pre List.mem_cons_self
  rw [List.mem_singleton.mp hmem] at hsize
  exact absurd hsize (by decide)

/-- Sixteen bytes taken from a heap just set up and given back leave a block of
    `0xFFFFC` bytes where there were `0xFFFF0`. -/
theorem kmalloc_kfree_grows :
    ¬ ∀ (h h1 : Heap) (size p : Word) (bs : List Block),
      Represents h.mem h.mDynFirstBlock bs → (bs.IsChain fun c d => ¬ (c.isFree ∧ d.isFree)) →
      kmalloc size h = some (p, h1) → p ≠ 0 → (∀ c ∈ bs, Apart (p + 4 * size) 16 c.addr 16) →
      ∃ h2, kfree p h1 = some h2 ∧ Represents h2.mem h2.mDynFirstBlock bs := by
  intro hall
  have hrep := Session.represents_place Session.blank 0x200000 (by decide)
  have hapart : ∀ c ∈ Session.oneBlock, Apart 0x200050 16 c.addr 16 := by
    intro c hc
    rw [List.mem_singleton.mp hc]
    exact ⟨by decide, by decide⟩
  rcases hall (Session.blank.place 0x200000) (Session.afterOne 16).heap 16 0x200010 Session.oneBlock hrep
    (List.IsChain.singleton _) (Session.kmalloc_oneBlock 16 (by decide) (by decide)) (by decide) hapart with
    ⟨h2, hret, hrep2⟩
  rcases kfree_kmalloc (Session.blank.place 0x200000) 16 [] [] ⟨0x200000, 1, 0xFFFF0⟩ hrep hapart rfl
    (by decide) (List.IsChain.singleton _) (by decide) with ⟨m', hret', hrep'⟩
  have hsame : some h2 = some { Session.blank.place 0x200000 with mem := m' } :=
    hret.symm.trans hret'
  rw [Option.some.injEq] at hsame
  rw [hsame] at hrep2
  exact absurd (hrep2.unique _ _ _ _ hrep') (by decide)

end UnixP6
