import UnixP6.CSemantics.Run
import UnixP6.Theory.Heap.Alloc

/-!
# Runs of the Heap

A session is the heap together with what its callers hold: every pointer
`kmalloc` has returned, and the pointer and size of every allocation not yet
released. A caller may ask for anything up to the size of the heap and may
release any pointer it was ever given, a pointer released before included.

The layout survives every release. It survives an allocation only when the
block the request fits in has room for what the split writes: the header of the
remainder goes four bytes past the block's own header for every byte
requested, while the test before the split compares recorded sizes, which are
themselves in those smaller units. `RoomForTail` is that condition, and
`run_contained` says that it is all there is: a run that never splits a block
without room keeps every header and every live payload inside the heap and off
one another.

## Main definitions

* `HeapCall`: The calls of a session.
* `Session`: The heap with the pointers its callers hold.
* `Session.Allowed`: The calls a caller may make.
* `Session.RoomForTail`: The remainder of the split fits in the block.
* `Session.Contained`: Headers and live payloads, inside the heap and disjoint.
* `Session.Inv`: The chain behind a session, laid out without overlap.

## Theorems

* `Inv.contained`: The invariant gives containment and disjointness.
* `inv_kmalloc`: An allocation with room for the remainder keeps the invariant.
* `inv_kfree`: A release keeps the invariant.
* `run_contained`: Every run with room for each remainder stays contained.
* `run_not_contained`: One large request puts a header outside the heap.
-/

namespace UnixP6

open CSemantics
open Block (addr isFree used used_eq_size)
open MemBlock (next data)

/-- A call to the allocator. -/
inductive HeapCall
  | kmalloc (size : Word)
  | kfree (ptr : Word)
deriving Repr, DecidableEq

/-- The heap, the pointers it has returned, and the allocations still held. -/
structure Session where
  heap : Heap
  returned : List Word
  live : List (Word × Word)

namespace Session

/-- A heap just set up at `base`, with nothing allocated. -/
def start (h : Heap) (base : Word) : Session :=
  { heap := h.place base, returned := [], live := [] }

/-- One call. A null result of `kmalloc` is no allocation. -/
def call (s : Session) : HeapCall → Option Session
  | .kmalloc size => (kmalloc size s.heap).map fun (ph : Word × Heap) =>
      { heap := ph.2
        returned := ph.1 :: s.returned
        live := if ph.1 = 0 then s.live else (ph.1, size) :: s.live }
  | .kfree ptr => (kfree ptr s.heap).map fun h =>
      { s with heap := h, live := s.live.filter fun pn => pn.1 ≠ ptr }

/-- The calls a caller may make. -/
def Allowed (s : Session) : HeapCall → Prop
  | .kmalloc size => size ≤ s.heap.mDynTotal
  | .kfree ptr => ptr ∈ s.returned

instance (s : Session) : (c : HeapCall) → Decidable (s.Allowed c)
  | .kmalloc size => inferInstanceAs (Decidable (size ≤ s.heap.mDynTotal))
  | .kfree ptr => inferInstanceAs (Decidable (ptr ∈ s.returned))

def Step (s : Session) (c : HeapCall) (t : Session) : Prop :=
  s.Allowed c ∧ s.call c = some t

/-- One past the last address of the heap. -/
def limit (s : Session) : Nat := s.heap.mDynBase.toNat + s.heap.mDynTotal.toNat

/-- The first block the request fits in has room, before the next header or the
    end of the heap, for two headers and four times the size requested. -/
def RoomForTail (s : Session) : HeapCall → Prop
  | .kfree _ => True
  | .kmalloc size => size ≠ 0 → ∀ pre b rest,
      Represents s.heap.mem s.heap.mDynFirstBlock (pre ++ b :: rest) →
      (∀ c ∈ pre, c.fits size 1 = false) → b.fits size 1 = true →
      b.addr.toNat + 32 + 4 * size.toNat ≤ startOr s.limit rest

/-- Headers and live payloads lie inside the heap and do not overlap. -/
def Contained (s : Session) : Prop :=
  ∃ headers, Links (next s.heap.mem) 0 s.heap.mDynFirstBlock headers ∧
    (∀ a ∈ headers, span a.toNat 16 ⊆ span s.heap.mDynBase.toNat s.heap.mDynTotal.toNat) ∧
    (∀ pn ∈ s.live,
      span pn.1.toNat pn.2.toNat ⊆ span s.heap.mDynBase.toNat s.heap.mDynTotal.toNat) ∧
    s.live.Pairwise (fun pn qk => Disjoint (span pn.1.toNat pn.2.toNat)
      (span qk.1.toNat qk.2.toNat)) ∧
    headers.Pairwise (fun a c => Disjoint (span a.toNat 16) (span c.toNat 16)) ∧
    ∀ a ∈ headers, ∀ pn ∈ s.live, Disjoint (span a.toNat 16) (span pn.1.toNat pn.2.toNat)

/-- Every byte of a payload live in `s` is the same in `t`. -/
def KeepsPayloads (s t : Session) : Prop :=
  ∀ pn ∈ s.live, ∀ x : Word, x.toNat ∈ span pn.1.toNat pn.2.toNat → t.heap.mem x = s.heap.mem x

/-- The chain behind the session: headers and used payloads in address order
    from the base to the limit, the used ones being the live allocations. -/
structure Inv (s : Session) (bs : List Block) : Prop where
  chain : Represents s.heap.mem s.heap.mDynFirstBlock bs
  tiled : Tiled s.limit bs
  above : s.heap.mDynBase.toNat ≤ startOr s.limit bs
  below : s.limit ≤ 2 ^ 32
  live : s.live.Perm (payloads bs)
  notNull : ∀ pn ∈ s.live, pn.1 ≠ 0

/-! ### What the invariant gives -/

section Layout

variable (s : Session) (bs : List Block) (h : Inv s bs)

include h

/-- A live payload belongs to a used block of the chain. -/
theorem Inv.live_block (pn : Word × Word) (hpn : pn ∈ s.live) :
    ∃ b ∈ bs, b.isFree = false ∧ pn = (b.addr + 16, b.size) ∧
      pn.1.toNat = b.addr.toNat + 16 := by
  have hmem := h.live.mem_iff.mp hpn
  simp only [payloads, List.mem_map, List.mem_filter, Bool.not_eq_true'] at hmem
  rcases hmem with ⟨b, ⟨hb, hused⟩, hpair⟩
  have hhi := (Tiled.le_limit s.limit bs h.tiled b hb).2
  have hlim := h.below
  have hnn := h.notNull pn hpn
  refine ⟨b, hb, hused, hpair.symm, ?_⟩
  rw [← hpair] at hnn ⊢
  simp only [] at hnn ⊢
  bv_omega

theorem Inv.header_inside (b : Block) (hb : b ∈ bs) :
    s.heap.mDynBase.toNat ≤ b.addr.toNat ∧ b.addr.toNat + 16 + b.used ≤ s.limit := by
  have hle := Tiled.le_limit s.limit bs h.tiled b hb
  exact ⟨h.above.trans hle.1, hle.2⟩

/-- A header is clear of every live payload, whichever comes first. -/
theorem Inv.header_payload (b : Block) (hb : b ∈ bs) (pn : Word × Word) (hpn : pn ∈ s.live) :
    b.addr.toNat + 16 ≤ pn.1.toNat ∨ pn.1.toNat + pn.2.toNat ≤ b.addr.toNat := by
  rcases h.live_block s bs pn hpn with ⟨c, hc, hused, hpair, hp⟩
  have husedSize := used_eq_size c hused
  have hsize : pn.2 = c.size := by rw [hpair]
  rw [hp, hsize]
  have hpw := Tiled.pairwise s.limit bs h.tiled
  rcases List.append_of_mem hb with ⟨pre, rest, rfl⟩
  rw [List.pairwise_append, List.pairwise_cons] at hpw
  -- The block of the payload is in front of the header, is its own, or is after it.
  rcases List.mem_append.mp hc with hc | hc
  · have hle := hpw.2.2 c hc b List.mem_cons_self
    omega
  · rcases List.mem_cons.mp hc with rfl | hc
    · omega
    · have hle := hpw.2.1.1 c hc
      omega

theorem Inv.headers_apart :
    (bs.map addr).Pairwise fun a c => Disjoint (span a.toNat 16) (span c.toNat 16) := by
  rw [List.pairwise_map]
  refine (Tiled.pairwise s.limit bs h.tiled).imp (fun {b c} hbc => ?_)
  exact disjoint_span _ _ _ _ (Or.inl (by omega))

theorem Inv.live_apart :
    s.live.Pairwise fun pn qk => Disjoint (span pn.1.toNat pn.2.toNat)
      (span qk.1.toNat qk.2.toNat) := by
  refine (h.live.pairwise_iff (fun {_ _} hd => hd.symm)).mpr ?_
  have hsub : (bs.filter fun b => !b.isFree).Sublist bs := List.filter_sublist
  have hpw := (Tiled.pairwise s.limit bs h.tiled).sublist hsub
  rw [payloads, List.pairwise_map]
  refine hpw.imp_of_mem (fun {b c} hb hc hbc => ?_)
  rw [List.mem_filter] at hb hc
  have hbused := used_eq_size b (by simpa only [Bool.not_eq_true'] using hb.2)
  have hcused := used_eq_size c (by simpa only [Bool.not_eq_true'] using hc.2)
  have hlimb := (h.header_inside s bs b hb.1).2
  have hlimc := (h.header_inside s bs c hc.1).2
  have hlim := h.below
  -- The data address has not wrapped to null, so it is the number it should be.
  have hcp : c.addr + 16 ≠ 0 := by
    refine h.notNull (c.addr + 16, c.size) (h.live.mem_iff.mpr ?_)
    exact List.mem_map.mpr ⟨c, List.mem_filter.mpr hc, rfl⟩
  refine disjoint_span _ _ _ _ (Or.inl ?_)
  bv_omega

/-- The invariant gives containment and disjointness. -/
theorem Inv.contained : s.Contained := by
  refine ⟨bs.map addr, h.chain.links, ?_, ?_, h.live_apart, h.headers_apart, ?_⟩
  · intro a ha
    rcases List.mem_map.mp ha with ⟨b, hb, rfl⟩
    have hin := h.header_inside s bs b hb
    exact span_subset _ _ _ _ hin.1 (by simp only [limit] at hin; omega)
  · intro pn hpn
    rcases h.live_block s bs pn hpn with ⟨b, hb, hused, hpair, hp⟩
    have hin := h.header_inside s bs b hb
    have hsize : pn.2.toNat = b.used := by
      rw [hpair, used_eq_size b hused]
    exact span_subset _ _ _ _ (by omega) (by simp only [limit] at hin; omega)
  · intro a ha pn hpn
    rcases List.mem_map.mp ha with ⟨b, hb, rfl⟩
    have hor := h.header_payload s bs b hb pn hpn
    exact disjoint_span _ _ _ _ (by omega)

/-- An address in a live payload is outside every header. -/
theorem Inv.far_header (pn : Word × Word) (hpn : pn ∈ s.live) (x : Word)
    (hx : x.toNat ∈ span pn.1.toNat pn.2.toNat) (b : Block) (hb : b ∈ bs) : Far b.addr 16 x := by
  have hor := h.header_payload s bs b hb pn hpn
  have hin := h.header_inside s bs b hb
  have hlim := h.below
  rcases Set.mem_Ico.mp hx with ⟨hlo, hhi⟩
  exact far_of_lt_or_le b.addr x 16 (by omega) (by omega)

/-- A change to headers only leaves every live payload alone. -/
theorem Inv.keeps_of_untouched (t : Session) (hun : Untouched bs s.heap.mem t.heap.mem) :
    s.KeepsPayloads t :=
  fun pn hpn x hx => hun x (fun b hb => h.far_header s bs pn hpn x hx b hb)

end Layout

/-! ### What a call keeps -/

/-- A call changes memory and no global of the heap. -/
theorem call_globals (s t : Session) (c : HeapCall) (h : s.call c = some t) :
    t.heap.mDynBase = s.heap.mDynBase ∧ t.heap.mDynTotal = s.heap.mDynTotal := by
  cases c with
  | kmalloc size =>
      simp only [call, kmalloc, kalignedAlloc, Option.map_eq_some_iff] at h
      rcases h with ⟨ph, hph, rfl⟩
      by_cases hsize : size = 0
      · rw [if_pos hsize, Option.some.injEq] at hph
        rw [← hph]
        exact ⟨rfl, rfl⟩
      · rw [if_neg hsize, Option.map_eq_some_iff] at hph
        rcases hph with ⟨block, _, rfl⟩
        by_cases hblock : block = 0
        · rw [if_pos hblock]
          exact ⟨rfl, rfl⟩
        · rw [if_neg hblock]
          exact ⟨rfl, rfl⟩
  | kfree ptr =>
      simp only [call, kfree, Option.map_eq_some_iff] at h
      rcases h with ⟨h', hh', rfl⟩
      by_cases hptr : ptr = 0
      · rw [if_pos hptr, Option.some.injEq] at hh'
        rw [← hh']
        exact ⟨rfl, rfl⟩
      · rw [if_neg hptr, Option.bind_eq_some_iff] at hh'
        rcases hh' with ⟨found, _, hfound⟩
        rcases found with _ | ⟨block, prev⟩
        · simp only [Option.some.injEq] at hfound
          rw [← hfound]
          exact ⟨rfl, rfl⟩
        · simp only [kfreeBlock, Option.bind_eq_some_iff, Option.map_eq_some_iff] at hfound
          rcases hfound with ⟨_, _, _, _, rfl⟩
          exact ⟨rfl, rfl⟩

/-- The chain of a heap just set up is one free block. -/
theorem represents_place (h : Heap) (base : Word) (h0 : base ≠ 0) :
    Represents (h.place base).mem (h.place base).mDynFirstBlock
      [⟨base, 1, memDynamicMinSize - 16⟩] := by
  refine ⟨⟨rfl, h0, ?_⟩, ?_, List.pairwise_singleton _ _⟩
  · simp only [Heap.place, List.map_nil, Links, next_setNext]
  · intro b hb
    rw [List.mem_singleton.mp hb]
    simp only [Heap.place, free_setNext, free_setSize, free_setFree, size_setNext,
      size_setSize, and_self]

/-- The heap as it is set up has one block, or none if it is at null. -/
theorem inv_start (h : Heap) (base : Word) (hbase : base.toNat + 0x100000 ≤ 2 ^ 32) :
    ∃ bs, Inv (start h base) bs := by
  have hlimit : (start h base).limit = base.toNat + 0x100000 := rfl
  by_cases h0 : base = 0
  · -- At null the chain is empty from the first link on.
    refine ⟨[], ⟨h0, fun b hb => absurd hb List.not_mem_nil, List.Pairwise.nil⟩, trivial, ?_, ?_,
      List.Perm.refl [], fun pn hpn => absurd hpn List.not_mem_nil⟩
    · exact Nat.le_add_right _ _
    · exact hlimit.trans_le hbase
  · refine ⟨[⟨base, 1, memDynamicMinSize - 16⟩], represents_place h base h0, ⟨?_, trivial⟩,
      Nat.le_refl _, hlimit.trans_le hbase, List.Perm.refl [],
      fun pn hpn => absurd hpn List.not_mem_nil⟩
    have hused : used ⟨base, 1, memDynamicMinSize - 16⟩ = 0 := rfl
    rw [hused]
    simp only [startOr]
    omega

section Split

variable (s : Session) (size : Word) (pre rest : List Block) (b : Block)
  (h : Inv s (pre ++ b :: rest)) (hpos : 0 < size.toNat)
  (hfit : b.addr.toNat + 32 + 4 * size.toNat ≤ startOr s.limit rest)

include h hpos hfit

theorem toNat_thirdHeader :
    (thirdHeader b.addr size).toNat = b.addr.toNat + 16 + 4 * size.toNat := by
  rcases Tiled.after s.limit pre b rest h.tiled with ⟨_, htrest⟩
  have hstart := Tiled.start_le s.limit rest htrest
  have hlim := h.below
  simp only [thirdHeader, data]
  bv_omega

/-- The header of the remainder starts past the block's own and ends before what
    follows. -/
theorem thirdHeader_apart :
    ∀ c ∈ pre ++ b :: rest, Apart (thirdHeader b.addr size) 16 c.addr 16 := by
  have hthird := toNat_thirdHeader s size pre rest b h hpos hfit
  rcases Tiled.after s.limit pre b rest h.tiled with ⟨_, htrest⟩
  have hstart := Tiled.start_le s.limit rest htrest
  have hlim := h.below
  have hpw := Tiled.pairwise s.limit _ h.tiled
  rw [List.pairwise_append, List.pairwise_cons] at hpw
  intro c hc
  rcases List.mem_append.mp hc with hc | hc
  · have hcb := hpw.2.2 c hc b List.mem_cons_self
    exact (apart_of_le c.addr _ 16 16 (by omega) (by omega) (by omega)).symm
  · rcases List.mem_cons.mp hc with rfl | hc
    · exact (apart_of_le c.addr _ 16 16 (by omega) (by omega) (by omega)).symm
    · have hcr := Tiled.le_limit s.limit rest htrest c hc
      exact apart_of_le _ c.addr 16 16 (by omega) (by omega) (by omega)

/-- It lies past the header of the block, so it is not at null. -/
theorem thirdHeader_ne_zero : thirdHeader b.addr size ≠ 0 := by
  have hthird := toNat_thirdHeader s size pre rest b h hpos hfit
  intro hc
  rw [hc, toNat_word_zero] at hthird
  omega

/-- With the block split in any memory, the invariant holds of the allocation
    added to the live ones. -/
theorem inv_split (m : Mem) (hfree : b.isFree = true) (hdata : data b.addr ≠ 0)
    (hchain : Represents m s.heap.mDynFirstBlock
      (pre ++ ⟨b.addr, 0, size⟩ :: ⟨thirdHeader b.addr size, 1, sizeLeft b size⟩ :: rest)) :
    Inv { heap := { s.heap with mem := m }
          returned := data b.addr :: s.returned
          live := (data b.addr, size) :: s.live }
      (pre ++ ⟨b.addr, 0, size⟩ :: ⟨thirdHeader b.addr size, 1, sizeLeft b size⟩ :: rest) := by
  have hthird := toNat_thirdHeader s size pre rest b h hpos hfit
  -- The chain still starts where it did, be that at the block or before it.
  have hstartOr : ∀ b' : Block, ∀ rest', b'.addr = b.addr →
      startOr s.limit (pre ++ b' :: rest') = startOr s.limit (pre ++ b :: rest) := by
    intro b' rest' hb'
    cases pre with
    | nil => exact congrArg BitVec.toNat hb'
    | cons c cs => rfl
  refine ⟨hchain, ?_, ?_, h.below, ?_, ?_⟩
  · exact tiled_split s.limit pre rest b size _ _ h.tiled (by omega) (by omega)
  · exact h.above.trans_eq (hstartOr ⟨b.addr, 0, size⟩ _ rfl).symm
  · have hold := h.live
    rw [payloads_append, payloads_cons, if_pos hfree] at hold
    rw [payloads_split]
    exact (hold.cons _).trans List.perm_middle.symm
  · intro pn hpn
    rcases List.mem_cons.mp hpn with rfl | hpn
    · exact hdata
    · exact h.notNull pn hpn

end Split

/-- An allocation with room for the remainder keeps the invariant and every
    live payload. -/
theorem inv_kmalloc (s : Session) (bs : List Block) (size : Word) (h : Inv s bs)
    (hroom : s.RoomForTail (.kmalloc size)) :
    ∃ t bs', s.call (.kmalloc size) = some t ∧ Inv t bs' ∧ s.KeepsPayloads t := by
  by_cases hnone : size = 0 ∨ ∀ c ∈ bs, c.fits size 1 = false
  · -- Nothing is found, so the result is null and the session is as before.
    refine ⟨{ s with returned := 0 :: s.returned }, bs, ?_,
      ⟨h.chain, h.tiled, h.above, h.below, h.live, h.notNull⟩, fun _ _ _ _ => rfl⟩
    simp only [call, kmalloc_none s.heap size bs h.chain hnone, Option.map_some, if_pos]
  · rw [not_or] at hnone
    rcases hnone with ⟨hsize, hsome⟩
    rcases (firstFit_cases size 1 bs).resolve_left hsome with ⟨pre, b, rest, rfl, hpre, hfits⟩
    have hfit := hroom hsize pre b rest h.chain hpre hfits
    have hpos : 0 < size.toNat := by bv_omega
    rcases splitBlock_spec s.heap.mem s.heap.mDynFirstBlock size pre rest b h.chain
      (thirdHeader_ne_zero s size pre rest b h hpos hfit)
      (thirdHeader_apart s size pre rest b h hpos hfit) with ⟨hchain, hkeep⟩
    have hdata : data b.addr ≠ 0 := by
      have hthird := toNat_thirdHeader s size pre rest b h hpos hfit
      have hlt := (thirdHeader b.addr size).isLt
      simp only [data]
      bv_omega
    have hfree : b.isFree = true := by
      simp only [Block.fits, Bool.and_eq_true] at hfits
      exact hfits.1
    have hinv := inv_split s size pre rest b h hpos hfit _ hfree hdata hchain
    refine ⟨_, _, ?_, hinv, fun pn hpn x hx => ?_⟩
    · simp only [call, kmalloc_spec s.heap size pre rest b hsize h.chain hpre hfits,
        Option.map_some, if_neg hdata]
    · -- Both headers written are headers of the new chain, so no payload of it
      -- meets them, and every old payload is one of them.
      have hfar := hinv.far_header _ _ pn (List.mem_cons_of_mem (data b.addr, size) hpn) x hx
      exact hkeep x
        (hfar ⟨b.addr, 0, size⟩ (List.mem_append_right pre List.mem_cons_self))
        (hfar ⟨thirdHeader b.addr size, 1, sizeLeft b size⟩
          (List.mem_append_right pre (List.mem_cons_of_mem _ List.mem_cons_self)))

/-- A release keeps the invariant and every live payload. -/
theorem inv_kfree (s : Session) (bs : List Block) (ptr : Word) (h : Inv s bs) :
    ∃ t bs', s.call (.kfree ptr) = some t ∧ Inv t bs' ∧ s.KeepsPayloads t := by
  by_cases hblock : ptr ≠ 0 ∧ ∃ b ∈ bs, data b.addr = ptr
  · rcases hblock with ⟨hptr, b, hb, rfl⟩
    rcases List.append_of_mem hb with ⟨pre, rest, rfl⟩
    rcases kfree_spec s.heap pre rest b h.chain hptr with ⟨m', hrun, hchain, hun⟩
    refine ⟨{ s with
        heap := { s.heap with mem := m' }
        live := s.live.filter fun pn => pn.1 ≠ data b.addr },
      coalesce (markFree b.addr (pre ++ b :: rest)), ?_, ⟨hchain, ?_, ?_, h.below, ?_, ?_⟩,
      h.keeps_of_untouched s _ _ hun⟩
    · simp only [call, hrun, Option.map_some]
    · exact tiled_coalesce s.limit _ (tiled_markFree s.limit b.addr _ h.tiled)
    · refine h.above.trans_eq ?_
      exact ((startOr_coalesce s.limit _).trans (startOr_markFree s.limit b.addr _)).symm
    · rw [payloads_coalesce, payloads_markFree]
      exact h.live.filter _
    · exact fun pn hpn => h.notNull pn (List.mem_of_mem_filter hpn)
  · -- No block has this data address, so it is no live pointer either.
    have hlive : s.live.filter (fun pn => pn.1 ≠ ptr) = s.live := by
      rw [List.filter_eq_self]
      intro pn hpn
      rw [decide_eq_true_eq]
      intro heq
      rcases h.live_block s bs pn hpn with ⟨b, hb, _, hpair, _⟩
      refine hblock ⟨heq ▸ h.notNull pn hpn, b, hb, ?_⟩
      rw [← heq, hpair]
      rfl
    have hrun : kfree ptr s.heap = some s.heap := by
      by_cases hptr : ptr = 0
      · rw [kfree, if_pos hptr]
      · exact kfree_absent s.heap bs ptr h.chain (fun c hc hd => hblock ⟨hptr, c, hc, hd⟩)
    refine ⟨s, bs, ?_, h, fun _ _ _ _ => rfl⟩
    simp only [call, hrun, Option.map_some, hlive]

/-! ### Whole runs -/

/-- In every run from a heap just set up whose allocations all have room for
    the remainder, headers and live payloads stay inside the heap and off one
    another, and every further such call returns, stays so, and leaves the
    live payloads as they were. -/
theorem run_contained (h : Heap) (base : Word) (hbase : base.toNat + 0x100000 ≤ 2 ^ 32)
    (calls : List HeapCall) (s : Session)
    (hrun : Run (Guarded RoomForTail Step) (start h base) calls s) :
    s.heap.mDynBase = base ∧ s.heap.mDynTotal = 0x100000 ∧ s.Contained ∧
      ∀ c, s.Allowed c → s.RoomForTail c →
        ∃ t, s.Step c t ∧ t.Contained ∧ s.KeepsPayloads t := by
  -- Every call of either kind keeps the invariant and the payloads.
  have hone : ∀ s bs c, Inv s bs → s.RoomForTail c →
      ∃ t bs', s.call c = some t ∧ Inv t bs' ∧ s.KeepsPayloads t := by
    intro s bs c hs hroom
    cases c with
    | kmalloc size => exact inv_kmalloc s bs size hs hroom
    | kfree ptr => exact inv_kfree s bs ptr hs
  have hinv := Run.invariant (Guarded RoomForTail Step)
    (fun s => (∃ bs, Inv s bs) ∧ s.heap.mDynBase = base ∧ s.heap.mDynTotal = 0x100000)
    (fun s c t ⟨⟨bs, hs⟩, hb, ht⟩ ⟨hroom, _, hcall⟩ => by
      rcases hone s bs c hs hroom with ⟨t', bs', hcall', ht', _⟩
      rw [hcall, Option.some.injEq] at hcall'
      rcases call_globals s t c hcall with ⟨hgb, hgt⟩
      exact ⟨⟨bs', hcall' ▸ ht'⟩, hgb.trans hb, hgt.trans ht⟩)
    (start h base) s calls hrun ⟨inv_start h base hbase, rfl, rfl⟩
  rcases hinv with ⟨⟨bs, hs⟩, hb, ht⟩
  refine ⟨hb, ht, hs.contained, fun c hallowed hroom => ?_⟩
  rcases hone s bs c hs hroom with ⟨t, bs', hcall, htInv, hkeep⟩
  exact ⟨t, ⟨hallowed, hcall⟩, htInv.contained, hkeep⟩

/-- A heap over blank memory, not yet set up. -/
def blank : Heap :=
  { mem := fun _ => 0, mDynAvailable := 0, mDynTotal := 0, mDynBase := 0, mDynFirstBlock := 0 }

/-- One allocation from a heap just set up at `0x200000`. -/
def afterOne (size : Word) : Session :=
  { heap := { blank.place 0x200000 with
      mem := splitBlock (blank.place 0x200000).mem 0x200000 size 1 }
    returned := [0x200010]
    live := [(0x200010, size)] }

/-- The chain of that heap before it: one free block. -/
def oneBlock : List Block := [⟨0x200000, 1, 0xFFFF0⟩]

theorem kmalloc_oneBlock (size : Word) (hsize : size ≠ 0)
    (hfits : (⟨0x200000, 1, 0xFFFF0⟩ : Block).fits size 1 = true) :
    kmalloc size (blank.place 0x200000) = some (0x200010, (afterOne size).heap) :=
  kmalloc_spec (blank.place 0x200000) size [] [] ⟨0x200000, 1, 0xFFFF0⟩ hsize
    (represents_place blank 0x200000 (by decide)) (fun _ hc => absurd hc List.not_mem_nil) hfits

theorem call_blank (size : Word) (hsize : size ≠ 0)
    (hfits : (⟨0x200000, 1, 0xFFFF0⟩ : Block).fits size 1 = true) :
    (start blank 0x200000).call (.kmalloc size) = some (afterOne size) := by
  simp only [call, start, kmalloc_oneBlock size hsize hfits, Option.map_some]
  rfl

/-- The chain after that allocation. -/
theorem represents_afterOne (size : Word) (h0 : thirdHeader 0x200000 size ≠ 0)
    (hapart : Apart (thirdHeader 0x200000 size) 16 0x200000 16) :
    Represents (afterOne size).heap.mem (afterOne size).heap.mDynFirstBlock
      [⟨0x200000, 0, size⟩, ⟨thirdHeader 0x200000 size, 1,
        sizeLeft ⟨0x200000, 1, 0xFFFF0⟩ size⟩] :=
  (splitBlock_spec (blank.place 0x200000).mem 0x200000 size [] [] ⟨0x200000, 1, 0xFFFF0⟩
    (represents_place blank 0x200000 (by decide)) h0
    (fun c hc => by rw [List.mem_singleton.mp hc]; exact hapart)).1

/-- A block whose next header, or the end of the heap, is far enough off has
    room. The headers are those the links lead to. -/
theorem room_of_links (s : Session) (headers : List Word) (size : Word)
    (hlinks : Links (next s.heap.mem) 0 s.heap.mDynFirstBlock headers)
    (hfar : (headers.map BitVec.toNat ++ [s.limit]).IsChain
      fun n n' => n + 32 + 4 * size.toNat ≤ n') : s.RoomForTail (.kmalloc size) := by
  intro _ pre b rest hrep _ _
  rw [← Links.unique _ _ _ _ _ hrep.links hlinks] at hfar
  simp only [List.map_append, List.map_cons, List.append_assoc, List.cons_append] at hfar
  cases rest with
  | nil => exact (List.isChain_append_cons_cons.mp hfar).2.1
  | cons c cs => exact (List.isChain_append_cons_cons.mp hfar).2.1

/-- The session after a call that returns. -/
def after (s : Session) (c : HeapCall) : Session := (s.call c).getD s

theorem call_after (s : Session) (c : HeapCall) (h : (s.call c).isSome) :
    s.call c = some (s.after c) := by
  rcases Option.isSome_iff_exists.mp h with ⟨t, ht⟩
  rw [after, ht, Option.getD_some]

/-- Two allocations, and the release of the first. -/
theorem run_contained_release :
    let s1 := (start blank 0x200000).after (.kmalloc 16)
    let s2 := s1.after (.kmalloc 8)
    let s3 := s2.after (.kfree 0x200010)
    s2.live = [(0x200060, 8), (0x200010, 16)] ∧ s3.live = [(0x200060, 8)] ∧ s3.Contained := by
  intro s1 s2 s3
  have hroom : (start blank 0x200000).RoomForTail (.kmalloc 16) :=
    room_of_links _ [0x200000] 16 (by decide) (by decide)
  have hroom1 : s1.RoomForTail (.kmalloc 8) :=
    room_of_links s1 [0x200000, 0x200050] 8 (by decide) (by decide)
  refine ⟨by decide, by decide, (run_contained blank 0x200000 (by decide)
    [.kmalloc 16, .kmalloc 8, .kfree 0x200010] s3 ?_).2.2.1⟩
  exact Run.cons _ s1 _ _ _ ⟨hroom, by decide, call_after _ _ (by decide)⟩ <|
    Run.cons _ s2 _ _ _ ⟨hroom1, by decide, call_after s1 _ (by decide)⟩ <|
    Run.cons _ s3 _ _ _ ⟨trivial, by decide, call_after s2 _ (by decide)⟩ (Run.nil s3)

/-- A request of half the heap is granted, and the header of the remainder lands
    a whole heap past the end of the heap. -/
theorem run_not_contained :
    ¬ ∀ (h : Heap) (base : Word), base.toNat + 0x100000 ≤ 2 ^ 32 →
      ∀ calls s, Run Step (start h base) calls s → s.Contained := by
  intro hall
  have hcall := call_blank 0x80000 (by decide) (by decide)
  rcases hall blank 0x200000 (by decide) [.kmalloc 0x80000] (afterOne 0x80000)
    (Run.cons _ _ _ _ _ ⟨by decide, hcall⟩ (Run.nil _)) with ⟨headers, hlinks, hinside, _⟩
  have hsplit := represents_afterOne 0x80000 (by decide) ⟨by decide, by decide⟩
  have hmem : (0x400010 : Word) ∈ headers := by
    rw [Links.unique _ _ _ _ _ hlinks hsplit.links]
    decide
  -- The header at `0x400010` would have to lie before `0x300000`.
  have hstart := hinside 0x400010 hmem (Set.mem_Ico.mpr ⟨Nat.le_refl _, by decide⟩)
  exact absurd (Set.mem_Ico.mp hstart).2 (by decide)

end Session

end UnixP6
