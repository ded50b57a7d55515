import UnixP6.Theory.Heap.Session

/-!
# Releasing Blocks

What `kfree` makes of the list of blocks. A release marks one block free and
collapses the chain, so what is known of collapsing is known of it: no two free
blocks are neighbours afterwards, the blocks in use are all still there, and
every free block left is what it was plus the blocks it has taken in.

Over several releases only the set of addresses counts. An earlier release may
absorb the header a later one looks for, and then the later one finds nothing
and does nothing. That is as it should be: a block that was absorbed was free,
so releasing it would have changed nothing either. `released` is the common
outcome, and `released_cons` the step from one release to several.

## Main definitions

* `Coalesced`: What a release leaves of a chain.
* `Hits`: Some address is the data address of a block.
* `released`: The chain after releasing a set of addresses.
* `kfreeAll`: One `kfree` after another.

## Theorems

* `kfree_coalesces`: `kfree` coalesces fully and touches nothing else.
* `released_cons`: Releasing one address and then others releases them all.
* `kfreeAll_spec`: A sequence of releases leaves the chain `released`.
* `kfreeAll_same`: Order and repetition of releases do not matter.
-/

namespace UnixP6

open CSemantics Block MemBlock

/-! ### One release -/

/-- What a release of `b` leaves of the chain: no free neighbours, headers of
    the chain in their order, every other used block as it was, and the same
    accounted total. Each block left heads a group of the chain, whose sizes and
    headers it has taken in, and a group of more than one is free throughout. -/
structure Coalesced (pre rest : List Block) (b : Block) (bs : List Block) : Prop where
  noFree : bs.IsChain fun c d => ¬ (c.isFree ∧ d.isFree)
  inOrder : (bs.map addr).Sublist ((pre ++ b :: rest).map addr)
  kept : ∀ c ∈ pre ++ rest, c.isFree = false → c ∈ bs
  total : runSize bs = runSize (pre ++ b :: rest)
  groups : ∃ groups : List (Block × List Block),
    pre ++ { b with free := 1 } :: rest = groups.flatMap (fun g => g.1 :: g.2) ∧
      bs = groups.map (fun g => g.1.grow (runSize g.2)) ∧
      ∀ g ∈ groups, g.2 ≠ [] → g.1.isFree = true ∧ ∀ c ∈ g.2, c.isFree = true

theorem runSize_eq (bs : List Block) : runSize bs = (bs.map fun b => b.size + 16).sum := rfl

/-- Absorbing a run is growing by its accounted size. -/
theorem foldl_absorb_grow (run : List Block) :
    ∀ b : Block, run.foldl absorb b = b.grow (runSize run) := by
  induction run with
  | nil => intro b; exact (grow_zero b).symm
  | cons c run ih =>
      intro b
      rw [List.foldl_cons, ih, absorb, grow_grow, runSize_cons]

/-- Coalescing keeps the accounted total. -/
theorem runSize_coalesce (bs : List Block) : runSize (coalesce bs) = runSize bs := by
  rw [coalesce_eq, runSize_eq, runSize_eq]
  refine collapse_sum isFree absorb (fun b => b.size + 16) (fun b c => ?_) bs
  simp only [absorb, grow]
  ring

theorem coalesced_coalesce (pre rest : List Block) (b : Block) :
    Coalesced pre rest b (coalesce (pre ++ { b with free := 1 } :: rest)) := by
  have hmap : (pre ++ { b with free := 1 } :: rest).map addr = (pre ++ b :: rest).map addr := by
    rw [List.map_append, List.map_append, List.map_cons, List.map_cons]
  refine ⟨?_, ?_, fun c hc hused => ?_, ?_, ?_⟩
  · rw [coalesce_eq]
    exact collapse_isChain isFree absorb _
  · rw [coalesce_eq, ← hmap]
    exact collapse_sublist isFree absorb addr (fun _ _ => rfl) _
  · -- A block in use is none of those that merge.
    have hmem : c ∈ (pre ++ { b with free := 1 } :: rest).filter fun d => !d.isFree := by
      refine List.mem_filter.mpr ⟨?_, by simp only [hused, Bool.not_false]⟩
      rcases List.mem_append.mp hc with hc | hc
      · exact List.mem_append_left _ hc
      · exact List.mem_append_right pre (List.mem_cons_of_mem _ hc)
    rw [← collapse_kept isFree absorb merging_absorb, ← coalesce_eq] at hmem
    exact (List.mem_filter.mp hmem).1
  · rw [runSize_coalesce]
    simp only [runSize_eq, List.map_append, List.map_cons]
  · rcases collapse_groups isFree absorb merging_absorb (pre ++ { b with free := 1 } :: rest) with
      ⟨groups, hsplit, hcollapse, hfree⟩
    refine ⟨groups, hsplit, ?_, hfree⟩
    rw [coalesce_eq, hcollapse]
    exact List.map_congr_left (fun g _ => foldl_absorb_grow g.2 g.1)

/-- `kfree` of the data address of a block marks it free, coalesces the chain and
    writes nothing outside its headers. Any other address changes nothing. -/
theorem kfree_coalesces (h : Heap) (bs : List Block) (ptr : Word)
    (hrep : Represents h.mem h.mDynFirstBlock bs) :
    (∀ pre b rest, bs = pre ++ b :: rest → ptr = data b.addr → ptr ≠ 0 →
        ∃ m' bs', kfree ptr h = some { h with mem := m' } ∧
          Represents m' h.mDynFirstBlock bs' ∧ Coalesced pre rest b bs' ∧
          Untouched bs h.mem m') ∧
      (ptr = 0 ∨ (∀ b ∈ bs, data b.addr ≠ ptr) → kfree ptr h = some h) := by
  constructor
  · rintro pre b rest rfl rfl hnull
    rcases kfree_spec h pre rest b hrep hnull with ⟨m', hcall, hrep', hun⟩
    rw [markFree_middle h.mem h.mDynFirstBlock pre rest b hrep] at hrep'
    exact ⟨m', _, hcall, hrep', coalesced_coalesce pre rest b, hun⟩
  · rintro (hnull | habs)
    · rw [kfree, if_pos hnull]
    · exact kfree_absent h bs ptr hrep habs

/-- Releasing the one block in use gives the heap back its single free block. -/
theorem kfree_coalesces_one :
    ∃ m' bs', kfree 0x200010 (Session.afterOne 16).heap
        = some { (Session.afterOne 16).heap with mem := m' } ∧
      Represents m' 0x200000 bs' ∧
      Coalesced [] [⟨0x200050, 1, sizeLeft ⟨0x200000, 1, 0xFFFF0⟩ 16⟩] ⟨0x200000, 0, 16⟩ bs' := by
  have hrep := Session.represents_afterOne 16 (by decide) ⟨by decide, by decide⟩
  rcases (kfree_coalesces (Session.afterOne 16).heap _ 0x200010 hrep).1 [] _ _ rfl (by decide)
    (by decide) with ⟨m', bs', hcall, hrep', hco, _⟩
  exact ⟨m', bs', hcall, hrep', hco⟩

/-! ### Several releases -/

/-- Some address other than null is the data address of a block. -/
def Hits (ps : List Word) (bs : List Block) : Prop :=
  ∃ b ∈ bs, data b.addr ≠ 0 ∧ data b.addr ∈ ps

instance (ps : List Word) (bs : List Block) : Decidable (Hits ps bs) :=
  inferInstanceAs (Decidable (∃ b ∈ bs, data b.addr ≠ 0 ∧ data b.addr ∈ ps))

/-- A block, set free if its data address is released. -/
def markBlock (ps : List Word) (b : Block) : Block :=
  if data b.addr ≠ 0 ∧ data b.addr ∈ ps then { b with free := 1 } else b

/-- The chain after a set of addresses is released. -/
def released (ps : List Word) (bs : List Block) : List Block :=
  if Hits ps bs then coalesce (bs.map (markBlock ps)) else bs

/-- One `kfree` after another. -/
def kfreeAll : List Word → Heap → Option Heap
  | [], h => some h
  | p :: ps, h => (kfree p h).bind (kfreeAll ps)

section Mark

variable (ps : List Word)

theorem markBlock_hit (b : Block) (h : data b.addr ≠ 0 ∧ data b.addr ∈ ps) :
    markBlock ps b = { b with free := 1 } := if_pos h

theorem markBlock_miss (b : Block) (h : ¬ (data b.addr ≠ 0 ∧ data b.addr ∈ ps)) :
    markBlock ps b = b := if_neg h

theorem released_hit (bs : List Block) (h : Hits ps bs) :
    released ps bs = coalesce (bs.map (markBlock ps)) := if_pos h

theorem released_miss (bs : List Block) (h : ¬ Hits ps bs) : released ps bs = bs := if_neg h

theorem markBlock_size (b : Block) : (markBlock ps b).size = b.size := by
  unfold markBlock
  split <;> rfl

theorem markBlock_free (b : Block) (h : b.isFree = true) : (markBlock ps b).isFree = true := by
  unfold markBlock
  split
  · rfl
  · exact h

/-- Marking may be done before absorbing or after: the flag of a block that is
    absorbed is lost either way. -/
theorem markBlock_absorb (b c : Block) :
    markBlock ps (b.absorb c) = (markBlock ps b).absorb (markBlock ps c) := by
  have hsize : (markBlock ps b).absorb (markBlock ps c) = (markBlock ps b).grow (c.size + 16) := by
    rw [absorb, markBlock_size]
  rw [hsize]
  by_cases hhit : data b.addr ≠ 0 ∧ data b.addr ∈ ps
  · rw [markBlock_hit ps b hhit, markBlock_hit ps (b.absorb c) hhit]
    rfl
  · rw [markBlock_miss ps b hhit, markBlock_miss ps (b.absorb c) hhit]
    rfl

/-- Marking in two steps. -/
theorem markBlock_cons (p : Word) (b : Block) :
    markBlock ps (markBlock [p] b) = markBlock (p :: ps) b := by
  by_cases hp : data b.addr ≠ 0 ∧ data b.addr ∈ [p]
  · have hall : data b.addr ≠ 0 ∧ data b.addr ∈ p :: ps :=
      ⟨hp.1, List.mem_cons.mpr (Or.inl (List.mem_singleton.mp hp.2))⟩
    rw [markBlock_hit [p] b hp, markBlock_hit (p :: ps) b hall]
    -- A block that is marked already is not changed by marking it again.
    unfold markBlock
    split <;> rfl
  · rw [markBlock_miss [p] b hp]
    by_cases hps : data b.addr ≠ 0 ∧ data b.addr ∈ ps
    · rw [markBlock_hit ps b hps, markBlock_hit (p :: ps) b ⟨hps.1, List.mem_cons_of_mem p hps.2⟩]
    · rw [markBlock_miss ps b hps, markBlock_miss (p :: ps) b (fun hc => ?_)]
      rcases List.mem_cons.mp hc.2 with hbp | hmem
      · exact hp ⟨hc.1, List.mem_singleton.mpr hbp⟩
      · exact hps ⟨hc.1, hmem⟩

/-- Where nothing is hit, marking changes nothing. -/
theorem map_markBlock_of_not_hits (bs : List Block) (h : ¬ Hits ps bs) :
    bs.map (markBlock ps) = bs := by
  refine (List.map_congr_left (fun b hb => ?_)).trans (List.map_id bs)
  rw [markBlock_miss ps b (fun hc => h ⟨b, hb, hc⟩), id]

/-- On a coalesced chain, releasing is marking and coalescing, hit or not. -/
theorem released_coalesce (bs : List Block) :
    released ps (coalesce bs) = coalesce (bs.map (markBlock ps)) := by
  have hmap : coalesce ((coalesce bs).map (markBlock ps)) = coalesce (bs.map (markBlock ps)) := by
    rw [coalesce_eq, coalesce_eq, coalesce_eq]
    exact collapse_map isFree absorb merging_absorb (markBlock ps) (markBlock_absorb ps)
      (markBlock_free ps) bs
  by_cases hhit : Hits ps (coalesce bs)
  · rw [released_hit ps _ hhit, hmap]
  · rw [map_markBlock_of_not_hits ps _ hhit, coalesce_eq, coalesce_eq bs,
      collapse_collapse isFree absorb merging_absorb, ← coalesce_eq] at hmap
    rw [released_miss ps _ hhit, hmap]

/-- Releasing one address and then others releases them all. -/
theorem released_cons (p : Word) (bs : List Block) :
    released ps (released [p] bs) = released (p :: ps) bs := by
  by_cases hhit : Hits [p] bs
  · -- The chain is coalesced from here on, whatever else is hit.
    have hall : Hits (p :: ps) bs := by
      rcases hhit with ⟨b, hb, hnull, hbp⟩
      exact ⟨b, hb, hnull, List.mem_cons.mpr (Or.inl (List.mem_singleton.mp hbp))⟩
    rw [released_hit [p] bs hhit, released_coalesce, released_hit (p :: ps) bs hall, List.map_map]
    congr 1
    exact List.map_congr_left (fun b _ => markBlock_cons ps p b)
  · rw [released_miss [p] bs hhit]
    -- The first address hits nothing, so it neither marks nor merges.
    by_cases hps : Hits ps bs
    · have hall : Hits (p :: ps) bs := by
        rcases hps with ⟨b, hb, hnull, hmem⟩
        exact ⟨b, hb, hnull, List.mem_cons_of_mem p hmem⟩
      rw [released_hit ps bs hps, released_hit (p :: ps) bs hall]
      congr 1
      refine List.map_congr_left (fun b hb => ?_)
      rw [← markBlock_cons, markBlock_miss [p] b (fun hc => hhit ⟨b, hb, hc⟩)]
    · rw [released_miss ps bs hps, released_miss (p :: ps) bs (fun hc => ?_)]
      rcases hc with ⟨b, hb, hnull, hmem⟩
      rcases List.mem_cons.mp hmem with hbp | hmem
      · exact hhit ⟨b, hb, hnull, List.mem_singleton.mpr hbp⟩
      · exact hps ⟨b, hb, hnull, hmem⟩

end Mark

/-- The outcome depends on the set of addresses only. -/
theorem released_congr (ps qs : List Word) (bs : List Block) (h : ∀ p, p ∈ ps ↔ p ∈ qs) :
    released ps bs = released qs bs := by
  have hmark : markBlock ps = markBlock qs := by
    funext b
    simp only [markBlock, h]
  have hhits : Hits ps bs ↔ Hits qs bs := by
    simp only [Hits, h]
  by_cases hps : Hits ps bs
  · rw [released_hit ps bs hps, released_hit qs bs (hhits.mp hps), hmark]
  · rw [released_miss ps bs hps, released_miss qs bs (fun hc => hps (hhits.mpr hc))]

/-- One release on the chain in memory. -/
theorem kfree_released (h : Heap) (bs : List Block) (p : Word)
    (hrep : Represents h.mem h.mDynFirstBlock bs) :
    ∃ m', kfree p h = some { h with mem := m' } ∧
      Represents m' h.mDynFirstBlock (released [p] bs) := by
  by_cases hhit : Hits [p] bs
  · rw [released_hit [p] bs hhit]
    rcases hhit with ⟨b, hb, hnull, hbp⟩
    rcases List.append_of_mem hb with ⟨pre, rest, rfl⟩
    have hp : p = data b.addr := (List.mem_singleton.mp hbp).symm
    rcases kfree_spec h pre rest b hrep hnull with ⟨m', hcall, hrep', _⟩
    refine ⟨m', by rw [hp]; exact hcall, ?_⟩
    -- Data addresses are as far apart as headers.
    have hmark : markFree b.addr (pre ++ b :: rest)
        = (pre ++ b :: rest).map (markBlock [p]) := by
      refine List.map_congr_left (fun c _ => ?_)
      by_cases hc : c.addr = b.addr
      · rw [if_pos hc, markBlock_hit [p] c]
        rw [hc, hp]
        exact ⟨hnull, List.mem_singleton.mpr rfl⟩
      · rw [if_neg hc, markBlock_miss [p] c (fun hc' => hc ?_)]
        have hdata := List.mem_singleton.mp hc'.2
        rw [hp] at hdata
        simp only [data] at hdata
        bv_omega
    rw [← hmark]
    exact hrep'
  · refine ⟨h.mem, ?_, by rw [released_miss [p] bs hhit]; exact hrep⟩
    by_cases hp : p = 0
    · rw [kfree, if_pos hp]
    · refine kfree_absent h bs p hrep (fun b hb hbp => ?_)
      exact hhit ⟨b, hb, by rw [hbp]; exact hp, List.mem_singleton.mpr hbp⟩

/-- A sequence of releases returns and leaves the chain released. -/
theorem kfreeAll_spec (ps : List Word) :
    ∀ (h : Heap) (bs : List Block), Represents h.mem h.mDynFirstBlock bs →
      ∃ m', kfreeAll ps h = some { h with mem := m' } ∧
        Represents m' h.mDynFirstBlock (released ps bs) := by
  induction ps with
  | nil =>
      intro h bs hrep
      refine ⟨h.mem, rfl, ?_⟩
      have hno : ¬ Hits [] bs := by
        rintro ⟨b, _, _, hmem⟩
        exact List.not_mem_nil hmem
      rw [released_miss [] bs hno]
      exact hrep
  | cons p ps ih =>
      intro h bs hrep
      rcases kfree_released h bs p hrep with ⟨m1, hcall, hrep1⟩
      rcases ih { h with mem := m1 } (released [p] bs) hrep1 with ⟨m', hcalls, hrep'⟩
      refine ⟨m', ?_, ?_⟩
      · rw [kfreeAll, hcall, Option.bind_some]
        exact hcalls
      · rw [released_cons] at hrep'
        exact hrep'

/-- Two sequences of releases of the same addresses both return and leave the
    same chain, whatever the order and however often an address occurs. -/
theorem kfreeAll_same (h : Heap) (bs : List Block) (ps qs : List Word)
    (hrep : Represents h.mem h.mDynFirstBlock bs) (hsame : ∀ p, p ∈ ps ↔ p ∈ qs) :
    ∃ m m' cs, kfreeAll ps h = some { h with mem := m } ∧
      kfreeAll qs h = some { h with mem := m' } ∧
      Represents m h.mDynFirstBlock cs ∧ Represents m' h.mDynFirstBlock cs := by
  rcases kfreeAll_spec ps h bs hrep with ⟨m, hcalls, hrep1⟩
  rcases kfreeAll_spec qs h bs hrep with ⟨m', hcalls', hrep2⟩
  rw [← released_congr ps qs bs hsame] at hrep2
  exact ⟨m, m', released ps bs, hcalls, hcalls', hrep1, hrep2⟩

/-- A second release of a block adds nothing to the first. -/
theorem kfreeAll_same_twice :
    ∃ m m' cs, kfreeAll [0x200010, 0x200010] (Session.afterOne 16).heap
        = some { (Session.afterOne 16).heap with mem := m } ∧
      kfreeAll [0x200010] (Session.afterOne 16).heap
        = some { (Session.afterOne 16).heap with mem := m' } ∧
      Represents m 0x200000 cs ∧ Represents m' 0x200000 cs :=
  kfreeAll_same (Session.afterOne 16).heap _ [0x200010, 0x200010] [0x200010]
    (Session.represents_afterOne 16 (by decide) ⟨by decide, by decide⟩) (fun p => by
      simp only [List.mem_cons, List.not_mem_nil, or_false, or_self])

end UnixP6
