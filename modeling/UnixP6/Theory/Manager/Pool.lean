import UnixP6.Theory.Frames.Session
import UnixP6.Theory.Manager.Bitmaps

/-!
# The Frame Allocator over the Pool

The frame allocator as it runs, over a pool of entries and bitmaps in memory,
against the one over regions that carry their bitmap: `frame_alloc` and
`frame_free` do to the pool and to memory what `frameAlloc` and `frameFree` do
to the chain of regions behind them. Whatever holds of all runs over regions
then holds of the runs over memory.

## Main definitions

* `Pooled`: The pool as `mm_init` leaves it.
* `PoolSession`: The pool and memory with the allocations held.

## Theorems

* `allocWalk_refines`, `freeWalk_refines`: The walks along the chain.
* `frameAlloc_refines`, `frameFree_refines`: The two calls.
* `run_refines_regions`: The runs of calls are the runs over the regions.
-/

namespace UnixP6

open CSemantics

/-! ### The walks -/

section Visit

variable (boot : Boot) (i : Nat) (rest : List Nat) (h : Chained boot (some i) (i :: rest))

include h

/-- A visit to an entry writes it back with memory changed in its bitmap. No
    region after it changes, and the walk from here on is what it was. -/
theorem visit_spec (e e' : BitmapList) (m : Mem) (r : Region)
    (hget : boot.bitmapStack[i]? = some e) (hwrites : Rewrites e boot.heap.mem (e', m) r) :
    OnlyBitmaps [i] boot (boot.update i e' m) ∧ e'.next = e.next ∧
      (boot.update i e' m).regions (i :: rest) = r :: boot.regions rest ∧
      Chained (boot.update i e' m) (some i) (i :: rest) ∧
      Chained (boot.update i e' m) e.next rest := by
  rcases Chained.cons boot i i rest h with ⟨_, f, hget', _, hrest, hout, hnoWrap, hapart⟩
  rw [hget, Option.some.injEq] at hget'
  subst hget'
  have hupdate := onlyBitmaps_update boot i e e' m hget hwrites.entry hnoWrap hwrites.memory
  have hlater : (boot.update i e' m).regions rest = boot.regions rest := by
    refine hupdate.regions [i] _ _ rest (fun k hk hc => hout ?_) hrest.noWrap (fun f hf => ?_)
    · rw [← List.mem_singleton.mp hc]
      exact hk
    · rw [bitmapBytes_one boot i e hget]
      exact hapart f hf
  refine ⟨hupdate, (BitmapList.fields_of_forgetHint e e' hwrites.entry).1, ?_,
    hupdate.chained [i] _ _ _ _ h, hupdate.chained [i] _ _ _ _ hrest⟩
  rw [regions_cons _ i rest e' (List.getElem?_set_self (List.getElem?_eq_some_iff.mp hget).1),
    hlater]
  exact congrArg (· :: boot.regions rest) hwrites.region

/-- What happens to the entries after it does not reach an entry. -/
theorem regions_after (boot' : Boot) (r : Region) (rs : List Region)
    (hr : boot.regions (i :: rest) = r :: rs) (honly : OnlyBitmaps rest boot boot') :
    boot'.regions (i :: rest) = r :: boot'.regions rest := by
  rcases Chained.cons boot i i rest h with ⟨_, e, hget, _, _, hout, hnoWrap, hapart⟩
  rw [regions_cons boot i rest e hget, List.cons.injEq] at hr
  have hget' : boot'.bitmapStack[i]? = some e := (honly.others i hout).trans hget
  rw [regions_cons boot' i rest e hget', ← hr.1]
  congr 1
  refine e.region_congr _ _ hnoWrap (fun x hx => honly.outside x (fun hc => ?_))
  rcases hc with ⟨f, hf, hxf⟩
  exact Set.disjoint_left.mp (hapart f hf) hx hxf

end Visit

/-- A visit that finds nothing leads to the next entry, or to null. -/
theorem allocTurn_nothing (count alignUp i : Nat) (boot : Boot) (e e' : BitmapList) (m : Mem)
    (hget : boot.bitmapStack[i]? = some e)
    (hres : searchIn count alignUp e boot.heap.mem = (none, e', m)) :
    Boot.allocTurn count alignUp (boot, i) = some (match e'.next with
      | none => .exit (0, boot.update i e' m)
      | some k => .again (boot.update i e' m, k)) := by
  cases hnext : e'.next with
  | none => simp only [Boot.allocTurn, hget, Option.map_some, hres, hnext]
  | some k => simp only [Boot.allocTurn, hget, Option.map_some, hres, hnext]

/-- The walk of `frame_alloc` over the pool is the one over the regions. -/
theorem allocWalk_refines (count alignUp : Nat) (chain : List Nat) :
    ∀ (i n : Nat) (boot : Boot), Chained boot (some i) chain → chain.length ≤ n →
      ∃ p boot', runLoop (Boot.allocTurn count alignUp) n (boot, i) = some (p, boot') ∧
        (p, boot'.regions chain) = allocFrom count alignUp (boot.regions chain) ∧
        OnlyBitmaps chain boot boot' := by
  induction chain with
  | nil =>
      intro i n boot h _
      exact absurd h.links (Option.some_ne_none i)
  | cons j rest ih =>
      intro i n boot h hlen
      rcases Chained.cons boot i j rest h with ⟨rfl, e, hget, _⟩
      rcases Nat.exists_eq_add_of_le' (Nat.one_le_of_lt hlen) with ⟨n, rfl⟩
      have hsearch := searchIn_refines count alignUp e boot.heap.mem
      rw [regions_cons boot j rest e hget, allocFrom]
      rcases hres : searchIn count alignUp e boot.heap.mem with ⟨res, e', m⟩
      rcases habs : allocIn count alignUp (e.region boot.heap.mem) with ⟨ares, r⟩
      rw [hres, habs] at hsearch
      rcases visit_spec boot j rest h e e' m r hget hsearch.rewrites with
        ⟨hupdate, hnext, hregions, hchain, hrest⟩
      have hsub : [j] ⊆ j :: rest := fun k hk => List.mem_singleton.mp hk ▸ List.mem_cons_self
      have hvisit := hupdate.mono [j] (j :: rest) _ _ hsub
      have hanswer : res = ares := hsearch.answer
      rw [hanswer] at hres
      cases ares with
      | some p =>
          have hturn : Boot.allocTurn count alignUp (boot, j)
              = some (.exit (p, boot.update j e' m)) := by
            simp only [Boot.allocTurn, hget, Option.map_some, hres]
          exact ⟨p, _, runLoop_exit _ n _ _ hturn, congrArg (Prod.mk p) hregions, hvisit⟩
      | none =>
          have hturn := allocTurn_nothing count alignUp j boot e e' m hget hres
          rw [hnext] at hturn
          cases hk : e.next with
          | none =>
              -- There is nothing to go on to, so this was the last of the chain.
              simp only [hk] at hturn
              refine ⟨0, _, runLoop_exit _ n _ _ hturn, ?_, hvisit⟩
              have hnil : rest = [] := by
                cases rest with
                | nil => rfl
                | cons k rest =>
                    rw [hk] at hrest
                    exact absurd hrest.links.1.symm (Option.some_ne_none k)
              rw [hregions, hnil]
              rfl
          | some k =>
              simp only [hk] at hturn
              rw [hk] at hrest
              rcases ih k n _ hrest (Nat.le_of_succ_le_succ hlen) with ⟨p, boot', hrun, hwalk, honly⟩
              have hlater : (boot.update j e' m).regions rest = boot.regions rest := by
                rcases Chained.cons _ j j rest hchain with ⟨_, f, hf, _⟩
                rw [regions_cons _ j rest f hf, List.cons.injEq] at hregions
                exact hregions.2
              rw [hlater] at hwalk
              refine ⟨p, boot', (runLoop_again _ n _ _ hturn).trans hrun, ?_,
                hvisit.trans (j :: rest) _ _ _
                  (honly.mono rest (j :: rest) _ _ (List.subset_cons_self j rest))⟩
              rw [regions_after _ j rest hchain boot' r _ hregions honly, ← hwalk]

theorem update_self (boot : Boot) (i : Nat) (e : BitmapList) (m : Mem)
    (hget : boot.bitmapStack[i]? = some e) :
    boot.update i e m = { boot with heap := { boot.heap with mem := m } } := by
  have hset : boot.bitmapStack.set i e = boot.bitmapStack := by
    rcases List.getElem?_eq_some_iff.mp hget with ⟨hlt, rfl⟩
    exact List.set_getElem_self hlt
  unfold Boot.update
  rw [hset]

/-- The walk of `frame_free` over the pool is the one over the regions. -/
theorem freeWalk_refines (addr : Word) (count : Nat) (boot : Boot) (chain : List Nat) :
    ∀ (i n : Nat), Chained boot (some i) chain → chain.length ≤ n →
      ∃ boot', runLoop (Boot.freeTurn addr count boot) n i = some boot' ∧
        boot'.regions chain = freeFrom addr count (boot.regions chain) ∧
        OnlyBitmaps chain boot boot' := by
  induction chain with
  | nil =>
      intro i n h _
      exact absurd h.links (Option.some_ne_none i)
  | cons j rest ih =>
      intro i n h hlen
      rcases Chained.cons boot i j rest h with ⟨rfl, e, hget, _, hrest, _⟩
      rcases Nat.exists_eq_add_of_le' (Nat.one_le_of_lt hlen) with ⟨n, rfl⟩
      have howns : (e.region boot.heap.mem).owns addr = e.owns addr := rfl
      rw [regions_cons boot j rest e hget, freeFrom, howns]
      by_cases hfound : e.owns addr = true
      · have hwrites := freeFrames_refines e boot.heap.mem addr count hfound
        rcases visit_spec boot j rest h e e _ _ hget hwrites with ⟨hupdate, _, hregions, _⟩
        have hsub : [j] ⊆ j :: rest := fun k hk => List.mem_singleton.mp hk ▸ List.mem_cons_self
        have hturn : Boot.freeTurn addr count boot j
            = some (.exit (boot.update j e (e.freeFrames addr count boot.heap.mem))) := by
          simp only [Boot.freeTurn, hget, Option.map_some, if_pos hfound, update_self boot j e _ hget]
        rw [if_pos hfound]
        exact ⟨_, runLoop_exit _ n _ _ hturn, hregions, hupdate.mono [j] (j :: rest) _ _ hsub⟩
      · rw [if_neg hfound]
        cases hk : e.next with
        | none =>
            -- The address is of no region, and nothing changes.
            have hturn : Boot.freeTurn addr count boot j = some (.exit boot) := by
              simp only [Boot.freeTurn, hget, Option.map_some, if_neg hfound, hk]
            have hnil : rest = [] := by
              cases rest with
              | nil => rfl
              | cons k rest =>
                  rw [hk] at hrest
                  exact absurd hrest.links.1.symm (Option.some_ne_none k)
            refine ⟨boot, runLoop_exit _ n _ _ hturn, ?_, OnlyBitmaps.refl _ boot⟩
            rw [regions_cons boot j rest e hget, hnil]
            rfl
        | some k =>
            have hturn : Boot.freeTurn addr count boot j = some (.again k) := by
              simp only [Boot.freeTurn, hget, Option.map_some, if_neg hfound, hk]
            rw [hk] at hrest
            rcases ih k n hrest (Nat.le_of_succ_le_succ hlen) with ⟨boot', hrun, hwalk, honly⟩
            refine ⟨boot', (runLoop_again _ n _ _ hturn).trans hrun, ?_,
              honly.mono rest (j :: rest) _ _ (List.subset_cons_self j rest)⟩
            rw [regions_after boot j rest h boot' _ _ (regions_cons boot j rest e hget) honly, hwalk]

/-! ### The calls -/

/-- The pool as `mm_init` leaves it: no larger than its array, with a walk from
    `firstblock` that passes these places. -/
structure Pooled (boot : Boot) (chain : List Nat) : Prop where
  size : boot.bitmapStack.length ≤ bitmapStackSize
  chained : Chained boot boot.firstblock chain

theorem Pooled.length_le (boot : Boot) (chain : List Nat) (h : Pooled boot chain) :
    chain.length ≤ turnBound := by
  have hnodup : chain.Nodup := List.Nodup.of_map some (Links.nodup _ _ _ _ h.chained.links)
  -- Different places of a pool of 32.
  have hsub : chain ⊆ List.range boot.bitmapStack.length :=
    fun i hi => List.mem_range.mpr (h.chained.inPool i hi)
  have hlen := (hnodup.subperm hsub).length_le
  rw [List.length_range] at hlen
  exact (hlen.trans h.size).trans (by decide)

theorem Pooled.of_onlyBitmaps (boot boot' : Boot) (chain : List Nat) (h : Pooled boot chain)
    (honly : OnlyBitmaps chain boot boot') : Pooled boot' chain := by
  refine ⟨(honly.length chain boot boot').trans_le h.size, ?_⟩
  rw [honly.first]
  exact honly.chained chain boot boot' _ _ h.chained

/-- The chain is a matter of the pool, whatever memory holds. -/
theorem Pooled.of_heap (boot : Boot) (heap : Heap) (chain : List Nat) (h : Pooled boot chain) :
    Pooled { boot with heap := heap } chain :=
  ⟨h.size, h.chained.links, h.chained.inPool, h.chained.noWrap, h.chained.apart⟩

/-- Without a region there is no chain. -/
theorem Pooled.regions_eq_nil (boot : Boot) (chain : List Nat) (h : Pooled boot chain) :
    boot.regions chain = [] ↔ boot.firstblock = none := by
  have hlinks := h.chained.links
  cases chain with
  | nil => exact iff_of_true rfl hlinks
  | cons i rest =>
      have hfirst : boot.firstblock = some i := hlinks.1
      have hchained := h.chained
      rw [hfirst] at hchained
      rcases Chained.cons boot i i rest hchained with ⟨_, e, hget, _⟩
      rw [regions_cons boot i rest e hget, hfirst]
      exact iff_of_false (List.cons_ne_nil _ _) (Option.some_ne_none i)

/-- `frame_alloc` in memory is `frame_alloc` over the regions. -/
theorem frameAlloc_refines (boot : Boot) (chain : List Nat) (h : Pooled boot chain)
    (count alignUp : Word) :
    (boot.frameAlloc count alignUp).map (fun res => (res.1, res.2.regions chain))
        = frameAlloc count alignUp (boot.regions chain) ∧
      ∀ res, boot.frameAlloc count alignUp = some res → OnlyBitmaps chain boot res.2 := by
  unfold Boot.frameAlloc frameAlloc
  by_cases hcount : count = 0 ∨ 32 < count
  · rw [if_pos hcount, if_pos hcount]
    refine ⟨rfl, fun res hres => ?_⟩
    rw [← Option.some.inj hres]
    exact OnlyBitmaps.refl chain boot
  · rw [if_neg hcount, if_neg hcount]
    cases hfirst : boot.firstblock with
    | none =>
        rw [if_pos ((h.regions_eq_nil boot chain).mpr hfirst)]
        exact ⟨rfl, fun res hres => absurd hres.symm (Option.some_ne_none res)⟩
    | some i =>
        have hchained := h.chained
        rw [hfirst] at hchained
        rw [if_neg (fun hc => Option.some_ne_none i
          (hfirst.symm.trans ((h.regions_eq_nil boot chain).mp hc)))]
        rcases allocWalk_refines count.toNat (if alignUp = 0 then 1 else alignUp.toNat) chain i
          turnBound boot hchained (h.length_le boot chain) with ⟨p, boot', hrun, hwalk, honly⟩
        rw [Option.bind_some, hrun, ← hwalk]
        refine ⟨rfl, fun res hres => ?_⟩
        rw [← Option.some.inj hres]
        exact honly

/-- `frame_free` in memory is `frame_free` over the regions. -/
theorem frameFree_refines (boot : Boot) (chain : List Nat) (h : Pooled boot chain)
    (addr count : Word) :
    (boot.frameFree addr count).map (fun boot' => boot'.regions chain)
        = frameFree addr count (boot.regions chain) ∧
      ∀ boot', boot.frameFree addr count = some boot' → OnlyBitmaps chain boot boot' := by
  unfold Boot.frameFree frameFree
  by_cases hcount : count = 0 ∨ 32 < count
  · rw [if_pos hcount, if_pos hcount]
    refine ⟨rfl, fun boot' hres => ?_⟩
    rw [← Option.some.inj hres]
    exact OnlyBitmaps.refl chain boot
  · rw [if_neg hcount, if_neg hcount]
    cases hfirst : boot.firstblock with
    | none =>
        rw [if_pos ((h.regions_eq_nil boot chain).mpr hfirst)]
        exact ⟨rfl, fun res hres => absurd hres.symm (Option.some_ne_none res)⟩
    | some i =>
        have hchained := h.chained
        rw [hfirst] at hchained
        rw [if_neg (fun hc => Option.some_ne_none i
          (hfirst.symm.trans ((h.regions_eq_nil boot chain).mp hc)))]
        rcases freeWalk_refines addr count.toNat boot chain i turnBound hchained
          (h.length_le boot chain) with ⟨boot', hrun, hwalk, honly⟩
        rw [Option.bind_some, hrun, ← hwalk]
        refine ⟨rfl, fun res hres => ?_⟩
        rw [← Option.some.inj hres]
        exact honly

/-! ### Whole runs -/

/-- The pool and memory, and the allocations held. -/
structure PoolSession where
  boot : Boot
  live : List (Word × Word)

namespace PoolSession

/-- The session over the regions. -/
def abstract (chain : List Nat) (s : PoolSession) : FrameSession :=
  { regions := s.boot.regions chain, live := s.live }

/-- One call. A null result of `frame_alloc` is no allocation. -/
def call (s : PoolSession) : FrameCall → Option PoolSession
  | .alloc count alignUp => (s.boot.frameAlloc count alignUp).map fun (res : Word × Boot) =>
      { boot := res.2, live := if res.1 = 0 then s.live else (res.1, count) :: s.live }
  | .free ptr count => (s.boot.frameFree ptr count).map fun boot =>
      { boot := boot, live := s.live.erase (ptr, count) }

/-- What a caller may ask depends on what it holds only. -/
def Step (s : PoolSession) (c : FrameCall) (t : PoolSession) : Prop :=
  (s.abstract []).Allowed c ∧ s.call c = some t

section Calls

variable (s : PoolSession) (chain : List Nat) (h : Pooled s.boot chain) (c : FrameCall)

theorem allowed_iff : (s.abstract []).Allowed c ↔ (s.abstract chain).Allowed c := by
  cases c <;> exact Iff.rfl

include h

/-- A call in memory is the call over the regions. -/
theorem call_abstract : (s.call c).map (abstract chain) = (s.abstract chain).call c := by
  cases c with
  | alloc count alignUp =>
      have hcall := (frameAlloc_refines s.boot chain h count alignUp).1
      simp only [call, FrameSession.call, abstract] at hcall ⊢
      rw [← hcall, Option.map_map, Option.map_map]
      rfl
  | free ptr count =>
      have hcall := (frameFree_refines s.boot chain h ptr count).1
      simp only [call, FrameSession.call, abstract] at hcall ⊢
      rw [← hcall, Option.map_map, Option.map_map]
      rfl

theorem call_only (t : PoolSession) (hcall : s.call c = some t) :
    OnlyBitmaps chain s.boot t.boot := by
  cases c with
  | alloc count alignUp =>
      rcases Option.map_eq_some_iff.mp hcall with ⟨res, hres, rfl⟩
      exact (frameAlloc_refines s.boot chain h count alignUp).2 res hres
  | free ptr count =>
      rcases Option.map_eq_some_iff.mp hcall with ⟨boot', hres, rfl⟩
      exact (frameFree_refines s.boot chain h ptr count).2 boot' hres

end Calls

/-- The runs of calls on the pool and memory are the runs over the regions, call
    for call and answer for answer, and change nothing but bitmaps and starting
    points. -/
theorem run_refines_regions (boot : Boot) (chain : List Nat) (h : Pooled boot chain)
    (calls : List FrameCall) :
    (∀ t, Run Step { boot := boot, live := [] } calls t →
        Run FrameSession.Step (FrameSession.start (boot.regions chain)) calls (t.abstract chain) ∧
          OnlyBitmaps chain boot t.boot) ∧
      ∀ u, Run FrameSession.Step (FrameSession.start (boot.regions chain)) calls u →
        ∃ t, Run Step { boot := boot, live := [] } calls t ∧ t.abstract chain = u := by
  have hstart : Pooled boot chain ∧ OnlyBitmaps chain boot boot := ⟨h, OnlyBitmaps.refl chain boot⟩
  constructor
  · intro t hrun
    -- The pool stays as it is, so each step is a step over the regions.
    rcases Run.simulates Step FrameSession.Step
      (fun s u => s.abstract chain = u ∧ Pooled s.boot chain ∧ OnlyBitmaps chain boot s.boot)
      (fun s c t u ⟨hu, hpool, honly⟩ ⟨hallowed, hcall⟩ => by
        have hstep := call_abstract s chain hpool c
        have hcalled := call_only s chain hpool c t hcall
        rw [hcall, Option.map_some, hu] at hstep
        exact ⟨t.abstract chain, ⟨hu ▸ (allowed_iff s chain c).mp hallowed, hstep.symm⟩, rfl,
          hpool.of_onlyBitmaps _ _ _ hcalled, honly.trans chain _ _ _ hcalled⟩)
      _ t _ calls hrun ⟨rfl, hstart⟩ with ⟨u, hu, rfl, _, honly⟩
    exact ⟨hu, honly⟩
  · intro u hrun
    rcases Run.simulates FrameSession.Step Step
      (fun u s => s.abstract chain = u ∧ Pooled s.boot chain)
      (fun u c v s ⟨hu, hpool⟩ ⟨hallowed, hcall⟩ => by
        have hstep := call_abstract s chain hpool c
        rw [hu, hcall, Option.map_eq_some_iff] at hstep
        rcases hstep with ⟨t, ht, htv⟩
        exact ⟨t, ⟨(allowed_iff s chain c).mpr (hu ▸ hallowed), ht⟩, htv,
          hpool.of_onlyBitmaps _ _ _ (call_only s chain hpool c t ht)⟩)
      _ u { boot := boot, live := [] } calls hrun ⟨rfl, h⟩ with ⟨t, ht, rfl, _⟩
    exact ⟨t, ht, rfl⟩

/-- A region of 64 frames at one megabyte, its bitmap after them. -/
def poolOfOne : Boot :=
  { heap := { mem := fun _ => 0, mDynAvailable := 0, mDynTotal := 0, mDynBase := 0,
              mDynFirstBlock := 0 }
    bitmapStack := [⟨none, 0, 0x140000, 64, 0x100000⟩]
    firstblock := some 0 }

/-- A word of frames at one megabyte, and 64 frames at two linked behind it. -/
def poolOfTwo : Boot :=
  { poolOfOne with
    bitmapStack := [⟨some 1, 0, 0x140000, 31, 0x100000⟩, ⟨none, 0, 0x240000, 64, 0x200000⟩] }

theorem pooled_two : Pooled poolOfTwo [0, 1] := by
  have hentries : poolOfTwo.entries [0, 1]
      = [⟨some 1, 0, 0x140000, 31, 0x100000⟩, ⟨none, 0, 0x240000, 64, 0x200000⟩] := rfl
  refine ⟨by decide, by decide, by decide, fun e he => ?_, ?_⟩
  · rw [hentries] at he
    simp only [List.mem_cons, List.not_mem_nil, or_false] at he
    rcases he with rfl | rfl <;> decide
  · rw [hentries]
    refine List.pairwise_pair.mpr (disjoint_span _ _ _ _ (Or.inl ?_))
    decide

/-- A request that takes up the first region, and one that is met in the next. -/
theorem run_refines_regions_next :
    ∃ t, Run Step { boot := poolOfTwo, live := [] } [.alloc 32 1, .alloc 2 1] t ∧
      t.live = [(0x200000, 2), (0x100000, 32)] := by
  let u := (FrameSession.start (poolOfTwo.regions [0, 1])).after (.alloc 32 1)
  let v := u.after (.alloc 2 1)
  have hrun : Run FrameSession.Step (FrameSession.start (poolOfTwo.regions [0, 1]))
      [.alloc 32 1, .alloc 2 1] v :=
    Run.cons _ u _ _ _ ⟨by decide, rfl⟩ (Run.cons _ v _ _ _ ⟨by decide, rfl⟩ (Run.nil v))
  rcases (run_refines_regions poolOfTwo [0, 1] pooled_two [.alloc 32 1, .alloc 2 1]).2 v hrun with
    ⟨t, ht, habs⟩
  refine ⟨t, ht, (congrArg FrameSession.live habs).trans ?_⟩
  decide

end PoolSession

end UnixP6
