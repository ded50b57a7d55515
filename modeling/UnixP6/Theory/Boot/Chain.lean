import UnixP6.CSemantics.Links
import UnixP6.Theory.Boot.Calc
import Mathlib.Data.List.TakeWhile

/-!
# The Chain of Regions after Boot

`mm_init` links the entries `mm_initmemblock` returns through one rolling
pointer, which also takes the null a rejected entry returns. The chain from
`firstblock` is therefore the first unbroken run of usable entries: a rejected
entry closes it, and whatever comes after hangs off nothing. A usable entry
beyond the pool is written through null.

Which entries are usable is decided by the cuts alone, together with whether
the heap has been placed. `usables` computes it ahead of the walk, and
`mmInit_chainExact` says exactly when the chain holds what was returned.

## Main definitions

* `usableBlock`, `usables`: Which available entries yield a region.
* `Contiguous`: The usable entries form one unbroken run.
* `Boot.nextOf`: Following `next` through the pool.
* `ChainExact`: The chain holds exactly the entries returned, in order.

## Theorems

* `mmInitmemblock_usable`, `mmInitmemblock_rejected`: What one entry does.
* `mmInitFrom_returns`, `mmInitFrom_exhausted`: The walk returns as long as the pool lasts.
* `ChainOf.close`, `ChainOf.grow`: What one entry makes of the chain.
* `chain_closed`, `chain_open`, `chain_start`: The chain through a walk.
* `mmInit_firstRun`: What a walk within the pool returns and chains.
* `mmInit_chainExact`: The chain is exact for contiguous usable entries that fit.
-/

namespace UnixP6

open CSemantics

/-! ### Usable entries -/

/-- The block after the cuts for low memory and for the kernel. -/
def cutFixed (k : Kernel) (block : MemblockEntry) : MemblockEntry := cutKernel k (cutLow block)

/-- The entry yields a region: something is left of it after the cuts. -/
def usableBlock (k : Kernel) (first : Word) (block : MemblockEntry) : Bool :=
  !block.isUnder1mb && !isUsedUp (cutHeap first (cutFixed k block))

/-- The first block of the heap once the entry has been seen. -/
def heapAfter (k : Kernel) (first : Word) (block : MemblockEntry) : Word :=
  if block.isUnder1mb then first
  else if takesHeap first (cutFixed k block) then (cutFixed k block).addr else first

/-- Which of the available entries of a map yield a region, in order. -/
def usables (k : Kernel) : Word → List MemblockEntry → List Bool
  | _, [] => []
  | first, me :: map =>
    if me.type = memBlockAvailable then
      usableBlock k first me :: usables k (heapAfter k first me) map
    else usables k first map

/-- All the usable entries stand next to one another. -/
def Contiguous (us : List Bool) : Prop :=
  ∃ a b c, us = List.replicate a false ++ List.replicate b true ++ List.replicate c false

/-- The length of the first unbroken run of usable entries. -/
def firstRun (us : List Bool) : Nat := ((us.dropWhile not).takeWhile id).length

/-- If the first run holds every usable entry, they are contiguous. -/
theorem contiguous_of_firstRun (us : List Bool) (h : firstRun us = us.count true) :
    Contiguous us := by
  have hfalse : ∀ l : List Bool, (∀ u ∈ l, u = false) → l = List.replicate l.length false :=
    fun l hl => List.eq_replicate_of_mem hl
  have hhead : us.takeWhile not = List.replicate (us.takeWhile not).length false :=
    hfalse _ (fun u hu => by simpa only [Bool.not_eq_true'] using List.mem_takeWhile_imp hu)
  have hrun : (us.dropWhile not).takeWhile id
      = List.replicate ((us.dropWhile not).takeWhile id).length true :=
    List.eq_replicate_of_mem (fun u hu => List.mem_takeWhile_imp hu)
  have hsplit : us = us.takeWhile not ++ ((us.dropWhile not).takeWhile id
      ++ (us.dropWhile not).dropWhile id) := by
    rw [List.takeWhile_append_dropWhile, List.takeWhile_append_dropWhile]
  -- Nothing usable is left past the first run.
  have htail : ((us.dropWhile not).dropWhile id).count true = 0 := by
    have hcount := congrArg (List.count true) hsplit
    rw [List.count_append, List.count_append, hhead, hrun, List.count_replicate,
      List.count_replicate, ← h] at hcount
    simp only [Bool.false_beq, Bool.not_true, Bool.false_eq_true, if_false, beq_self_eq_true,
      if_true] at hcount
    unfold firstRun at hcount
    omega
  have hlast := hfalse ((us.dropWhile not).dropWhile id) (fun u hu => by
    cases u with
    | false => rfl
    | true => exact absurd htail (Nat.ne_of_gt (List.count_pos_iff.mpr hu)))
  refine ⟨(us.takeWhile not).length, ((us.dropWhile not).takeWhile id).length,
    ((us.dropWhile not).dropWhile id).length, ?_⟩
  rw [List.append_assoc, ← hhead, ← hrun, ← hlast]
  exact hsplit

/-- The first run of contiguous usable entries holds them all. -/
theorem firstRun_of_contiguous (us : List Bool) (h : Contiguous us) :
    firstRun us = us.count true := by
  rcases h with ⟨a, b, c, rfl⟩
  -- The unusable entries in front fall away, and the first run is the middle part.
  have hdrop :
      (List.replicate a false ++ List.replicate b true ++ List.replicate c false).dropWhile not
      = (List.replicate b true ++ List.replicate c false).dropWhile not := by
    rw [List.append_assoc, List.dropWhile_append_of_pos (fun u hu => by
      rw [List.eq_of_mem_replicate hu]; rfl)]
  unfold firstRun
  rw [hdrop]
  cases b with
  | zero =>
      have hall : (List.replicate c false).dropWhile not = [] :=
        List.dropWhile_eq_nil_iff.mpr (fun u hu => by rw [List.eq_of_mem_replicate hu]; rfl)
      simp only [List.replicate_zero, List.nil_append, List.append_nil, hall, List.takeWhile_nil,
        List.length_nil, List.count_append, List.count_replicate, Bool.false_beq, Bool.not_true,
        Bool.false_eq_true, if_false]
  | succ b =>
      have hkeep : (List.replicate (b + 1) true ++ List.replicate c false).dropWhile not
          = List.replicate (b + 1) true ++ List.replicate c false := rfl
      have hrun : (List.replicate c false).takeWhile id = [] := by
        cases c with
        | zero => rfl
        | succ c => rfl
      rw [hkeep, List.takeWhile_append_of_pos (fun u hu => by
        rw [List.eq_of_mem_replicate hu]; rfl), hrun]
      simp only [List.append_nil, List.length_replicate, List.count_append, List.count_replicate,
        Bool.false_beq, Bool.not_true, Bool.false_eq_true, if_false, beq_self_eq_true, if_true,
        Nat.zero_add, Nat.add_zero]

/-- The first run holds every usable entry exactly when they are contiguous. -/
theorem firstRun_eq_count (us : List Bool) : firstRun us = us.count true ↔ Contiguous us :=
  ⟨contiguous_of_firstRun us, firstRun_of_contiguous us⟩

/-! ### One entry -/

/-- What is left of an entry that yields a region. -/
def regionBlock (k : Kernel) (first : Word) (block : MemblockEntry) : MemblockEntry :=
  cutPage (cutHeap first (cutFixed k block))

/-- The globals once an entry has been looked at: it may have taken the heap. -/
def Boot.seen (boot : Boot) (k : Kernel) (block : MemblockEntry) : Boot :=
  if block.isUnder1mb then boot else boot.placeHeap (cutFixed k block)

theorem seen_stack (k : Kernel) (block : MemblockEntry) (boot : Boot) :
    (boot.seen k block).bitmapStack = boot.bitmapStack ∧
      (boot.seen k block).firstblock = boot.firstblock := by
  unfold Boot.seen Boot.placeHeap
  by_cases hlow : block.isUnder1mb = true
  · rw [if_pos hlow]
    exact ⟨rfl, rfl⟩
  · rw [if_neg hlow]
    by_cases htakes : takesHeap boot.heap.mDynFirstBlock (cutFixed k block) = true
    · rw [if_pos htakes]
      exact ⟨rfl, rfl⟩
    · rw [if_neg htakes]
      exact ⟨rfl, rfl⟩

theorem seen_heap (k : Kernel) (block : MemblockEntry) (boot : Boot) :
    (boot.seen k block).heap.mDynFirstBlock
      = heapAfter k boot.heap.mDynFirstBlock block := by
  unfold Boot.seen Boot.placeHeap heapAfter
  by_cases hlow : block.isUnder1mb = true
  · rw [if_pos hlow, if_pos hlow]
  · rw [if_neg hlow, if_neg hlow]
    by_cases htakes : takesHeap boot.heap.mDynFirstBlock (cutFixed k block) = true
    · rw [if_pos htakes, if_pos htakes]
      rfl
    · rw [if_neg htakes, if_neg htakes]

/-- The globals once an entry has been given the next place in the pool. -/
def Boot.registered (boot : Boot) (k : Kernel) (block : MemblockEntry) (blocks : Word) : Boot :=
  ((boot.seen k block).clearBlock (regionBlock k boot.heap.mDynFirstBlock block)).addEntry
    (bitmapEntry (regionBlock k boot.heap.mDynFirstBlock block) blocks)

theorem registered_stack (boot : Boot) (k : Kernel) (block : MemblockEntry) (blocks : Word) :
    (boot.registered k block blocks).bitmapStack.length = boot.bitmapStack.length + 1 := by
  simp only [Boot.registered, Boot.addEntry, Boot.clearBlock, (seen_stack k block boot).1,
    List.length_append, List.length_singleton]

theorem registered_heap (boot : Boot) (k : Kernel) (block : MemblockEntry) (blocks : Word) :
    (boot.registered k block blocks).heap.mDynFirstBlock
      = heapAfter k boot.heap.mDynFirstBlock block :=
  seen_heap k block boot

/-- A rejected entry is marked reserved, and leaves the pool and the chain alone. -/
theorem mmInitmemblock_rejected (k : Kernel) (block : MemblockEntry) (boot : Boot)
    (h : usableBlock k boot.heap.mDynFirstBlock block = false) :
    ∃ block', block'.type = memBlockReserved ∧
      mmInitmemblock k block boot = .ok (block', none, boot.seen k block) := by
  simp only [usableBlock, Bool.and_eq_false_iff, Bool.not_eq_false'] at h
  by_cases hlow : block.isUnder1mb = true
  · exact ⟨{ block with type := memBlockReserved }, rfl,
      by rw [mmInitmemblock, if_pos hlow, Boot.seen, if_pos hlow]⟩
  · have hused := h.resolve_left hlow
    unfold cutFixed at hused
    exact ⟨{ cutHeap boot.heap.mDynFirstBlock (cutKernel k (cutLow block)) with
        type := memBlockReserved }, rfl,
      by simp only [mmInitmemblock, if_neg hlow, if_pos hused, Boot.seen, cutFixed]⟩

/-- A usable entry takes the next one of the pool, or writes through null when
    the pool is exhausted. -/
theorem mmInitmemblock_usable (k : Kernel) (block : MemblockEntry) (boot : Boot)
    (h : usableBlock k boot.heap.mDynFirstBlock block = true) :
    ∃ blocks, calcBlocksAndBitmaps (regionBlock k boot.heap.mDynFirstBlock block).len
        = some (blocks, blocks / 32 + 1) ∧
      mmInitmemblock k block boot =
        if boot.bitmapStack.length < bitmapStackSize then
          .ok (regionBlock k boot.heap.mDynFirstBlock block, some boot.bitmapStack.length,
            boot.registered k block blocks)
        else .error .nullDereference := by
  simp only [usableBlock, Bool.and_eq_true, Bool.not_eq_true'] at h
  rcases h with ⟨hlow, hused⟩
  unfold cutFixed at hused
  -- The loop ends, so the only thing left that can go wrong is the pool.
  rcases calc_total (regionBlock k boot.heap.mDynFirstBlock block).len with ⟨blocks, hcalc⟩
  refine ⟨blocks, hcalc, ?_⟩
  have hstack := (seen_stack k block boot).1
  simp only [Boot.registered, regionBlock, Boot.seen, cutFixed, hlow, Bool.false_eq_true, if_false]
    at hcalc hstack ⊢
  simp only [mmInitmemblock, hlow, hused, Bool.false_eq_true, if_false, registerBlock, hcalc, hstack]
  by_cases hroom : boot.bitmapStack.length < bitmapStackSize
  · rw [if_pos hroom, if_pos hroom]
    rfl
  · rw [if_neg hroom, if_neg hroom]
    rfl

/-! ### The walk -/

/-- One available entry, when it returns. -/
theorem mmInitFrom_available (k : Kernel) (me me' : MemblockEntry) (map : List MemblockEntry)
    (newblock ret : Option Nat) (boot boot' : Boot) (htype : me.type = memBlockAvailable)
    (h : mmInitmemblock k me boot = .ok (me', ret, boot')) :
    mmInitFrom k (me :: map) newblock boot
      = (mmInitFrom k map ret (boot'.link newblock ret)).map
          fun res => (me' :: res.1, ret :: res.2.1, res.2.2) := by
  rw [mmInitFrom, if_pos htype, h]
  rcases hrest : mmInitFrom k map ret (boot'.link newblock ret) with fault | ⟨map', rets, boot''⟩
  · simp only [Bind.bind, Except.bind, hrest, Except.map]
  · simp only [Bind.bind, Except.bind, hrest, Except.map]

theorem mmInitFrom_fault (k : Kernel) (me : MemblockEntry) (map : List MemblockEntry)
    (newblock : Option Nat) (boot : Boot) (fault : BootFault) (htype : me.type = memBlockAvailable)
    (h : mmInitmemblock k me boot = .error fault) :
    mmInitFrom k (me :: map) newblock boot = .error fault := by
  rw [mmInitFrom, if_pos htype, h]
  rfl

/-- An entry of another type is passed over. -/
theorem mmInitFrom_other (k : Kernel) (me : MemblockEntry) (map : List MemblockEntry)
    (newblock : Option Nat) (boot : Boot) (htype : me.type ≠ memBlockAvailable) :
    mmInitFrom k (me :: map) newblock boot
      = (mmInitFrom k map newblock boot).map fun res => (me :: res.1, res.2.1, res.2.2) := by
  rw [mmInitFrom, if_neg htype]
  rcases hrest : mmInitFrom k map newblock boot with fault | ⟨map', rets, boot''⟩
  · simp only [Bind.bind, Except.bind, Except.map]
  · simp only [Bind.bind, Except.bind, Except.map]

theorem link_heap (boot : Boot) (oldblock newblock : Option Nat) :
    (boot.link oldblock newblock).heap = boot.heap := by
  cases oldblock with
  | none => rfl
  | some i => rfl

theorem link_stack_length (boot : Boot) (oldblock newblock : Option Nat) :
    (boot.link oldblock newblock).bitmapStack.length = boot.bitmapStack.length := by
  cases oldblock with
  | none => rfl
  | some i => exact List.length_modify _ _ _

/-- A mapped result that is there comes from one that is there. -/
theorem ok_of_map_ok {ε α β : Type} (x : Except ε α) (f : α → β) (b : β) (h : x.map f = .ok b) :
    ∃ a, x = .ok a ∧ b = f a := by
  cases x with
  | error fault => exact absurd h (by simp only [Except.map, reduceCtorEq, not_false_eq_true])
  | ok a =>
      rw [Except.map, Except.ok.injEq] at h
      exact ⟨a, rfl, h.symm⟩

/-- Everything a walk that returns can have done with its first entry. -/
theorem mmInitFrom_cons (k : Kernel) (me : MemblockEntry) (map : List MemblockEntry)
    (newblock : Option Nat) (boot : Boot)
    (res : List MemblockEntry × List (Option Nat) × Boot)
    (h : mmInitFrom k (me :: map) newblock boot = .ok res) :
    (me.type ≠ memBlockAvailable ∧ ∃ rest, mmInitFrom k map newblock boot = .ok rest ∧
        res = (me :: rest.1, rest.2.1, rest.2.2)) ∨
      (me.type = memBlockAvailable ∧ usableBlock k boot.heap.mDynFirstBlock me = false ∧
        ∃ me' rest, mmInitFrom k map none ((boot.seen k me).link newblock none) = .ok rest ∧
          res = (me' :: rest.1, none :: rest.2.1, rest.2.2)) ∨
      (me.type = memBlockAvailable ∧ usableBlock k boot.heap.mDynFirstBlock me = true ∧
        ∃ blocks rest, calcBlocksAndBitmaps (regionBlock k boot.heap.mDynFirstBlock me).len
            = some (blocks, blocks / 32 + 1) ∧
          mmInitFrom k map (some boot.bitmapStack.length)
            ((boot.registered k me blocks).link newblock (some boot.bitmapStack.length)) = .ok rest ∧
          res = (regionBlock k boot.heap.mDynFirstBlock me :: rest.1,
            some boot.bitmapStack.length :: rest.2.1, rest.2.2)) := by
  by_cases htype : me.type = memBlockAvailable
  · -- An available entry either is rejected or takes the next place in the pool.
    cases husable : usableBlock k boot.heap.mDynFirstBlock me with
    | false =>
        rcases mmInitmemblock_rejected k me boot husable with ⟨me', _, hme⟩
        rw [mmInitFrom_available k me me' map newblock none boot _ htype hme] at h
        rcases ok_of_map_ok _ _ _ h with ⟨rest, hrest, hres⟩
        exact Or.inr (Or.inl ⟨htype, rfl, me', rest, hrest, hres⟩)
    | true =>
        rcases mmInitmemblock_usable k me boot husable with ⟨blocks, hcalc, hme⟩
        by_cases hroom : boot.bitmapStack.length < bitmapStackSize
        · rw [if_pos hroom] at hme
          rw [mmInitFrom_available k me _ map newblock _ boot _ htype hme] at h
          rcases ok_of_map_ok _ _ _ h with ⟨rest, hrest, hres⟩
          exact Or.inr (Or.inr ⟨htype, rfl, blocks, rest, hcalc, hrest, hres⟩)
        · rw [if_neg hroom] at hme
          rw [mmInitFrom_fault k me map newblock boot _ htype hme] at h
          exact absurd h (by simp only [reduceCtorEq, not_false_eq_true])
  · rw [mmInitFrom_other k me map newblock boot htype] at h
    rcases ok_of_map_ok _ _ _ h with ⟨rest, hrest, hres⟩
    exact Or.inl ⟨htype, rest, hrest, hres⟩

theorem usables_available (k : Kernel) (first : Word) (me : MemblockEntry)
    (map : List MemblockEntry) (htype : me.type = memBlockAvailable) :
    usables k first (me :: map) = usableBlock k first me :: usables k (heapAfter k first me) map := by
  rw [usables, if_pos htype]

theorem usables_other (k : Kernel) (first : Word) (me : MemblockEntry)
    (map : List MemblockEntry) (htype : me.type ≠ memBlockAvailable) :
    usables k first (me :: map) = usables k first map := by
  rw [usables, if_neg htype]

/-- The walk returns as long as the pool lasts, with the entries of the pool in
    order as what it returned. -/
theorem mmInitFrom_returns (k : Kernel) (map : List MemblockEntry) :
    ∀ (newblock : Option Nat) (boot : Boot),
      boot.bitmapStack.length + (usables k boot.heap.mDynFirstBlock map).count true
          ≤ bitmapStackSize →
        ∃ res, mmInitFrom k map newblock boot = .ok res ∧
          res.2.1.filter Option.isSome = (List.range' boot.bitmapStack.length
            ((usables k boot.heap.mDynFirstBlock map).count true)).map some := by
  induction map with
  | nil => exact fun _ boot _ => ⟨([], [], boot), rfl, rfl⟩
  | cons me map ih =>
      intro newblock boot
      by_cases htype : me.type = memBlockAvailable
      · rw [usables_available k _ me map htype]
        cases husable : usableBlock k boot.heap.mDynFirstBlock me with
        | false =>
            -- A rejected entry leaves the pool as it is and returns null.
            rcases mmInitmemblock_rejected k me boot husable with ⟨me', _, hme⟩
            have hih := ih none ((boot.seen k me).link newblock none)
            rw [link_stack_length, (seen_stack k me boot).1, link_heap, seen_heap] at hih
            rw [mmInitFrom_available k me me' map newblock none boot _ htype hme,
              List.count_cons_of_ne Bool.false_ne_true]
            intro hroom
            rcases hih hroom with ⟨rest, hrest, hfilter⟩
            exact ⟨(me' :: rest.1, none :: rest.2.1, rest.2.2), by rw [hrest, Except.map], hfilter⟩
        | true =>
            rcases mmInitmemblock_usable k me boot husable with ⟨blocks, _, hme⟩
            -- The pool is one longer and the count one shorter, so the sum stays.
            have hih := ih (some boot.bitmapStack.length)
              ((boot.registered k me blocks).link newblock (some boot.bitmapStack.length))
            rw [link_stack_length, registered_stack, link_heap, registered_heap] at hih
            rw [List.count_cons_self]
            intro hroom
            rw [if_pos (by omega)] at hme
            rcases hih (by omega) with ⟨rest, hrest, hfilter⟩
            rw [mmInitFrom_available k me _ map newblock _ boot _ htype hme]
            refine ⟨(regionBlock k boot.heap.mDynFirstBlock me :: rest.1,
              some boot.bitmapStack.length :: rest.2.1, rest.2.2), by rw [hrest, Except.map], ?_⟩
            rw [List.filter_cons_of_pos rfl, hfilter, List.range'_succ, List.map_cons]
      · rw [usables_other k _ me map htype, mmInitFrom_other k me map newblock boot htype]
        intro hroom
        rcases ih newblock boot hroom with ⟨rest, hrest, hfilter⟩
        exact ⟨(me :: rest.1, rest.2.1, rest.2.2), by rw [hrest, Except.map], hfilter⟩

/-- Past the pool it writes through null. -/
theorem mmInitFrom_exhausted (k : Kernel) (map : List MemblockEntry) :
    ∀ (newblock : Option Nat) (boot : Boot), boot.bitmapStack.length ≤ bitmapStackSize →
      bitmapStackSize < boot.bitmapStack.length
          + (usables k boot.heap.mDynFirstBlock map).count true →
        mmInitFrom k map newblock boot = .error .nullDereference := by
  induction map with
  | nil => exact fun _ boot hlen hfull => absurd hfull (Nat.not_lt.mpr hlen)
  | cons me map ih =>
      intro newblock boot hlen
      by_cases htype : me.type = memBlockAvailable
      · rw [usables_available k _ me map htype]
        cases husable : usableBlock k boot.heap.mDynFirstBlock me with
        | false =>
            rcases mmInitmemblock_rejected k me boot husable with ⟨me', _, hme⟩
            have hih := ih none ((boot.seen k me).link newblock none)
            rw [link_stack_length, (seen_stack k me boot).1, link_heap, seen_heap] at hih
            rw [mmInitFrom_available k me me' map newblock none boot _ htype hme,
              List.count_cons_of_ne Bool.false_ne_true]
            intro hfull
            rw [hih hlen hfull, Except.map]
        | true =>
            rcases mmInitmemblock_usable k me boot husable with ⟨blocks, _, hme⟩
            rw [List.count_cons_self]
            intro hfull
            -- The pool runs out at this entry or at a later one.
            by_cases hroom : boot.bitmapStack.length < bitmapStackSize
            · have hih := ih (some boot.bitmapStack.length)
                ((boot.registered k me blocks).link newblock (some boot.bitmapStack.length))
              rw [link_stack_length, registered_stack, link_heap, registered_heap] at hih
              rw [if_pos hroom] at hme
              rw [mmInitFrom_available k me _ map newblock _ boot _ htype hme, hih hroom (by omega),
                Except.map]
            · rw [if_neg hroom] at hme
              exact mmInitFrom_fault k me map newblock boot _ htype hme
      · rw [usables_other k _ me map htype, mmInitFrom_other k me map newblock boot htype]
        intro hfull
        rw [ih newblock boot hlen hfull, Except.map]

/-! ### The chain -/

/-- Following `next` through the pool. -/
def Boot.nextOf (boot : Boot) (p : Option Nat) : Option Nat :=
  p.bind fun i => (boot.bitmapStack[i]?).bind BitmapList.next

/-- The chain holds exactly the entries returned, each once and in order. -/
def ChainExact (boot : Boot) (rets : List (Option Nat)) : Prop :=
  ∃ chain, Links boot.nextOf none boot.firstblock chain ∧ chain = rets.filter Option.isSome

/-- The chain is the first `b` entries of the pool, of which there is one at
    least. -/
structure ChainOf (boot : Boot) (b : Nat) : Prop where
  first : boot.firstblock = some 0
  pos : 0 < b
  le : b ≤ boot.bitmapStack.length
  inner : ∀ i, i + 1 < b → boot.nextOf (some i) = some (i + 1)
  last : boot.nextOf (some (b - 1)) = none

theorem nextOf_addEntry (boot : Boot) (entry : BitmapList) (i : Nat)
    (hi : i < boot.bitmapStack.length) :
    (boot.addEntry entry).nextOf (some i) = boot.nextOf (some i) := by
  simp only [Boot.nextOf, Boot.addEntry, Option.bind_some, List.getElem?_append_left hi]

theorem nextOf_addEntry_new (boot : Boot) (entry : BitmapList) :
    (boot.addEntry entry).nextOf (some boot.bitmapStack.length) = entry.next := by
  simp only [Boot.nextOf, Boot.addEntry, Option.bind_some,
    List.getElem?_append_right (Nat.le_refl _), Nat.sub_self, List.getElem?_cons_zero]

theorem nextOf_link_ne (boot : Boot) (oldblock newblock : Option Nat) (i : Nat)
    (h : oldblock ≠ some i) :
    (boot.link oldblock newblock).nextOf (some i) = boot.nextOf (some i) := by
  cases oldblock with
  | none => rfl
  | some j =>
      have hne : j ≠ i := fun heq => h (congrArg some heq)
      simp only [Boot.nextOf, Boot.link, Option.bind_some, List.getElem?_modify_ne _ _ hne]

theorem nextOf_link_self (boot : Boot) (newblock : Option Nat) (i : Nat)
    (hi : i < boot.bitmapStack.length) :
    (boot.link (some i) newblock).nextOf (some i) = newblock := by
  simp only [Boot.nextOf, Boot.link, Option.bind_some, List.getElem?_modify_eq,
    List.getElem?_eq_getElem hi]
  rfl

theorem link_firstblock (boot : Boot) (oldblock newblock : Option Nat) :
    (boot.link oldblock newblock).firstblock = boot.firstblock := by
  cases oldblock with
  | none => rfl
  | some i => rfl

/-- Two states whose pools agree on the first `b` links have the same chain. -/
theorem ChainOf.congr (boot boot' : Boot) (b : Nat) (h : ChainOf boot b)
    (hfirst : boot'.firstblock = boot.firstblock)
    (hle : boot.bitmapStack.length ≤ boot'.bitmapStack.length)
    (hnext : ∀ i < b, boot'.nextOf (some i) = boot.nextOf (some i)) : ChainOf boot' b :=
  ⟨hfirst.trans h.first, h.pos, h.le.trans hle,
    fun i hi => (hnext i (by omega)).trans (h.inner i hi),
    (hnext (b - 1) (by have hpos := h.pos; omega)).trans h.last⟩

theorem registered_firstblock (boot : Boot) (k : Kernel) (block : MemblockEntry) (blocks : Word) :
    (boot.registered k block blocks).firstblock
      = if boot.firstblock = none then some boot.bitmapStack.length else boot.firstblock := by
  simp only [Boot.registered, Boot.addEntry, Boot.clearBlock, (seen_stack k block boot).1,
    (seen_stack k block boot).2]

theorem nextOf_seen (boot : Boot) (k : Kernel) (block : MemblockEntry) (p : Option Nat) :
    (boot.seen k block).nextOf p = boot.nextOf p := by
  unfold Boot.nextOf
  rw [(seen_stack k block boot).1]

theorem nextOf_registered (boot : Boot) (k : Kernel) (block : MemblockEntry) (blocks : Word)
    (i : Nat) (hi : i < boot.bitmapStack.length) :
    (boot.registered k block blocks).nextOf (some i) = boot.nextOf (some i) := by
  have hstack := (seen_stack k block boot).1
  refine (nextOf_addEntry _ _ i ?_).trans (nextOf_seen boot k block (some i))
  simp only [Boot.clearBlock, hstack]
  exact hi

theorem nextOf_registered_new (boot : Boot) (k : Kernel) (block : MemblockEntry) (blocks : Word) :
    (boot.registered k block blocks).nextOf (some boot.bitmapStack.length) = none := by
  have hlen : boot.bitmapStack.length
      = ((boot.seen k block).clearBlock
          (regionBlock k boot.heap.mDynFirstBlock block)).bitmapStack.length := by
    simp only [Boot.clearBlock, (seen_stack k block boot).1]
  rw [hlen]
  exact nextOf_addEntry_new _ _

/-- A chain that no link leads out of any more stays as it is. -/
theorem chain_closed (k : Kernel) (b : Nat) (map : List MemblockEntry) :
    ∀ (newblock : Option Nat) (boot : Boot) (res : List MemblockEntry × List (Option Nat) × Boot),
      ChainOf boot b → (∀ j, newblock = some j → b ≤ j) →
      mmInitFrom k map newblock boot = .ok res → ChainOf res.2.2 b := by
  induction map with
  | nil =>
      intro newblock boot res hchain _ h
      rw [mmInitFrom, Except.ok.injEq] at h
      rw [← h]
      exact hchain
  | cons me map ih =>
      intro newblock boot res hchain hnew h
      -- `newblock` is null or past the chain, so no link of the chain is written.
      have hold : ∀ i < b, newblock ≠ some i := fun i hi heq => by
        have hle := hnew i heq
        omega
      rcases mmInitFrom_cons k me map newblock boot res h with
        ⟨_, rest, hrest, rfl⟩ | ⟨_, _, me', rest, hrest, rfl⟩ | ⟨_, _, blocks, rest, _, hrest, rfl⟩
      · exact ih newblock boot rest hchain hnew hrest
      · refine ih none _ rest ?_ (fun j hj => absurd hj (by simp only [reduceCtorEq,
          not_false_eq_true])) hrest
        refine hchain.congr boot _ b ?_ ?_ (fun i hi => ?_)
        · rw [link_firstblock, (seen_stack k me boot).2]
        · rw [link_stack_length, (seen_stack k me boot).1]
        · rw [nextOf_link_ne _ _ _ i (hold i hi), nextOf_seen]
      · have hle := hchain.le
        refine ih (some boot.bitmapStack.length) _ rest ?_ (fun j hj => ?_) hrest
        · refine hchain.congr boot _ b ?_ ?_ (fun i hi => ?_)
          · rw [link_firstblock, registered_firstblock, hchain.first]
            rfl
          · rw [link_stack_length, registered_stack]
            omega
          · rw [nextOf_link_ne _ _ _ i (hold i hi), nextOf_registered _ _ _ _ i (by omega)]
        · rw [Option.some.injEq] at hj
          omega

/-- A rejected entry links the last entry of a chain to nothing. -/
theorem ChainOf.close (boot : Boot) (k : Kernel) (block : MemblockEntry) (b : Nat)
    (h : ChainOf boot b) (hlen : boot.bitmapStack.length = b) :
    ChainOf ((boot.seen k block).link (some (b - 1)) none) b := by
  have hpos := h.pos
  have hseen : ChainOf (boot.seen k block) b :=
    h.congr boot _ b (seen_stack k block boot).2 (by rw [(seen_stack k block boot).1])
      (fun i _ => nextOf_seen boot k block (some i))
  refine ⟨(link_firstblock _ _ _).trans hseen.first, hpos, ?_, fun i hi => ?_, ?_⟩
  · rw [link_stack_length]
    exact hseen.le
  · rw [nextOf_link_ne _ _ _ i (by rw [ne_eq, Option.some.injEq]; omega)]
    exact hseen.inner i hi
  · refine nextOf_link_self _ none (b - 1) ?_
    rw [(seen_stack k block boot).1]
    omega

/-- A usable entry links the last entry of a chain to the new one, which links to
    nothing. -/
theorem ChainOf.grow (boot : Boot) (k : Kernel) (block : MemblockEntry) (blocks : Word) (b : Nat)
    (h : ChainOf boot b) (hlen : boot.bitmapStack.length = b) :
    ChainOf ((boot.registered k block blocks).link (some (b - 1)) (some b)) (b + 1) := by
  have hpos := h.pos
  have hstack := registered_stack boot k block blocks
  refine ⟨?_, Nat.succ_pos b, ?_, fun i hi => ?_, ?_⟩
  · rw [link_firstblock, registered_firstblock, h.first]
    rfl
  · rw [link_stack_length, hstack, hlen]
  · by_cases hlast : i = b - 1
    · rw [hlast, nextOf_link_self _ (some b) (b - 1) (by omega), show b - 1 + 1 = b by omega]
    · rw [nextOf_link_ne _ _ _ i (by rw [ne_eq, Option.some.injEq]; omega),
        nextOf_registered _ _ _ _ i (by omega)]
      exact h.inner i (by omega)
  · rw [nextOf_link_ne _ _ _ (b + 1 - 1) (by rw [ne_eq, Option.some.injEq]; omega),
      show b + 1 - 1 = boot.bitmapStack.length by omega]
    exact nextOf_registered_new boot k block blocks

/-- The first usable entry is a chain of one. -/
theorem chainOf_one (boot : Boot) (k : Kernel) (block : MemblockEntry) (blocks : Word)
    (hfirst : boot.firstblock = none) (hlen : boot.bitmapStack.length = 0) :
    ChainOf (boot.registered k block blocks) 1 := by
  refine ⟨?_, Nat.one_pos, ?_, fun i hi => absurd hi (by omega), ?_⟩
  · rw [registered_firstblock, hfirst, hlen]
    rfl
  · rw [registered_stack]
    omega
  · rw [show 1 - 1 = boot.bitmapStack.length by omega]
    exact nextOf_registered_new boot k block blocks

/-- A chain whose last entry the rolling pointer still holds grows by the run of
    usable entries that comes next. -/
theorem chain_open (k : Kernel) (map : List MemblockEntry) :
    ∀ (b : Nat) (boot : Boot) (res : List MemblockEntry × List (Option Nat) × Boot),
      ChainOf boot b → boot.bitmapStack.length = b →
      mmInitFrom k map (some (b - 1)) boot = .ok res →
      ChainOf res.2.2 (b + ((usables k boot.heap.mDynFirstBlock map).takeWhile id).length) := by
  induction map with
  | nil =>
      intro b boot res hchain _ h
      rw [mmInitFrom, Except.ok.injEq] at h
      rw [← h]
      exact hchain
  | cons me map ih =>
      intro b boot res hchain hlen h
      rcases mmInitFrom_cons k me map (some (b - 1)) boot res h with
        ⟨htype, rest, hrest, rfl⟩ | ⟨htype, husable, me', rest, hrest, rfl⟩ |
          ⟨htype, husable, blocks, rest, _, hrest, rfl⟩
      · rw [usables_other k _ me map htype]
        exact ih b boot rest hchain hlen hrest
      · -- A rejected entry closes the chain.
        rw [usables_available k _ me map htype, husable, List.takeWhile_cons_of_neg Bool.false_ne_true]
        exact chain_closed k b map none _ rest (hchain.close boot k me b hlen)
          (fun j hj => absurd hj (by simp only [reduceCtorEq, not_false_eq_true])) hrest
      · rw [usables_available k _ me map htype, husable, List.takeWhile_cons_of_pos rfl, List.length_cons]
        rw [hlen] at hrest
        have hih := ih (b + 1) _ rest (hchain.grow boot k me blocks b hlen)
          (by rw [link_stack_length, registered_stack, hlen])
          (by rw [Nat.add_sub_cancel]; exact hrest)
        rw [link_heap, registered_heap] at hih
        have hone : ∀ run, b + (run + 1) = b + 1 + run := fun run => by omega
        rw [hone]
        exact hih

/-- From an empty pool the chain is the first run of usable entries. -/
theorem chain_start (k : Kernel) (map : List MemblockEntry) :
    ∀ (boot : Boot) (res : List MemblockEntry × List (Option Nat) × Boot),
      boot.bitmapStack = [] → boot.firstblock = none → mmInitFrom k map none boot = .ok res →
      (firstRun (usables k boot.heap.mDynFirstBlock map) = 0 ∧ res.2.2.firstblock = none) ∨
        ChainOf res.2.2 (firstRun (usables k boot.heap.mDynFirstBlock map)) := by
  induction map with
  | nil =>
      intro boot res _ hfirst h
      rw [mmInitFrom, Except.ok.injEq] at h
      rw [← h]
      exact Or.inl ⟨rfl, hfirst⟩
  | cons me map ih =>
      intro boot res hstack hfirst h
      rcases mmInitFrom_cons k me map none boot res h with
        ⟨htype, rest, hrest, rfl⟩ | ⟨htype, husable, me', rest, hrest, rfl⟩ |
          ⟨htype, husable, blocks, rest, _, hrest, rfl⟩
      · rw [usables_other k _ me map htype]
        exact ih boot rest hstack hfirst hrest
      · -- Nothing is chained before the first usable entry.
        have hrun : firstRun (usables k boot.heap.mDynFirstBlock (me :: map))
            = firstRun (usables k (heapAfter k boot.heap.mDynFirstBlock me) map) := by
          rw [usables_available k _ me map htype, husable]
          unfold firstRun
          rw [List.dropWhile_cons_of_pos rfl]
        rw [hrun, ← seen_heap k me boot]
        exact ih (boot.seen k me) rest ((seen_stack k me boot).1.trans hstack)
          ((seen_stack k me boot).2.trans hfirst) hrest
      · have hlen : boot.bitmapStack.length = 0 := by rw [hstack]; rfl
        have hrun : firstRun (usables k boot.heap.mDynFirstBlock (me :: map))
            = 1 + ((usables k (heapAfter k boot.heap.mDynFirstBlock me) map).takeWhile id).length := by
          rw [usables_available k _ me map htype, husable]
          unfold firstRun
          rw [List.dropWhile_cons_of_neg Bool.false_ne_true, List.takeWhile_cons_of_pos rfl,
            List.length_cons, Nat.add_comm]
        -- The first usable entry is the head of a chain of one, and the rest is `chain_open`.
        have hone := chainOf_one boot k me blocks hfirst hlen
        rw [hlen] at hrest
        have hopen := chain_open k map 1 _ rest hone (by rw [registered_stack, hlen]) hrest
        rw [registered_heap] at hopen
        exact Or.inr (by rw [hrun]; exact hopen)

/-- A chain of the first `b` entries as the list of them. -/
theorem links_of_chainOf (boot : Boot) (b : Nat) (h : ChainOf boot b) :
    Links boot.nextOf none boot.firstblock ((List.range b).map some) := by
  -- From entry `i` on, by induction on how many come after it.
  have hfrom : ∀ n i, n + i + 1 = b →
      Links boot.nextOf none (some i) ((List.range' i (n + 1)).map some) := by
    intro n
    induction n with
    | zero =>
        intro i hi
        refine ⟨rfl, Option.some_ne_none i, ?_⟩
        rw [show i = b - 1 by omega]
        exact h.last
    | succ n ih =>
        intro i hi
        refine ⟨rfl, Option.some_ne_none i, ?_⟩
        rw [h.inner i (by omega)]
        exact ih (i + 1) (by omega)
  have hpos := h.pos
  rw [h.first, List.range_eq_range']
  have hall := hfrom (b - 1) 0 (by omega)
  rw [show b - 1 + 1 = b by omega] at hall
  exact hall

/-- A walk within the pool returns the entries of the pool in order, and its
    chain is the first run of them. -/
theorem mmInit_firstRun (k : Kernel) (map : List MemblockEntry) (m : Mem)
    (hfits : (usables k 0 map).count true ≤ bitmapStackSize) :
    ∃ map' rets boot, mmInit k map (Boot.initial m) = .ok (map', rets, boot) ∧
      rets.filter Option.isSome = (List.range ((usables k 0 map).count true)).map some ∧
      Links boot.nextOf none boot.firstblock
        ((List.range (firstRun (usables k 0 map))).map some) := by
  have hheap : (Boot.initial m).heap.mDynFirstBlock = 0 := rfl
  have hlen : (Boot.initial m).bitmapStack.length = 0 := rfl
  have hreturns := mmInitFrom_returns k map none (Boot.initial m)
  rw [hheap, hlen, Nat.zero_add] at hreturns
  rcases hreturns hfits with ⟨⟨map', rets, boot⟩, hok, hfilter⟩
  rw [← List.range_eq_range'] at hfilter
  refine ⟨map', rets, boot, hok, hfilter, ?_⟩
  rcases chain_start k map (Boot.initial m) _ rfl rfl hok with ⟨hzero, hnone⟩ | hchain
  · rw [hheap] at hzero
    rw [hzero]
    exact hnone
  · rw [hheap] at hchain
    exact links_of_chainOf boot _ hchain

/-- A walk past the pool writes through null. -/
theorem mmInit_exhausted (k : Kernel) (map : List MemblockEntry) (m : Mem)
    (hmany : bitmapStackSize < (usables k 0 map).count true) :
    mmInit k map (Boot.initial m) = .error .nullDereference := by
  have hlen : (Boot.initial m).bitmapStack.length = 0 := rfl
  refine mmInitFrom_exhausted k map none (Boot.initial m) (Nat.zero_le _) ?_
  rw [hlen, Nat.zero_add]
  exact hmany

/-- The chain of a walk that returned holds all the entries exactly when the
    first run does. -/
theorem chainExact_iff (boot : Boot) (rets : List (Option Nat)) (run total : Nat)
    (hfilter : rets.filter Option.isSome = (List.range total).map some)
    (hchain : Links boot.nextOf none boot.firstblock ((List.range run).map some)) :
    ChainExact boot rets ↔ run = total := by
  constructor
  · rintro ⟨chain, hlinks, hexact⟩
    have hsame := Links.unique _ _ _ _ _ hlinks hchain
    have hlength := congrArg List.length (hexact.symm.trans hsame)
    rw [hfilter, List.length_map, List.length_map, List.length_range, List.length_range] at hlength
    exact hlength.symm
  · rintro rfl
    exact ⟨_, hchain, hfilter.symm⟩

/-- `mm_init` builds the chain of exactly the entries it got, in order, if and
    only if the usable entries fit in the pool and no rejected entry stands
    between two of them. -/
theorem mmInit_chainExact (k : Kernel) (map : List MemblockEntry) (m : Mem) :
    (∃ map' rets boot, mmInit k map (Boot.initial m) = .ok (map', rets, boot) ∧
        ChainExact boot rets) ↔
      (usables k 0 map).count true ≤ bitmapStackSize ∧ Contiguous (usables k 0 map) := by
  rw [← firstRun_eq_count]
  by_cases hfits : (usables k 0 map).count true ≤ bitmapStackSize
  · rcases mmInit_firstRun k map m hfits with ⟨map', rets, boot, hok, hfilter, hchain⟩
    -- Within the pool the walk returns, and only the chain is left to compare.
    have hiff := chainExact_iff boot rets _ _ hfilter hchain
    constructor
    · rintro ⟨map'', rets', boot', hok', hexact⟩
      rw [hok, Except.ok.injEq, Prod.mk.injEq, Prod.mk.injEq] at hok'
      rcases hok' with ⟨_, rfl, rfl⟩
      exact ⟨hfits, hiff.mp hexact⟩
    · rintro ⟨_, hrun⟩
      exact ⟨map', rets, boot, hok, hiff.mpr hrun⟩
  · have hfault := mmInit_exhausted k map m (Nat.lt_of_not_le hfits)
    constructor
    · rintro ⟨map', rets, boot, hok, _⟩
      rw [hfault] at hok
      exact absurd hok (by simp only [reduceCtorEq, not_false_eq_true])
    · rintro ⟨hle, _⟩
      exact absurd hle hfits

end UnixP6
