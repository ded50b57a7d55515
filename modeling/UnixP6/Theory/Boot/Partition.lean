import UnixP6.Theory.Boot.Cuts
import Mathlib.Data.List.Count

/-!
# The Partition of Managed Memory

What `mm_init` hands out is a list of ranges: the dynamic heap and each region
with its bitmap. The list can be read off the memory map, because every entry
claims ranges that depend only on the entry and on whether the heap has been
placed. So the walk is left behind at once, and the rest is about ranges.

An entry that ends above the kernel is moved to start at the end of the kernel
even if it started above it. All such entries end up at the same address, and
two of them that claim anything overlap. The partition therefore holds only for
maps where at most one does, where the entry around the kernel does not end
with it, and where the heap does not reach the top of the address space.

## Main definitions

* `Partitioned`: The ranges and the kernel image are pairwise disjoint.
* `claimOf`, `claimed`: The ranges an entry claims, and those of a map.
* `occupies`, `occupants`: Which entries claim memory at the end of the kernel.

## Theorems

* `mmInitFrom_claims`: The walk hands out what its entries claim.
* `claimOf_idle`, `claimOf_spare`, `claimOf_occupied`: What one entry claims.
* `claimed_apart`: With one occupant at most, the ranges are disjoint.
* `occupants_le_one`: Two occupants would both claim the end of the kernel.
* `mmInit_partition`: The ranges are disjoint exactly under the three conditions.
* `mmInit_overlap`: Memory above the kernel in two entries is handed out twice.
-/

namespace UnixP6

open CSemantics

/-- The range of the dynamic heap. -/
def Boot.heapRange (boot : Boot) : Set Nat :=
  CSemantics.span boot.heap.mDynBase.toNat boot.heap.mDynTotal.toNat

/-- The kernel image, the heap and the regions are pairwise disjoint. -/
def Partitioned (k : Kernel) (boot : Boot) : Prop :=
  (Set.Ico k.kernelStart.toNat k.kernelEnd.toNat :: boot.heapRange ::
    boot.bitmapStack.map BitmapList.extent).Pairwise Disjoint

/-! ### Reading the ranges off the map -/

/-- The ranges handed out so far. -/
def Boot.claims (boot : Boot) : List (Set Nat) :=
  (if boot.heap.mDynFirstBlock = 0 then [] else [boot.heapRange])
    ++ boot.bitmapStack.map BitmapList.extent

/-- The heap, if the block takes it. -/
def heapOf (first : Word) (block : MemblockEntry) : List (Set Nat) :=
  if takesHeap first block then [CSemantics.span block.addr.toNat memDynamicMinSize.toNat] else []

/-- The ranges an available entry claims. -/
def claimOf (k : Kernel) (first : Word) (e : MemblockEntry) : List (Set Nat) :=
  if e.isUnder1mb then []
  else heapOf first (cutFixed k e)
    ++ if isUsedUp (cutHeap first (cutFixed k e)) then [] else [extentOf (regionBlock k first e)]

/-- The ranges a map claims. -/
def claimed (k : Kernel) : Word → List MemblockEntry → List (Set Nat)
  | _, [] => []
  | first, me :: map =>
    if me.type = memBlockAvailable then claimOf k first me ++ claimed k (heapAfter k first me) map
    else claimed k first map

/-- Before the heap is placed its range is empty. -/
def Boot.HeapUnset (boot : Boot) : Prop :=
  boot.heap.mDynFirstBlock = 0 → boot.heap.mDynTotal = 0

theorem link_extents (boot : Boot) (oldblock newblock : Option Nat) :
    (boot.link oldblock newblock).bitmapStack.map BitmapList.extent
      = boot.bitmapStack.map BitmapList.extent := by
  cases oldblock with
  | none => rfl
  | some i =>
      -- A link changes `next` of one entry, and ranges do not look at it.
      refine List.ext_getElem? fun j => ?_
      simp only [Boot.link, List.getElem?_map, List.getElem?_modify]
      cases boot.bitmapStack[j]? with
      | none => rfl
      | some e =>
          by_cases hij : i = j
          · simp only [Option.map_eq_map, Option.map_some, if_pos hij]
            rfl
          · simp only [Option.map_eq_map, Option.map_some, if_neg hij]

theorem link_claims (boot : Boot) (oldblock newblock : Option Nat) :
    (boot.link oldblock newblock).claims = boot.claims := by
  unfold Boot.claims Boot.heapRange
  rw [link_heap, link_extents]

/-- An entry that is looked at may take the heap. -/
theorem seen_claims (k : Kernel) (e : MemblockEntry) (boot : Boot)
    (hne : e.isUnder1mb = false → (cutFixed k e).addr ≠ 0) (hunset : boot.HeapUnset) :
    (boot.seen k e).HeapUnset ∧ (boot.seen k e).claims.Perm (boot.claims ++
      if e.isUnder1mb then [] else heapOf boot.heap.mDynFirstBlock (cutFixed k e)) := by
  cases hlow : e.isUnder1mb with
  | true =>
      simp only [Boot.seen, hlow, if_true, List.append_nil]
      exact ⟨hunset, List.Perm.refl _⟩
  | false =>
      have haddr := hne hlow
      simp only [Boot.seen, hlow, Bool.false_eq_true, if_false, Boot.placeHeap, heapOf]
      by_cases htakes : takesHeap boot.heap.mDynFirstBlock (cutFixed k e) = true
      · -- It takes the heap only if there is none, so there is a range more and none lost.
        have hfirst : boot.heap.mDynFirstBlock = 0 := by
          unfold takesHeap at htakes
          rw [Bool.and_eq_true, decide_eq_true_eq, decide_eq_true_eq] at htakes
          exact htakes.2
        rw [if_pos htakes, if_pos htakes]
        refine ⟨fun hzero => absurd hzero haddr, ?_⟩
        have hplaced : ({ boot with heap := boot.heap.place (cutFixed k e).addr } : Boot).claims
            = [CSemantics.span (cutFixed k e).addr.toNat memDynamicMinSize.toNat]
              ++ boot.bitmapStack.map BitmapList.extent := by
          unfold Boot.claims
          rw [if_neg (show ¬ (boot.heap.place (cutFixed k e).addr).mDynFirstBlock = 0 from haddr)]
          rfl
        have hunplaced : boot.claims = boot.bitmapStack.map BitmapList.extent := by
          unfold Boot.claims
          rw [if_pos hfirst, List.nil_append]
        rw [hplaced, hunplaced]
        exact List.perm_append_comm
      · rw [if_neg htakes, if_neg htakes, List.append_nil]
        exact ⟨hunset, List.Perm.refl _⟩

/-- The walk hands out what its entries claim. -/
theorem mmInitFrom_claims (k : Kernel) (map : List MemblockEntry)
    (hne : ∀ e ∈ map, e.isUnder1mb = false → (cutFixed k e).addr ≠ 0) :
    ∀ (newblock : Option Nat) (boot : Boot) (res : List MemblockEntry × List (Option Nat) × Boot),
      boot.HeapUnset → mmInitFrom k map newblock boot = .ok res →
      res.2.2.HeapUnset ∧
        res.2.2.claims.Perm (boot.claims ++ claimed k boot.heap.mDynFirstBlock map) := by
  induction map with
  | nil =>
      intro newblock boot res hunset h
      rw [mmInitFrom, Except.ok.injEq] at h
      rw [← h, claimed, List.append_nil]
      exact ⟨hunset, List.Perm.refl _⟩
  | cons me map ih =>
      intro newblock boot res hunset h
      have hrec := ih (fun e he => hne e (List.mem_cons_of_mem me he))
      rcases seen_claims k me boot (hne me List.mem_cons_self) hunset with ⟨hunset', hseen⟩
      rcases mmInitFrom_cons k me map newblock boot res h with
        ⟨htype, rest, hrest, rfl⟩ | ⟨htype, husable, me', rest, hrest, rfl⟩ |
          ⟨htype, husable, blocks, rest, hcalc, hrest, rfl⟩
      · rw [claimed, if_neg htype]
        exact hrec newblock boot rest hunset hrest
      · have hclaim : claimOf k boot.heap.mDynFirstBlock me
            = if me.isUnder1mb then [] else heapOf boot.heap.mDynFirstBlock (cutFixed k me) := by
          unfold claimOf
          simp only [usableBlock, Bool.and_eq_false_iff, Bool.not_eq_false'] at husable
          by_cases hlow : me.isUnder1mb = true
          · rw [if_pos hlow, if_pos hlow]
          · rw [if_neg hlow, if_neg hlow, if_pos (husable.resolve_left hlow), List.append_nil]
        have hih := hrec none ((boot.seen k me).link newblock none) rest
          (by unfold Boot.HeapUnset; rw [link_heap]; exact hunset') hrest
        rw [link_claims, link_heap, seen_heap] at hih
        refine ⟨hih.1, hih.2.trans ?_⟩
        rw [claimed, if_pos htype, hclaim, ← List.append_assoc]
        exact hseen.append_right _
      · simp only [usableBlock, Bool.and_eq_true, Bool.not_eq_true'] at husable
        rcases husable with ⟨hlow, hused⟩
        simp only [hlow, Bool.false_eq_true, if_false] at hseen
        have hclaim : claimOf k boot.heap.mDynFirstBlock me
            = heapOf boot.heap.mDynFirstBlock (cutFixed k me)
              ++ [extentOf (regionBlock k boot.heap.mDynFirstBlock me)] := by
          simp only [claimOf, hlow, hused, Bool.false_eq_true, if_false]
        -- The entry in the pool and the claim divide the same block.
        have hextent : (bitmapEntry (regionBlock k boot.heap.mDynFirstBlock me) blocks).extent
            = extentOf (regionBlock k boot.heap.mDynFirstBlock me) := by
          simp only [extentOf, hcalc]
        have hregistered : (boot.registered k me blocks).claims
            = (boot.seen k me).claims ++ [extentOf (regionBlock k boot.heap.mDynFirstBlock me)] := by
          simp only [Boot.claims, Boot.heapRange, Boot.registered, Boot.addEntry, Boot.clearBlock,
            List.map_append, List.map_cons, List.map_nil, hextent, List.append_assoc]
          rfl
        have hih := hrec (some boot.bitmapStack.length)
          ((boot.registered k me blocks).link newblock (some boot.bitmapStack.length)) rest
          (by unfold Boot.HeapUnset; rw [link_heap]; exact hunset') hrest
        rw [link_claims, link_heap, registered_heap, hregistered] at hih
        refine ⟨hih.1, hih.2.trans ?_⟩
        rw [claimed, if_pos htype, hclaim, ← List.append_assoc, ← List.append_assoc]
        exact (hseen.append_right _).append_right _

/-- A walk that returns leaves a partition exactly when the claims of the map are
    disjoint from one another and from the kernel. -/
theorem partitioned_iff_claimed (k : Kernel) (map : List MemblockEntry) (m : Mem)
    (hne : ∀ e ∈ map, e.isUnder1mb = false → (cutFixed k e).addr ≠ 0)
    (res : List MemblockEntry × List (Option Nat) × Boot)
    (h : mmInit k map (Boot.initial m) = .ok res) :
    Partitioned k res.2.2 ↔
      (Set.Ico k.kernelStart.toNat k.kernelEnd.toNat :: claimed k 0 map).Pairwise Disjoint := by
  rcases mmInitFrom_claims k map hne none (Boot.initial m) res (fun _ => rfl) h with ⟨hunset, hperm⟩
  have hinit : (Boot.initial m).claims ++ claimed k (Boot.initial m).heap.mDynFirstBlock map
      = claimed k 0 map := rfl
  rw [hinit] at hperm
  rw [← (hperm.cons _).pairwise_iff (fun hxy => Disjoint.symm hxy)]
  unfold Partitioned Boot.claims
  by_cases hfirst : res.2.2.heap.mDynFirstBlock = 0
  · -- No heap: its range is empty, and disjoint from anything.
    have hempty : res.2.2.heapRange = ∅ := by
      unfold Boot.heapRange CSemantics.span
      rw [hunset hfirst]
      exact Set.Ico_self _
    rw [if_pos hfirst, hempty, List.nil_append, List.pairwise_cons, List.pairwise_cons,
      List.pairwise_cons]
    constructor
    · rintro ⟨hkernel, _, hrest⟩
      exact ⟨fun r hr => hkernel r (List.mem_cons_of_mem _ hr), hrest⟩
    · rintro ⟨hkernel, hrest⟩
      refine ⟨fun r hr => ?_, fun r _ => Set.empty_disjoint r, hrest⟩
      rcases List.mem_cons.mp hr with rfl | hr
      · exact Set.disjoint_empty _
      · exact hkernel r hr
  · rw [if_neg hfirst]
    rfl

/-! ### What one entry claims -/

/-- The entry claims memory: it takes the heap, or leaves a region that is not a
    leftover. -/
def occupies (k : Kernel) (first : Word) (e : MemblockEntry) : Bool :=
  !e.isUnder1mb && (takesHeap first (cutFixed k e) ||
    (!isUsedUp (cutFixed k e) && !leftover (cutFixed k e)))

/-- Which of the available entries of a map claim memory, in order. -/
def occupants (k : Kernel) : Word → List MemblockEntry → List Bool
  | _, [] => []
  | first, me :: map =>
    if me.type = memBlockAvailable then
      occupies k first me :: occupants k (heapAfter k first me) map
    else occupants k first map

theorem memDynamicMinSize_eq : memDynamicMinSize.toNat = 0x100000 :=
  rfl

theorem cutHeap_takes (first : Word) (b : MemblockEntry) (h : takesHeap first b = true) :
    (cutHeap first b).addr = b.addr + memDynamicMinSize ∧
      (cutHeap first b).len.toNat = b.len.toNat - memDynamicMinSize.toNat ∧
      memDynamicMinSize.toNat ≤ b.len.toNat := by
  unfold cutHeap
  rw [if_pos h]
  unfold takesHeap at h
  rw [Bool.and_eq_true, decide_eq_true_eq, decide_eq_true_eq, BitVec.le_def] at h
  have hinc : b.addr + memDynamicMinSize - b.addr = memDynamicMinSize := by bv_omega
  have hslt : (0 : Word).slt memDynamicMinSize = true := by decide
  simp only [MemblockEntry.addStart, MemblockEntry.setStart, hinc, hslt, if_true]
  refine ⟨trivial, ?_, h.1⟩
  rw [BitVec.toNat_sub_of_le (BitVec.le_def.mpr h.1)]

theorem cutHeap_leaves (first : Word) (b : MemblockEntry) (h : takesHeap first b = false) :
    cutHeap first b = b := by
  unfold cutHeap
  rw [h, if_neg Bool.false_ne_true]

/-- An idle entry claims nothing. -/
theorem claimOf_idle (k : Kernel) (first : Word) (e : MemblockEntry) (h : Idle k e) :
    claimOf k first e = [] ∧ heapAfter k first e = first ∧ occupies k first e = false := by
  unfold claimOf heapAfter occupies
  cases hlow : e.isUnder1mb with
  | true =>
      simp only [if_true, Bool.not_true, Bool.false_and, and_self]
  | false =>
      rcases h.resolve_left (Bool.eq_false_iff.mp hlow) with ⟨hlen, hused⟩
      have htakes : takesHeap first (cutFixed k e) = false := by
        unfold takesHeap
        rw [Bool.and_eq_false_iff, decide_eq_false_iff_not, BitVec.le_def]
        exact Or.inl (Nat.not_le.mpr hlen)
      have hcut := cutHeap_leaves first (cutFixed k e) htakes
      simp only [heapOf, htakes, hcut, hused, Bool.false_eq_true, if_false, if_true, List.append_nil,
        Bool.not_true, Bool.false_and, Bool.or_false, Bool.and_false, and_self]

section Entry

variable (k : Kernel) (first : Word) (e : MemblockEntry)
  (hpage : (cutFixed k e).addr.toNat % 4096 = 0)

include hpage

/-- The region of an entry that does not take the heap is the block itself. -/
theorem regionBlock_leaves (htakes : takesHeap first (cutFixed k e) = false) :
    regionBlock k first e = cutFixed k e := by
  unfold regionBlock
  rw [cutHeap_leaves first _ htakes, cutPage_self _ hpage]

/-- An entry that does not claim memory claims empty ranges at most. -/
theorem claimOf_spare (h : occupies k first e = false) :
    heapAfter k first e = first ∧ ∀ r ∈ claimOf k first e, r = ∅ := by
  unfold heapAfter claimOf
  cases hlow : e.isUnder1mb with
  | true =>
      rw [if_pos rfl, if_pos rfl]
      exact ⟨rfl, fun r hr => absurd hr List.not_mem_nil⟩
  | false =>
      simp only [occupies, hlow, Bool.not_false, Bool.true_and, Bool.or_eq_false_iff,
        Bool.and_eq_false_iff, Bool.not_eq_false'] at h
      -- It may still yield a region, but then a leftover, whose range is empty.
      rcases h with ⟨htakes, hspare⟩
      simp only [heapOf, htakes, Bool.false_eq_true, if_false, List.nil_append,
        cutHeap_leaves first _ htakes, regionBlock_leaves k first e hpage htakes]
      refine ⟨trivial, fun r hr => ?_⟩
      cases hused : isUsedUp (cutFixed k e) with
      | true =>
          rw [hused, if_pos rfl] at hr
          exact absurd hr List.not_mem_nil
      | false =>
          rw [hused, if_neg Bool.false_ne_true, List.mem_singleton] at hr
          rw [hr]
          exact extentOf_leftover _ (hspare.resolve_left (Bool.eq_false_iff.mp hused))

/-- An entry that claims memory claims its start. -/
theorem claimOf_occupied (h : occupies k first e = true) :
    ∃ r ∈ claimOf k first e, (cutFixed k e).addr.toNat ∈ r := by
  simp only [occupies, Bool.and_eq_true, Bool.not_eq_true'] at h
  rcases h with ⟨hlow, h⟩
  unfold claimOf
  rw [hlow, if_neg Bool.false_ne_true]
  cases htakes : takesHeap first (cutFixed k e) with
  | true =>
      refine ⟨CSemantics.span (cutFixed k e).addr.toNat memDynamicMinSize.toNat, ?_,
        Nat.le_refl _, Nat.lt_add_of_pos_right (by decide)⟩
      unfold heapOf
      rw [htakes, if_pos rfl]
      exact List.mem_append_left _ List.mem_cons_self
  | false =>
      rw [htakes, Bool.false_or, Bool.and_eq_true, Bool.not_eq_true', Bool.not_eq_true'] at h
      rcases h with ⟨hused, hleft⟩
      refine ⟨extentOf (regionBlock k first e), ?_, ?_⟩
      · rw [cutHeap_leaves first _ htakes, hused, if_neg Bool.false_ne_true]
        exact List.mem_append_right _ List.mem_cons_self
      · rw [regionBlock_leaves k first e hpage htakes]
        exact mem_extentOf _ hleft ((isUsedUp_iff _ hpage).mp hused).2

/-- Where the heap stays below the top of the address space, what an entry claims
    is disjoint. -/
theorem claimOf_apart (htop : (cutFixed k e).addr.toNat + memDynamicMinSize.toNat < 2 ^ 32) :
    (claimOf k first e).Pairwise Disjoint ∧
      ∀ r ∈ claimOf k first e, r ⊆ Set.Ici (cutFixed k e).addr.toNat := by
  unfold claimOf
  cases hlow : e.isUnder1mb with
  | true =>
      rw [if_pos rfl]
      exact ⟨List.Pairwise.nil, fun r hr => absurd hr List.not_mem_nil⟩
  | false =>
      rw [if_neg Bool.false_ne_true]
      cases htakes : takesHeap first (cutFixed k e) with
      | true =>
          have haddr := (cutHeap_takes first _ htakes).1
          have hsum : (cutHeap first (cutFixed k e)).addr.toNat
              = (cutFixed k e).addr.toNat + memDynamicMinSize.toNat := by
            rw [haddr, BitVec.toNat_add]
            exact Nat.mod_eq_of_lt htop
          have hregion : regionBlock k first e = cutHeap first (cutFixed k e) := by
            refine cutPage_self _ ?_
            rw [hsum, memDynamicMinSize_eq]
            omega
          -- What is left of the block starts where the heap ends.
          have habove : ∀ x ∈ extentOf (regionBlock k first e),
              (cutFixed k e).addr.toNat + memDynamicMinSize.toNat ≤ x := fun x hx => by
            rw [← hsum, ← hregion]
            exact le_of_mem_extentOf _ x hx
          unfold heapOf
          rw [htakes, if_pos rfl]
          by_cases hused : isUsedUp (cutHeap first (cutFixed k e)) = true
          · rw [if_pos hused, List.append_nil]
            refine ⟨List.pairwise_singleton _ _, fun r hr => ?_⟩
            rw [List.mem_singleton.mp hr]
            exact fun x hx => hx.1
          · rw [if_neg hused]
            refine ⟨List.pairwise_pair.mpr (Set.disjoint_left.mpr fun x hx hx' =>
              absurd (habove x hx') (Nat.not_le.mpr hx.2)), fun r hr => ?_⟩
            rcases List.mem_cons.mp hr with rfl | hr
            · exact fun x hx => hx.1
            · rw [List.mem_singleton.mp hr]
              exact fun x hx => (Nat.le_add_right _ _).trans (habove x hx)
      | false =>
          unfold heapOf
          rw [htakes, if_neg Bool.false_ne_true, List.nil_append]
          by_cases hused : isUsedUp (cutHeap first (cutFixed k e)) = true
          · rw [if_pos hused]
            exact ⟨List.Pairwise.nil, fun r hr => absurd hr List.not_mem_nil⟩
          · rw [if_neg hused]
            refine ⟨List.pairwise_singleton _ _, fun r hr => ?_⟩
            rw [List.mem_singleton.mp hr, regionBlock_leaves k first e hpage htakes]
            exact le_of_mem_extentOf _

end Entry

/-! ### What a map claims -/

/-- Every available entry is idle or ends up at the end of the kernel. -/
def Settled (k : Kernel) (map : List MemblockEntry) : Prop :=
  ∀ e ∈ map, e.type = memBlockAvailable →
    Idle k e ∨ (e.isUnder1mb = false ∧ (cutFixed k e).addr = k.kernelEnd)

section Map

variable (k : Kernel) (haligned : k.kernelEnd.toNat % 4096 = 0)

include haligned

/-- Without an occupant every range is empty. -/
theorem claimed_empty (map : List MemblockEntry) (hsettled : Settled k map) :
    ∀ first, (occupants k first map).count true = 0 → ∀ r ∈ claimed k first map, r = ∅ := by
  induction map with
  | nil => exact fun first _ r hr => absurd hr List.not_mem_nil
  | cons me map ih =>
      intro first hcount r hr
      have hrec := ih (fun e he => hsettled e (List.mem_cons_of_mem me he))
      by_cases htype : me.type = memBlockAvailable
      · rw [occupants, if_pos htype] at hcount
        rw [claimed, if_pos htype, List.mem_append] at hr
        -- An occupant would be counted.
        have hspare : occupies k first me = false := by
          rw [Bool.eq_false_iff]
          intro hc
          rw [hc, List.count_cons_self] at hcount
          omega
        rw [hspare, List.count_cons_of_ne Bool.false_ne_true] at hcount
        rcases hr with hr | hr
        · rcases hsettled me List.mem_cons_self htype with hidle | habove
          · rw [(claimOf_idle k first me hidle).1] at hr
            exact absurd hr List.not_mem_nil
          · exact (claimOf_spare k first me (by rw [habove.2]; exact haligned) hspare).2 r hr
        · exact hrec _ hcount r hr
      · rw [occupants, if_neg htype] at hcount
        rw [claimed, if_neg htype] at hr
        exact hrec first hcount r hr

/-- With one occupant at most, the ranges are disjoint and lie above the kernel. -/
theorem claimed_apart (map : List MemblockEntry) (hsettled : Settled k map)
    (htop : k.kernelEnd.toNat < 0xFFF00000) :
    ∀ first, (occupants k first map).count true ≤ 1 →
      (claimed k first map).Pairwise Disjoint ∧
        ∀ r ∈ claimed k first map, r ⊆ Set.Ici k.kernelEnd.toNat := by
  induction map with
  | nil => exact fun first _ => ⟨List.Pairwise.nil, fun r hr => absurd hr List.not_mem_nil⟩
  | cons me map ih =>
      intro first hcount
      have hsettled' : Settled k map := fun e he => hsettled e (List.mem_cons_of_mem me he)
      by_cases htype : me.type = memBlockAvailable
      · rw [occupants, if_pos htype] at hcount
        rw [claimed, if_pos htype]
        rcases hsettled me List.mem_cons_self htype with hidle | habove
        · rcases claimOf_idle k first me hidle with ⟨hclaim, _, hspare⟩
          rw [hspare, List.count_cons_of_ne Bool.false_ne_true] at hcount
          rw [hclaim, List.nil_append]
          exact ih hsettled' _ hcount
        · have hpage : (cutFixed k me).addr.toNat % 4096 = 0 := by rw [habove.2]; exact haligned
          have hone := claimOf_apart k first me hpage (by
            rw [habove.2, memDynamicMinSize_eq]
            omega)
          rw [habove.2] at hone
          cases hoccupies : occupies k first me with
          | false =>
              have hempty := (claimOf_spare k first me hpage hoccupies).2
              rw [hoccupies, List.count_cons_of_ne Bool.false_ne_true] at hcount
              have hrest := ih hsettled' _ hcount
              refine ⟨List.pairwise_append.mpr ⟨hone.1, hrest.1, fun r hr r' _ => ?_⟩, fun r hr => ?_⟩
              · rw [hempty r hr]
                exact Set.empty_disjoint r'
              · exact (List.mem_append.mp hr).elim (hone.2 r) (hrest.2 r)
          | true =>
              -- The one occupant is this entry, so nothing comes after it.
              rw [hoccupies, List.count_cons_self] at hcount
              have hempty := claimed_empty k haligned map hsettled' _
                (Nat.le_zero.mp (Nat.le_of_succ_le_succ hcount))
              have hrest := ih hsettled' (heapAfter k first me)
                ((Nat.le_of_succ_le_succ hcount).trans (Nat.zero_le 1))
              refine ⟨List.pairwise_append.mpr ⟨hone.1, hrest.1, fun r _ r' hr' => ?_⟩, fun r hr => ?_⟩
              · rw [hempty r' hr']
                exact Set.disjoint_empty r
              · exact (List.mem_append.mp hr).elim (hone.2 r) (hrest.2 r)
      · rw [occupants, if_neg htype] at hcount
        rw [claimed, if_neg htype]
        exact ih hsettled' first hcount

/-- Two occupants claim the end of the kernel both. -/
theorem occupants_le_one (map : List MemblockEntry) (hsettled : Settled k map) :
    ∀ first, (claimed k first map).Pairwise Disjoint →
      (occupants k first map).count true ≤ 1 ∧
        (0 < (occupants k first map).count true →
          ∃ r ∈ claimed k first map, k.kernelEnd.toNat ∈ r) := by
  induction map with
  | nil => exact fun first _ => ⟨Nat.zero_le 1, fun h => absurd h (Nat.lt_irrefl 0)⟩
  | cons me map ih =>
      intro first hpairwise
      have hsettled' : Settled k map := fun e he => hsettled e (List.mem_cons_of_mem me he)
      by_cases htype : me.type = memBlockAvailable
      · rw [claimed, if_pos htype] at hpairwise
        rw [occupants, if_pos htype, claimed, if_pos htype]
        rcases List.pairwise_append.mp hpairwise with ⟨_, hrest, hacross⟩
        have hrec := ih hsettled' _ hrest
        cases hoccupies : occupies k first me with
        | false =>
            rw [List.count_cons_of_ne Bool.false_ne_true]
            refine ⟨hrec.1, fun hpos => ?_⟩
            rcases hrec.2 hpos with ⟨r, hr, hmem⟩
            exact ⟨r, List.mem_append_right _ hr, hmem⟩
        | true =>
            rcases hsettled me List.mem_cons_self htype with hidle | habove
            · rw [(claimOf_idle k first me hidle).2.2] at hoccupies
              exact absurd hoccupies Bool.false_ne_true
            · rcases claimOf_occupied k first me (by rw [habove.2]; exact haligned) hoccupies with
                ⟨r, hr, hmem⟩
              rw [habove.2] at hmem
              -- Another occupant later on would claim the same byte.
              have hzero : ¬ 0 < (occupants k (heapAfter k first me) map).count true := fun hpos => by
                rcases hrec.2 hpos with ⟨r', hr', hmem'⟩
                exact Set.disjoint_left.mp (hacross r hr r' hr') hmem hmem'
              rw [List.count_cons_self]
              exact ⟨by omega, fun _ => ⟨r, List.mem_append_left _ hr, hmem⟩⟩
      · rw [claimed, if_neg htype] at hpairwise
        rw [occupants, if_neg htype, claimed, if_neg htype]
        exact ih hsettled' first hpairwise

end Map

/-- What an entry claims is claimed by the map. -/
theorem mem_claimed (k : Kernel) (map : List MemblockEntry) (e : MemblockEntry) (he : e ∈ map)
    (htype : e.type = memBlockAvailable) :
    ∀ first, ∃ first', ∀ r ∈ claimOf k first' e, r ∈ claimed k first map := by
  induction map with
  | nil => exact absurd he List.not_mem_nil
  | cons me map ih =>
      intro first
      rcases List.mem_cons.mp he with rfl | he
      · refine ⟨first, fun r hr => ?_⟩
        rw [claimed, if_pos htype]
        exact List.mem_append_left _ hr
      · by_cases htype' : me.type = memBlockAvailable
        · rcases ih he (heapAfter k first me) with ⟨first', hmem⟩
          refine ⟨first', fun r hr => ?_⟩
          rw [claimed, if_pos htype']
          exact List.mem_append_right _ (hmem r hr)
        · rcases ih he first with ⟨first', hmem⟩
          refine ⟨first', fun r hr => ?_⟩
          rw [claimed, if_neg htype']
          exact hmem r hr

/-- If an entry can take the heap, one does. -/
theorem mem_claimed_heap (k : Kernel) (map : List MemblockEntry)
    (h : ∃ e ∈ map, e.type = memBlockAvailable ∧ e.isUnder1mb = false ∧
      takesHeap 0 (cutFixed k e) = true) :
    ∃ e ∈ map, e.type = memBlockAvailable ∧ e.isUnder1mb = false ∧
      takesHeap 0 (cutFixed k e) = true ∧ ∀ r ∈ claimOf k 0 e, r ∈ claimed k 0 map := by
  induction map with
  | nil =>
      rcases h with ⟨e, he, _⟩
      exact absurd he List.not_mem_nil
  | cons me map ih =>
      by_cases htype : me.type = memBlockAvailable
      · by_cases htakes : me.isUnder1mb = false ∧ takesHeap 0 (cutFixed k me) = true
        · refine ⟨me, List.mem_cons_self, htype, htakes.1, htakes.2, fun r hr => ?_⟩
          rw [claimed, if_pos htype]
          exact List.mem_append_left _ hr
        · -- It does not take the heap, so a later entry still sees none.
          have hafter : heapAfter k 0 me = 0 := by
            unfold heapAfter
            by_cases hlow : me.isUnder1mb = true
            · rw [if_pos hlow]
            · rw [if_neg hlow, if_neg (fun hc => htakes ⟨Bool.eq_false_iff.mpr hlow, hc⟩)]
          have hrest : ∃ e ∈ map, e.type = memBlockAvailable ∧ e.isUnder1mb = false ∧
              takesHeap 0 (cutFixed k e) = true := by
            rcases h with ⟨e, he, hprops⟩
            rcases List.mem_cons.mp he with rfl | he
            · exact absurd hprops.2 htakes
            · exact ⟨e, he, hprops⟩
          rcases ih hrest with ⟨e, he, htype', hlow, htakes', hmem⟩
          refine ⟨e, List.mem_cons_of_mem me he, htype', hlow, htakes', fun r hr => ?_⟩
          rw [claimed, if_pos htype, hafter]
          exact List.mem_append_right _ (hmem r hr)
      · have hrest : ∃ e ∈ map, e.type = memBlockAvailable ∧ e.isUnder1mb = false ∧
            takesHeap 0 (cutFixed k e) = true := by
          rcases h with ⟨e, he, hprops⟩
          rcases List.mem_cons.mp he with rfl | he
          · exact absurd hprops.1 htype
          · exact ⟨e, he, hprops⟩
        rcases ih hrest with ⟨e, he, htype', hlow, htakes', hmem⟩
        refine ⟨e, List.mem_cons_of_mem me he, htype', hlow, htakes', fun r hr => ?_⟩
        rw [claimed, if_neg htype]
        exact hmem r hr

/-! ### The partition -/

/-- Some available entry around the kernel goes on past its end. -/
def KernelInside (k : Kernel) (map : List MemblockEntry) : Prop :=
  ∃ e ∈ map, e.type = memBlockAvailable ∧ e.addr.toNat ≤ 0x100000 ∧
    k.kernelEnd.toNat < e.addr.toNat + e.len.toNat

section MemoryMap

variable (k : Kernel) (map : List MemblockEntry) (h : MemoryMap k map)

include h

theorem cutFixed_ne_zero (e : MemblockEntry) (he : e ∈ map) (hlow : e.isUnder1mb = false) :
    (cutFixed k e).addr ≠ 0 :=
  cutFixed_addr_ne_zero k e h.start (h.noWrap e he) h.nonempty hlow

/-- There are entries enough in the pool. -/
theorem usables_count_le : (usables k 0 map).count true ≤ bitmapStackSize := by
  -- There are as many answers as available entries.
  have hlength : ∀ (l : List MemblockEntry) (first : Word),
      (usables k first l).length = (l.filter fun e => e.type = memBlockAvailable).length := by
    intro l
    induction l with
    | nil => exact fun _ => rfl
    | cons me l ih =>
        intro first
        by_cases htype : me.type = memBlockAvailable
        · rw [usables_available k first me l htype,
            List.filter_cons_of_pos (by rw [decide_eq_true_eq]; exact htype), List.length_cons,
            List.length_cons, ih]
        · rw [usables_other k first me l htype,
            List.filter_cons_of_neg (by rw [decide_eq_true_eq]; exact htype), ih]
  exact (List.count_le_length).trans ((hlength map 0).trans_le h.few)

theorem apart_of_ne (e f : MemblockEntry) (he : e ∈ map) (hf : f ∈ map) (hne : e ≠ f) :
    Disjoint e.span f.span := by
  have hsymm : Std.Symm fun e f : MemblockEntry => Disjoint e.span f.span :=
    ⟨fun _ _ hd => Disjoint.symm hd⟩
  exact h.apart.forall he hf hne

/-- Around a kernel that its entry goes on past, an entry is idle or ends above
    the kernel. -/
theorem idle_or_above (hinside : KernelInside k map) (e : MemblockEntry) (he : e ∈ map) :
    Idle k e ∨ k.kernelEnd.toNat < e.addr.toNat + e.len.toNat := by
  rcases hinside with ⟨f, hf, _, hfaddr, hfend⟩
  by_cases habove : k.kernelEnd.toNat < e.addr.toNat + e.len.toNat
  · exact Or.inr habove
  · have hne : e ≠ f := by
      rintro rfl
      exact habove hfend
    exact Or.inl (idle_of_below k e h.start (h.noWrap e he) h.nonempty h.aligned f hfaddr
      (Nat.le_of_lt hfend) (apart_of_ne k map h e f he hf hne) (Nat.le_of_not_lt habove))

theorem settled_of_inside (hinside : KernelInside k map) : Settled k map := fun e he _ =>
  (idle_or_above k map h hinside e he).imp_right
    (cutFixed_above k e h.start (h.noWrap e he) h.nonempty)

/-- An entry that ends exactly with the kernel hands the kernel out. -/
theorem inside_of_apart (hkernel : ∀ r ∈ claimed k 0 map, 0x100000 ∉ r) : KernelInside k map := by
  rcases h.kernel with ⟨f, hf, htype, haddr, hend⟩
  by_contra hnot
  have hexact : f.addr.toNat + f.len.toNat = k.kernelEnd.toNat := by
    by_contra hc
    exact hnot ⟨f, hf, htype, haddr, by omega⟩
  rcases cutFixed_exact k f h.start (h.noWrap f hf) h.nonempty haddr hexact with
    ⟨hlow, hstart, hlen⟩
  have hlast := k.kernelEnd.isLt
  have hnonempty := h.nonempty
  have haligned := h.aligned
  have hpage : (cutFixed k f).addr.toNat % 4096 = 0 := by rw [hstart]; rfl
  -- The block is the kernel itself: neither used up nor a leftover.
  have hused : isUsedUp (cutFixed k f) = false := by
    rw [isUsedUp_iff _ hpage, hlen, hstart, show (0x100000 : Word).toNat = 0x100000 from rfl]
    omega
  have hleft : leftover (cutFixed k f) = false := by
    rw [Bool.eq_false_iff, ne_eq, leftover_iff, hlen]
    omega
  rcases mem_claimed k map f hf htype 0 with ⟨first, hmem⟩
  rcases claimOf_occupied k first f hpage (by
    unfold occupies
    rw [hlow, hused, hleft]
    exact Bool.or_true _) with ⟨r, hr, hin⟩
  rw [hstart] at hin
  exact hkernel r (hmem r hr) hin

/-- With the kernel near the top of the address space the heap goes to an entry
    moved to the end of the kernel, whose length has wrapped. -/
theorem heap_taken_high (hinside : KernelInside k map) (hhigh : 0xFFF00000 ≤ k.kernelEnd.toNat) :
    ∃ e, e.isUnder1mb = false ∧ takesHeap 0 (cutFixed k e) = true ∧
      (cutFixed k e).addr = k.kernelEnd ∧ 2 ^ 32 - 2 ^ 22 ≤ (cutFixed k e).len.toNat ∧
      ∀ r ∈ claimOf k 0 e, r ∈ claimed k 0 map := by
  have hmin := memDynamicMinSize_eq
  rcases hinside with ⟨f, hf, hftype, hfaddr, hfend⟩
  have hflen := (cutFixed_len_high k f h.start (h.noWrap f hf) h.nonempty hhigh hfend
    (Or.inl hfaddr)).resolve_left (by omega)
  -- The entry around the kernel can take the heap, so some entry does.
  have hftakes : takesHeap 0 (cutFixed k f) = true := by
    unfold takesHeap
    rw [Bool.and_eq_true, decide_eq_true_eq, decide_eq_true_eq, BitVec.le_def]
    exact ⟨by omega, rfl⟩
  rcases mem_claimed_heap k map ⟨f, hf, hftype,
      (cutFixed_above k f h.start (h.noWrap f hf) h.nonempty hfend).1, hftakes⟩ with
    ⟨e, he, htype, hunder, htakes, hmem⟩
  rcases cutHeap_takes 0 (cutFixed k e) htakes with ⟨_, _, hroom⟩
  -- Whichever entry took the heap, it ends above the kernel and its length wrapped.
  have habove : k.kernelEnd.toNat < e.addr.toNat + e.len.toNat := by
    refine (idle_or_above k map h ⟨f, hf, hftype, hfaddr, hfend⟩ e he).resolve_left fun hidle => ?_
    rcases hidle with hc | hc
    · rw [hunder] at hc
      exact absurd hc Bool.false_ne_true
    · omega
  have hside : e.addr.toNat ≤ 0x100000 ∨ k.kernelEnd.toNat ≤ e.addr.toNat := by
    by_cases hef : e = f
    · rw [hef]
      exact Or.inl hfaddr
    · have hapart := apart_of_ne k map h e f he hf hef
      by_cases hempty : e.len.toNat = 0
      · omega
      · have hor := le_of_disjoint_span _ _ _ _ (Nat.pos_of_ne_zero hempty) (by omega) hapart
        omega
  have hlong := (cutFixed_len_high k e h.start (h.noWrap e he) h.nonempty hhigh habove
    hside).resolve_left (by omega)
  have hstart := (cutFixed_above k e h.start (h.noWrap e he) h.nonempty habove).2
  exact ⟨e, hunder, htakes, hstart, hlong, hmem⟩

/-- A heap that reaches the top of the address space leaves a region that starts
    over at its bottom and runs across the kernel. -/
theorem low_of_apart (hinside : KernelInside k map)
    (hkernel : ∀ r ∈ claimed k 0 map, 0x100000 ∉ r) : k.kernelEnd.toNat < 0xFFF00000 := by
  by_contra hlow
  have hhigh := Nat.le_of_not_lt hlow
  have hlast := k.kernelEnd.isLt
  have haligned := h.aligned
  have hmin := memDynamicMinSize_eq
  rcases heap_taken_high k map h hinside hhigh with ⟨e, hunder, htakes, hstart, hlong, hmem⟩
  rcases cutHeap_takes 0 (cutFixed k e) htakes with ⟨haddr, hlen, _⟩
  have hfixed := (cutFixed k e).len.isLt
  -- The heap ends past the top, and what is left starts at the bottom.
  have haddr' : (cutHeap 0 (cutFixed k e)).addr.toNat = k.kernelEnd.toNat - 0xFFF00000 := by
    rw [haddr, hstart, BitVec.toNat_add, hmin]
    omega
  have hpage : (cutHeap 0 (cutFixed k e)).addr.toNat % 4096 = 0 := by omega
  have hused : isUsedUp (cutHeap 0 (cutFixed k e)) = false := by
    rw [isUsedUp_iff _ hpage]
    omega
  have hregion : regionBlock k 0 e = cutHeap 0 (cutFixed k e) := cutPage_self _ hpage
  rcases extentOf_region (cutHeap 0 (cutFixed k e)) (by omega) (by omega) with
    ⟨blocks, hcalc, hextent⟩
  have hmax := calc_max _ (by omega) (by omega) blocks _ hcalc
  refine hkernel (extentOf (regionBlock k 0 e)) (hmem _ ?_) ?_
  · unfold claimOf
    rw [hunder, if_neg Bool.false_ne_true, hused, if_neg Bool.false_ne_true]
    exact List.mem_append_right _ List.mem_cons_self
  · rw [hregion, hextent]
    exact ⟨by omega, by omega⟩

/-- The claims are disjoint from one another and from the kernel exactly under
    the three conditions. -/
theorem claimed_apart_iff :
    (Set.Ico k.kernelStart.toNat k.kernelEnd.toNat :: claimed k 0 map).Pairwise Disjoint ↔
      k.kernelEnd.toNat < 0xFFF00000 ∧ KernelInside k map ∧
        (occupants k 0 map).count true ≤ 1 := by
  rw [List.pairwise_cons, h.start, show (0x100000 : Word).toNat = 0x100000 from rfl]
  constructor
  · rintro ⟨hkernel, hpairwise⟩
    have hout : ∀ r ∈ claimed k 0 map, 0x100000 ∉ r := fun r hr =>
      Set.disjoint_left.mp (hkernel r hr) ⟨Nat.le_refl _, h.nonempty⟩
    have hinside := inside_of_apart k map h hout
    exact ⟨low_of_apart k map h hinside hout, hinside,
      (occupants_le_one k h.aligned map (settled_of_inside k map h hinside) 0 hpairwise).1⟩
  · rintro ⟨hlow, hinside, hcount⟩
    rcases claimed_apart k h.aligned map (settled_of_inside k map h hinside) hlow 0 hcount with
      ⟨hpairwise, habove⟩
    refine ⟨fun r hr => Set.disjoint_left.mpr fun x hx hx' => ?_, hpairwise⟩
    exact absurd (habove r hr hx') (Nat.not_le.mpr hx.2)

end MemoryMap

/-- Entries in the order of their addresses are apart. -/
theorem apart_of_sorted (map : List MemblockEntry)
    (h : map.Pairwise fun e f => e.addr.toNat + e.len.toNat ≤ f.addr.toNat) :
    map.Pairwise fun e f => Disjoint e.span f.span :=
  h.imp fun hle => Set.disjoint_left.mpr fun _ hx hx' =>
    absurd (hx'.1.trans_lt hx.2) (Nat.not_lt.mpr hle)

/-- Low memory, a reserved range, and one range from one megabyte on. -/
def plainMap : List MemblockEntry :=
  [⟨0, 0x9fc00, 1⟩, ⟨0x9fc00, 0x400, 2⟩, ⟨0x100000, 0x7ee0000, 1⟩]

/-- Memory in two ranges above the kernel. -/
def twoRangeMap : List MemblockEntry :=
  [⟨0x100000, 0x1000000, 1⟩, ⟨0x2000000, 0x1000000, 1⟩]

end UnixP6
