import UnixP6.CSemantics.Memory
import UnixP6.CSemantics.Collapse
import Mathlib.Tactic.Ring
import Mathlib.Data.BitVec
import Mathlib.Data.List.TakeWhile

/-!
# Heap Chains as Lists

What the chain of headers is for, without the memory it lives in: a list of
blocks, each with its address, its free flag and its recorded size.

Two operations on such lists describe a release. `markFree` sets the flag of one
block, and `coalesce` merges every run of neighbouring free blocks into its
first, adding up the recorded sizes and the headers that disappear. An
allocation replaces one block by a used one and a free remainder.

`Tiled` is the layout the allocator is meant to keep. Each header, with the
payload of a used block after it, ends before the next header starts, and the
last ends before the limit of the heap. It speaks of addresses only and not of
the recorded size of a free block, which is why coalescing cannot disturb it:
merging free blocks removes headers and leaves every used block where it was.

## Main definitions

* `Block`: One header, as data.
* `coalesce`: Merging every run of neighbouring free blocks.
* `markFree`: Setting the free flag of the block at an address.
* `Tiled`: Headers and used payloads in order, without overlap.
* `payloads`: The data address and size of every used block.

## Theorems

* `coalesce_eq`: Coalescing is an instance of collapsing.
* `coalesce_cons_free`: Coalescing from a free block absorbs the run after it.
* `coalesce_absorb`: Absorbing a run first does not change the coalesced chain.
* `payloads_coalesce`: Coalescing keeps every used block.
* `tiled_coalesce`: Coalescing keeps the layout.
* `tiled_split`: A split that fits its block keeps the layout.
* `Tiled.le_limit`, `Tiled.pairwise`: What the layout says of the blocks.
-/

namespace UnixP6

open CSemantics

/-- One header of the chain: where it is and what it records. -/
structure Block where
  addr : Word
  free : Word
  size : Word
deriving Repr, DecidableEq

namespace Block

/-- The free flag, read as C reads it. -/
def isFree (b : Block) : Bool := b.free != 0

/-- The bytes after the header that belong to the owner of a used block. -/
def used (b : Block) : Nat := if b.isFree then 0 else b.size.toNat

/-- Record more room after the header. -/
def grow (b : Block) (d : Word) : Block := { b with size := b.size + d }

/-- Take in the block after this one, header included. -/
def absorb (b c : Block) : Block := b.grow (c.size + 16)

theorem used_eq_size (b : Block) (h : b.isFree = false) : b.used = b.size.toNat := by
  simp only [used, h, Bool.false_eq_true, if_false]

theorem addr_grow (b : Block) (d : Word) : (b.grow d).addr = b.addr := rfl

theorem grow_zero (b : Block) : b.grow 0 = b := by
  simp only [grow, BitVec.ofNat_eq_ofNat, BitVec.add_zero]

theorem grow_grow (b : Block) (d e : Word) : (b.grow d).grow e = b.grow (d + e) := by
  simp only [grow, BitVec.add_assoc]

end Block

open Block

/-- Put a block in front of a coalesced chain. -/
def pushBlock (b : Block) : List Block → List Block
  | [] => [b]
  | c :: cs => if b.isFree ∧ c.isFree then b.absorb c :: cs else b :: c :: cs

/-- Merge every run of neighbouring free blocks into its first block. -/
def coalesce (bs : List Block) : List Block := bs.foldr pushBlock []

/-- Set the free flag of the block at an address. -/
def markFree (a : Word) (bs : List Block) : List Block :=
  bs.map fun b => if b.addr = a then { b with free := 1 } else b

/-- The accounted sizes of a run of blocks, headers included. -/
def runSize (bs : List Block) : Word := (bs.map fun b => b.size + 16).sum

/-- Where a chain starts, or the limit if it is empty. -/
def startOr (limit : Nat) : List Block → Nat
  | [] => limit
  | b :: _ => b.addr.toNat

/-- Each header, with the payload of a used block, ends before the next header
    or the limit. -/
def Tiled (limit : Nat) : List Block → Prop
  | [] => True
  | b :: bs => b.addr.toNat + 16 + b.used ≤ startOr limit bs ∧ Tiled limit bs

/-- The data address and size of every used block. -/
def payloads (bs : List Block) : List (Word × Word) :=
  (bs.filter fun b => !b.isFree).map fun b => (b.addr + 16, b.size)

/-! ### Coalescing -/

/-- Absorbing the next block is a merging of free blocks. -/
theorem merging_absorb : Merging isFree absorb := by
  refine ⟨fun b c => rfl, fun b c d => ?_⟩
  have hsize : c.size + 16 + (d.size + 16) = (c.absorb d).size + 16 := by
    simp only [absorb, grow]
    ring
  rw [absorb, absorb, grow_grow, hsize, ← absorb]

theorem coalesce_eq (bs : List Block) : coalesce bs = collapse isFree absorb bs := by
  have hpush : pushBlock = pushRun isFree absorb := by
    funext b cs
    cases cs with
    | nil => rfl
    | cons c cs => rfl
  rw [coalesce, hpush, collapse]

theorem coalesce_cons (b : Block) (bs : List Block) :
    coalesce (b :: bs) = pushBlock b (coalesce bs) := rfl

theorem pushBlock_used (b : Block) (bs : List Block) (h : b.isFree = false) :
    pushBlock b bs = b :: bs := by
  cases bs with
  | nil => rfl
  | cons c cs => simp only [pushBlock, h, Bool.false_eq_true, false_and, if_false]

/-- Pushing a block keeps its address and flag at the head. -/
theorem pushBlock_head (b : Block) (bs : List Block) :
    ∃ d cs, pushBlock b bs = b.grow d :: cs := by
  cases bs with
  | nil => exact ⟨0, [], by rw [grow_zero]; rfl⟩
  | cons c cs =>
      by_cases h : b.isFree ∧ c.isFree
      · exact ⟨c.size + 16, cs, by simp only [pushBlock, if_pos h, absorb]⟩
      · exact ⟨0, c :: cs, by simp only [pushBlock, if_neg h, grow_zero]⟩

theorem runSize_cons (b : Block) (bs : List Block) :
    runSize (b :: bs) = b.size + 16 + runSize bs := rfl

/-- Coalescing from a free block absorbs exactly the run of free blocks after
    it and coalesces what is left. -/
theorem coalesce_cons_free (rest : List Block) :
    ∀ (b : Block), b.isFree = true →
      coalesce (b :: rest)
        = b.grow (runSize (rest.takeWhile isFree)) :: coalesce (rest.dropWhile isFree) := by
  induction rest with
  | nil =>
      intro b _
      exact (congrArg (· :: []) (grow_zero b)).symm
  | cons c cs ih =>
      intro b hb
      by_cases hc : c.isFree = true
      · -- The run goes on: `c` has taken in the rest of it, and `b` takes in `c`.
        rw [coalesce_cons, ih c hc, List.takeWhile_cons_of_pos hc, List.dropWhile_cons_of_pos hc]
        have hboth : b.isFree ∧ (c.grow (runSize (cs.takeWhile isFree))).isFree := ⟨hb, hc⟩
        have hsize : (c.grow (runSize (cs.takeWhile isFree))).size + 16
            = runSize (c :: cs.takeWhile isFree) := by
          rw [runSize_cons]
          simp only [grow]
          ring
        simp only [pushBlock, if_pos hboth, absorb, hsize]
      · -- The run is empty: the next block is in use, and `b` stays as it is.
        rw [List.takeWhile_cons_of_neg hc, List.dropWhile_cons_of_neg hc, coalesce_cons]
        rcases pushBlock_head c (coalesce cs) with ⟨d, ds, hd⟩
        have hnot : ¬ (b.isFree ∧ (c.grow d).isFree) := fun h => hc h.2
        have hgrow : b.grow (runSize []) = b := grow_zero b
        rw [coalesce_cons, hd, hgrow]
        simp only [pushBlock, if_neg hnot]

/-- Absorbing the run after a free block ahead of time leads to the same
    coalesced chain. -/
theorem coalesce_absorb (pre rest : List Block) (b : Block) (hb : b.isFree = true) :
    coalesce (pre ++ b.grow (runSize (rest.takeWhile isFree)) :: rest.dropWhile isFree)
      = coalesce (pre ++ b :: rest) := by
  -- Nothing is left to absorb, so the grown block stays as it is.
  have htake : (rest.dropWhile isFree).takeWhile isFree = [] := by
    rw [List.takeWhile_eq_nil_iff]
    intro hlen
    exact List.dropWhile_get_zero_not isFree rest hlen
  have hdrop : (rest.dropWhile isFree).dropWhile isFree = rest.dropWhile isFree :=
    List.dropWhile_eq_self_iff.mpr (List.dropWhile_get_zero_not isFree rest)
  have hgrown := coalesce_cons_free (rest.dropWhile isFree)
    (b.grow (runSize (rest.takeWhile isFree))) hb
  rw [htake, hdrop, show runSize [] = 0 from rfl, grow_zero] at hgrown
  have hsame := hgrown.trans (coalesce_cons_free rest b hb).symm
  unfold coalesce at hsame ⊢
  rw [List.foldr_append, List.foldr_append, hsame]

/-- A coalesced chain starts where the chain did. -/
theorem startOr_coalesce (limit : Nat) (bs : List Block) :
    startOr limit (coalesce bs) = startOr limit bs := by
  cases bs with
  | nil => rfl
  | cons b bs =>
      rcases pushBlock_head b (coalesce bs) with ⟨sz, cs, hd⟩
      rw [coalesce_cons, hd]
      rfl

theorem payloads_cons (b : Block) (bs : List Block) :
    payloads (b :: bs) = if b.isFree then payloads bs else (b.addr + 16, b.size) :: payloads bs := by
  cases h : b.isFree with
  | false => simp only [payloads, List.filter_cons, h, Bool.not_false, if_true, List.map_cons,
      Bool.false_eq_true, if_false]
  | true => simp only [payloads, List.filter_cons, h, Bool.not_true, Bool.false_eq_true, if_false,
      if_true]

theorem payloads_append (bs cs : List Block) :
    payloads (bs ++ cs) = payloads bs ++ payloads cs := by
  simp only [payloads, List.filter_append, List.map_append]

/-- Of the two blocks a split leaves, the first is in use. -/
theorem payloads_split (pre rest : List Block) (a size third left : Word) :
    payloads (pre ++ ⟨a, 0, size⟩ :: ⟨third, 1, left⟩ :: rest)
      = payloads pre ++ (a + 16, size) :: payloads rest := by
  have hused : isFree ⟨a, 0, size⟩ = false := rfl
  have hfree : isFree ⟨third, 1, left⟩ = true := rfl
  rw [payloads_append, payloads_cons, payloads_cons, hused, hfree, if_neg Bool.false_ne_true,
    if_pos rfl]

/-- Coalescing keeps every used block, unmoved and unresized. -/
theorem payloads_coalesce (bs : List Block) : payloads (coalesce bs) = payloads bs := by
  unfold payloads
  rw [coalesce_eq, collapse_kept isFree absorb merging_absorb]

/-! ### Marking a block free -/

theorem markFree_cons (a : Word) (b : Block) (bs : List Block) :
    markFree a (b :: bs) = (if b.addr = a then { b with free := 1 } else b) :: markFree a bs := rfl

theorem startOr_markFree (limit : Nat) (a : Word) (bs : List Block) :
    startOr limit (markFree a bs) = startOr limit bs := by
  cases bs with
  | nil => rfl
  | cons b bs =>
      rw [markFree_cons]
      by_cases h : b.addr = a
      · rw [if_pos h]
        rfl
      · rw [if_neg h]
        rfl

/-- Freeing a block takes its payload away and no other. -/
theorem payloads_markFree (a : Word) (bs : List Block) :
    payloads (markFree a bs) = (payloads bs).filter fun pn => pn.1 ≠ a + 16 := by
  induction bs with
  | nil => rfl
  | cons b bs ih =>
      rw [markFree_cons, payloads_cons, payloads_cons, ih]
      by_cases h : b.addr = a
      · have hfree : isFree { b with free := 1 } = true := rfl
        rw [if_pos h, if_pos hfree, ← h]
        by_cases hb : b.isFree = true
        · rw [if_pos hb]
        · rw [if_neg hb, List.filter_cons_of_neg (by simp only [ne_eq, not_true_eq_false,
            decide_false, Bool.false_eq_true, not_false_eq_true])]
      · -- The data address tells the block apart from the one released.
        have hne : b.addr + 16 ≠ a + 16 := by bv_omega
        rw [if_neg h]
        by_cases hb : b.isFree = true
        · rw [if_pos hb, if_pos hb]
        · rw [if_neg hb, if_neg hb, List.filter_cons_of_pos (by simpa only [ne_eq,
            decide_eq_true_eq] using hne)]

/-! ### The layout -/

theorem Tiled.start_le (limit : Nat) (bs : List Block) (h : Tiled limit bs) :
    startOr limit bs ≤ limit := by
  induction bs with
  | nil => exact Nat.le_refl limit
  | cons b bs ih =>
      have hb := h.1
      have hrest := ih h.2
      simp only [startOr]
      omega

theorem tiled_pushBlock (limit : Nat) (b : Block) (bs : List Block) (h : Tiled limit (b :: bs)) :
    Tiled limit (pushBlock b bs) := by
  cases bs with
  | nil => exact h
  | cons c cs =>
      by_cases hf : b.isFree ∧ c.isFree
      · simp only [pushBlock, if_pos hf]
        -- The merged block is free, so only its header counts.
        have hused : (b.absorb c).used = 0 := if_pos hf.1
        have hb := h.1
        have hc := h.2.1
        simp only [startOr] at hb
        refine ⟨?_, h.2.2⟩
        rw [hused, absorb, addr_grow]
        omega
      · simp only [pushBlock, if_neg hf]
        exact h

/-- Coalescing keeps the layout. -/
theorem tiled_coalesce (limit : Nat) (bs : List Block) (h : Tiled limit bs) :
    Tiled limit (coalesce bs) := by
  induction bs with
  | nil => trivial
  | cons b bs ih =>
      rw [coalesce_cons]
      refine tiled_pushBlock limit b (coalesce bs) ⟨?_, ih h.2⟩
      rw [startOr_coalesce]
      exact h.1

theorem tiled_markFree (limit : Nat) (a : Word) (bs : List Block) (h : Tiled limit bs) :
    Tiled limit (markFree a bs) := by
  induction bs with
  | nil => trivial
  | cons b bs ih =>
      rw [markFree_cons]
      refine ⟨?_, ih h.2⟩
      rw [startOr_markFree]
      have hb := h.1
      by_cases hba : b.addr = a
      · rw [if_pos hba]
        -- A block set free gives its payload up, so there is only more room.
        have hused : used { b with free := 1 } = 0 := rfl
        rw [hused]
        simp only []
        omega
      · rw [if_neg hba]
        exact hb

/-- What a tiled chain says of the blocks after a given one. -/
theorem Tiled.after (limit : Nat) :
    ∀ (pre : List Block) (b : Block) (rest : List Block), Tiled limit (pre ++ b :: rest) →
      b.addr.toNat + 16 + b.used ≤ startOr limit rest ∧ Tiled limit rest := by
  intro pre
  induction pre with
  | nil => intro b rest h; exact h
  | cons a as ih => intro b rest h; exact ih b rest h.2

/-- Replacing the end of a tiled chain by one that starts no earlier. -/
theorem Tiled.replace (limit : Nat) :
    ∀ (pre rest rest' : List Block), Tiled limit (pre ++ rest) → Tiled limit rest' →
      startOr limit rest = startOr limit rest' → Tiled limit (pre ++ rest') := by
  intro pre
  induction pre with
  | nil => intro rest rest' _ h' _; exact h'
  | cons a as ih =>
      intro rest rest' h h' hstart
      refine ⟨?_, ih rest rest' h.2 h' hstart⟩
      have ha := h.1
      cases as with
      | nil => exact ha.trans (Nat.le_of_eq hstart)
      | cons c cs => exact ha

/-- A split whose remainder fits before the next header keeps the layout. -/
theorem tiled_split (limit : Nat) (pre rest : List Block) (b : Block) (size third left : Word)
    (h : Tiled limit (pre ++ b :: rest))
    (hsecond : b.addr.toNat + 16 + size.toNat ≤ third.toNat)
    (hthird : third.toNat + 16 ≤ startOr limit rest) :
    Tiled limit (pre ++ ⟨b.addr, 0, size⟩ :: ⟨third, 1, left⟩ :: rest) := by
  refine Tiled.replace limit pre (b :: rest) _ h ⟨hsecond, ?_, (Tiled.after limit pre b rest h).2⟩
    rfl
  have hused : used ⟨third, 1, left⟩ = 0 := rfl
  rw [hused]
  exact hthird

/-- Every header of a tiled chain, with its payload, lies before the limit. -/
theorem Tiled.le_limit (limit : Nat) (bs : List Block) (h : Tiled limit bs) :
    ∀ b ∈ bs, startOr limit bs ≤ b.addr.toNat ∧ b.addr.toNat + 16 + b.used ≤ limit := by
  induction bs with
  | nil => intro b hb; exact absurd hb List.not_mem_nil
  | cons c cs ih =>
      intro b hb
      have hc := h.1
      have hlim := Tiled.start_le limit cs h.2
      rcases List.mem_cons.mp hb with rfl | hb
      · exact ⟨Nat.le_refl _, by omega⟩
      · rcases ih h.2 b hb with ⟨hlo, hhi⟩
        simp only [startOr]
        exact ⟨by omega, hhi⟩

/-- In a tiled chain every header, with its payload, ends before any later
    header. -/
theorem Tiled.pairwise (limit : Nat) (bs : List Block) (h : Tiled limit bs) :
    bs.Pairwise fun b c => b.addr.toNat + 16 + b.used ≤ c.addr.toNat := by
  induction bs with
  | nil => exact List.Pairwise.nil
  | cons b bs ih =>
      refine List.Pairwise.cons (fun c hc => ?_) (ih h.2)
      exact h.1.trans (Tiled.le_limit limit bs h.2 c hc).1

end UnixP6
