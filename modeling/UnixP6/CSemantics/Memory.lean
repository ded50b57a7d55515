import Mathlib.Data.BitVec
import Mathlib.Order.CompletePartialOrder
import Mathlib.Order.Interval.Set.Disjoint

/-!
# Byte Memory

The flat memory a 32-bit C program sees: a byte at each of the `2^32`
addresses, addresses that wrap, and little-endian loads and stores of 16 and 32
bits on top. Nothing here is aligned and nothing faults, which is what a
machine running without paging does.

Two kinds of fact are kept apart. What a store leaves alone is stated through
`Far`, an address outside a range, and `Apart`, two ranges that share no
address. Both measure offsets, so they hold of ranges that wrap as well. What a
load depends on is stated through the bytes it reads, so that a memory that
agrees on those bytes gives the same load.

`span` is the range as a set of numbers, for statements about containment and
disjointness, where a range that runs past the top of the address space is not
to be mistaken for one that starts over at zero. `addresses` is the range as a
set of addresses, which does start over there; below the top the two say the
same.

## Main definitions

* `Mem`: A byte at each address.
* `Mem.load16`, `Mem.load32`: Little-endian loads.
* `Mem.store8`, `Mem.store16`, `Mem.store32`: Little-endian stores.
* `Far`: An address outside a range.
* `Apart`: Two ranges that share no address.
* `SameOutside`: Two memories that differ at most within a range.
* `span`: A range of addresses as a set of numbers.
* `addresses`: A range of addresses as a set of addresses.
* `Overwrites`: A change of memory that writes fixed bytes at a set of addresses.

## Theorems

* `load32_congr`: A load depends only on the bytes it reads.
* `store32_far`: A store leaves the addresses outside its range alone.
* `load32_store32_same`: A load reads back what was stored.
* `bytes_load32`: The bytes of a load.
* `store32_load32_self`: A store of what is there already changes nothing.
* `load32_sameOutside`: A change within a range leaves words apart from it.
* `load32_store32_apart`: A store leaves disjoint words alone.
* `disjoint_span`, `span_subset`: Disjointness and containment from bounds.
* `addresses_subset_iff`: Containment by offset and length.
* `addresses_subset_iff_span`: Below the top containment is that of numbers.
* `Overwrites.comp`: One change after another overwrites what either does.
* `Overwrites.keeps_iff`: What is left alone is what is not overwritten.
-/

namespace CSemantics

abbrev Byte := BitVec 8
abbrev Half := BitVec 16
abbrev Word := BitVec 32

theorem toNat_word_zero : (0 : Word).toNat = 0 :=
  rfl

/-- Memory: a byte at each of the `2^32` addresses. -/
abbrev Mem := Word → Byte

/-- The address lies outside the `n` bytes at `a`. -/
def Far (a : Word) (n : Nat) (x : Word) : Prop :=
  n ≤ (x - a).toNat

instance (a : Word) (n : Nat) (x : Word) : Decidable (Far a n x) :=
  inferInstanceAs (Decidable (n ≤ _))

theorem add_ofNat_succ (a : Word) (i : Nat) :
    a + BitVec.ofNat 32 i + 1 = a + BitVec.ofNat 32 (i + 1) := by
  bv_omega

theorem add_ofNat_add (a : Word) (i j : Nat) :
    a + BitVec.ofNat 32 i + BitVec.ofNat 32 j = a + BitVec.ofNat 32 (i + j) := by
  rw [BitVec.add_assoc, ← BitVec.ofNat_add]

/-- Two ranges that share no address. -/
def Apart (a : Word) (n : Nat) (b : Word) (k : Nat) : Prop :=
  n ≤ (b - a).toNat ∧ k ≤ (a - b).toNat

theorem Apart.symm (a b : Word) (n k : Nat) (h : Apart a n b k) : Apart b k a n :=
  ⟨h.2, h.1⟩

/-- Ranges that do not wrap are apart when one ends before the other starts. -/
theorem apart_of_le (a b : Word) (n k : Nat) (hn : 0 < n) (ha : a.toNat + n ≤ b.toNat)
    (hb : b.toNat + k ≤ 2 ^ 32) : Apart a n b k :=
  ⟨by bv_omega, by bv_omega⟩

theorem far_of_lt_or_le (a x : Word) (n : Nat) (ha : a.toNat + n ≤ 2 ^ 32)
    (h : x.toNat < a.toNat ∨ a.toNat + n ≤ x.toNat) : Far a n x := by
  simp only [Far]
  bv_omega

/-- The two memories differ at most within the `n` bytes at `a`. -/
def SameOutside (a : Word) (n : Nat) (m m' : Mem) : Prop :=
  ∀ x, Far a n x → m' x = m x

theorem SameOutside.refl (a : Word) (n : Nat) (m : Mem) : SameOutside a n m m :=
  fun _ _ => rfl

theorem SameOutside.trans (a : Word) (n : Nat) (m m' m'' : Mem) (h : SameOutside a n m m')
    (h' : SameOutside a n m' m'') : SameOutside a n m m'' :=
  fun x hx => (h' x hx).trans (h x hx)

/-- A store within the range is a change within it. -/
theorem SameOutside.store8 (a : Word) (i n : Nat) (m : Mem) (v : Byte) (hi : i < n)
    (hn : n ≤ 2 ^ 32) :
    SameOutside a n m (fun x => if x = a + BitVec.ofNat 32 i then v else m x) := by
  intro x hx
  refine if_neg fun hc => ?_
  unfold Far at hx
  bv_omega

/-- A change within part of a range is a change within the range. -/
theorem SameOutside.widen (a : Word) (i n k : Nat) (m m' : Mem) (hk : i + n ≤ k)
    (hwrap : k ≤ 2 ^ 32) (h : SameOutside (a + BitVec.ofNat 32 i) n m m') :
    SameOutside a k m m' := by
  intro x hx
  refine h x ?_
  unfold Far at hx ⊢
  bv_omega

/-- The `n` addresses from `a` on, as a set of numbers. -/
abbrev span (a n : Nat) : Set Nat := Set.Ico a (a + n)

theorem disjoint_span (a n b k : Nat) (h : a + n ≤ b ∨ b + k ≤ a) :
    Disjoint (span a n) (span b k) := by
  rw [Set.Ico_disjoint_Ico]
  omega

/-- Spans that are not empty are disjoint only in order. -/
theorem le_of_disjoint_span (a n b k : Nat) (hn : 0 < n) (hk : 0 < k)
    (h : Disjoint (span a n) (span b k)) : a + n ≤ b ∨ b + k ≤ a := by
  rw [Set.Ico_disjoint_Ico] at h
  omega

theorem span_subset (a n b k : Nat) (ha : b ≤ a) (hn : a + n ≤ b + k) :
    span a n ⊆ span b k :=
  Set.Ico_subset_Ico ha hn

/-- The `n` addresses from `a` on, as a set of addresses. -/
def addresses (a : Word) (n : Nat) : Set Word := {x | ¬ Far a n x}

/-- A range at an offset lies in another exactly when it ends by its end. -/
theorem addresses_subset_iff (a d : Word) (n k : Nat) (hn : n < 2 ^ 32) (hk : 0 < k) :
    addresses (a + d) k ⊆ addresses a n ↔ d.toNat + k ≤ n := by
  have hd := d.isLt
  constructor
  · intro h
    -- Either the range starts past the end, or its address at the end is one too many.
    by_contra hc
    by_cases hstart : n ≤ d.toNat
    · have hmem : a + d ∈ addresses (a + d) k := by
        show ¬ k ≤ (a + d - (a + d)).toNat
        rw [BitVec.sub_self]
        exact Nat.not_le.mpr hk
      refine h hmem ?_
      show n ≤ (a + d - a).toNat
      bv_omega
    · have hmem : a + BitVec.ofNat 32 n ∈ addresses (a + d) k := by
        show ¬ k ≤ (a + BitVec.ofNat 32 n - (a + d)).toNat
        bv_omega
      refine h hmem ?_
      show n ≤ (a + BitVec.ofNat 32 n - a).toNat
      bv_omega
  · intro h x hx
    change ¬ k ≤ (x - (a + d)).toNat at hx
    show ¬ n ≤ (x - a).toNat
    bv_omega

/-- In a range that stays below the top of the address space, addresses are
    contained as numbers are. -/
theorem addresses_subset_iff_span (a b : Word) (n k : Nat) (htop : a.toNat + n ≤ 2 ^ 32)
    (hn : n < 2 ^ 32) :
    addresses b k ⊆ addresses a n ↔ span b.toNat k ⊆ span a.toNat n := by
  rcases Nat.eq_zero_or_pos k with rfl | hk
  · -- Nothing is contained in anything.
    refine iff_of_true (fun x hx => absurd (Nat.zero_le _) hx) (fun x hx => ?_)
    exact absurd (Nat.lt_of_le_of_lt hx.1 hx.2) (Nat.lt_irrefl _)
  · have hb : a + (b - a) = b := by bv_omega
    have hiff := addresses_subset_iff a (b - a) n k hn hk
    rw [hb] at hiff
    rw [hiff, Set.Ico_subset_Ico_iff (Nat.lt_add_of_pos_right hk)]
    bv_omega

namespace Mem

/-- The 16-bit word at an address, low byte first. -/
def load16 (m : Mem) (a : Word) : Half :=
  m (a + 1) ++ m a

/-- The 32-bit word at an address, low byte first. -/
def load32 (m : Mem) (a : Word) : Word :=
  m (a + 3) ++ m (a + 2) ++ m (a + 1) ++ m a

def store8 (m : Mem) (a : Word) (v : Byte) : Mem :=
  fun x => if x = a then v else m x

def store16 (m : Mem) (a : Word) (v : Half) : Mem :=
  (m.store8 a (v.extractLsb' 0 8)).store8 (a + 1) (v.extractLsb' 8 8)

def store32 (m : Mem) (a : Word) (v : Word) : Mem :=
  (((m.store8 a (v.extractLsb' 0 8)).store8 (a + 1) (v.extractLsb' 8 8)).store8
    (a + 2) (v.extractLsb' 16 8)).store8 (a + 3) (v.extractLsb' 24 8)

theorem store8_self (m : Mem) (a : Word) (v : Byte) : m.store8 a v a = v := by
  simp only [store8, if_pos]

theorem store8_ne (m : Mem) (a x : Word) (v : Byte) (h : x ≠ a) : m.store8 a v x = m x := by
  simp only [store8, if_neg h]

theorem load16_congr (m m' : Mem) (a : Word) (h0 : m' a = m a) (h1 : m' (a + 1) = m (a + 1)) :
    m'.load16 a = m.load16 a := by
  simp only [load16, h0, h1]

/-- A load depends only on the bytes it reads. -/
theorem load32_congr (m m' : Mem) (a : Word) (h0 : m' a = m a) (h1 : m' (a + 1) = m (a + 1))
    (h2 : m' (a + 2) = m (a + 2)) (h3 : m' (a + 3) = m (a + 3)) :
    m'.load32 a = m.load32 a := by
  simp only [load32, h0, h1, h2, h3]

theorem load16_store16_same (m : Mem) (a : Word) (v : Half) :
    (m.store16 a v).load16 a = v := by
  have h1 : a ≠ a + 1 := by bv_omega
  simp only [load16, store16, store8_self, store8_ne _ _ _ _ h1]
  ext i hi
  simp only [BitVec.getElem_append, BitVec.getElem_extractLsb']
  -- The low half is the first byte, the high half the second.
  by_cases h : i < 8
  · simp only [h, dite_true, Nat.zero_add]
    exact (BitVec.getLsbD_eq_getElem hi)
  · simp only [h, dite_false]
    rw [show 8 + (i - 8) = i by omega]
    exact (BitVec.getLsbD_eq_getElem hi)

/-- A load reads back the word just stored there. -/
theorem load32_store32_same (m : Mem) (a : Word) (v : Word) :
    (m.store32 a v).load32 a = v := by
  -- The four addresses differ, even where the word wraps.
  have h01 : a ≠ a + 1 := by bv_omega
  have h02 : a ≠ a + 2 := by bv_omega
  have h03 : a ≠ a + 3 := by bv_omega
  have h12 : a + 1 ≠ a + 2 := by bv_omega
  have h13 : a + 1 ≠ a + 3 := by bv_omega
  have h23 : a + 2 ≠ a + 3 := by bv_omega
  simp only [load32, store32, store8_self, store8_ne _ _ _ _ h01, store8_ne _ _ _ _ h02,
    store8_ne _ _ _ _ h03, store8_ne _ _ _ _ h12, store8_ne _ _ _ _ h13, store8_ne _ _ _ _ h23]
  ext i hi
  simp only [BitVec.getElem_append, BitVec.getElem_extractLsb']
  -- Each bit comes from the byte it lies in.
  by_cases h : i < 8
  · simp only [h, dite_true, Nat.zero_add]
    exact BitVec.getLsbD_eq_getElem hi
  · by_cases h' : i < 16
    · simp only [h, dite_false, show i - 8 < 8 by omega, dite_true]
      rw [show 8 + (i - 8) = i by omega]
      exact BitVec.getLsbD_eq_getElem hi
    · by_cases h'' : i < 24
      · simp only [h, dite_false, show ¬ i - 8 < 8 by omega, show i - 8 - 8 < 8 by omega, dite_true]
        rw [show 16 + (i - 8 - 8) = i by omega]
        exact BitVec.getLsbD_eq_getElem hi
      · simp only [h, dite_false, show ¬ i - 8 < 8 by omega, show ¬ i - 8 - 8 < 8 by omega]
        rw [show 24 + (i - 8 - 8 - 8) = i by omega]
        exact BitVec.getLsbD_eq_getElem hi

/-- The bytes of a load are those at its four addresses. -/
theorem bytes_load32 (m : Mem) (a : Word) :
    (m.load32 a).extractLsb' 0 8 = m a ∧ (m.load32 a).extractLsb' 8 8 = m (a + 1) ∧
      (m.load32 a).extractLsb' 16 8 = m (a + 2) ∧ (m.load32 a).extractLsb' 24 8 = m (a + 3) := by
  unfold load32
  refine ⟨BitVec.extractLsb'_append_eq_right, ?_, ?_, ?_⟩
  · rw [BitVec.extractLsb'_append_eq_of_le (Nat.le_refl 8)]
    exact BitVec.extractLsb'_append_eq_right
  · rw [BitVec.extractLsb'_append_eq_of_le (show 8 ≤ 16 by decide),
      BitVec.extractLsb'_append_eq_of_le (show 8 ≤ 16 - 8 by decide)]
    exact BitVec.extractLsb'_append_eq_right
  · rw [BitVec.extractLsb'_append_eq_of_le (show 8 ≤ 24 by decide),
      BitVec.extractLsb'_append_eq_of_le (show 8 ≤ 24 - 8 by decide)]
    exact BitVec.extractLsb'_append_eq_left

theorem store8_load8_self (m : Mem) (a : Word) : m.store8 a (m a) = m := by
  funext x
  unfold store8
  by_cases h : x = a
  · rw [if_pos h, h]
  · rw [if_neg h]

/-- A store of what is there already changes nothing. -/
theorem store32_load32_self (m : Mem) (a : Word) : m.store32 a (m.load32 a) = m := by
  rcases bytes_load32 m a with ⟨h0, h1, h2, h3⟩
  rw [store32, h0, h1, h2, h3, store8_load8_self, store8_load8_self, store8_load8_self,
    store8_load8_self]

/-- A word store leaves every address outside its four bytes alone. -/
theorem store32_far (m : Mem) (a x : Word) (v : Word) (h : Far a 4 x) :
    m.store32 a v x = m x := by
  simp only [Far] at h
  have h0 : x ≠ a := by bv_omega
  have h1 : x ≠ a + 1 := by bv_omega
  have h2 : x ≠ a + 2 := by bv_omega
  have h3 : x ≠ a + 3 := by bv_omega
  simp only [store32, store8_ne _ _ _ _ h0, store8_ne _ _ _ _ h1, store8_ne _ _ _ _ h2,
    store8_ne _ _ _ _ h3]

theorem store16_far (m : Mem) (a x : Word) (v : Half) (h : Far a 2 x) :
    m.store16 a v x = m x := by
  simp only [Far] at h
  have h0 : x ≠ a := by bv_omega
  have h1 : x ≠ a + 1 := by bv_omega
  simp only [store16, store8_ne _ _ _ _ h0, store8_ne _ _ _ _ h1]

/-- A memory that agrees outside a range gives the same word outside it. -/
theorem load32_sameOutside (m m' : Mem) (a b : Word) (n : Nat) (h : SameOutside a n m m')
    (hab : Apart a n b 4) : m'.load32 b = m.load32 b := by
  rcases hab with ⟨ha, hb⟩
  -- Apart at the first byte is apart at all four.
  have hfar : ∀ i : Word, i.toNat < 4 → Far a n (b + i) := by
    intro i hi
    simp only [Far]
    bv_omega
  exact load32_congr m m' b (h b ha) (h _ (hfar 1 (by decide))) (h _ (hfar 2 (by decide)))
    (h _ (hfar 3 (by decide)))

theorem load16_sameOutside (m m' : Mem) (a b : Word) (n : Nat) (h : SameOutside a n m m')
    (hab : Apart a n b 2) : m'.load16 b = m.load16 b := by
  rcases hab with ⟨ha, hb⟩
  have hfar : Far a n (b + 1) := by
    simp only [Far]
    bv_omega
  exact load16_congr m m' b (h b ha) (h _ hfar)

/-- A store to one word leaves a disjoint word as it was. -/
theorem load32_store32_apart (m : Mem) (a b : Word) (v : Word) (h : Apart a 4 b 4) :
    (m.store32 a v).load32 b = m.load32 b :=
  load32_sameOutside m _ a b 4 (fun x hx => store32_far m a x v hx) h

theorem load16_store16_apart (m : Mem) (a b : Word) (v : Half) (h : Apart a 2 b 2) :
    (m.store16 a v).load16 b = m.load16 b :=
  load16_sameOutside m _ a b 2 (fun x hx => store16_far m a x v hx) h

end Mem

/-! ### What a change of memory overwrites -/

/-- What `f` leaves at the addresses of `W` does not depend on what was there,
    and every other address it leaves alone. -/
structure Overwrites (W : Set Word) (f : Mem → Mem) : Prop where
  fixed : ∀ x ∈ W, ∀ m m', f m x = f m' x
  kept : ∀ x, x ∉ W → ∀ m, f m x = m x

namespace Overwrites

theorem nothing : Overwrites ∅ (fun m => m) :=
  ⟨fun _ hx => absurd hx (Set.notMem_empty _), fun _ _ _ => rfl⟩

/-- One change after another overwrites what either does. -/
theorem comp (W W' : Set Word) (f g : Mem → Mem) (hf : Overwrites W f) (hg : Overwrites W' g) :
    Overwrites (W ∪ W') (fun m => g (f m)) where
  fixed x hx m m' := by
    -- The second change has the last word, where it writes.
    by_cases hlast : x ∈ W'
    · exact hg.fixed x hlast (f m) (f m')
    · have hfirst : x ∈ W := hx.resolve_right hlast
      rw [hg.kept x hlast, hg.kept x hlast]
      exact hf.fixed x hfirst m m'
  kept x hx m := by
    have hboth := not_or.mp hx
    rw [hg.kept x hboth.2, hf.kept x hboth.1]

/-- A change made only when `p` holds overwrites what it does then. -/
theorem ite (p : Prop) [Decidable p] (W : Set Word) (f : Mem → Mem) (hf : Overwrites W f) :
    Overwrites {x | p ∧ x ∈ W} (fun m => if p then f m else m) := by
  by_cases hp : p
  · simp only [hp, true_and, Set.ofPred_mem_eq, if_true]
    exact hf
  · simp only [hp, false_and, Set.ofPred_false, if_false]
    exact nothing

theorem store8 (a : Word) (v : Byte) : Overwrites {a} (fun m => m.store8 a v) where
  fixed x hx m m' := by
    rw [Set.mem_singleton_iff.mp hx, Mem.store8_self, Mem.store8_self]
  kept x hx m := Mem.store8_ne m a x v hx

theorem store32 (a v : Word) : Overwrites (addresses a 4) (fun m => m.store32 a v) := by
  have hbytes : addresses a 4 = {a} ∪ {a + 1} ∪ {a + 2} ∪ {a + 3} := by
    ext x
    simp only [addresses, Far, Set.mem_ofPred_eq, Set.mem_union, Set.mem_singleton_iff]
    bv_omega
  rw [hbytes]
  exact comp _ _ _ _ (comp _ _ _ _ (comp _ _ _ _ (store8 a _) (store8 (a + 1) _))
    (store8 (a + 2) _)) (store8 (a + 3) _)

/-- The change leaves a set of addresses alone in every memory exactly when it
    writes none of them. -/
theorem keeps_iff (W R : Set Word) (f : Mem → Mem) (h : Overwrites W f) :
    (∀ m, ∀ x ∈ R, f m x = m x) ↔ Disjoint W R := by
  rw [Set.disjoint_right]
  constructor
  · intro hkeeps x hx hmem
    -- What is left there would have to be both of two different bytes.
    have hsame := h.fixed x hmem (fun _ => 0) (fun _ => 1)
    rw [hkeeps _ x hx, hkeeps _ x hx] at hsame
    exact absurd hsame (by decide)
  · intro hapart m x hx
    exact h.kept x (hapart hx) m

end Overwrites

end CSemantics
