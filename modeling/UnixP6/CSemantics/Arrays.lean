import UnixP6.CSemantics.Memory

/-!
# Arrays of Words

Arrays of 32-bit words in byte memory. Elements are four bytes apart and
addresses wrap, so an index is as good as its remainder by `2^30`: two indices
with the same one name the same element, and any other two name elements that
share no byte.

## Main definitions

* `Mem.dword`: An element of an array of words.

## Theorems

* `Mem.dword_add`: The elements from a later one on.
* `Mem.dword_store32`: The elements after one has been stored.
* `Mem.eq_of_dwords`: A memory is known by an array and what is outside it.
-/

namespace CSemantics

namespace Mem

/-- The `i`th of the words from an address on. -/
def dword (m : Mem) (a : Word) (i : Nat) : Word := m.load32 (a + BitVec.ofNat 32 (4 * i))

theorem dword_zero (m : Mem) (a : Word) : m.dword a 0 = m.load32 a := by
  rw [dword, Nat.mul_zero, BitVec.add_zero]

/-- The words from a later one on are the words after those before it. -/
theorem dword_add (m : Mem) (a : Word) (k i : Nat) :
    m.dword (a + BitVec.ofNat 32 (4 * k)) i = m.dword a (k + i) := by
  rw [dword, dword, add_ofNat_add, Nat.mul_add]

/-- Indices with one remainder are of one address. -/
theorem element_congr (i j : Nat) (h : i % 1073741824 = j % 1073741824) :
    BitVec.ofNat 32 (4 * i) = BitVec.ofNat 32 (4 * j) := by
  apply BitVec.eq_of_toNat_eq
  rw [BitVec.toNat_ofNat, BitVec.toNat_ofNat]
  omega

theorem dword_congr (m : Mem) (a : Word) (i j : Nat) (h : i % 1073741824 = j % 1073741824) :
    m.dword a i = m.dword a j := by
  rw [dword, dword, element_congr i j h]

/-- The elements after one of them has been stored. -/
theorem dword_store32 (m : Mem) (a : Word) (i j : Nat) (v : Word) :
    (m.store32 (a + BitVec.ofNat 32 (4 * i)) v).dword a j
      = if j % 1073741824 = i % 1073741824 then v else m.dword a j := by
  by_cases h : j % 1073741824 = i % 1073741824
  · rw [if_pos h, dword_congr _ a j i h, dword, load32_store32_same]
  · rw [if_neg h]
    exact load32_store32_apart _ _ _ _ ⟨by bv_omega, by bv_omega⟩

/-- Two memories with the same array and the same bytes outside it are one. -/
theorem eq_of_dwords (m m' : Mem) (a : Word) (k : Nat)
    (hsame : ∀ i < k, m'.dword a i = m.dword a i) (houtside : SameOutside a (4 * k) m m') :
    m' = m := by
  funext x
  by_cases hfar : Far a (4 * k) x
  · exact houtside x hfar
  · -- A byte of the array is one of the four of its element.
    unfold Far at hfar
    have hword := hsame ((x - a).toNat / 4) (by omega)
    rcases bytes_load32 m (a + BitVec.ofNat 32 (4 * ((x - a).toNat / 4))) with ⟨h0, h1, h2, h3⟩
    rcases bytes_load32 m' (a + BitVec.ofNat 32 (4 * ((x - a).toNat / 4))) with ⟨h0', h1', h2', h3'⟩
    unfold dword at hword
    rw [hword] at h0' h1' h2' h3'
    have hx : x = a + BitVec.ofNat 32 (4 * ((x - a).toNat / 4))
        + BitVec.ofNat 32 ((x - a).toNat % 4) := by
      rw [add_ofNat_add, Nat.div_add_mod, BitVec.ofNat_toNat, BitVec.setWidth_eq, BitVec.add_comm,
        BitVec.sub_add_cancel]
    have hbyte : (x - a).toNat % 4 < 4 := Nat.mod_lt _ (by decide)
    rw [hx]
    generalize a + BitVec.ofNat 32 (4 * ((x - a).toNat / 4)) = b at *
    generalize (x - a).toNat % 4 = byte at *
    match byte with
    | 0 => rw [BitVec.add_zero]; exact h0'.symm.trans h0
    | 1 => exact h1'.symm.trans h1
    | 2 => exact h2'.symm.trans h2
    | 3 => exact h3'.symm.trans h3

end Mem

end CSemantics
