import Mathlib.Data.BitVec

/-!
# Bit-Fields

The bit-fields of a C structure laid out in one word, low bits first. A field
is a position and a width. Storing to one truncates the value to the width and
leaves every bit outside the field alone, so that a field reads back what was
stored to it, and a store to one field is not seen through another it does not
overlap. Fields may also lie inside one another, as the members of a union do.

## Main definitions

* `Field`: A position and a width.
* `Field.get`, `Field.set`: Reading and storing.

## Theorems

* `extractLsb'_mask`, `extractLsb'_ushiftRight`: Bits of a masked or shifted word.
* `Field.getLsbD_set`: The bits after a store.
* `Field.get_set_inside`: What a field within the one stored to reads.
* `Field.get_set_apart`: What a field apart from it reads.
* `Field.get_get`: A field of a field.
-/

namespace CSemantics

/-- A bit-field. -/
structure Field where
  pos : Nat
  width : Nat
deriving Repr, DecidableEq

variable {w k : Nat}

/-- Bits taken from under a mask that keeps them all. -/
theorem extractLsb'_mask (x mask : BitVec w) (pos width : Nat)
    (h : mask.extractLsb' pos width = BitVec.allOnes width) :
    (x &&& mask).extractLsb' pos width = x.extractLsb' pos width := by
  rw [BitVec.extractLsb'_and, h, BitVec.and_allOnes]

/-- Bits taken from a word shifted down lie that much higher in the word. -/
theorem extractLsb'_ushiftRight (x : BitVec w) (n pos width : Nat) :
    (x >>> n).extractLsb' pos width = x.extractLsb' (n + pos) width := by
  ext i hi
  rw [BitVec.getElem_extractLsb', BitVec.getElem_extractLsb', BitVec.getLsbD_ushiftRight,
    Nat.add_assoc]

namespace Field

/-- The value of a field. -/
def get (f : Field) (x : BitVec w) : BitVec f.width := x.extractLsb' f.pos f.width

/-- A store to a field, of as many low bits as it has. -/
def set (f : Field) (x : BitVec w) (v : BitVec k) : BitVec w :=
  (x &&& ~~~((BitVec.allOnes f.width).setWidth w <<< f.pos)) |||
    ((v.setWidth f.width).setWidth w <<< f.pos)

/-- The bits after a store: those of the value within the field, and those there
    before outside it. -/
theorem getLsbD_set (f : Field) (x : BitVec w) (v : BitVec k) (i : Nat) (hi : i < w) :
    (f.set x v).getLsbD i
      = if f.pos ≤ i ∧ i < f.pos + f.width then v.getLsbD (i - f.pos) else x.getLsbD i := by
  rw [set, BitVec.getLsbD_or, BitVec.getLsbD_and, BitVec.getLsbD_not, BitVec.getLsbD_shiftLeft,
    BitVec.getLsbD_shiftLeft, BitVec.getLsbD_setWidth, BitVec.getLsbD_setWidth,
    BitVec.getLsbD_setWidth, BitVec.getLsbD_allOnes]
  have hw : i - f.pos < w := by omega
  by_cases hbelow : i < f.pos
  · simp only [hi, hbelow, Nat.not_le.mpr hbelow, decide_true, Bool.not_true, Bool.and_false,
      Bool.false_and, Bool.not_false, Bool.and_true, Bool.or_false, false_and, if_false]
  · by_cases hin : i - f.pos < f.width
    · rw [if_pos ⟨by omega, by omega⟩]
      simp only [hi, hbelow, hw, hin, decide_true, decide_false, Bool.not_false, Bool.and_true,
        Bool.true_and, Bool.not_true, Bool.and_false, Bool.false_or]
    · rw [if_neg (by omega)]
      simp only [hi, hbelow, hw, hin, decide_true, decide_false, Bool.not_false, Bool.and_true,
        Bool.and_false, Bool.false_and, Bool.or_false]

/-- A field within the one stored to reads its part of the value. -/
theorem get_set_inside (f g : Field) (x : BitVec w) (v : BitVec k) (hw : g.pos + g.width ≤ w)
    (hlow : f.pos ≤ g.pos) (hhigh : g.pos + g.width ≤ f.pos + f.width) :
    g.get (f.set x v) = v.extractLsb' (g.pos - f.pos) g.width := by
  ext i hi
  rw [get, BitVec.getElem_extractLsb', BitVec.getElem_extractLsb',
    getLsbD_set f x v (g.pos + i) (by omega), if_pos ⟨by omega, by omega⟩]
  congr 1
  omega

/-- A field apart from the one stored to reads as before. -/
theorem get_set_apart (f g : Field) (x : BitVec w) (v : BitVec k) (hw : g.pos + g.width ≤ w)
    (h : f.pos + f.width ≤ g.pos ∨ g.pos + g.width ≤ f.pos) : g.get (f.set x v) = g.get x := by
  ext i hi
  rw [get, get, BitVec.getElem_extractLsb', BitVec.getElem_extractLsb',
    getLsbD_set f x v (g.pos + i) (by omega), if_neg (by omega)]

/-- A field of a field is a field. -/
theorem get_get (f g : Field) (x : BitVec w) (h : g.pos + g.width ≤ f.width) :
    g.get (f.get x) = get ⟨f.pos + g.pos, g.width⟩ x := by
  ext i hi
  simp only [get, BitVec.getElem_extractLsb', BitVec.getLsbD_extractLsb',
    show g.pos + i < f.width by omega, decide_true, Bool.true_and, Nat.add_assoc]

end Field

end CSemantics
