import UnixP6.CSemantics.Strings
import UnixP6.Core.Numbers
import Mathlib.Data.List.GetD

/-!
# Turning a String Round in Place

`reverse_str` exchanges the first byte with the last, the second with the last
but one, and so on until its two indices meet. What has been exchanged is known
by how many rounds have been made: a byte as close to either end as that is the
one from the other end, and the others are as they were.

The indices are of type `int`. An empty string has its last index at minus one,
and the loop then stops at once.

## Main definitions

* `Exchanged`: A string in memory with so many bytes at either end exchanged.

## Theorems

* `reverseLen_eq`: The length the function finds.
* `exchange_step`: One round.
* `reverseStr_eq`: The string that is left.
-/

namespace UnixP6

open CSemantics

/-- The length that the first loop finds. -/
theorem reverseLen_eq (m : Mem) (str : Word) (s : List Byte) (h : CString m str s) :
    runLoop (reverseLenTurn m str) (turnBound + 1) 0 = some (BitVec.ofNat 32 s.length) := by
  have hstart : CString m (str + 0) s := by
    rw [show str + 0 = str from BitVec.add_zero str]
    exact h
  have hloop := runLoop_cstring m s (reverseLenTurn m str) (fun len => str + len)
    (fun len _ => len + 1) id (fun len _ => (BitVec.add_assoc str len 1).symm)
    (fun len hzero => by rw [reverseLenTurn, if_neg (not_not.mpr hzero)]; rfl)
    (fun len c hc hread => by
      rw [reverseLenTurn, if_pos (show m (str + len) ≠ 0 from hread ▸ h.1 c hc)])
    0 (turnBound + 1) hstart (by decide)
  rw [foldl_add_one] at hloop
  exact hloop.trans (congrArg some (BitVec.zero_add _))

/-- A string that was in memory, with the first `k` bytes and the last `k` bytes
    exchanged. -/
structure Exchanged (m0 : Mem) (str : Word) (s : List Byte) (k : Nat) (m : Mem) : Prop where
  byte : ∀ i < s.length, m (str + BitVec.ofNat 32 i)
    = if i < k ∨ s.length - 1 - i < k then s.getD (s.length - 1 - i) 0 else s.getD i 0
  outside : SameOutside str s.length m0 m

section Exchange

variable (m0 : Mem) (str : Word) (s : List Byte) (hlen : s.length < 2 ^ 31)

include hlen

/-- One round exchanges one more byte at either end. -/
theorem exchange_step (k : Nat) (m : Mem) (hk : 2 * k + 1 < s.length)
    (h : Exchanged m0 str s k m) :
    Exchanged m0 str s (k + 1)
      ((m.store8 (str + BitVec.ofNat 32 k) (m (str + BitVec.ofNat 32 (s.length - 1 - k)))).store8
        (str + BitVec.ofNat 32 (s.length - 1 - k)) (m (str + BitVec.ofNat 32 k))) := by
  -- The two bytes are still their own.
  have hfirst := h.byte k (by omega)
  rw [if_neg (by omega)] at hfirst
  have hlast := h.byte (s.length - 1 - k) (by omega)
  rw [if_neg (by omega)] at hlast
  refine ⟨fun i hi => ?_, ?_⟩
  · by_cases hil : i = s.length - 1 - k
    · rw [hil, Mem.store8_self, hfirst, if_pos (by omega),
        show s.length - 1 - (s.length - 1 - k) = k by omega]
    · have hne : str + BitVec.ofNat 32 i ≠ str + BitVec.ofNat 32 (s.length - 1 - k) := by bv_omega
      rw [Mem.store8_ne _ _ _ _ hne]
      by_cases hik : i = k
      · rw [hik, Mem.store8_self, hlast, if_pos (by omega)]
      · have hne' : str + BitVec.ofNat 32 i ≠ str + BitVec.ofNat 32 k := by bv_omega
        rw [Mem.store8_ne _ _ _ _ hne', h.byte i hi]
        -- The others are as near to the ends as they were.
        by_cases hend : i < k ∨ s.length - 1 - i < k
        · rw [if_pos hend, if_pos (by omega)]
        · rw [if_neg hend, if_neg (by omega)]
  · have hstore := SameOutside.store8 str k s.length m
      (m (str + BitVec.ofNat 32 (s.length - 1 - k))) (by omega) (by omega)
    exact SameOutside.trans _ _ _ _ _ (SameOutside.trans _ _ _ _ _ h.outside hstore)
      (SameOutside.store8 str (s.length - 1 - k) s.length _ _ (by omega) (by omega))

omit hlen in
/-- When the indices meet every byte has been exchanged, but for one in the
    middle that is its own counterpart. -/
theorem holds_of_exchanged (k : Nat) (m : Mem) (hk : s.length ≤ 2 * k + 1)
    (h : Exchanged m0 str s k m) : Holds m str s.reverse := by
  refine holds_of_getElem m str _ fun i hi => ?_
  rw [List.length_reverse] at hi
  rw [List.getElem_reverse, h.byte i hi]
  by_cases hend : i < k ∨ s.length - 1 - i < k
  · rw [if_pos hend, List.getD_eq_getElem _ _ (by omega)]
  · have hmiddle : s.length - 1 - i = i := by omega
    rw [if_neg hend, List.getD_eq_getElem _ _ hi]
    simp only [hmiddle]

/-- The indices are compared as integers. -/
theorem indices_slt_iff (k : Nat) (hk : 2 * k ≤ s.length) :
    (BitVec.ofNat 32 k).slt (BitVec.ofNat 32 s.length - 1 - BitVec.ofNat 32 k) = true
      ↔ 2 * k + 1 < s.length := by
  have hstart : (BitVec.ofNat 32 k).toNat = k := by bv_omega
  have hend : (BitVec.ofNat 32 s.length - 1 - BitVec.ofNat 32 k).toNat
      = if s.length = 0 then 2 ^ 32 - 1 else s.length - 1 - k := by
    by_cases hempty : s.length = 0
    · rw [if_pos hempty]
      bv_omega
    · rw [if_neg hempty]
      bv_omega
  rw [BitVec.slt_iff_toInt_lt, BitVec.toInt_eq_toNat_cond, BitVec.toInt_eq_toNat_cond, hstart, hend]
  split_ifs <;> omega

/-- The rounds left from any of them. -/
theorem reverse_loop (k : Nat) (m : Mem) (hk : 2 * k ≤ s.length) (h : Exchanged m0 str s k m)
    (fuel : Nat) (hfuel : s.length < k + fuel) :
    ∃ m', runLoop (reverseTurn str) fuel
        (BitVec.ofNat 32 k, BitVec.ofNat 32 s.length - 1 - BitVec.ofNat 32 k, m) = some m' ∧
      Holds m' str s.reverse ∧ SameOutside str s.length m0 m' := by
  induction fuel generalizing k m with
  | zero => omega
  | succ fuel ih =>
      by_cases hgo : 2 * k + 1 < s.length
      · have hlast : BitVec.ofNat 32 s.length - 1 - BitVec.ofNat 32 k
            = BitVec.ofNat 32 (s.length - 1 - k) := by bv_omega
        have hnext : BitVec.ofNat 32 s.length - 1 - BitVec.ofNat 32 k - 1
            = BitVec.ofNat 32 s.length - 1 - BitVec.ofNat 32 (k + 1) := by bv_omega
        have hstep := exchange_step m0 str s hlen k m hgo h
        rw [← hlast] at hstep
        rcases ih (k + 1) _ (by omega) hstep (by omega) with ⟨m', hrun, hm'⟩
        rw [← hnext, BitVec.ofNat_add] at hrun
        refine ⟨m', ?_, hm'⟩
        rw [← hrun]
        exact runLoop_again (reverseTurn str) _ _ _ (if_pos ((indices_slt_iff s hlen k hk).mpr hgo))
      · refine ⟨m, runLoop_exit _ _ _ _ ?_, holds_of_exchanged m0 str s k m (by omega) h, h.outside⟩
        rw [reverseTurn, if_neg (fun hc => hgo ((indices_slt_iff s hlen k hk).mp hc))]

/-- What is left is the string turned round, and nothing else has changed. -/
theorem reverseStr_eq (hs : CString m0 str s) :
    ∃ m', reverseStr m0 str = some m' ∧ CString m' str s.reverse ∧
      SameOutside str s.length m0 m' := by
  rcases (holds_append m0 str s [0]).mp hs.2 with ⟨hbytes, hzero, _⟩
  have hstart : Exchanged m0 str s 0 m0 :=
    ⟨fun i hi => by
      rw [if_neg (by omega), holds_getElem m0 str s hbytes i hi, List.getD_eq_getElem _ _ hi],
      SameOutside.refl str s.length m0⟩
  rcases reverse_loop m0 str s hlen 0 m0 (Nat.zero_le _) hstart (turnBound + 1)
    (by unfold turnBound; omega) with ⟨m', hrun, hholds, houtside⟩
  refine ⟨m', ?_, ⟨fun b hb => hs.1 b (List.mem_reverse.mp hb), ?_⟩, houtside⟩
  · unfold reverseStr
    rw [reverseLen_eq m0 str s hs, Option.bind_some]
    rw [show BitVec.ofNat 32 s.length - 1 - BitVec.ofNat 32 0 = BitVec.ofNat 32 s.length - 1 from
      BitVec.sub_zero _] at hrun
    exact hrun
  · -- The terminator is outside.
    rw [holds_append, List.length_reverse]
    refine ⟨hholds, (houtside _ ?_).trans hzero, trivial⟩
    unfold Far
    bv_omega

end Exchange

end UnixP6
