import UnixP6.CSemantics.Memory

/-!
# Bytes and Strings in Memory

A list of bytes laid out in memory, and the string a C function reads within a
bound. A layout splits where the list does, so a record of several fields is
taken apart by `holds_append` alone. Addresses wrap, as everywhere.

## Main definitions

* `Holds`: The bytes of a list lie in memory from an address on.
* `readString`: The bytes up to a terminator or a bound.
* `CString`: A string with its terminator lies in memory.
* `bytes32`: The bytes of a word.
* `memOf`: A memory that holds a list from address zero on.

## Theorems

* `holds_append`: A layout splits where the list does.
* `holds_getElem`, `holds_of_getElem`: A layout byte by byte.
* `holds_sameOutside`, `holds_store8_end`: Layouts in a memory that is written to.
* `load32_bytes32`: Reading back a word that lies in memory.
* `readString_of_holds`: Reading back a string that lies in memory.
* `length_lt_of_cstring`, `cstring_unique`: A string by where its terminator is.
* `cstring_sameOutside`, `exists_cstring`: Strings in a memory that is written to.
* `holds_memOf`: Any list that fits lies in some memory.
-/

namespace CSemantics

/-- The bytes of the list lie in memory from the address on. -/
def Holds (m : Mem) : Word → List Byte → Prop
  | _, [] => True
  | a, b :: bs => m a = b ∧ Holds m (a + 1) bs

/-- The string at the address: up to a terminator, or to the bound. -/
def readString (m : Mem) : Nat → Word → List Byte
  | 0, _ => []
  | k + 1, a => if m a = 0 then [] else m a :: readString m k (a + 1)

/-- A string of bytes other than zero lies at the address, with its terminator. -/
def CString (m : Mem) (a : Word) (s : List Byte) : Prop :=
  (∀ b ∈ s, b ≠ 0) ∧ Holds m a (s ++ [0])

/-- The bytes of a word, low byte first. -/
def bytes32 (v : Word) : List Byte :=
  [v.extractLsb' 0 8, v.extractLsb' 8 8, v.extractLsb' 16 8, v.extractLsb' 24 8]

theorem length_bytes32 (v : Word) : (bytes32 v).length = 4 :=
  rfl

theorem holds_cons (m : Mem) (a : Word) (b : Byte) (bs : List Byte) :
    Holds m a (b :: bs) ↔ m a = b ∧ Holds m (a + 1) bs :=
  Iff.rfl

/-- A layout splits where the list does. -/
theorem holds_append (m : Mem) (a : Word) (bs cs : List Byte) :
    Holds m a (bs ++ cs) ↔ Holds m a bs ∧ Holds m (a + BitVec.ofNat 32 bs.length) cs := by
  induction bs generalizing a with
  | nil =>
      rw [List.nil_append, List.length_nil, BitVec.add_zero]
      exact ⟨fun h => ⟨trivial, h⟩, fun h => h.2⟩
  | cons b bs ih =>
      have hnext : a + 1 + BitVec.ofNat 32 bs.length = a + BitVec.ofNat 32 (bs.length + 1) := by
        bv_omega
      rw [List.cons_append, holds_cons, holds_cons, ih, hnext, List.length_cons]
      exact and_assoc.symm

/-- One byte of a layout. -/
theorem holds_getElem (m : Mem) (a : Word) (bs : List Byte) (h : Holds m a bs) (i : Nat)
    (hi : i < bs.length) : m (a + BitVec.ofNat 32 i) = bs[i] := by
  induction bs generalizing a i with
  | nil => exact absurd hi (Nat.not_lt_zero i)
  | cons b bs ih =>
      cases i with
      | zero =>
          rw [BitVec.add_zero]
          exact h.1
      | succ i =>
          have hnext : a + BitVec.ofNat 32 (i + 1) = a + 1 + BitVec.ofNat 32 i := by bv_omega
          rw [hnext, List.getElem_cons_succ]
          exact ih (a + 1) h.2 i (Nat.lt_of_succ_lt_succ hi)

/-- Bytes that are where they belong make a layout. -/
theorem holds_of_getElem (m : Mem) (a : Word) (bs : List Byte)
    (h : ∀ i (hi : i < bs.length), m (a + BitVec.ofNat 32 i) = bs[i]) : Holds m a bs := by
  induction bs generalizing a with
  | nil => trivial
  | cons b bs ih =>
      have hhead := h 0 (Nat.succ_pos _)
      rw [BitVec.add_zero] at hhead
      refine ⟨hhead, ih (a + 1) fun i hi => ?_⟩
      have hnext : a + 1 + BitVec.ofNat 32 i = a + BitVec.ofNat 32 (i + 1) := by bv_omega
      rw [hnext]
      exact h (i + 1) (Nat.succ_lt_succ hi)

/-- A memory that differs from another only outside a layout holds it too. -/
theorem holds_sameOutside (m m' : Mem) (a b : Word) (n : Nat) (bs : List Byte)
    (h : Holds m b bs) (hsame : SameOutside a n m m')
    (hfar : ∀ i < bs.length, Far a n (b + BitVec.ofNat 32 i)) : Holds m' b bs :=
  holds_of_getElem m' b bs fun i hi =>
    (hsame _ (hfar i hi)).trans (holds_getElem m b bs h i hi)

/-- A byte stored behind a layout makes it longer. -/
theorem holds_store8_end (m : Mem) (a : Word) (bs : List Byte) (b : Byte)
    (hlen : bs.length < 2 ^ 32) (h : Holds m a bs) :
    Holds (m.store8 (a + BitVec.ofNat 32 bs.length) b) a (bs ++ [b]) := by
  rw [holds_append]
  refine ⟨holds_of_getElem _ a bs fun i hi => ?_, Mem.store8_self _ _ _, trivial⟩
  rw [Mem.store8_ne _ _ _ _ (by bv_omega)]
  exact holds_getElem m a bs h i hi

/-- Reading back a word that lies in memory. -/
theorem load32_bytes32 (m : Mem) (a v : Word) (h : Holds m a (bytes32 v)) : m.load32 a = v := by
  have hadd : a + 1 + 1 = a + 2 ∧ a + 1 + 1 + 1 = a + 3 := ⟨by bv_omega, by bv_omega⟩
  rcases h with ⟨h0, h1, h2, h3, _⟩
  rw [hadd.1] at h2
  rw [hadd.2] at h3
  -- The memory already is what a store of the word would make of it.
  have hstore : m.store32 a v = m := by
    funext x
    unfold Mem.store32 Mem.store8
    by_cases hx3 : x = a + 3
    · rw [if_pos hx3, hx3, h3]
    · by_cases hx2 : x = a + 2
      · rw [if_neg hx3, if_pos hx2, hx2, h2]
      · by_cases hx1 : x = a + 1
        · rw [if_neg hx3, if_neg hx2, if_pos hx1, hx1, h1]
        · by_cases hx0 : x = a
          · rw [if_neg hx3, if_neg hx2, if_neg hx1, if_pos hx0, hx0, h0]
          · rw [if_neg hx3, if_neg hx2, if_neg hx1, if_neg hx0]
  have hload := Mem.load32_store32_same m a v
  rw [hstore] at hload
  exact hload

/-- Reading back a string that lies in memory, as far as the bound goes. -/
theorem readString_of_holds (m : Mem) (k : Nat) (a : Word) (s : List Byte) (hne : ∀ b ∈ s, b ≠ 0)
    (hs : Holds m a s) (hend : s.length < k → m (a + BitVec.ofNat 32 s.length) = 0) :
    readString m k a = s.take k := by
  induction k generalizing a s with
  | zero => rw [readString, List.take_zero]
  | succ k ih =>
      cases s with
      | nil =>
          have hzero := hend (Nat.succ_pos k)
          rw [List.length_nil, BitVec.add_zero] at hzero
          rw [readString, if_pos hzero, List.take_nil]
      | cons b s =>
          rw [readString, hs.1, if_neg (hne b List.mem_cons_self), List.take_succ_cons]
          congr 1
          refine ih (a + 1) s (fun c hc => hne c (List.mem_cons_of_mem b hc)) hs.2 (fun hlt => ?_)
          -- The terminator is where it was, seen from one byte further on.
          have hnext : a + 1 + BitVec.ofNat 32 s.length = a + BitVec.ofNat 32 (s.length + 1) := by
            bv_omega
          rw [hnext]
          exact hend (Nat.succ_lt_succ hlt)

theorem readString_of_cstring (m : Mem) (k : Nat) (a : Word) (s : List Byte) (h : CString m a s) :
    readString m k a = s.take k := by
  have hsplit := (holds_append m a s [0]).mp h.2
  exact readString_of_holds m k a s h.1 hsplit.1 (fun _ => hsplit.2.1)

/-- What is read has no terminator in it. -/
theorem readString_ne_zero (m : Mem) (k : Nat) (a : Word) : ∀ b ∈ readString m k a, b ≠ 0 := by
  induction k generalizing a with
  | zero => exact fun b hb => absurd hb List.not_mem_nil
  | succ k ih =>
      intro b hb
      rw [readString] at hb
      by_cases hzero : m a = 0
      · rw [if_pos hzero] at hb
        exact absurd hb List.not_mem_nil
      · rw [if_neg hzero, List.mem_cons] at hb
        rcases hb with rfl | hb
        · exact hzero
        · exact ih (a + 1) b hb

/-- Behind the first byte of a string is the rest of it. -/
theorem cstring_tail (m : Mem) (a : Word) (b : Byte) (s : List Byte) (h : CString m a (b :: s)) :
    CString m (a + 1) s :=
  ⟨fun c hc => h.1 c (List.mem_cons_of_mem b hc), h.2.2⟩

/-- A string and its terminator fit into the address space: one that went round
    would have come to its terminator before. -/
theorem length_lt_of_cstring (m : Mem) (a : Word) (s : List Byte) (h : CString m a s) :
    s.length < 2 ^ 32 := by
  by_contra hlong
  have hend := holds_getElem m a _ h.2 s.length (by
    rw [List.length_append, List.length_singleton]
    omega)
  rw [List.getElem_append_right (Nat.le_refl _)] at hend
  have hbefore : s.length % 2 ^ 32 < s.length := by omega
  have hbyte := holds_getElem m a s ((holds_append m a s [0]).mp h.2).1 _ hbefore
  rw [show BitVec.ofNat 32 (s.length % 2 ^ 32) = BitVec.ofNat 32 s.length from
    BitVec.eq_of_toNat_eq (by rw [BitVec.toNat_ofNat, BitVec.toNat_ofNat, Nat.mod_mod]), hend]
    at hbyte
  refine h.1 _ (List.getElem_mem hbefore) (hbyte.symm.trans ?_)
  simp only [Nat.sub_self, List.getElem_cons_zero]

/-- There is at most one string at an address. -/
theorem cstring_unique (m : Mem) (a : Word) (s t : List Byte) (hs : CString m a s)
    (ht : CString m a t) : s = t := by
  have hread := readString_of_cstring m (max s.length t.length) a s hs
  rw [readString_of_cstring m (max s.length t.length) a t ht,
    List.take_of_length_le (Nat.le_max_left _ _), List.take_of_length_le (Nat.le_max_right _ _)]
    at hread
  exact hread.symm

/-- A string is where it was in a memory that differs apart from it. -/
theorem cstring_sameOutside (m m' : Mem) (a b : Word) (n : Nat) (s : List Byte)
    (h : CString m b s) (hsame : SameOutside a n m m') (hapart : Apart a n b (s.length + 1)) :
    CString m' b s := by
  refine ⟨h.1, holds_sameOutside m m' a b n _ h.2 hsame fun i hi => ?_⟩
  rw [List.length_append, List.length_singleton] at hi
  rcases hapart with ⟨hab, hba⟩
  unfold Far
  bv_omega

/-- In a layout with a zero byte there is a string: what comes before it. -/
theorem cstring_of_holds (m : Mem) (bs : List Byte) : ∀ a : Word, Holds m a bs →
    (0 : Byte) ∈ bs → CString m a (bs.takeWhile fun b => b != 0) := by
  induction bs with
  | nil => exact fun _ _ hzero => absurd hzero List.not_mem_nil
  | cons b bs ih =>
      rintro a ⟨hb, hbs⟩ hzero
      by_cases hb0 : b = 0
      · have hstop : ¬ (b != 0) = true := by
          rw [hb0]
          decide
        rw [List.takeWhile_cons, if_neg hstop]
        exact ⟨fun c hc => absurd hc List.not_mem_nil, hb.trans hb0, trivial⟩
      · rcases ih (a + 1) hbs ((List.mem_cons.mp hzero).resolve_left (Ne.symm hb0)) with
          ⟨hne, hrest⟩
        rw [List.takeWhile_cons, if_pos (bne_iff_ne.mpr hb0)]
        refine ⟨fun c hc => ?_, hb, hrest⟩
        rcases List.mem_cons.mp hc with rfl | hc
        · exact hb0
        · exact hne c hc

/-- In a memory with a zero byte anywhere there is a string at every address. -/
theorem exists_cstring (m : Mem) (z : Word) (hz : m z = 0) (a : Word) : ∃ t, CString m a t := by
  -- By how far the zero byte is ahead.
  induction hd : (z - a).toNat generalizing a with
  | zero =>
      have ha : a = z := by bv_omega
      rw [ha]
      exact ⟨[], fun b hb => absurd hb List.not_mem_nil, hz, trivial⟩
  | succ d ih =>
      by_cases hzero : m a = 0
      · exact ⟨[], fun b hb => absurd hb List.not_mem_nil, hzero, trivial⟩
      · rcases ih (a + 1) (by bv_omega) with ⟨t, hne, ht⟩
        refine ⟨m a :: t, fun b hb => ?_, rfl, ht⟩
        rcases List.mem_cons.mp hb with rfl | hb
        · exact hzero
        · exact hne b hb

/-- A memory that holds a list of bytes at zero. -/
def memOf (bs : List Byte) : Mem := fun a => bs.getD a.toNat 0

theorem holds_memOf (bs : List Byte) (h : bs.length ≤ 2 ^ 32) : Holds (memOf bs) 0 bs := by
  -- What is left of the list lies behind what has been passed.
  have hfrom : ∀ (after before : List Byte), before ++ after = bs →
      Holds (memOf bs) (BitVec.ofNat 32 before.length) after := by
    intro after
    induction after with
    | nil => exact fun _ _ => trivial
    | cons b after ih =>
        intro before hsplit
        have hlen := congrArg List.length hsplit
        rw [List.length_append, List.length_cons] at hlen
        refine ⟨?_, ?_⟩
        · have hat : (BitVec.ofNat 32 before.length).toNat = before.length := by
            rw [BitVec.toNat_ofNat]
            omega
          rw [memOf, hat, ← hsplit, List.getD_eq_getElem?_getD,
            List.getElem?_append_right (Nat.le_refl _), Nat.sub_self]
          rfl
        · have hnext := ih (before ++ [b]) (by rw [List.append_assoc]; exact hsplit)
          rw [List.length_append, List.length_singleton, BitVec.ofNat_add] at hnext
          exact hnext
  exact hfrom bs [] rfl

end CSemantics
