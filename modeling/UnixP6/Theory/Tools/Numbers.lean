import UnixP6.Theory.Tools.Reverse
import Mathlib.Data.Nat.Digits.Lemmas

/-!
# Numbers Written and Read Back

The texts that `uint_to_str` and `int_to_str` leave in their buffer. The loop
they share is one fact, about any operators that are those of natural numbers
up to some limit: the digits, the last one first. Turning the text round makes
the numeral of it.

The operators of `uint32_t` are those of natural numbers for every word, those
of `int32_t` for words below `2^31`. Negating a number brings it below that
limit, with the one exception of the most negative number, which is its own
negation. Its remainder is negative and the loop stops after one character.

## Main definitions

* `IsNumeral`, `numeral`: Positional numerals, the most significant digit first.
* `numeralText`: A numeral in characters.
* `NumberOps.Unsigned`: Operators that are those of natural numbers.
* `intText`: What `int_to_str` leaves.
* `SignedTextCorrect`: What is promised of it.

## Theorems

* `numeral_isNumeral`: The numeral of a number.
* `digit_loop`: The loop stores the digits.
* `uintToStr_eq`, `intToStr_eq`: The texts left in the buffer.
* `strToUint_eq`: Reading a decimal numeral.
* `uintToStr_canonical`: Unsigned text is the numeral and reads back.
* `signedTextCorrect_iff`: Signed text is right for all numbers but one.
* `not_signedTextCorrect`: The most negative number.
-/

namespace UnixP6

open CSemantics

/-! ### Numerals -/

/-- The digits of a numeral of the number, the most significant one first: their
    value is the number, and none leads that could be left out. -/
structure IsNumeral (b n : Nat) (ds : List Nat) : Prop where
  digits : ∀ d ∈ ds, d < b
  value : ds.foldl (fun v d => v * b + d) 0 = n
  leading : ds.head? = some 0 → ds = [0]
  nonempty : ds ≠ []

/-- The digits, the least significant one first. -/
def lowDigits (b n : Nat) : List Nat := if n = 0 then [0] else Nat.digits b n

def numeral (b n : Nat) : List Nat := (lowDigits b n).reverse

/-- The character of a digit: a figure, or from ten on a capital letter. -/
def digitChar (d : Nat) : Byte := BitVec.ofNat 8 (if 9 < d then d - 10 + 65 else d + 48)

def numeralText (b n : Nat) : List Byte := (numeral b n).map digitChar

/-- The figures and the capital letters. -/
def DigitCharacter (c : Byte) : Prop := (48 ≤ c ∧ c ≤ 57) ∨ (65 ≤ c ∧ c ≤ 90)

section Numerals

variable (b n : Nat) (hb : 2 ≤ b)

include hb

/-- The last digit, and those of what is left without it. -/
theorem lowDigits_eq :
    lowDigits b n = n % b :: if n / b = 0 then [] else lowDigits b (n / b) := by
  unfold lowDigits
  by_cases hn : n = 0
  · rw [if_pos hn, hn, Nat.zero_mod, Nat.zero_div, if_pos rfl]
  · rw [if_neg hn, Nat.digits_def' hb (Nat.pos_of_ne_zero hn)]
    by_cases hq : n / b = 0
    · rw [hq, if_pos rfl, Nat.digits_zero]
    · rw [if_neg hq, if_neg hq]

theorem lowDigits_lt : ∀ d ∈ lowDigits b n, d < b := by
  intro d hd
  unfold lowDigits at hd
  by_cases hn : n = 0
  · rw [if_pos hn, List.mem_singleton] at hd
    omega
  · rw [if_neg hn] at hd
    exact Nat.digits_lt_base hb hd

theorem length_lowDigits_le (k : Nat) (hk : 0 < k) (hn : n < b ^ k) :
    (lowDigits b n).length ≤ k := by
  unfold lowDigits
  by_cases hzero : n = 0
  · rw [if_pos hzero]
    exact hk
  · rw [if_neg hzero]
    exact (Nat.digits_length_le_iff hb n).mpr hn

/-- A number of 32 bits has at most 32 digits. -/
theorem length_lowDigits_word (hn : n < 2 ^ 32) : (lowDigits b n).length ≤ 32 :=
  length_lowDigits_le b n hb 32 (by decide)
    (Nat.lt_of_lt_of_le hn (Nat.pow_le_pow_left hb 32))

theorem numeral_isNumeral : IsNumeral b n (numeral b n) where
  digits d hd := lowDigits_lt b n hb d (List.mem_reverse.mp hd)
  value := by
    unfold numeral lowDigits
    rw [List.foldl_reverse]
    by_cases hn : n = 0
    · rw [if_pos hn, hn, List.foldr_cons, List.foldr_nil, Nat.zero_mul]
    · rw [if_neg hn]
      calc (Nat.digits b n).foldr (fun d v => v * b + d) 0
          = (Nat.digits b n).foldr (fun d v => d + b * v) 0 := by
            congr 1
            funext d v
            rw [Nat.mul_comm, Nat.add_comm]
        _ = Nat.ofDigits b (Nat.digits b n) := (Nat.ofDigits_eq_foldr b _).symm
        _ = n := Nat.ofDigits_digits b n
  leading := by
    unfold numeral lowDigits
    by_cases hn : n = 0
    · rw [if_pos hn]
      exact fun _ => rfl
    · rw [if_neg hn, List.head?_reverse]
      intro hlast
      -- The last of the digits is the most significant one.
      have hne : Nat.digits b n ≠ [] := Nat.digits_ne_nil_iff_ne_zero.mpr hn
      rw [List.getLast?_eq_some_getLast hne, Option.some.injEq] at hlast
      exact absurd hlast (Nat.getLast_digit_ne_zero b hn)
  nonempty := by
    unfold numeral
    rw [lowDigits_eq b n hb]
    exact List.reverse_ne_nil_iff.mpr (List.cons_ne_nil _ _)

omit hb in
theorem length_numeralText : (numeralText b n).length = (lowDigits b n).length := by
  unfold numeralText numeral
  rw [List.length_map, List.length_reverse]

end Numerals

theorem digitChar_character (d : Nat) (hd : d < 36) : DigitCharacter (digitChar d) := by
  have hall : ∀ d : Fin 36, (48 ≤ digitChar d ∧ digitChar d ≤ 57) ∨
      (65 ≤ digitChar d ∧ digitChar d ≤ 90) := by decide
  exact hall ⟨d, hd⟩

theorem digitChar_ne_zero (d : Nat) (hd : d < 36) : digitChar d ≠ 0 := by
  have hall : ∀ d : Fin 36, digitChar d ≠ 0 := by decide
  exact hall ⟨d, hd⟩

/-! ### The loop -/

/-- Up to the limit the operators are those of natural numbers. -/
structure NumberOps.Unsigned (ops : NumberOps) (limit : Nat) : Prop where
  quot : ∀ i j : Word, i.toNat < limit → j.toNat < 256 →
    (ops.quot i j).toNat = i.toNat / j.toNat
  rem : ∀ i j : Word, i.toNat < limit → j.toNat < 256 → (ops.rem i j).toNat = i.toNat % j.toNat
  above : ∀ i j : Word, i.toNat < limit → j.toNat < 256 →
    (ops.above i j = true ↔ j.toNat < i.toNat)

theorem uintOps_unsigned : uintOps.Unsigned (2 ^ 32) where
  quot _ _ _ _ := BitVec.toNat_udiv
  rem _ _ _ _ := BitVec.toNat_umod
  above i j _ _ := by
    show j.ult i = true ↔ _
    rw [BitVec.ult, decide_eq_true_iff]

theorem intOps_unsigned : intOps.Unsigned (2 ^ 31) where
  quot i j hi hj := by
    have hmsb : i.msb = false ∧ j.msb = false :=
      ⟨BitVec.msb_eq_false_iff_two_mul_lt.mpr (by omega),
        BitVec.msb_eq_false_iff_two_mul_lt.mpr (by omega)⟩
    show (i.sdiv j).toNat = _
    rw [BitVec.sdiv_eq, hmsb.1, hmsb.2]
    exact BitVec.toNat_udiv
  rem i j hi hj := by
    have hmsb : i.msb = false ∧ j.msb = false :=
      ⟨BitVec.msb_eq_false_iff_two_mul_lt.mpr (by omega),
        BitVec.msb_eq_false_iff_two_mul_lt.mpr (by omega)⟩
    show (i.srem j).toNat = _
    rw [BitVec.srem_eq, hmsb.1, hmsb.2]
    exact BitVec.toNat_umod
  above i j hi hj := by
    show j.slt i = true ↔ _
    rw [BitVec.slt_iff_toInt_lt, BitVec.toInt_eq_toNat_cond, BitVec.toInt_eq_toNat_cond,
      if_pos (by omega), if_pos (by omega)]
    omega

/-- The character stored for a remainder. -/
theorem setWidth_digitChar (ops : NumberOps) (limit : Nat) (hops : ops.Unsigned limit)
    (r : Word) (hr : r.toNat < 256) (hlimit : r.toNat < limit) :
    (if ops.above r 9 then r - 10 + 65 else r + 48).setWidth 8 = digitChar r.toNat := by
  have habove := hops.above r 9 hlimit (by decide)
  rw [show (9 : Word).toNat = 9 from rfl] at habove
  refine BitVec.eq_of_toNat_eq ?_
  unfold digitChar
  rw [BitVec.toNat_setWidth, BitVec.toNat_ofNat]
  by_cases hnine : 9 < r.toNat
  · rw [if_pos (habove.mpr hnine), if_pos hnine]
    bv_omega
  · rw [if_neg (fun hc => hnine (habove.mp hc)), if_neg hnine]
    bv_omega

section Loop

variable (ops : NumberOps) (limit : Nat) (hops : ops.Unsigned limit) (base : Byte)
  (hbase : 2 ≤ base.toNat) (buf : Word)

include hops hbase

/-- One turn stores the last digit and goes on with what is left, if there is any. -/
theorem digitTurn_eq (i index : Word) (m : Mem) (hi : i.toNat < limit) :
    ∃ i', i'.toNat = i.toNat / base.toNat ∧
      digitTurn ops base buf (i, index, m) = some
        (if i.toNat / base.toNat = 0 then
          .exit (index + 1, m.store8 (buf + index) (digitChar (i.toNat % base.toNat)))
        else
          .again (i', index + 1, m.store8 (buf + index) (digitChar (i.toNat % base.toNat)))) := by
  have hlt := base.isLt
  have hwide : (base.setWidth 32).toNat = base.toNat := by
    rw [BitVec.toNat_setWidth]
    omega
  have hquot := hops.quot i (base.setWidth 32) hi (by omega)
  have hrem := hops.rem i (base.setWidth 32) hi (by omega)
  rw [hwide] at hquot hrem
  have hmod := Nat.mod_lt i.toNat (show base.toNat > 0 by omega)
  have hmod' := Nat.mod_le i.toNat base.toNat
  have hdiv := Nat.div_le_self i.toNat base.toNat
  have hne : base ≠ 0 := fun hc => by
    rw [hc] at hbase
    exact absurd hbase (by decide)
  have habove := hops.above (ops.quot i (base.setWidth 32)) 0 (by omega) (by decide)
  rw [hquot, toNat_word_zero] at habove
  have hchar := setWidth_digitChar ops limit hops (ops.rem i (base.setWidth 32)) (by omega)
    (by omega)
  rw [hrem] at hchar
  refine ⟨ops.quot i (base.setWidth 32), hquot, ?_⟩
  unfold digitTurn
  rw [if_neg hne]
  simp only [hchar]
  by_cases hzero : i.toNat / base.toNat = 0
  · rw [if_pos hzero, if_neg (fun hc => absurd (habove.mp hc) (by omega))]
  · rw [if_neg hzero, if_pos (habove.mpr (by omega))]

/-- The loop stores the digits, the last one first, and nothing else. -/
theorem digit_loop (n : Nat) (hn : n < limit) :
    ∀ (i index : Word) (m : Mem) (fuel : Nat), i.toNat = n → n < fuel →
      ∃ m', runLoop (digitTurn ops base buf) fuel (i, index, m)
          = some (index + BitVec.ofNat 32 (lowDigits base.toNat n).length, m') ∧
        Holds m' (buf + index) ((lowDigits base.toNat n).map digitChar) ∧
        SameOutside (buf + index) (lowDigits base.toNat n).length m m' := by
  induction n using Nat.strong_induction_on with
  | _ n ih =>
      intro i index m fuel hi hfuel
      have hshort := length_lowDigits_word base.toNat n hbase (hi ▸ i.isLt)
      rcases Nat.exists_eq_add_of_lt (Nat.zero_lt_of_lt hfuel) with ⟨k, rfl⟩
      rw [← hi] at hn
      rcases digitTurn_eq ops limit hops base hbase buf i index m hn with ⟨i', hi', hturn⟩
      rw [hi] at hi' hturn
      have hstore := SameOutside.store8 (buf + index) 0 (lowDigits base.toNat n).length m
        (digitChar (n % base.toNat)) (by rw [lowDigits_eq _ n hbase]; exact Nat.succ_pos _)
        (by omega)
      rw [show BitVec.ofNat 32 0 = (0 : Word) from rfl, show buf + index + 0 = buf + index from
        BitVec.add_zero _] at hstore
      rw [lowDigits_eq _ n hbase] at hshort hstore ⊢
      by_cases hzero : n / base.toNat = 0
      · rw [if_pos hzero] at hturn hstore ⊢
        exact ⟨_, runLoop_exit _ _ _ _ hturn, ⟨Mem.store8_self _ _ _, trivial⟩, hstore⟩
      · rw [if_neg hzero] at hturn hshort hstore ⊢
        rw [List.length_cons] at hshort hstore ⊢
        have hless : n / base.toNat < n :=
          Nat.div_lt_self (Nat.pos_of_ne_zero fun hc => hzero (by rw [hc, Nat.zero_div])) hbase
        rcases ih _ hless (by omega) i' (index + 1) (m.store8 (buf + index) _) (0 + k) hi'
          (by omega) with ⟨m', hrun, hholds, hsame⟩
        have hnext : buf + (index + 1) = buf + index + 1 := by rw [BitVec.add_assoc]
        rw [hnext] at hholds hsame
        refine ⟨m', ?_, ⟨?_, hholds⟩, ?_⟩
        · rw [runLoop_again _ _ _ _ hturn, hrun]
          congr 2
          bv_omega
        · -- The digits that follow are stored behind this one.
          rw [hsame _ (by unfold Far; bv_omega), Mem.store8_self]
        · refine SameOutside.trans _ _ _ _ _ hstore ?_
          exact SameOutside.widen (buf + index) 1 _ _ _ _ (by omega) (by omega) hsame

theorem putDigits_eq (m : Mem) (i : Word) (hi : i.toNat < limit) :
    ∃ m', putDigits ops m i base buf
        = some (BitVec.ofNat 32 (lowDigits base.toNat i.toNat).length, m') ∧
      Holds m' buf ((lowDigits base.toNat i.toNat).map digitChar) ∧
      SameOutside buf (lowDigits base.toNat i.toNat).length m m' := by
  rcases digit_loop ops limit hops base hbase buf i.toNat hi i 0 m (turnBound + 1) rfl
    (by have hlt := i.isLt; unfold turnBound; omega) with ⟨m', hrun, hholds, hsame⟩
  have hzero : buf + 0 = buf := BitVec.add_zero buf
  rw [hzero] at hholds hsame
  refine ⟨m', hrun.trans ?_, hholds, hsame⟩
  rw [show ∀ x : Word, 0 + x = x from BitVec.zero_add]

end Loop

/-! ### The texts -/

theorem character_ne_zero (base n : Nat) (h2 : 2 ≤ base) (h36 : base ≤ 36) :
    ∀ c ∈ (lowDigits base n).map digitChar, c ≠ 0 := by
  intro c hc
  rcases List.mem_map.mp hc with ⟨d, hd, rfl⟩
  exact digitChar_ne_zero d (Nat.lt_of_lt_of_le (lowDigits_lt base n h2 d hd) h36)

/-- One more character behind those in the buffer. -/
theorem buffer_push (m m' : Mem) (buf : Word) (t : List Byte) (c : Byte)
    (hlen : t.length < 2 ^ 31) (hholds : Holds m' buf t) (hsame : SameOutside buf t.length m m') :
    Holds (m'.store8 (buf + BitVec.ofNat 32 t.length) c) buf (t ++ [c]) ∧
      SameOutside buf (t.length + 1) m (m'.store8 (buf + BitVec.ofNat 32 t.length) c) := by
  refine ⟨holds_store8_end m' buf t c (by omega) hholds, SameOutside.trans _ _ _ _ _
    (SameOutside.widen buf 0 t.length (t.length + 1) m m' (by omega) (by omega) ?_)
    (SameOutside.store8 buf t.length (t.length + 1) m' c (Nat.lt_succ_self _) (by omega))⟩
  rw [show buf + BitVec.ofNat 32 0 = buf from BitVec.add_zero buf]
  exact hsame

/-- Characters in the buffer, terminated and turned round, are a string. -/
theorem reverseStr_buffer (m m' : Mem) (buf : Word) (t : List Byte) (hne : ∀ c ∈ t, c ≠ 0)
    (hlen : t.length < 2 ^ 31) (hholds : Holds m' buf t) (hsame : SameOutside buf t.length m m') :
    ∃ r, reverseStr (m'.store8 (buf + BitVec.ofNat 32 t.length) 0) buf = some r ∧
      CString r buf t.reverse ∧ SameOutside buf (t.length + 1) m r := by
  rcases buffer_push m m' buf t 0 hlen hholds hsame with ⟨hstring, hpushed⟩
  rcases reverseStr_eq _ buf t hlen ⟨hne, hstring⟩ with ⟨r, hrun, hr, hturned⟩
  refine ⟨r, hrun, hr, SameOutside.trans _ _ _ _ _ hpushed
    (SameOutside.widen buf 0 t.length (t.length + 1) _ r (by omega) (by omega) ?_)⟩
  rw [show buf + BitVec.ofNat 32 0 = buf from BitVec.add_zero buf]
  exact hturned

section Texts

variable (m : Mem) (i : Word) (base : Byte) (buf : Word) (h2 : 2 ≤ base.toNat)
  (h36 : base.toNat ≤ 36)

include h2 h36

/-- `uint_to_str` leaves the numeral. -/
theorem uintToStr_eq : ∃ r, uintToStr m i base buf = some r ∧
    CString r buf (numeralText base.toNat i.toNat) ∧
    SameOutside buf ((numeralText base.toNat i.toNat).length + 1) m r := by
  rcases putDigits_eq uintOps _ uintOps_unsigned base h2 buf m i i.isLt with
    ⟨m', hrun, hholds, hsame⟩
  have hshort := length_lowDigits_word base.toNat i.toNat h2 i.isLt
  rw [← List.length_map digitChar] at hrun hsame hshort
  rcases reverseStr_buffer m m' buf _ (character_ne_zero base.toNat i.toNat h2 h36) (by omega)
    hholds hsame with ⟨r, hreverse, hr, hsame'⟩
  refine ⟨r, ?_, ?_, ?_⟩
  · unfold uintToStr
    rw [hrun, Option.bind_some]
    exact hreverse
  · rw [← List.map_reverse] at hr
    exact hr
  · rw [List.length_map] at hsame'
    rw [length_numeralText]
    exact hsame'

end Texts

/-- The most negative number. -/
def intMin : Word := 0x80000000

/-- What `int_to_str` leaves: the sign and the numeral of the absolute value. The
    most negative number is left with a negative remainder for its one digit. -/
def intText (base : Nat) (i : Word) : List Byte :=
  if i = intMin then [45, BitVec.ofNat 8 (48 - 2 ^ 31 % base)]
  else (if i.slt 0 then [45] else []) ++ numeralText base i.toInt.natAbs

theorem slt_zero_iff (i : Word) : i.slt 0 = true ↔ 2 ^ 31 ≤ i.toNat := by
  rw [BitVec.slt_iff_toInt_lt, BitVec.toInt_eq_toNat_cond, show (0 : Word).toInt = 0 from rfl]
  have hlt := i.isLt
  split_ifs <;> omega

/-- A number without the sign, as the loop is given it. -/
theorem toNat_abs (i : Word) (hmin : i ≠ intMin) :
    (if i.slt 0 then i * -1 else i).toNat = i.toInt.natAbs ∧
      (if i.slt 0 then i * -1 else i).toNat < 2 ^ 31 := by
  have hne : i.toNat ≠ 2 ^ 31 := fun hc => hmin (BitVec.eq_of_toNat_eq hc)
  have hneg : i * -1 = -i := by
    rw [BitVec.mul_neg]
    exact congrArg Neg.neg (BitVec.mul_one i)
  rw [hneg, BitVec.toInt_eq_toNat_cond]
  by_cases hlow : 2 * i.toNat < 2 ^ 32
  · rw [if_pos hlow, if_neg (fun hc => absurd ((slt_zero_iff i).mp hc) (by omega)),
      Int.natAbs_natCast]
    exact ⟨rfl, by omega⟩
  · rw [if_neg hlow, if_pos ((slt_zero_iff i).mpr (by omega)), BitVec.toNat_neg]
    have hlt := i.isLt
    omega

/-- The one turn the most negative number gets. -/
theorem digitTurn_intMin (base : Byte) (h2 : 2 ≤ base.toNat) (h36 : base.toNat ≤ 36) (buf : Word)
    (m : Mem) : digitTurn intOps base buf (intMin, 0, m)
      = some (.exit (1, m.store8 buf (BitVec.ofNat 8 (48 - 2 ^ 31 % base.toNat)))) := by
  -- The remainder and the quotient are not positive, in any of the bases.
  have hall : ∀ b : Fin 37, 2 ≤ b.val →
      let j : Word := BitVec.ofNat 32 b.val
      (intOps.above (intOps.rem intMin j) 9 = false ∧
        (intOps.rem intMin j + 48).setWidth 8 = BitVec.ofNat 8 (48 - 2 ^ 31 % b.val)) ∧
        intOps.above (intOps.quot intMin j) 0 = false := by decide
  have hne : base ≠ 0 := fun hc => by
    rw [hc] at h2
    exact absurd h2 (by decide)
  have hwide : base.setWidth 32 = BitVec.ofNat 32 base.toNat :=
    BitVec.eq_of_toNat_eq (by rw [BitVec.toNat_setWidth, BitVec.toNat_ofNat])
  rcases hall ⟨base.toNat, by omega⟩ h2 with ⟨⟨hrem, hchar⟩, hquot⟩
  unfold digitTurn
  rw [if_neg hne, hwide]
  simp only [hrem, hchar, hquot, Bool.false_eq_true, if_false]
  rw [show buf + 0 = buf from BitVec.add_zero buf]
  rfl

section Signed

variable (m : Mem) (i : Word) (base : Byte) (buf : Word) (h2 : 2 ≤ base.toNat)
  (h36 : base.toNat ≤ 36)

include h2 h36

theorem intToStr_intMin : ∃ r, intToStr m intMin base buf = some r ∧
    CString r buf (intText base.toNat intMin) ∧
    SameOutside buf ((intText base.toNat intMin).length + 1) m r := by
  -- The character is not a terminator, and the sign goes behind it.
  let c : Byte := BitVec.ofNat 8 (48 - 2 ^ 31 % base.toNat)
  have hc : c ≠ 0 := by
    have hmod := Nat.mod_lt (2 ^ 31) (show base.toNat > 0 by omega)
    refine fun hzero => absurd (congrArg BitVec.toNat hzero) ?_
    rw [BitVec.toNat_ofNat, show (0 : Byte).toNat = 0 from rfl]
    omega
  have hstart : Holds (m.store8 buf c) buf [c] := ⟨Mem.store8_self _ _ _, trivial⟩
  have hsame : SameOutside buf [c].length m (m.store8 buf c) := by
    have hstore := SameOutside.store8 buf 0 1 m c (by decide) (by decide)
    rw [show buf + BitVec.ofNat 32 0 = buf from BitVec.add_zero buf] at hstore
    exact hstore
  rcases buffer_push m _ buf [c] 45 (show 1 < 2 ^ 31 by decide) hstart hsame with
    ⟨hholds, hpushed⟩
  rcases reverseStr_buffer m _ buf [c, 45] (by
    intro b hb
    rcases List.mem_cons.mp hb with rfl | hb
    · exact hc
    · rw [List.mem_singleton.mp hb]
      decide) (show 2 < 2 ^ 31 by decide) hholds hpushed with ⟨r, hrun, hr, hsame'⟩
  have htext : intText base.toNat intMin = [45, c] := if_pos rfl
  rw [htext]
  refine ⟨r, ?_, hr, hsame'⟩
  have hdigits : putDigits intOps m intMin base buf = some (1, m.store8 buf c) :=
    runLoop_exit _ _ _ _ (digitTurn_intMin base h2 h36 buf m)
  unfold intToStr
  rw [show (intMin.slt 0) = true from rfl]
  simp only [if_true, show intMin * -1 = intMin from rfl]
  rw [hdigits, Option.bind_some]
  exact hrun

/-- `int_to_str` leaves its text. -/
theorem intToStr_eq : ∃ r, intToStr m i base buf = some r ∧
    CString r buf (intText base.toNat i) ∧
    SameOutside buf ((intText base.toNat i).length + 1) m r := by
  by_cases hmin : i = intMin
  · rw [hmin]
    exact intToStr_intMin m base buf h2 h36
  · rcases toNat_abs i hmin with ⟨habs, hlt⟩
    rcases putDigits_eq intOps _ intOps_unsigned base h2 buf m _ hlt with
      ⟨m', hrun, hholds, hsame⟩
    have hshort := length_lowDigits_word base.toNat i.toInt.natAbs h2 (by omega)
    have hne := character_ne_zero base.toNat i.toInt.natAbs h2 h36
    rw [habs] at hrun hholds hsame
    rw [← List.length_map digitChar] at hrun hsame hshort
    unfold intToStr intText
    dsimp only
    rw [if_neg hmin, hrun, Option.bind_some]
    unfold numeralText numeral
    rw [List.map_reverse]
    generalize (lowDigits base.toNat i.toInt.natAbs).map digitChar = t at *
    by_cases hneg : i.slt 0 = true
    · simp only [hneg, if_true]
      have hlen : (t ++ [45]).length = t.length + 1 := List.length_append
      rcases buffer_push m m' buf t 45 (by omega) hholds hsame with ⟨hholds', hpushed⟩
      rw [← hlen] at hpushed
      rcases reverseStr_buffer m _ buf _ (by
        intro b hb
        rcases List.mem_append.mp hb with hb | hb
        · exact hne b hb
        · rw [List.mem_singleton.mp hb]
          decide) (by omega) hholds' hpushed with ⟨r, hreverse, hr, hsame'⟩
      rw [hlen, BitVec.ofNat_add] at hreverse
      rw [List.reverse_append, List.reverse_singleton] at hr
      rw [← List.length_reverse, List.reverse_append, List.reverse_singleton] at hsame'
      exact ⟨r, hreverse, hr, hsame'⟩
    · simp only [hneg, Bool.false_eq_true, if_false, List.nil_append]
      rcases reverseStr_buffer m m' buf t hne (by omega) hholds hsame with ⟨r, hreverse, hr, hsame'⟩
      rw [← List.length_reverse] at hsame'
      exact ⟨r, hreverse, hr, hsame'⟩

end Signed

/-! ### Reading back -/

/-- A figure as `str_to_uint` tests it, and its value. -/
theorem figure_value (d : Nat) (hd : d < 10) :
    ((48 : Byte).sle (digitChar d) ∧ (digitChar d).sle 57) ∧
      (digitChar d).signExtend 32 - 48 = BitVec.ofNat 32 d := by
  have hall : ∀ d : Fin 10, ((48 : Byte).sle (digitChar d) ∧ (digitChar d).sle 57) ∧
      (digitChar d).signExtend 32 - 48 = BitVec.ofNat 32 d := by decide
  exact hall ⟨d, hd⟩

/-- Reading figures, with a number already read. -/
theorem foldl_figures (ds : List Nat) (hds : ∀ d ∈ ds, d < 10) (v : Nat) :
    (ds.map digitChar).foldl (fun v c => v * 10 + (c.signExtend 32 - 48)) (BitVec.ofNat 32 v)
      = BitVec.ofNat 32 (ds.foldl (fun v d => v * 10 + d) v) := by
  induction ds generalizing v with
  | nil => rfl
  | cons d ds ih =>
      rw [List.map_cons, List.foldl_cons, List.foldl_cons,
        ← ih (fun e he => hds e (List.mem_cons_of_mem d he)),
        (figure_value d (hds d List.mem_cons_self)).2, BitVec.ofNat_add, BitVec.ofNat_mul]
      rfl

/-- A decimal numeral reads back as its number. -/
theorem strToUint_eq (m : Mem) (a : Word) (n : Nat) (h : CString m a (numeralText 10 n)) :
    strToUint m a = some (BitVec.ofNat 32 n) := by
  have hnumeral := numeral_isNumeral 10 n (by decide)
  have hloop := runLoop_pointer m (numeralText 10 n) (strToUintTurn m)
    (fun v c => v * 10 + (c.signExtend 32 - 48)) id
    (fun a v hzero => by rw [strToUintTurn, hzero]; rfl)
    (fun a v c hc hread => by
      -- A character of the numeral is a figure, and the loop goes on.
      rcases List.mem_map.mp hc with ⟨d, hd, rfl⟩
      rw [strToUintTurn, hread, if_pos (figure_value d (hnumeral.digits d hd)).1])
    a 0 (turnBound + 1) h (by decide)
  have hvalue := foldl_figures (numeral 10 n) hnumeral.digits 0
  rw [hnumeral.value] at hvalue
  exact hloop.trans (congrArg some hvalue)

/-- From base ten on the numeral of a word has at most ten characters. -/
theorem length_numeralText_le (base n : Nat) (h10 : 10 ≤ base) (hn : n < 2 ^ 32) :
    (numeralText base n).length ≤ 10 := by
  rw [length_numeralText]
  refine length_lowDigits_le base n (by omega) 10 (by decide) ?_
  calc n < 2 ^ 32 := hn
    _ ≤ 10 ^ 10 := by decide
    _ ≤ base ^ 10 := Nat.pow_le_pow_left h10 10

theorem length_intText_le (i : Word) : (intText 10 i).length ≤ 11 := by
  have hlt := i.isLt
  have habs : i.toInt.natAbs < 2 ^ 32 := by
    rw [BitVec.toInt_eq_toNat_cond]
    split_ifs <;> omega
  have htext := length_numeralText_le 10 i.toInt.natAbs (Nat.le_refl 10) habs
  unfold intText
  split_ifs with hmin hneg
  · exact show 2 ≤ 11 by decide
  · rw [List.length_append, List.length_singleton]
    omega
  · exact Nat.le_succ_of_le htext

/-- Unsigned text is the numeral, in any base; decimal text reads back; and in
    the bases that the formatter uses it takes eleven bytes with its terminator. -/
theorem uintToStr_canonical (m : Mem) (i : Word) (base : Byte) (buf : Word)
    (h2 : 2 ≤ base.toNat) (h36 : base.toNat ≤ 36) :
    ∃ r, uintToStr m i base buf = some r ∧
      IsNumeral base.toNat i.toNat (numeral base.toNat i.toNat) ∧
      CString r buf (numeralText base.toNat i.toNat) ∧
      SameOutside buf ((numeralText base.toNat i.toNat).length + 1) m r ∧
      (base = 10 → strToUint r buf = some i) ∧
      (base = 10 ∨ base = 16 → (numeralText base.toNat i.toNat).length + 1 ≤ 11) := by
  rcases uintToStr_eq m i base buf h2 h36 with ⟨r, hrun, hr, hsame⟩
  refine ⟨r, hrun, numeral_isNumeral _ _ h2, hr, hsame, ?_, fun hbase => ?_⟩
  · rintro rfl
    rw [strToUint_eq r buf i.toNat hr, BitVec.ofNat_toNat, BitVec.setWidth_eq]
  · refine Nat.succ_le_succ (length_numeralText_le _ _ ?_ i.isLt)
    rcases hbase with rfl | rfl <;> decide

/-- The largest byte in decimal. -/
theorem uintToStr_canonical_255 : ∃ r, uintToStr (memOf []) 255 10 0x1000 = some r ∧
    IsNumeral 10 255 (numeral 10 255) ∧ CString r 0x1000 (numeralText 10 255) ∧
    SameOutside 0x1000 ((numeralText 10 255).length + 1) (memOf []) r ∧
    ((10 : Byte) = 10 → strToUint r 0x1000 = some 255) ∧
    ((10 : Byte) = 10 ∨ (10 : Byte) = 16 → (numeralText 10 255).length + 1 ≤ 11) :=
  uintToStr_canonical (memOf []) 255 10 0x1000 (by decide) (by decide)

/-- What is promised of signed text: a minus sign if the number is negative, then
    what `uint_to_str` writes for the absolute value, all of it digits. -/
def SignedTextCorrect (m : Mem) (i : Word) (base : Byte) (buf : Word) : Prop :=
  ∃ t u r, uintToStr m (BitVec.ofNat 32 i.toInt.natAbs) base buf = some u ∧ CString u buf t ∧
    intToStr m i base buf = some r ∧
    CString r buf ((if i.slt 0 then [45] else []) ++ t) ∧ ∀ c ∈ t, DigitCharacter c

section Promise

variable (m : Mem) (base : Byte) (buf : Word) (h2 : 2 ≤ base.toNat) (h36 : base.toNat ≤ 36)

include h2 h36

/-- The promise is about two texts, one of each conversion. -/
theorem signedTextCorrect_iff_text (i : Word) : SignedTextCorrect m i base buf ↔
    intText base.toNat i
      = (if i.slt 0 then [45] else []) ++ numeralText base.toNat i.toInt.natAbs := by
  have habs : (BitVec.ofNat 32 i.toInt.natAbs).toNat = i.toInt.natAbs := by
    have hlt := i.isLt
    rw [BitVec.toNat_ofNat, BitVec.toInt_eq_toNat_cond]
    split_ifs <;> omega
  rcases uintToStr_eq m (BitVec.ofNat 32 i.toInt.natAbs) base buf h2 h36 with ⟨u, hu, hut, _⟩
  rcases intToStr_eq m i base buf h2 h36 with ⟨r, hr, hrt, _⟩
  rw [habs] at hut
  constructor
  · rintro ⟨t, u', r', hu', ht, hr', hrt', -⟩
    rw [hu, Option.some.injEq] at hu'
    rw [hr, Option.some.injEq] at hr'
    rw [← hu'] at ht
    rw [← hr', cstring_unique u buf t _ ht hut] at hrt'
    exact cstring_unique r buf _ _ hrt hrt'
  · intro h
    refine ⟨_, u, r, hu, hut, hr, h ▸ hrt, ?_⟩
    intro c hc
    rcases List.mem_map.mp hc with ⟨d, hd, rfl⟩
    exact digitChar_character d
      (Nat.lt_of_lt_of_le ((numeral_isNumeral _ _ h2).digits d hd) h36)

/-- The text of the most negative number has one character behind the sign, and
    its absolute value takes more digits than one. -/
theorem intText_intMin_ne : intText base.toNat intMin
    ≠ (if intMin.slt 0 then [45] else []) ++ numeralText base.toNat intMin.toInt.natAbs := by
  have hquot : ¬ 2 ^ 31 / base.toNat = 0 := by
    have hpos := Nat.div_pos (show base.toNat ≤ 2 ^ 31 by omega) (show 0 < base.toNat by omega)
    omega
  intro h
  have hlen := congrArg List.length h
  rw [List.length_append, length_numeralText, show intMin.toInt.natAbs = 2 ^ 31 from rfl,
    lowDigits_eq _ _ h2, if_neg hquot, lowDigits_eq _ _ h2] at hlen
  simp only [intText, if_true, show intMin.slt 0 = true from rfl, List.length_cons,
    List.length_nil] at hlen
  omega

/-- Signed text is right for every number but the most negative one. -/
theorem signedTextCorrect_iff (i : Word) : SignedTextCorrect m i base buf ↔ i ≠ intMin := by
  rw [signedTextCorrect_iff_text m base buf h2 h36]
  constructor
  · rintro htext rfl
    exact intText_intMin_ne base h2 h36 htext
  · intro hmin
    rw [intText, if_neg hmin]

end Promise

/-- Minus one is written as it should be. -/
theorem signedTextCorrect_iff_minus_one :
    SignedTextCorrect (memOf []) 0xFFFFFFFF 10 0x1000 ↔ (0xFFFFFFFF : Word) ≠ intMin :=
  signedTextCorrect_iff (memOf []) 10 0x1000 (by decide) (by decide) 0xFFFFFFFF

/-- The most negative number is not, in decimal: the text is a minus sign and an
    opening parenthesis. -/
theorem not_signedTextCorrect :
    ¬ ∀ (m : Mem) (i : Word) (base : Byte) (buf : Word), 2 ≤ base.toNat → base.toNat ≤ 36 →
      SignedTextCorrect m i base buf := by
  intro h
  have hten := h (memOf []) intMin 10 0x1000 (by decide) (by decide)
  rw [signedTextCorrect_iff_text _ _ _ (by decide) (by decide)] at hten
  exact intText_intMin_ne 10 (by decide) (by decide) hten

/-- The text of the most negative number in decimal, `-(`. -/
example : intText 10 intMin = [45, 40] := by decide

end UnixP6
