import UnixP6.CSemantics.Loop
import UnixP6.CSemantics.Memory

/-!
# Memory and String Tools

The functions of `tools/t_mem.c` and `tools/t_sai.c` that the rest of the
kernel calls on raw memory: fills and copies by byte and by word, and the
comparisons of memory and of strings.

A `for` loop whose index is as wide as its bound runs exactly that often and is
a `Nat.fold`. `tmemcpyw` is not such a loop: its index is a `uint16_t` and its
bound a `uint32_t`, so it is a `runLoop` over the sixteen-bit index, and past
65535 words it never ends. A loop that looks for the terminator of a string is
one too, since there need not be any.

## Main definitions

* `turnBound`: How many turns a loop over an address is given.
* `tmemset`, `tmemsetw`, `tmemsetd`: Filling bytes and words.
* `tmemcpyw`, `tmemcpyd`: Copying 16-bit and 32-bit words.
* `tmemcpydInv`: Reversing an array of 32-bit words.
* `copyBytes`, `tmemcpy`: Copying bytes.
* `tmemcmp`: Comparing memory.
* `strncmp`, `strncmpReads`: Comparing strings within a bound, and what is read.
* `strlen`, `strcmp`, `checkEqOfStrings`: Strings up to their terminators.

## Theorems

* `tmemset_apply`: A fill, byte by byte.
* `tmemset_far`: A fill leaves the bytes outside its range alone.
-/

namespace UnixP6

open CSemantics

/-- The turns given to a loop whose control is one address. An address takes
    `2^32` values, so a loop still going by then comes back to where it was. -/
def turnBound : Nat := 4294967296

/-- `tmemset`: every byte of the range takes one value. -/
def tmemset (m : Mem) (ptr : Word) (n : Byte) (size : Word) : Mem :=
  size.toNat.fold (fun i _ m => m.store8 (ptr + BitVec.ofNat 32 i) n) m

/-- `tmemsetw`: every 16-bit word of the range takes one value. -/
def tmemsetw (m : Mem) (ptr : Word) (n : Half) (size : Word) : Mem :=
  size.toNat.fold (fun i _ m => m.store16 (ptr + BitVec.ofNat 32 (2 * i)) n) m

/-- `tmemsetd`: every 32-bit word of the range takes one value. -/
def tmemsetd (m : Mem) (ptr n size : Word) : Mem :=
  size.toNat.fold (fun i _ m => m.store32 (ptr + BitVec.ofNat 32 (4 * i)) n) m

/-- One turn of `tmemcpyw`: the index is sixteen bits wide, the bound is not. -/
def tmemcpywTurn (dest src n : Word) (s : Half × Mem) : Option (Turn (Half × Mem) Mem) :=
  if s.1.toNat < n.toNat then
    let offset : Word := BitVec.ofNat 32 (2 * s.1.toNat)
    some (.again (s.1 + 1, s.2.store16 (dest + offset) (s.2.load16 (src + offset))))
  else some (.exit s.2)

/-- `tmemcpyw`: copy words upwards, one at a time. The index takes 65536
    values, so a longer copy than that goes round for ever. -/
def tmemcpyw (m : Mem) (dest src n : Word) : Option Mem :=
  runLoop (tmemcpywTurn dest src n) 65537 (0, m)

/-- `tmemcpyd`: copy double words upwards, with an index as wide as the count. -/
def tmemcpyd (m : Mem) (dest src n : Word) : Mem :=
  n.toNat.fold (fun i _ m =>
    m.store32 (dest + BitVec.ofNat 32 (4 * i)) (m.load32 (src + BitVec.ofNat 32 (4 * i)))) m

/-- One turn of `tmemcpyd_inv`, over `start` and `end`, which are of type `int`,
    and the memory: the double words at the two are exchanged. -/
def tmemcpydInvTurn (arr : Word) (s : Word × Word × Mem) :
    Option (Turn (Word × Word × Mem) Mem) :=
  if s.1.slt s.2.1 then
    let temp := s.2.2.load32 (arr + s.1 * 4)
    let m := s.2.2.store32 (arr + s.1 * 4) (s.2.2.load32 (arr + s.2.1 * 4))
    some (.again (s.1 + 1, s.2.1 - 1, m.store32 (arr + s.2.1 * 4) temp))
  else some (.exit s.2.2)

/-- `tmemcpyd_inv`, whose `end` starts at the count. -/
def tmemcpydInv (m : Mem) (arr n : Word) : Option Mem :=
  runLoop (tmemcpydInvTurn arr) (turnBound + 1) (0, n, m)

/-- Bytes copied upwards, one at a time. -/
def copyBytes (m : Mem) (dest src : Word) (n : Nat) : Mem :=
  n.fold (fun i _ m => m.store8 (dest + BitVec.ofNat 32 i) (m (src + BitVec.ofNat 32 i))) m

/-- `tmemcpy`. -/
def tmemcpy (m : Mem) (dest src n : Word) : Mem := copyBytes m dest src n.toNat

/-- `tmemcmp` from index `i` on, with `k` bytes left. -/
def tmemcmpFrom (m : Mem) (s1 s2 : Word) : Nat → Nat → Int
  | 0, _ => 0
  | k + 1, i =>
    let a := m (s1 + BitVec.ofNat 32 i)
    let b := m (s2 + BitVec.ofNat 32 i)
    if a < b then -1 else if b < a then 1 else tmemcmpFrom m s1 s2 k (i + 1)

/-- `tmemcmp`. -/
def tmemcmp (m : Mem) (s1 s2 n : Word) : Int := tmemcmpFrom m s1 s2 n.toNat 0

/-- `strncmp` from index `i` on, with `k` bytes left to the bound. -/
def strncmpFrom (m : Mem) (s1 s2 : Word) : Nat → Nat → Int
  | 0, _ => 0
  | k + 1, i =>
    let a := m (s1 + BitVec.ofNat 32 i)
    let b := m (s2 + BitVec.ofNat 32 i)
    if a ≠ 0 ∧ b ≠ 0 then
      -- Both strings go on, so only a difference stops the loop.
      if a ≠ b then (a.toNat : Int) - b.toNat else strncmpFrom m s1 s2 k (i + 1)
    else if a ≠ b then (a.toNat : Int) - b.toNat else 0

/-- `strncmp`: the loop stops at a terminator of either string, at a
    difference, or at the bound, and the bytes it stopped at decide. -/
def strncmp (m : Mem) (s1 s2 n : Word) : Int :=
  strncmpFrom m s1 s2 n.toNat 0

/-- The indices at which `strncmp` reads its strings, from index `i` on. The loop
    reads the second one only if the first goes on, and what follows the loop
    reads both, so they are read at the same indices. -/
def strncmpReads (m : Mem) (s1 s2 : Word) : Nat → Nat → List Nat
  | 0, _ => []
  | k + 1, i =>
    let a := m (s1 + BitVec.ofNat 32 i)
    let b := m (s2 + BitVec.ofNat 32 i)
    i :: if a ≠ 0 ∧ b ≠ 0 then if a ≠ b then [] else strncmpReads m s1 s2 k (i + 1) else []

/-- One turn of `strlen`: the character the pointer has come to, and the count. -/
def strlenTurn (m : Mem) (s : Word × Word) : Option (Turn (Word × Word) Word) :=
  if m s.1 ≠ 0 then some (.again (s.1 + 1, s.2 + 1)) else some (.exit s.2)

/-- `strlen`. -/
def strlen (m : Mem) (str : Word) : Option Word :=
  runLoop (strlenTurn m) (turnBound + 1) (str, 0)

/-- One turn of `strcmp`. What is returned at a difference is that of the two
    pointers, not of the two characters. -/
def strcmpTurn (m : Mem) (s : Word × Word) : Option (Turn (Word × Word) Word) :=
  if m s.1 ≠ 0 ∧ m s.2 ≠ 0 then
    if m s.1 ≠ m s.2 then some (.exit (s.1 - s.2)) else some (.again (s.1 + 1, s.2 + 1))
  else some (.exit 0)

/-- `strcmp`. -/
def strcmp (m : Mem) (str1 str2 : Word) : Option Word :=
  runLoop (strcmpTurn m) (turnBound + 1) (str1, str2)

/-- `check_eq_of_strings`. -/
def checkEqOfStrings (m : Mem) (s1 s2 : Word) : Option Bool :=
  (strcmp m s1 s2).bind fun r =>
    if r = 0 then (strlen m s1).bind fun a => (strlen m s2).map fun b => decide (a = b)
    else some false

/-- Offsets from a common base agree exactly when the addresses do. -/
theorem eq_add_ofNat_iff (x p : Word) (k : Nat) (hk : k < 2 ^ 32) :
    x = p + BitVec.ofNat 32 k ↔ (x - p).toNat = k := by
  constructor
  · intro h
    rw [h, BitVec.add_comm, BitVec.add_sub_cancel, BitVec.toNat_ofNat]
    omega
  · intro h
    rw [← h]
    bv_omega

/-- A fill, byte by byte: the addresses within its range hold the value. -/
theorem tmemset_apply (m : Mem) (ptr : Word) (n : Byte) (size x : Word) :
    tmemset m ptr n size x = if (x - ptr).toNat < size.toNat then n else m x := by
  have hfold : ∀ k, k ≤ 2 ^ 32 →
      (k.fold (fun i _ m => Mem.store8 m (ptr + BitVec.ofNat 32 i) n) m) x
        = if (x - ptr).toNat < k then n else m x := by
    intro k
    induction k with
    | zero => intro _; rw [Nat.fold_zero, if_neg (Nat.not_lt_zero _)]
    | succ j ih =>
        intro hj
        rw [Nat.fold_succ]
        by_cases hx : x = ptr + BitVec.ofNat 32 j
        · have hoff := (eq_add_ofNat_iff x ptr j (by omega)).mp hx
          rw [hx, Mem.store8_self, ← hx, if_pos (by omega)]
        · have hoff : (x - ptr).toNat ≠ j :=
            fun hc => hx ((eq_add_ofNat_iff x ptr j (by omega)).mpr hc)
          rw [Mem.store8_ne _ _ _ _ hx, ih (by omega)]
          by_cases hlt : (x - ptr).toNat < j
          · rw [if_pos hlt, if_pos (by omega)]
          · rw [if_neg hlt, if_neg (by omega)]
  exact hfold size.toNat (by omega)

theorem tmemset_far (m : Mem) (ptr : Word) (n : Byte) (size x : Word)
    (h : Far ptr size.toNat x) : tmemset m ptr n size x = m x := by
  rw [tmemset_apply, if_neg (Nat.not_lt.mpr h)]

end UnixP6
