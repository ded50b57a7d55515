import UnixP6.Core.Copy
import Mathlib.Tactic.LinearCombination

/-!
# The Unrolled Copy Against the Plain One

`tfastcpy` copies bytes upwards like `tmemcpy`, but not as many. Its units are
so many bytes as `unitCount` says, and for the rest it starts over in the middle
of the last unit and goes on up to and including the byte at `s`. So there is a
last byte it writes, and behind that write the two buffers agree there. A plain
copy makes them agree at no offset from `s` on, whatever memory holds, unless the
buffers are the two halves of the address space.

What is left are sizes that the units fill, with a source that ends where the
address space does, so that the loop over bytes sees nothing left to do.

## Main definitions

* `unitCount`: The units that are copied.
* `Fills`: A size that the units fill.
* `CopyAgrees`: What is promised of `tfastcpy`.

## Theorems

* `copyBytes_add`, `copyBytes_last`, `copyBytes_apply`: Copying upwards.
* `units_loop`, `tail_loop`: What the two loops copy.
* `tfastcpy_eq`: What `tfastcpy` copies.
* `agree_last`: At the last byte written the buffers agree.
* `halves_of_agree`: Behind the size a plain copy does not make them agree.
* `tfastcpy_iff`: When `tfastcpy` is `tmemcpy`.
* `not_copyAgrees`: Sizes for which it is not.
-/

namespace UnixP6

open CSemantics

/-! ### Copying upwards -/

section Plain

variable (m : Mem) (dst src : Word)

theorem copyBytes_zero : copyBytes m dst src 0 = m := by
  rw [copyBytes, Nat.fold_zero]

theorem copyBytes_succ (n : Nat) : copyBytes m dst src (n + 1)
    = (copyBytes m dst src n).store8 (dst + BitVec.ofNat 32 n)
        (copyBytes m dst src n (src + BitVec.ofNat 32 n)) := by
  rw [copyBytes, Nat.fold_succ]
  rfl

theorem copyBytes_one : copyBytes m dst src 1 = m.store8 dst (m src) := by
  have hzero : ∀ a : Word, a + BitVec.ofNat 32 0 = a := BitVec.add_zero
  rw [copyBytes_succ, copyBytes_zero, hzero, hzero]

/-- A copy in two parts. -/
theorem copyBytes_add (n k : Nat) : copyBytes m dst src (n + k)
    = copyBytes (copyBytes m dst src n) (dst + BitVec.ofNat 32 n) (src + BitVec.ofNat 32 n) k := by
  induction k with
  | zero => rw [copyBytes_zero, Nat.add_zero]
  | succ k ih =>
      rw [← Nat.add_assoc, copyBytes_succ, copyBytes_succ, ih, add_ofNat_add, add_ofNat_add]

/-- The last byte copied is the same in both places. -/
theorem copyBytes_last (n : Nat) (hne : dst ≠ src) :
    copyBytes m dst src (n + 1) (dst + BitVec.ofNat 32 n)
      = copyBytes m dst src (n + 1) (src + BitVec.ofNat 32 n) := by
  rw [copyBytes_succ, Mem.store8_self, Mem.store8_ne _ _ _ _ (by bv_omega)]

/-- Bytes that agree already are not changed. -/
theorem copyBytes_same (n : Nat)
    (h : ∀ i < n, m (dst + BitVec.ofNat 32 i) = m (src + BitVec.ofNat 32 i)) :
    copyBytes m dst src n = m := by
  induction n with
  | zero => exact copyBytes_zero m dst src
  | succ n ih =>
      rw [copyBytes_succ, ih (fun i hi => h i (Nat.lt_succ_of_lt hi))]
      funext x
      by_cases hx : x = dst + BitVec.ofNat 32 n
      · rw [hx, Mem.store8_self, h n (Nat.lt_succ_self n)]
      · rw [Mem.store8_ne _ _ _ _ hx]

/-- A copy between buffers that share no byte, byte by byte. -/
theorem copyBytes_apply (n : Nat) (hapart : Apart dst n src n) (x : Word) :
    copyBytes m dst src n x = if (x - dst).toNat < n then m (src + (x - dst)) else m x := by
  -- So many bytes of the buffers as have been copied share none with the others.
  have hpart : ∀ k ≤ n, ∀ x, copyBytes m dst src k x
      = if (x - dst).toNat < k then m (src + (x - dst)) else m x := by
    intro k
    induction k with
    | zero =>
        intro _ x
        rw [copyBytes_zero, if_neg (Nat.not_lt_zero _)]
    | succ k ih =>
        intro hk x
        rcases hapart with ⟨hbelow, habove⟩
        rw [copyBytes_succ]
        by_cases hx : x = dst + BitVec.ofNat 32 k
        · have hoff := (eq_add_ofNat_iff x dst k (by omega)).mp hx
          have hsource : x - dst = BitVec.ofNat 32 k := by bv_omega
          rw [hx, Mem.store8_self, ← hx, if_pos (by omega), hsource, ih (by omega),
            if_neg (by bv_omega)]
        · have hoff : (x - dst).toNat ≠ k :=
            fun hc => hx ((eq_add_ofNat_iff x dst k (by omega)).mpr hc)
          rw [Mem.store8_ne _ _ _ _ hx, ih (by omega)]
          by_cases hlt : (x - dst).toNat < k
          · rw [if_pos hlt, if_pos (by omega)]
          · rw [if_neg hlt, if_neg (by omega)]
  exact hpart n (Nat.le_refl n) x

end Plain

/-! ### The units and the bytes behind them -/

/-- The units that are copied: those of the first turn, and eight for each of the
    other turns. With no unit in the size there are as many turns as words. -/
def unitCount (s : Word) : Nat :=
  let si := (s.toNat / 32 + 7) / 8
  (if si % 8 = 0 then 8 else si % 8) + 8 * ((if si = 0 then 2 ^ 32 else si) - 1)

theorem unitCount_pos (s : Word) : 0 < unitCount s := by
  have hentry : ∀ si : Nat, 0 < if si % 8 = 0 then 8 else si % 8 := by
    intro si
    split_ifs <;> omega
  exact Nat.add_pos_left (hentry _) _

/-- The state with so many bytes copied in whole units. -/
def unitsDone (m : Mem) (dst src : Word) (k : Nat) : Copying :=
  ⟨dst - 32 + BitVec.ofNat 32 (32 * k), src - 32 + BitVec.ofNat 32 (32 * k),
    copyBytes m dst src (32 * k)⟩

/-- A pointer one unit below where it copies to next. -/
theorem unit_below (a : Word) (n : Nat) :
    a - 32 + BitVec.ofNat 32 n = a + BitVec.ofNat 32 n - 32 := by
  bv_omega

theorem unit_behind (a : Word) (n : Nat) (hn : 31 ≤ n) :
    a - 32 + BitVec.ofNat 32 n + 1 = a + BitVec.ofNat 32 (n - 31) := by
  have hsplit : BitVec.ofNat 32 n = BitVec.ofNat 32 (n - 31) + BitVec.ofNat 32 31 := by
    rw [← BitVec.ofNat_add, Nat.sub_add_cancel hn]
  rw [hsplit]
  generalize BitVec.ofNat 32 (n - 31) = b
  bv_omega

/-- The last of the bytes behind the units is the one at the size. -/
theorem tail_index (src s : Word) (n c : Nat) (hn : 31 ≤ n)
    (hc : (src + s).toNat - (src + BitVec.ofNat 32 n - 32).toNat = c + 1) (a : Word) :
    a + BitVec.ofNat 32 (n - 31) + BitVec.ofNat 32 c = a + s := by
  have hsplit : BitVec.ofNat 32 n = BitVec.ofNat 32 (n - 31) + BitVec.ofNat 32 31 := by
    rw [← BitVec.ofNat_add, Nat.sub_add_cancel hn]
  -- What the pointer lacks leads to the end of the source.
  have hend : ∀ x y : Word, x.toNat - y.toNat = c + 1 → x = y + BitVec.ofNat 32 c + 1 := by
    intro x y h
    bv_omega
  have hsum := hend _ _ hc
  rw [hsplit, show BitVec.ofNat 32 31 = (32 : Word) - 1 from rfl] at hsum
  linear_combination (-1 : Word) * hsum

section Units

variable (m : Mem) (dst src : Word)

theorem copyUnit_unitsDone (k : Nat) :
    copyUnit (unitsDone m dst src k) = unitsDone m dst src (k + 1) := by
  have hnext : ∀ a : Word, a - 32 + BitVec.ofNat 32 (32 * k) + 32
      = a - 32 + BitVec.ofNat 32 (32 * (k + 1)) := fun a => by bv_omega
  have hat : ∀ a : Word, a - 32 + BitVec.ofNat 32 (32 * k) + 32
      = a + BitVec.ofNat 32 (32 * k) := fun a => by bv_omega
  unfold copyUnit unitsDone
  rw [Nat.mul_succ, copyBytes_add, hat, hat, ← Nat.mul_succ, ← hnext, ← hnext, hat, hat]

theorem copyUnits_unitsDone (j k : Nat) :
    copyUnits j (unitsDone m dst src k) = unitsDone m dst src (k + j) := by
  induction j generalizing k with
  | zero => rfl
  | succ j ih => rw [copyUnits, copyUnit_unitsDone, ih, Nat.add_assoc, Nat.add_comm 1 j]

/-- The turns that are left when the count is so much: one less, or if it is zero,
    as many as there are words. -/
theorem units_loop (n : Nat) :
    ∀ (si : Word) (k fuel : Nat), (si - 1).toNat = n → n < fuel →
      runLoop tfastcpyTurn fuel (si, unitsDone m dst src k)
        = some (unitsDone m dst src (k + 8 * n)) := by
  induction n with
  | zero =>
      intro si k fuel hsi hfuel
      rcases Nat.exists_eq_add_of_lt hfuel with ⟨j, rfl⟩
      refine runLoop_exit _ _ _ _ ?_
      have hzero : ¬ 0 < si - 1 := by rw [BitVec.lt_def, hsi]; exact Nat.lt_irrefl _
      rw [tfastcpyTurn, if_neg hzero]
      rfl
  | succ n ih =>
      intro si k fuel hsi hfuel
      rcases Nat.exists_eq_add_of_lt (Nat.zero_lt_of_lt hfuel) with ⟨j, rfl⟩
      have hmore : 0 < si - 1 := by rw [BitVec.lt_def, hsi]; exact Nat.succ_pos n
      have hturn : tfastcpyTurn (si, unitsDone m dst src k)
          = some (.again (si - 1, unitsDone m dst src (k + 8))) := by
        rw [tfastcpyTurn, if_pos hmore, copyUnits_unitsDone]
      rw [runLoop_again _ _ _ _ hturn, ih (si - 1) (k + 8) _ (by bv_omega) (by omega), Nat.mul_succ,
        Nat.add_assoc, Nat.add_comm 8]

/-- The loop over bytes copies as many as the pointer lacks to the end. -/
theorem tail_loop (sa : Word) (n : Nat) :
    ∀ (d s : Word) (m : Mem) (fuel : Nat), sa.toNat - s.toNat = n → n < fuel →
      runLoop (tfastcpyTailTurn sa) fuel ⟨d, s, m⟩ = some (copyBytes m (d + 1) (s + 1) n) := by
  induction n with
  | zero =>
      intro d s m fuel hs hfuel
      rcases Nat.exists_eq_add_of_lt hfuel with ⟨j, rfl⟩
      have hend : ¬ s < sa := by rw [BitVec.lt_def]; omega
      rw [copyBytes_zero]
      exact runLoop_exit _ _ _ _ (by rw [tfastcpyTailTurn, if_neg hend])
  | succ n ih =>
      intro d s m fuel hs hfuel
      rcases Nat.exists_eq_add_of_lt (Nat.zero_lt_of_lt hfuel) with ⟨j, rfl⟩
      have hmore : s < sa := by rw [BitVec.lt_def]; omega
      rw [runLoop_again _ _ _ _ (by rw [tfastcpyTailTurn, if_pos hmore]),
        ih (d + 1) (s + 1) _ _ (by bv_omega) (by omega), Nat.add_comm n 1, copyBytes_add,
        copyBytes_one]
      rfl

/-- What `tfastcpy` copies: its units, and from the second byte of the last of
    them on what the pointer lacks to the end. -/
theorem tfastcpy_eq (s : Word) : tfastcpy m dst src s
    = some (copyBytes (copyBytes m dst src (32 * unitCount s))
        (dst + BitVec.ofNat 32 (32 * unitCount s - 31))
        (src + BitVec.ofNat 32 (32 * unitCount s - 31))
        ((src + s).toNat - (src + BitVec.ofNat 32 (32 * unitCount s) - 32).toNat)) := by
  have hsi : ((s / 32 + 7) / 8 : Word).toNat = (s.toNat / 32 + 7) / 8 := by
    rw [BitVec.toNat_udiv, BitVec.toNat_add, BitVec.toNat_udiv]
    have hs := s.isLt
    rw [show (32 : Word).toNat = 32 from rfl, show (7 : Word).toNat = 7 from rfl,
      show (8 : Word).toNat = 8 from rfl]
    omega
  have hzero : ∀ si : Word, si % 8 = 0 ↔ si.toNat % 8 = 0 := by
    intro si
    rw [← BitVec.toNat_inj, BitVec.toNat_umod]
    rfl
  have hstart : (⟨dst - 32, src - 32, m⟩ : Copying) = unitsDone m dst src 0 := by
    unfold unitsDone
    rw [Nat.mul_zero, copyBytes_zero]
    exact congrArg₂ (fun a b => Copying.mk a b m) (BitVec.add_zero _).symm (BitVec.add_zero _).symm
  unfold tfastcpy
  dsimp only
  generalize hword : (s / 32 + 7) / 8 = si at hsi
  have hcount : unitCount s
      = (if si % 8 = 0 then 8 else (si % 8).toNat) + 8 * (si - 1).toNat := by
    have hlast : (si - 1).toNat = (if si.toNat = 0 then 2 ^ 32 else si.toNat) - 1 := by
      split_ifs <;> bv_omega
    unfold unitCount
    rw [← hsi, hlast, BitVec.toNat_umod]
    simp only [hzero]
    rfl
  have hpos := unitCount_pos s
  rw [hstart, copyUnits_unitsDone, Nat.zero_add, units_loop m dst src (si - 1).toNat si _ _ rfl
    (by have hlt := (si - 1).isLt; unfold turnBound; omega), ← hcount, Option.bind_some, unitsDone,
    tail_loop _ _ _ _ _ _ rfl (by have hlt := (src + s).isLt; unfold turnBound; omega)]
  rw [unit_behind _ _ (by omega), unit_behind _ _ (by omega), unit_below]

end Units

/-! ### When the copies agree -/

/-- A size of whole units of which as many are copied: the number of units leaves
    the remainder modulo eight that the number of turns leaves. -/
def Fills (s : Word) : Prop :=
  32 ≤ s.toNat ∧ s.toNat % 32 = 0 ∧ s.toNat / 32 % 8 = (s.toNat / 32 + 7) / 8 % 8

theorem fills_iff (s : Word) : Fills s ↔ 32 * unitCount s = s.toNat := by
  have hs := s.isLt
  unfold Fills unitCount
  dsimp only
  split_ifs <;> omega

/-- Without a unit in the size the whole address space is gone over 256 times. -/
theorem unitCount_small (s : Word) (h : s.toNat < 32) : unitCount s = 2 ^ 35 := by
  unfold unitCount
  rw [show s.toNat / 32 = 0 by omega]
  rfl

/-- With one the units end behind the size at most by seven. -/
theorem unitCount_le (s : Word) (h : 32 ≤ s.toNat) : unitCount s ≤ (s.toNat / 32 + 7) / 8 * 8 := by
  unfold unitCount
  dsimp only
  split_ifs <;> omega

section Agree

variable (dst src s : Word) (hapart : Apart dst s.toNat src s.toNat)

/-- What is promised of `tfastcpy`: whatever memory holds, it returns and leaves
    what `tmemcpy` leaves, the bytes copied and no other one changed. -/
def CopyAgrees : Prop :=
  ∀ m, ∃ r, tfastcpy m dst src s = some r ∧ r = tmemcpy m dst src s ∧
    (∀ i < s.toNat, r (dst + BitVec.ofNat 32 i) = m (src + BitVec.ofNat 32 i)) ∧
    SameOutside dst s.toNat m r

include hapart

theorem tmemcpy_apply (m : Mem) (x : Word) : tmemcpy m dst src s x
    = if (x - dst).toNat < s.toNat then m (src + (x - dst)) else m x :=
  copyBytes_apply m dst src s.toNat hapart x

/-- The promise is that of the plain copy. -/
theorem copyAgrees_iff_tmemcpy : CopyAgrees dst src s ↔
    ∀ m, tfastcpy m dst src s = some (tmemcpy m dst src s) := by
  constructor
  · intro h m
    rcases h m with ⟨r, hrun, hr, -⟩
    rw [hrun, hr]
  · intro h m
    refine ⟨_, h m, rfl, fun i hi => ?_, fun x hx => ?_⟩
    · have hoff : dst + BitVec.ofNat 32 i - dst = BitVec.ofNat 32 i := by bv_omega
      rw [tmemcpy_apply dst src s hapart, hoff, if_pos (by bv_omega)]
    · rw [tmemcpy_apply dst src s hapart, if_neg (Nat.not_lt.mpr hx)]

omit hapart in
/-- At the last byte written the buffers agree. -/
theorem agree_last (hne : dst ≠ src) (h : ∀ m, tfastcpy m dst src s = some (tmemcpy m dst src s)) :
    ∃ j : Word, (∀ m, tmemcpy m dst src s (dst + j) = tmemcpy m dst src s (src + j)) ∧
      (j = s ∨ j = BitVec.ofNat 32 (32 * unitCount s) - 1 ∧
        (src + s).toNat ≤ (src + BitVec.ofNat 32 (32 * unitCount s) - 32).toNat) := by
  simp only [tfastcpy_eq, Option.some.injEq] at h
  have hlong : 32 ≤ 32 * unitCount s := Nat.mul_le_mul_left 32 (unitCount_pos s)
  generalize 32 * unitCount s = n at h hlong ⊢
  rcases Nat.eq_zero_or_pos ((src + s).toNat - (src + BitVec.ofNat 32 n - 32).toNat) with
    hnone | hsome
  · -- The last byte is that of the last unit.
    rcases Nat.exists_eq_add_of_le' (Nat.le_trans (by decide : 1 ≤ 32) hlong) with ⟨k, rfl⟩
    have hindex : BitVec.ofNat 32 (k + 1) - 1 = BitVec.ofNat 32 k := by
      rw [BitVec.ofNat_add]
      exact BitVec.add_sub_cancel _ _
    refine ⟨BitVec.ofNat 32 k, fun m => ?_, Or.inr ⟨hindex.symm, Nat.sub_eq_zero_iff_le.mp hnone⟩⟩
    have hlast := copyBytes_last m dst src k hne
    have hm := h m
    rw [hnone, copyBytes_zero] at hm
    rw [hm] at hlast
    exact hlast
  · -- The last byte is the one the loop over bytes ends with.
    rcases Nat.exists_eq_add_of_le' hsome with ⟨k, hk⟩
    have hindex := tail_index src s n k (by omega) hk
    refine ⟨s, fun m => ?_, Or.inl rfl⟩
    have hlast := copyBytes_last (copyBytes m dst src n) (dst + BitVec.ofNat 32 (n - 31))
      (src + BitVec.ofNat 32 (n - 31)) k (fun hc => hne ((BitVec.add_left_inj _).mp hc))
    have hm := h m
    rw [hk] at hm
    rw [hm, hindex, hindex] at hlast
    exact hlast

/-- At an offset behind the size a plain copy makes the buffers agree only if they
    are the halves of the address space. -/
theorem halves_of_agree (hne : dst ≠ src) (j : Word) (hj : s.toNat ≤ j.toNat)
    (h : ∀ m, tmemcpy m dst src s (dst + j) = tmemcpy m dst src s (src + j)) :
    2 ^ 31 ≤ j.toNat ∧ j.toNat < s.toNat + 2 ^ 31 := by
  -- The byte at the offset in the destination is the only one that is not zero.
  have hone := h fun x => if x = dst + j then 1 else 0
  have hoff : dst + j - dst = j := by bv_omega
  rw [tmemcpy_apply dst src s hapart, tmemcpy_apply dst src s hapart, hoff,
    if_neg (Nat.not_lt.mpr hj), if_pos rfl, if_neg (show ¬ src + j = dst + j by bv_omega)] at hone
  rcases hapart with ⟨hbelow, habove⟩
  by_cases hinside : (src + j - dst).toNat < s.toNat
  · rw [if_pos hinside] at hone
    by_cases hsource : src + (src + j - dst) = dst + j
    · bv_omega
    · rw [if_neg hsource] at hone
      exact absurd hone (by decide)
  · rw [if_neg hinside] at hone
    exact absurd hone (by decide)

/-- Units that end before the size, with nothing done behind them, leave a byte. -/
theorem uncovered_of_agree (hne : dst ≠ src) (n : Nat) (hn : n < s.toNat) :
    ¬ ∀ m, copyBytes m dst src n = tmemcpy m dst src s := by
  intro h
  have hlt := s.isLt
  have hpart : Apart dst n src n :=
    ⟨Nat.le_trans hn.le hapart.1, Nat.le_trans hn.le hapart.2⟩
  have hoff : dst + BitVec.ofNat 32 n - dst = BitVec.ofNat 32 n := by bv_omega
  have hindex : (BitVec.ofNat 32 n).toNat = n := by
    rw [BitVec.toNat_ofNat]
    omega
  -- The byte at that offset in the source is the only one that is not zero.
  have hone := congrFun (h fun x => if x = src + BitVec.ofNat 32 n then 1 else 0)
    (dst + BitVec.ofNat 32 n)
  rw [copyBytes_apply _ _ _ _ hpart, tmemcpy_apply dst src s hapart, hoff, hindex,
    if_neg (Nat.lt_irrefl n), if_pos hn, if_pos rfl,
    if_neg (fun hc => hne ((BitVec.add_left_inj _).mp hc))] at hone
  exact absurd hone (by decide)

/-- Buffers that share no byte have half the address space each at most. -/
theorem size_le_half : s.toNat ≤ 2 ^ 31 := by
  rcases hapart with ⟨hbelow, habove⟩
  bv_omega

/-- If the copies agree the buffers are halves of the address space, or the units
    fill the size and nothing is done behind them. -/
theorem size_of_agree (hne : dst ≠ src)
    (h : ∀ m, tfastcpy m dst src s = some (tmemcpy m dst src s)) :
    s.toNat = 2 ^ 31 ∨ Fills s ∧ (src + s).toNat < 32 := by
  by_cases hfull : s.toNat = 2 ^ 31
  · exact Or.inl hfull
  · refine Or.inr ?_
    have hhalf := Nat.lt_of_le_of_ne (size_le_half dst src s hapart) hfull
    rcases agree_last dst src s hne h with ⟨j, hagree, hj⟩
    have hbehind := halves_of_agree dst src s hapart hne j
    rcases hj with rfl | ⟨rfl, hnone⟩
    · -- The byte at the size is one too many.
      exact absurd (hbehind (Nat.le_refl _) hagree).1 (by omega)
    · by_cases hsmall : s.toNat < 32
      · -- The units go round the whole address space.
        rw [unitCount_small s hsmall] at hbehind hagree
        exact absurd (hbehind (Nat.le_of_lt (Nat.lt_of_lt_of_le hsmall (by decide))) hagree).2
          (Nat.not_lt.mpr (Nat.le_trans (Nat.add_le_add_right hsmall.le _) (by decide)))
      · have hcount := unitCount_le s (by omega)
        have hpos := unitCount_pos s
        have hunits : ∀ m, copyBytes m dst src (32 * unitCount s) = tmemcpy m dst src s := by
          intro m
          have hm := h m
          rw [tfastcpy_eq, Nat.sub_eq_zero_of_le hnone, copyBytes_zero, Option.some.injEq] at hm
          exact hm
        have hnot := uncovered_of_agree dst src s hapart hne (32 * unitCount s)
        rw [fills_iff]
        generalize unitCount s = k at *
        have hindex : (BitVec.ofNat 32 (32 * k) - 1).toNat = 32 * k - 1 := by bv_omega
        have hfills : 32 * k = s.toNat := by
          rcases Nat.lt_trichotomy (32 * k) s.toNat with hless | heq | hmore
          · exact absurd hunits (hnot hless)
          · exact heq
          · -- The last byte of the units is behind the size.
            exact absurd (hbehind (by omega) hagree).1 (by omega)
        refine ⟨hfills, ?_⟩
        rw [hfills, BitVec.ofNat_toNat, BitVec.setWidth_eq] at hnone
        bv_omega

/-- Halves of the address space are copied, whatever is copied twice. -/
theorem agree_of_half (hfull : s.toNat = 2 ^ 31) (m : Mem) :
    tfastcpy m dst src s = some (tmemcpy m dst src s) := by
  have hs : s = 0x80000000 := BitVec.eq_of_toNat_eq hfull
  subst hs
  have hother : dst = src + 0x80000000 := by
    rcases hapart with ⟨hbelow, habove⟩
    bv_omega
  have hcount : 32 * unitCount 0x80000000 = 2 ^ 31 := by decide
  rw [hfull] at hapart
  rw [tfastcpy_eq, hcount]
  -- What is copied once more is there already, up to the byte at the size.
  rw [copyBytes_same, tmemcpy]
  · rfl
  · intro i hi
    have hless : ∀ x : Word, x.toNat - (x - 32).toNat ≤ 32 := fun x => by bv_omega
    have hi' : i < 32 := Nat.lt_of_lt_of_le hi (hless (src + 0x80000000))
    rw [add_ofNat_add, add_ofNat_add, copyBytes_apply _ _ _ _ hapart,
      copyBytes_apply _ _ _ _ hapart, hother]
    generalize hj : BitVec.ofNat 32 (2 ^ 31 - 31 + i) = j
    have hindex : j.toNat = 2 ^ 31 - 31 + i := by
      rw [← hj, BitVec.toNat_ofNat]
      omega
    have hdst : src + 0x80000000 + j - (src + 0x80000000) = j := by bv_omega
    have hsrc : (src + j - (src + 0x80000000)) = j + 0x80000000 := by bv_omega
    rw [hdst, hsrc]
    by_cases hlow : j.toNat < 2 ^ 31
    · rw [if_pos hlow, if_neg (by bv_omega)]
    · -- The first byte of the destination has been copied from that of the source.
      rw [if_neg hlow, if_pos (by bv_omega), BitVec.add_assoc, BitVec.add_comm j]

omit hapart in
/-- A size that the units fill, with nothing done behind them. -/
theorem agree_of_fills (hfills : Fills s) (hend : (src + s).toNat < 32) (m : Mem) :
    tfastcpy m dst src s = some (tmemcpy m dst src s) := by
  have hnone : (src + s).toNat ≤ (src + s - 32).toNat := by bv_omega
  rw [tfastcpy_eq, (fills_iff s).mp hfills, BitVec.ofNat_toNat, BitVec.setWidth_eq,
    Nat.sub_eq_zero_of_le hnone, copyBytes_zero]
  rfl

/-- `tfastcpy` is `tmemcpy` for one buffer, for halves of the address space, and for
    a size that the units fill with a source at the end of the address space. -/
theorem tfastcpy_iff : CopyAgrees dst src s ↔
    dst = src ∨ s.toNat = 2 ^ 31 ∨ Fills s ∧ (src + s).toNat < 32 := by
  rw [copyAgrees_iff_tmemcpy dst src s hapart]
  constructor
  · intro h
    by_cases hne : dst = src
    · exact Or.inl hne
    · exact Or.inr (size_of_agree dst src s hapart hne h)
  · rintro (rfl | hfull | ⟨hfills, hend⟩) m
    · rw [tfastcpy_eq, copyBytes_same _ _ _ _ (fun _ _ => rfl),
        copyBytes_same _ _ _ _ (fun _ _ => rfl), tmemcpy, copyBytes_same _ _ _ _ (fun _ _ => rfl)]
    · exact agree_of_half dst src s hapart hfull m
    · exact agree_of_fills dst src s hfills hend m

end Agree

/-- One unit to the start of memory, from a source that ends where memory does. -/
theorem tfastcpy_iff_top : CopyAgrees 0 0xFFFFFFE0 32 ↔
    (0 : Word) = 0xFFFFFFE0 ∨ (32 : Word).toNat = 2 ^ 31 ∨
      Fills 32 ∧ (0xFFFFFFE0 + 32 : Word).toNat < 32 :=
  tfastcpy_iff 0 0xFFFFFFE0 32 (by unfold Apart; decide)

/-- Not so of one unit in the middle of memory, nor of nothing at all. -/
theorem not_copyAgrees : ¬ CopyAgrees 0x1000 0x2000 32 ∧ ¬ CopyAgrees 0x1000 0x2000 0 := by
  have hno : ∀ s : Word, Apart 0x1000 s.toNat 0x2000 s.toNat → s.toNat ≠ 2 ^ 31 →
      ¬ (Fills s ∧ (0x2000 + s : Word).toNat < 32) → ¬ CopyAgrees 0x1000 0x2000 s := by
    intro s hapart hhalf hfills h
    rw [copyAgrees_iff_tmemcpy _ _ _ hapart] at h
    rcases size_of_agree 0x1000 0x2000 s hapart (by decide) h with hs | hs
    · exact hhalf hs
    · exact hfills hs
  exact ⟨hno 32 (by unfold Apart; decide) (by decide) (by unfold Fills; decide),
    hno 0 (by unfold Apart; decide) (by decide) (by unfold Fills; decide)⟩

end UnixP6
