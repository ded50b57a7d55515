import UnixP6.Theory.Fs.Bounds

/-!
# The Lookup and the Sizes in the Archive

Whether the walk of `tar_get_file` comes to an end. Each header states a size,
eleven characters that decode to any word at all, and the walk goes on behind
as many blocks. The sum is taken modulo `2^32`, so a size near the top moves the
walk backwards, or not at all.

Laid end to end as numbers the members either fit below `2^32` or they do not.
As long as they fit the sum is exact, every step is past a header and its
contents, and the offsets run out. At the first member that does not fit the
step falls short of its contents, whatever the size.

## Main definitions

* `wholeBlocks`: A size filled up to whole blocks.
* `memberAt`: Where the members start, as numbers.
* `Progresses`: The walk moves past each member, and ends.
* `MembersFit`: The bytes that make it so.

## Theorems

* `toNat_nextOffset`: Where a step lands.
* `stepFits_iff`: A step past the contents is a step that does not wrap.
* `headerAt_memberAt`: Below the top the offsets are those of the members.
* `progresses_iff`: The walk progresses on exactly these bytes.
* `not_progresses`: A size that moves the walk by nothing.
-/

namespace UnixP6

open CSemantics

/-- A size filled up to whole blocks. -/
def wholeBlocks (size : Nat) : Nat := (size + 511) / 512 * 512

/-- The members one after another, as numbers: each starts where the header of
    the one before it and its whole blocks end. -/
def memberAt (m : Mem) (tar : Tar) : Nat → Nat
  | 0 => 512
  | n + 1 => memberAt m tar n + 512
      + wholeBlocks (headerSize m tar (BitVec.ofNat 32 (memberAt m tar n))).toNat

/-- Every step of the walk is past the header and what it states to be behind
    it, the offsets only rise, and the walk ends. -/
structure Progresses (m : Mem) (tar : Tar) (name : Word) : Prop where
  step : ∀ k offset offset', turnsFor (tarGetFileTurn m tar name) k 512 = some offset →
    tarGetFileTurn m tar name offset = some (.again offset') →
      offset.toNat + 512 + (headerSize m tar offset).toNat ≤ offset'.toNat
  rises : ∀ j k a b, j < k → turnsFor (tarGetFileTurn m tar name) j 512 = some a →
    turnsFor (tarGetFileTurn m tar name) k 512 = some b → a.toNat < b.toNat
  ends : ∃ file, tarGetFile m tar name = some file

/-- As long as the members are of other names, the next one starts below
    `2^32`. -/
def MembersFit (m : Mem) (tar : Tar) (name : Word) : Prop :=
  ∀ n, (∀ i ≤ n, PassedOver m tar name (BitVec.ofNat 32 (memberAt m tar i))) →
    memberAt m tar (n + 1) < 2 ^ 32

/-- A header and its whole blocks end below `2^32`. -/
def StepFits (m : Mem) (tar : Tar) (offset : Word) : Prop :=
  offset.toNat + 512 + wholeBlocks (headerSize m tar offset).toNat < 2 ^ 32

section Steps

variable (m : Mem) (tar : Tar) (name offset : Word)

/-- A step is the header and its whole blocks, modulo `2^32`. -/
theorem toNat_nextOffset : (nextOffset m tar offset).toNat
    = (offset.toNat + 512 + wholeBlocks (headerSize m tar offset).toNat) % 2 ^ 32 := by
  unfold nextOffset wholeBlocks
  generalize headerSize m tar offset = size
  have hdiv : (size / 512).toNat = size.toNat / 512 := BitVec.toNat_udiv
  have hmod : (size % 512).toNat = size.toNat % 512 := BitVec.toNat_umod
  generalize size / 512 = blocks at hdiv ⊢
  generalize size % 512 = last at hmod ⊢
  by_cases hfull : last = 0
  · rw [if_neg (not_not.mpr hfull)]
    rw [hfull, toNat_word_zero] at hmod
    bv_omega
  · have hpos : last.toNat ≠ 0 := fun hc => hfull (BitVec.eq_of_toNat_eq hc)
    rw [if_pos hfull]
    bv_omega

/-- A step is past the contents exactly if it does not wrap. -/
theorem stepFits_iff : offset.toNat + 512 + (headerSize m tar offset).toNat
    ≤ (nextOffset m tar offset).toNat ↔ StepFits m tar offset := by
  have hoffset := offset.isLt
  have hsize := (headerSize m tar offset).isLt
  rw [toNat_nextOffset]
  unfold StepFits wholeBlocks
  omega

/-- As long as nothing wraps the headers are where the members are. -/
theorem headerAt_memberAt (n : Nat) (hfits : ∀ i < n, StepFits m tar (headerAt m tar i)) :
    (headerAt m tar n).toNat = memberAt m tar n := by
  induction n with
  | zero => rfl
  | succ n ih =>
      have hhere := ih (fun i hi => hfits i (Nat.lt_succ_of_lt hi))
      have hlast := hfits n (Nat.lt_succ_self n)
      have hat : BitVec.ofNat 32 (memberAt m tar n) = headerAt m tar n := by
        rw [← hhere, BitVec.ofNat_toNat, BitVec.setWidth_eq]
      have hnext : headerAt m tar (n + 1) = nextOffset m tar (headerAt m tar n) :=
        Function.iterate_succ_apply' _ _ _
      unfold StepFits at hlast
      rw [hnext, toNat_nextOffset, Nat.mod_eq_of_lt hlast, memberAt, hat, hhere]

theorem memberAt_lt (j k : Nat) (h : j < k) : memberAt m tar j < memberAt m tar k := by
  induction k with
  | zero => exact absurd h (Nat.not_lt_zero j)
  | succ k ih =>
      rw [memberAt]
      rcases Nat.lt_succ_iff_lt_or_eq.mp h with hlt | rfl
      · have hbelow := ih hlt
        omega
      · omega

/-- Each member takes a block at least. -/
theorem le_memberAt (n : Nat) : 512 * (n + 1) ≤ memberAt m tar n := by
  induction n with
  | zero => exact Nat.le_refl 512
  | succ n ih =>
      rw [memberAt]
      omega

end Steps

section Progress

variable (m : Mem) (tar : Tar) (name : Word)

/-- The same bytes, header by header: where the walk goes on, it does not wrap. -/
theorem membersFit_iff : MembersFit m tar name ↔
    ∀ n, (∀ i ≤ n, PassedOver m tar name (headerAt m tar i)) →
      StepFits m tar (headerAt m tar n) := by
  -- Up to a header before which nothing wraps, headers and members agree.
  have hat : ∀ n, (∀ i < n, StepFits m tar (headerAt m tar i)) →
      ∀ i ≤ n, BitVec.ofNat 32 (memberAt m tar i) = headerAt m tar i := by
    intro n hfits i hi
    have hhere := headerAt_memberAt m tar i (fun j hj => hfits j (Nat.lt_of_lt_of_le hj hi))
    rw [← hhere, BitVec.ofNat_toNat, BitVec.setWidth_eq]
  constructor
  · intro h n
    induction n using Nat.strong_induction_on with
    | _ n ih =>
        intro hpassed
        have hbefore : ∀ i < n, StepFits m tar (headerAt m tar i) := fun i hi =>
          ih i hi (fun j hj => hpassed j (Nat.le_trans hj (Nat.le_of_lt hi)))
        have hnext := h n (fun i hi => (hat n hbefore i hi).symm ▸ hpassed i hi)
        rw [memberAt, hat n hbefore n (Nat.le_refl n), ← headerAt_memberAt m tar n hbefore] at hnext
        exact hnext
  · intro h n hpassed
    have hall : ∀ k, k ≤ n → StepFits m tar (headerAt m tar k) := by
      intro k
      induction k using Nat.strong_induction_on with
      | _ k ih =>
          intro hk
          have hbefore : ∀ i < k, StepFits m tar (headerAt m tar i) := fun i hi =>
            ih i hi (Nat.le_trans (Nat.le_of_lt hi) hk)
          exact h k (fun i hi => hat k hbefore i hi ▸ hpassed i (Nat.le_trans hi hk))
    have hnext := headerAt_memberAt m tar (n + 1) (fun i hi => hall i (Nat.le_of_lt_succ hi))
    rw [← hnext]
    exact (headerAt m tar (n + 1)).isLt

section Fit

variable (h : ∀ n, (∀ i ≤ n, PassedOver m tar name (headerAt m tar i)) →
  StepFits m tar (headerAt m tar n))

include h

/-- The offsets a walk has passed are those of the members. -/
theorem memberAt_of_turnsFor (k : Nat) (offset : Word)
    (hk : turnsFor (tarGetFileTurn m tar name) k 512 = some offset) :
    offset.toNat = memberAt m tar k := by
  rcases (turnsFor_headerAt m tar name k offset).mp hk with ⟨hpassed, rfl⟩
  exact headerAt_memberAt m tar k (fun i hi =>
    h i (fun j hj => hpassed j (Nat.lt_of_le_of_lt hj hi)))

/-- Members that fit run out: some header is not passed over. -/
theorem tarGetFile_ends : ∃ file, tarGetFile m tar name = some file := by
  by_contra hnone
  -- A header that is not passed over would end the walk.
  have hall : ∀ n, PassedOver m tar name (headerAt m tar n) := by
    intro n
    induction n using Nat.strong_induction_on with
    | _ n ih =>
        rcases header_cases m tar name (headerAt m tar n) with hzero | hnamed | hpassed
        · exact absurd ⟨_, (tarGetFile_exit m tar name _).mpr
            ⟨n, ih, turn_end m tar name _ hzero⟩⟩ hnone
        · exact absurd ⟨_, (tarGetFile_exit m tar name _).mpr
            ⟨n, ih, turn_named m tar name _ hnamed⟩⟩ hnone
        · exact hpassed
  have hlt : ∀ n, memberAt m tar n < 2 ^ 32 := by
    intro n
    rw [← headerAt_memberAt m tar n (fun i _ => h i (fun j _ => hall j))]
    exact (headerAt m tar n).isLt
  exact absurd (Nat.lt_of_le_of_lt (le_memberAt m tar _) (hlt (2 ^ 32))) (by decide)

theorem progresses_of_fits : Progresses m tar name where
  step k offset offset' hk hturn := by
    rcases (turnsFor_headerAt m tar name k offset).mp hk with ⟨hpassed, rfl⟩
    rcases turn_again m tar name _ _ hturn with ⟨hhere, hnext⟩
    rw [hnext]
    refine (stepFits_iff m tar _).mpr (h k fun i hi => ?_)
    rcases Nat.lt_or_eq_of_le hi with hlt | rfl
    · exact hpassed i hlt
    · exact hhere
  rises j k a b hjk hj hk := by
    rw [memberAt_of_turnsFor m tar name h j a hj, memberAt_of_turnsFor m tar name h k b hk]
    exact memberAt_lt m tar j k hjk
  ends := tarGetFile_ends m tar name h

end Fit

theorem fits_of_progresses (h : Progresses m tar name) (n : Nat)
    (hpassed : ∀ i ≤ n, PassedOver m tar name (headerAt m tar i)) :
    StepFits m tar (headerAt m tar n) :=
  (stepFits_iff m tar _).mp (h.step n _ _
    ((turnsFor_headerAt m tar name n _).mpr ⟨fun i hi => hpassed i (Nat.le_of_lt hi), rfl⟩)
    (turn_passedOver m tar name _ (hpassed n (Nat.le_refl n))))

/-- The walk progresses on exactly these bytes. -/
theorem progresses_iff : Progresses m tar name ↔ MembersFit m tar name := by
  rw [membersFit_iff]
  exact ⟨fits_of_progresses m tar name, progresses_of_fits m tar name⟩

end Progress

/-- A header at 512 whose name is `3` and whose size field reads `37777777000`,
    with the empty name to look up at zero. -/
def standingArchive : Mem := fun a =>
  if a = 512 ∨ a = 636 then 51
  else if 636 < a ∧ a < 644 then 55
  else if 644 ≤ a ∧ a < 647 then 48
  else 0

/-- Behind that header comes the same header again. -/
theorem not_progresses : ¬ Progresses standingArchive ⟨0, 1024⟩ 0 := by
  intro h
  have hfits := fits_of_progresses _ _ _ h 0 (fun i hi => by
    rw [Nat.le_zero.mp hi]
    exact ⟨by decide, by decide⟩)
  exact absurd hfits (by unfold StepFits; decide)

end UnixP6
