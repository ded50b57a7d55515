import UnixP6.CSemantics.Links
import UnixP6.CSemantics.Walk
import UnixP6.Theory.Fs.Tar

/-!
# The Lookup and the End of the Archive

`tar_t` carries the size of the archive, and `tar_get_file` never reads it. Only
a header without a name ends the walk, so whether it stays inside is a matter of
the bytes: of the names and the sizes that the headers state.

The walk has no state but its offset, so the headers read are the iterates of
`nextOffset`, up to the first that is empty or of the name. What has to hold of
an archive is then said header by header. A walk that never returns has to stay
inside as well: a size close to `2^32` moves it by nothing, and it reads the
same header for ever.

Containment is that of sets of addresses, which wrap as pointers do. For an
archive below the top of the address space it is that of the numbers.

## Main definitions

* `headerAt`: The offsets of the headers.
* `LookupInside`: What is read and what is reported lies in the archive.
* `HeadersInside`: The bytes that make it so.

## Theorems

* `turnsFor_headerAt`, `tarGetFile_exit`: The walk by its headers.
* `lookupInside_of_headersInside`, `headersInside_of_lookupInside`: The two directions.
* `lookupInside_iff`: The lookup stays inside on exactly these bytes.
* `lookupInside_span`: The same containment, read as numbers.
* `lookupInside_archive`: The lookup of any name stays inside a well-formed archive.
* `not_lookupInside`: Other archives are read past their end.
-/

namespace UnixP6

open CSemantics

/-- The offset of the header a number of headers on. -/
def headerAt (m : Mem) (tar : Tar) (n : Nat) : Word := (nextOffset m tar)^[n] 512

/-- Every header that the lookup reads, and the file that it reports, lie in the
    archive. -/
def LookupInside (m : Mem) (tar : Tar) (name : Word) : Prop :=
  (∀ k offset, turnsFor (tarGetFileTurn m tar name) k 512 = some offset →
      addresses (tar.ptr + offset) 512 ⊆ addresses tar.ptr tar.size.toNat) ∧
    ∀ file, tarGetFile m tar name = some file →
      addresses file.ptr file.size.toNat ⊆ addresses tar.ptr tar.size.toNat

/-- Every header behind headers of other names ends by the end of the archive,
    and if it is of the name, so does what it states to be behind it. -/
def HeadersInside (m : Mem) (tar : Tar) (name : Word) : Prop :=
  ∀ n, (∀ i < n, PassedOver m tar name (headerAt m tar i)) →
    (headerAt m tar n).toNat + 512 ≤ tar.size.toNat ∧
      (Named m tar name (headerAt m tar n) → (headerAt m tar n).toNat + 512
        + (headerSize m tar (headerAt m tar n)).toNat ≤ tar.size.toNat)

section Lookup

variable (m : Mem) (tar : Tar) (name : Word)

/-- What a turn that goes round has met. -/
theorem turn_again (offset offset' : Word)
    (h : tarGetFileTurn m tar name offset = some (.again offset')) :
    PassedOver m tar name offset ∧ offset' = nextOffset m tar offset := by
  rcases header_cases m tar name offset with hzero | hnamed | hpassed
  · rw [turn_end m tar name offset hzero] at h
    simp only [Option.some.injEq, reduceCtorEq] at h
  · rw [turn_named m tar name offset hnamed] at h
    simp only [Option.some.injEq, reduceCtorEq] at h
  · rw [turn_passedOver m tar name offset hpassed, Option.some.injEq, Turn.again.injEq] at h
    exact ⟨hpassed, h.symm⟩

/-- What a turn that leaves has met. -/
theorem turn_exit (offset : Word) (file : Tar)
    (h : tarGetFileTurn m tar name offset = some (.exit file)) :
    (m (tar.ptr + offset) = 0 ∧ file = ⟨0, 0⟩) ∨ (Named m tar name offset ∧
      file = ⟨tar.ptr + offset + 512, headerSize m tar offset⟩) := by
  rcases header_cases m tar name offset with hzero | hnamed | hpassed
  · rw [turn_end m tar name offset hzero, Option.some.injEq, Turn.exit.injEq] at h
    exact Or.inl ⟨hzero, h.symm⟩
  · rw [turn_named m tar name offset hnamed, Option.some.injEq, Turn.exit.injEq] at h
    exact Or.inr ⟨hnamed, h.symm⟩
  · rw [turn_passedOver m tar name offset hpassed] at h
    simp only [Option.some.injEq, reduceCtorEq] at h

/-- The walk reads a header after all those before it were passed over. -/
theorem turnsFor_headerAt (k : Nat) (offset : Word) :
    turnsFor (tarGetFileTurn m tar name) k 512 = some offset ↔
      (∀ i < k, PassedOver m tar name (headerAt m tar i)) ∧ offset = headerAt m tar k := by
  rw [turnsFor_iterate _ (nextOffset m tar)
    (fun a b hb => (turn_again m tar name a b hb).2) k 512 offset]
  refine and_congr_left fun _ => ⟨fun h i hi => ?_, fun h i hi => ?_⟩
  · exact (turn_again m tar name _ _ (h i hi)).1
  · exact turn_passedOver m tar name _ (h i hi)

/-- The lookup returns what the first header that is not passed over gives. -/
theorem tarGetFile_exit (file : Tar) : tarGetFile m tar name = some file ↔
    ∃ k, (∀ i < k, PassedOver m tar name (headerAt m tar i)) ∧
      tarGetFileTurn m tar name (headerAt m tar k) = some (.exit file) := by
  unfold tarGetFile
  rw [runLoop_iterate _ (nextOffset m tar) (fun a b hb => (turn_again m tar name a b hb).2)
    (turnBound + 1) (by rw [card_word]; unfold turnBound; omega) 512 file]
  refine exists_congr fun k => and_congr_left fun _ => ⟨fun h i hi => ?_, fun h i hi => ?_⟩
  · exact (turn_again m tar name _ _ (h i hi)).1
  · exact turn_passedOver m tar name _ (h i hi)

/-- What is stated to be behind a header inside lies inside if it ends there. -/
theorem contents_inside (offset size : Word) (hheader : offset.toNat + 512 ≤ tar.size.toNat) :
    addresses (tar.ptr + offset + 512) size.toNat ⊆ addresses tar.ptr tar.size.toNat ↔
      offset.toNat + 512 + size.toNat ≤ tar.size.toNat := by
  have hsize := tar.size.isLt
  have hnext : (offset + 512).toNat = offset.toNat + 512 := by
    rw [BitVec.toNat_add, show (512 : Word).toNat = 512 from rfl]
    exact Nat.mod_eq_of_lt (by omega)
  rcases Nat.eq_zero_or_pos size.toNat with hzero | hpos
  · -- An empty file lies anywhere.
    rw [hzero]
    exact iff_of_true (fun x hx => absurd (Nat.zero_le _) hx) hheader
  · rw [BitVec.add_assoc, addresses_subset_iff tar.ptr (offset + 512) _ _ hsize hpos, hnext]

theorem lookupInside_of_headersInside (h : HeadersInside m tar name) :
    LookupInside m tar name := by
  refine ⟨fun k offset hk => ?_, fun file hfile => ?_⟩
  · rcases (turnsFor_headerAt m tar name k offset).mp hk with ⟨hpassed, rfl⟩
    exact (addresses_subset_iff _ _ _ _ tar.size.isLt (by omega)).mpr (h k hpassed).1
  · rcases (tarGetFile_exit m tar name file).mp hfile with ⟨k, hpassed, hexit⟩
    rcases turn_exit m tar name _ file hexit with ⟨_, rfl⟩ | ⟨hnamed, rfl⟩
    · exact fun x hx => absurd (Nat.zero_le _) hx
    · rcases h k hpassed with ⟨hheader, hcontents⟩
      exact (contents_inside tar _ _ hheader).mpr (hcontents hnamed)

theorem headersInside_of_lookupInside (h : LookupInside m tar name) :
    HeadersInside m tar name := by
  intro n hpassed
  have hheader := h.1 n (headerAt m tar n)
    ((turnsFor_headerAt m tar name n _).mpr ⟨hpassed, rfl⟩)
  rw [addresses_subset_iff _ _ _ _ tar.size.isLt (by omega)] at hheader
  refine ⟨hheader, fun hnamed => ?_⟩
  -- A header of the name is where the walk returns.
  have hfile := h.2 _ ((tarGetFile_exit m tar name _).mpr
    ⟨n, hpassed, turn_named m tar name _ hnamed⟩)
  exact (contents_inside tar _ _ hheader).mp hfile

/-- The lookup stays inside on exactly these bytes. -/
theorem lookupInside_iff : LookupInside m tar name ↔ HeadersInside m tar name :=
  ⟨headersInside_of_lookupInside m tar name, lookupInside_of_headersInside m tar name⟩

/-- In an archive below the top of the address space, the ranges are ranges of
    numbers. -/
theorem lookupInside_span (htop : tar.ptr.toNat + tar.size.toNat ≤ 2 ^ 32) :
    LookupInside m tar name ↔
      (∀ k offset, turnsFor (tarGetFileTurn m tar name) k 512 = some offset →
          span (tar.ptr + offset).toNat 512 ⊆ span tar.ptr.toNat tar.size.toNat) ∧
        ∀ file, tarGetFile m tar name = some file →
          span file.ptr.toNat file.size.toNat ⊆ span tar.ptr.toNat tar.size.toNat := by
  have hspan := fun b k => addresses_subset_iff_span tar.ptr b tar.size.toNat k htop tar.size.isLt
  unfold LookupInside
  simp only [hspan]

end Lookup

/-! ### Well-formed archives -/

section Archive

variable (m : Mem) (tar : Tar) (name : Word) (lead : Member) (members : List Member)
  (hlead : lead.contents = []) (hlen : (archive lead members).length ≤ tar.size.toNat)
  (h : Holds m tar.ptr (archive lead members))

include hlead hlen h

/-- The headers the walk reaches are those of the members and the block of zeros. -/
theorem headerAt_archive (n : Nat) (hpassed : ∀ i < n, PassedOver m tar name (headerAt m tar i)) :
    ∃ before after, members = before ++ after ∧
      headerAt m tar n = 512 + BitVec.ofNat 32 (encodeAll before).length := by
  have hsize := tar.size.isLt
  induction n with
  | zero => exact ⟨[], members, rfl, rfl⟩
  | succ n ih =>
      rcases ih (fun i hi => hpassed i (Nat.lt_succ_of_lt hi)) with ⟨before, after, rfl, hat⟩
      have hhere := hpassed n (Nat.lt_succ_self n)
      rcases holds_behind m tar.ptr lead before after hlead h with ⟨_, hrest⟩
      rw [← hat] at hrest
      cases after with
      | nil =>
          -- The block of zeros is not passed over.
          have hzero := holds_getElem m _ _ hrest 0 (by
            rw [List.length_append, List.length_replicate]
            omega)
          rw [BitVec.add_zero] at hzero
          exact absurd hzero hhere.1
      | cons mb after =>
          rw [encodeAll_cons, List.append_assoc, holds_append] at hrest
          have hlt := contents_lt_of_archive lead (before ++ [mb]) after hlead
            (by rw [List.append_assoc]; exact hlen.trans_lt hsize) mb
            (List.mem_append_right before List.mem_cons_self)
          refine ⟨before ++ [mb], after, (List.append_assoc before [mb] after).symm, ?_⟩
          have hnext : headerAt m tar (n + 1) = nextOffset m tar (headerAt m tar n) :=
            Function.iterate_succ_apply' _ _ _
          rw [hnext, nextOffset_member m tar _ mb hrest.1 hlt, hat, add_ofNat_add, encodeAll_append,
            List.length_append, length_encodeAll_cons]
          rfl

/-- The lookup of any name stays inside an archive of a leading member without
    contents, any members and a block of zeros. -/
theorem lookupInside_archive : LookupInside m tar name := by
  have hsize := tar.size.isLt
  refine lookupInside_of_headersInside m tar name fun n hpassed => ?_
  rcases headerAt_archive m tar name lead members hlead hlen h n hpassed with
    ⟨before, after, rfl, hat⟩
  rw [length_archive lead before after hlead] at hlen
  have hoffset : (headerAt m tar n).toNat = 512 + (encodeAll before).length := by
    rw [hat]
    bv_omega
  refine ⟨by omega, fun hnamed => ?_⟩
  rcases holds_behind m tar.ptr lead before after hlead h with ⟨_, hrest⟩
  rw [← hat] at hrest
  cases after with
  | nil =>
      have hzero := holds_getElem m _ _ hrest 0 (by
        rw [List.length_append, List.length_replicate]
        omega)
      rw [BitVec.add_zero] at hzero
      exact absurd hzero hnamed.1
  | cons mb after =>
      -- The contents of a member lie in its encoding.
      rw [encodeAll_cons, List.append_assoc, holds_append] at hrest
      rw [length_encodeAll_cons, length_encode] at hlen
      have hstated : (headerSize m tar (headerAt m tar n)).toNat = mb.contents.length := by
        rw [headerSize, tarGetSize_header m mb _ hrest.1, BitVec.toNat_ofNat]
        exact Nat.mod_eq_of_lt (by omega)
      omega

end Archive

/-- An archive of one block has no second header, and a header that states more
    than there is reports it. -/
theorem not_lookupInside :
    ¬ LookupInside (fun _ => 0) ⟨0, 512⟩ 0 ∧ ¬ LookupInside (fun _ => 49) ⟨0, 1024⟩ 512 := by
  refine ⟨fun h => ?_, fun h => ?_⟩
  · have hheader := (headersInside_of_lookupInside _ _ _ h 0
      (fun i hi => absurd hi (Nat.not_lt_zero i))).1
    exact absurd hheader (by decide)
  · have hcontents := (headersInside_of_lookupInside _ _ _ h 0
      (fun i hi => absurd hi (Nat.not_lt_zero i))).2
    -- The name looked up is the one in the header.
    exact absurd (hcontents ⟨by decide, rfl⟩) (by decide)

end UnixP6
