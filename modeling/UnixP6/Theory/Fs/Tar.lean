import UnixP6.Core.Tar
import UnixP6.Theory.Tools.Strings
import Mathlib.Tactic.Ring

/-!
# Looking a File up in the Ramdisk

A tar archive as a list of members, and what `tar_get_file` finds in it. A
member carries the facts that make its header well formed, so an archive is any
list of members. The walk needs one lemma for each way a turn can go, each
about the header it stands on, and the rest is an induction over the members
that are passed over.

The offsets are kept as words throughout: the length of a member is added
modulo `2^32` on both sides, and only the bound on the whole archive says that
nothing wraps.

## Main definitions

* `octalDigits`, `octalValue`: Numbers written in octal.
* `octalField`: The number a field of octal digits writes.
* `Member`: A member of an archive.
* `Member.encode`, `archive`: Their layouts.
* `Named`, `PassedOver`: What a header is to the walk.
* `nextOffset`: Where the walk goes on from a header.

## Theorems

* `tarGetSize_digits`: Decoding a size field of octal digits.
* `tarGetSize_exact`: Decoding undoes encoding.
* `turn_end`, `turn_named`, `turn_passedOver`: What the walk does at a header.
* `turn_match`, `turn_skip`: What it does at a member.
* `tarGetFile_skip`: Members of other names are passed over.
* `tarGetFile_exact`: The first member of the name is found, exactly.
-/

namespace UnixP6

open CSemantics

/-! ### Octal -/

/-- The last `k` octal digits of a number, most significant first. -/
def octalDigits : Nat → Nat → List Nat
  | 0, _ => []
  | k + 1, v => octalDigits k (v / 8) ++ [v % 8]

/-- The number the digits write. -/
def octalValue (ds : List Nat) : Nat := ds.foldl (fun v d => 8 * v + d) 0

/-- The character of a digit. -/
def octalChar (d : Nat) : Byte := BitVec.ofNat 8 (48 + d)

theorem length_octalDigits (k v : Nat) : (octalDigits k v).length = k := by
  induction k generalizing v with
  | zero => rfl
  | succ k ih => rw [octalDigits, List.length_append, ih, List.length_singleton]

theorem octalDigits_lt (k v : Nat) : ∀ d ∈ octalDigits k v, d < 8 := by
  induction k generalizing v with
  | zero => exact fun d hd => absurd hd List.not_mem_nil
  | succ k ih =>
      intro d hd
      rw [octalDigits, List.mem_append, List.mem_singleton] at hd
      rcases hd with hd | rfl
      · exact ih (v / 8) d hd
      · exact Nat.mod_lt v (by omega)

theorem octalValue_octalDigits (k v : Nat) : octalValue (octalDigits k v) = v % 8 ^ k := by
  induction k generalizing v with
  | zero => rw [Nat.pow_zero, Nat.mod_one]; rfl
  | succ k ih =>
      -- The last digit is split off, as it was put on.
      have hlast :
          octalValue (octalDigits (k + 1) v) = 8 * octalValue (octalDigits k (v / 8)) + v % 8 := by
        unfold octalValue
        rw [octalDigits, List.foldl_append]
        rfl
      rw [hlast, ih, Nat.pow_succ, Nat.mul_comm (8 ^ k) 8, Nat.mod_mul, Nat.add_comm]

theorem octalValue_cons (d : Nat) (ds : List Nat) :
    octalValue (d :: ds) = d * 8 ^ ds.length + octalValue ds := by
  -- What stands in front is carried along as the start of the sum.
  have hfrom : ∀ (ds : List Nat) (a : Nat),
      ds.foldl (fun v d => 8 * v + d) a = a * 8 ^ ds.length + octalValue ds := by
    intro ds
    induction ds with
    | nil => exact fun a => (by rw [List.length_nil, Nat.pow_zero, Nat.mul_one]; rfl)
    | cons d ds ih =>
        intro a
        have hhead : octalValue (d :: ds) = (8 * 0 + d) * 8 ^ ds.length + octalValue ds :=
          ih (8 * 0 + d)
        rw [List.foldl_cons, ih, hhead, List.length_cons, Nat.pow_succ]
        ring
  exact (hfrom ds (8 * 0 + d)).trans (by rw [Nat.mul_zero, Nat.zero_add])

theorem octalChar_value (d : Nat) (hd : d < 8) :
    (octalChar d).signExtend 32 - 48 = BitVec.ofNat 32 d := by
  -- Eight digits, so all of them are tried.
  have hall : ∀ d : Fin 8, (octalChar d.val).signExtend 32 - 48 = BitVec.ofNat 32 d.val := by decide
  exact hall ⟨d, hd⟩

/-- Decoding a field of eleven octal digits gives their value modulo `2^32`. -/
theorem tarGetSize_digits (m : Mem) (inp : Word) (ds : List Nat) (hlen : ds.length = 11)
    (hlt : ∀ d ∈ ds, d < 8) (h : Holds m inp (ds.map octalChar)) :
    tarGetSize m inp = BitVec.ofNat 32 (octalValue ds) := by
  -- After `k` turns the last `k` digits have been added up.
  have hfold : ∀ k, k ≤ 11 → Nat.fold k (fun i _ (s : Word × Word) =>
      (s.1 + ((m (inp + BitVec.ofNat 32 (10 - i))).signExtend 32 - 48) * s.2, s.2 * 8)) (0, 1)
        = (BitVec.ofNat 32 (octalValue (ds.drop (11 - k))), BitVec.ofNat 32 (8 ^ k)) := by
    intro k
    induction k with
    | zero =>
        intro _
        rw [Nat.fold_zero, Nat.sub_zero, List.drop_eq_nil_of_le (by omega)]
        rfl
    | succ k ih =>
        intro hk
        have hi : 10 - k < ds.length := by omega
        have hbyte := holds_getElem m inp _ h (10 - k) (by rw [List.length_map]; exact hi)
        rw [List.getElem_map] at hbyte
        -- The walk goes from the last character to the first.
        have hdrop : ds.drop (11 - (k + 1)) = ds[10 - k] :: ds.drop (11 - k) := by
          rw [show 11 - (k + 1) = 10 - k by omega, List.drop_eq_getElem_cons hi,
            show 10 - k + 1 = 11 - k by omega]
        have hvalue : octalValue (ds.drop (11 - (k + 1)))
            = ds[10 - k] * 8 ^ k + octalValue (ds.drop (11 - k)) := by
          rw [hdrop, octalValue_cons, List.length_drop, show ds.length - (11 - k) = k by omega]
        rw [Nat.fold_succ, ih (by omega), hbyte, octalChar_value _ (hlt _ (List.getElem_mem hi)),
          hvalue, Nat.pow_succ, Nat.add_comm, BitVec.ofNat_add, BitVec.ofNat_mul, BitVec.ofNat_mul]
        rfl
  unfold tarGetSize
  rw [hfold 11 (Nat.le_refl 11), Nat.sub_self, List.drop_zero]

-- The digits are known by their lemmas; eleven of them written out are slow to compare.
attribute [irreducible] octalDigits

/-- A byte is the character of an octal digit. -/
def IsOctal (b : Byte) : Prop := 48 ≤ b.toNat ∧ b.toNat < 56

/-- The number a field of octal digits writes. -/
def octalField (field : List Byte) : Nat := octalValue (field.map fun b => b.toNat - 48)

/-- Such a field is made of the characters of its digits. -/
theorem map_octalChar (field : List Byte) (h : ∀ b ∈ field, IsOctal b) :
    (field.map fun b => b.toNat - 48).map octalChar = field := by
  rw [List.map_map]
  refine (List.map_congr_left fun b hb => ?_).trans (List.map_id field)
  rcases h b hb with ⟨hlow, _⟩
  unfold octalChar
  rw [Function.comp_apply, show 48 + (b.toNat - 48) = b.toNat by omega, BitVec.ofNat_toNat,
    BitVec.setWidth_eq]
  rfl

/-- The digits of a number, filled up with zeros to eleven, give the number. -/
theorem tarGetSize_octalDigits (m : Mem) (inp : Word) (v : Nat) (hv : v < 8 ^ 11)
    (h : Holds m inp ((octalDigits 11 v).map octalChar)) :
    tarGetSize m inp = BitVec.ofNat 32 v := by
  rw [tarGetSize_digits m inp _ (length_octalDigits 11 v) (octalDigits_lt 11 v) h,
    octalValue_octalDigits, Nat.mod_eq_of_lt hv]

/-- Any eleven digits give what they write modulo `2^32`. -/
theorem tarGetSize_field (m : Mem) (inp : Word) (field : List Byte) (hlen : field.length = 11)
    (hoctal : ∀ b ∈ field, IsOctal b) (h : Holds m inp field) :
    (tarGetSize m inp).toNat = octalField field % 2 ^ 32 := by
  have hdigits : ∀ d ∈ field.map fun b => b.toNat - 48, d < 8 := by
    intro d hd
    rcases List.mem_map.mp hd with ⟨b, hb, rfl⟩
    rcases hoctal b hb with ⟨_, hhigh⟩
    omega
  have hcount : (field.map fun b => b.toNat - 48).length = 11 := by rw [List.length_map, hlen]
  rw [← map_octalChar field hoctal] at h
  have hdecoded := tarGetSize_digits m inp _ hcount hdigits h
  rw [hdecoded, BitVec.toNat_ofNat]
  rfl

/-- Decoding undoes encoding: the digits of a word, filled up with zeros to
    eleven, give the word whatever the last byte of the field is, and any eleven
    digits give what they write modulo `2^32`. -/
theorem tarGetSize_exact :
    (∀ (m : Mem) (inp v : Word) (last : Byte),
      Holds m inp ((octalDigits 11 v.toNat).map octalChar ++ [last]) → tarGetSize m inp = v) ∧
    ∀ (m : Mem) (inp : Word) (field : List Byte), field.length = 11 → (∀ b ∈ field, IsOctal b) →
      Holds m inp field → (tarGetSize m inp).toNat = octalField field % 2 ^ 32 :=
  ⟨fun m inp v last h => by
    -- A word has at most eleven octal digits.
    have hroom : v.toNat < 8 ^ 11 := lt_trans v.isLt (by decide)
    have hdigits := ((holds_append m inp _ [last]).mp h).1
    rw [tarGetSize_octalDigits m inp v.toNat hroom hdigits, BitVec.ofNat_toNat, BitVec.setWidth_eq],
    tarGetSize_field⟩

/-- The largest field, `77777777777`, which does not fit in a word, and the
    largest word. -/
theorem tarGetSize_exact_largest :
    tarGetSize (memOf ((octalDigits 11 4294967295).map octalChar ++ [32])) 0 = 4294967295 ∧
      (tarGetSize (memOf (List.replicate 11 55)) 0).toNat = 4294967295 :=
  ⟨tarGetSize_exact.1 _ 0 4294967295 32 (holds_memOf _ (by
      rw [List.length_append, List.length_map, length_octalDigits]
      decide)),
    (tarGetSize_exact.2 _ 0 (List.replicate 11 55) (by decide)
      (fun b hb => by rw [List.eq_of_mem_replicate hb]; exact ⟨by decide, by decide⟩)
      (holds_memOf _ (by decide))).trans (by decide)⟩

/-! ### Archives -/

/-- A member of an archive: its name and contents, and what else is in its
    header, before and after the digits of the size. -/
structure Member where
  name : List Byte
  owners : List Byte
  rest : List Byte
  contents : List Byte
  name_ne : name ≠ []
  name_le : name.length ≤ 100
  name_bytes : ∀ b ∈ name, b ≠ 0
  owners_length : owners.length = 24
  rest_length : rest.length = 377
  contents_lt : contents.length < 8 ^ 11

namespace Member

/-- The size field, without its last byte. -/
def sizeField (mb : Member) : List Byte := (octalDigits 11 mb.contents.length).map octalChar

/-- The name field. -/
def nameField (mb : Member) : List Byte := mb.name ++ List.replicate (100 - mb.name.length) 0

/-- The header block. -/
def header (mb : Member) : List Byte := mb.nameField ++ (mb.owners ++ (mb.sizeField ++ mb.rest))

/-- The zeros that fill up the last block of the contents. -/
def padding (mb : Member) : List Byte := List.replicate ((512 - mb.contents.length % 512) % 512) 0

def encode (mb : Member) : List Byte := mb.header ++ (mb.contents ++ mb.padding)

end Member

/-- The members one after another. -/
def encodeAll (members : List Member) : List Byte := (members.map Member.encode).flatten

/-- A leading member, the members, and a block of zeros. -/
def archive (lead : Member) (members : List Member) : List Byte :=
  lead.encode ++ (encodeAll members ++ List.replicate 512 0)

theorem length_nameField (mb : Member) : mb.nameField.length = 100 := by
  have hle := mb.name_le
  unfold Member.nameField
  rw [List.length_append, List.length_replicate]
  omega

theorem length_header (mb : Member) : mb.header.length = 512 := by
  unfold Member.header Member.sizeField
  rw [List.length_append, List.length_append, List.length_append, length_nameField, List.length_map,
    length_octalDigits, mb.owners_length, mb.rest_length]

theorem length_encode (mb : Member) :
    mb.encode.length = 512 + (mb.contents.length + (512 - mb.contents.length % 512) % 512) := by
  unfold Member.encode Member.padding
  rw [List.length_append, List.length_append, length_header, List.length_replicate]

theorem length_encodeAll_cons (mb : Member) (members : List Member) :
    (encodeAll (mb :: members)).length = mb.encode.length + (encodeAll members).length := by
  unfold encodeAll
  rw [List.map_cons, List.flatten_cons, List.length_append]

/-! ### One header -/

section Header

variable (m : Mem) (mb : Member) (th : Word) (h : Holds m th mb.encode)

include h

theorem holds_contents : Holds m (th + 512) mb.contents := by
  unfold Member.encode at h
  rw [holds_append, holds_append, length_header] at h
  exact h.2.1

/-- The name in the header. -/
theorem readString_name : readString m 100 th = mb.name := by
  unfold Member.encode Member.header Member.nameField at h
  rw [holds_append, holds_append, holds_append] at h
  rw [readString_of_holds m 100 th mb.name mb.name_bytes h.1.1.1, List.take_of_length_le mb.name_le]
  -- A name of less than 100 bytes is followed by a zero.
  intro hlt
  have hzero := holds_getElem m _ _ h.1.1.2 0 (by rw [List.length_replicate]; omega)
  rw [List.getElem_replicate, BitVec.add_zero] at hzero
  exact hzero

theorem name_ne_zero : m th ≠ 0 := by
  have hname := readString_name m mb th h
  intro hzero
  rw [readString, if_pos hzero] at hname
  exact mb.name_ne hname.symm

/-- The size in the header. -/
theorem tarGetSize_header :
    tarGetSize m (th + tarSizeOffset) = BitVec.ofNat 32 mb.contents.length := by
  have hsize : Holds m (th + tarSizeOffset) mb.sizeField := by
    unfold Member.encode Member.header at h
    rw [holds_append, holds_append, holds_append, holds_append, length_nameField, mb.owners_length,
      add_ofNat_add] at h
    exact h.1.2.2.1
  exact tarGetSize_octalDigits m _ _ mb.contents_lt hsize

end Header

/-! ### One turn -/

/-- The size that the header at an offset states. -/
def headerSize (m : Mem) (tar : Tar) (offset : Word) : Word :=
  tarGetSize m (tar.ptr + offset + tarSizeOffset)

/-- The header at an offset has a name, and it is the one looked up as far as a
    name field goes. -/
def Named (m : Mem) (tar : Tar) (name offset : Word) : Prop :=
  m (tar.ptr + offset) ≠ 0 ∧ readString m 100 (tar.ptr + offset) = readString m 100 name

/-- It has a name, and it is another one. -/
def PassedOver (m : Mem) (tar : Tar) (name offset : Word) : Prop :=
  m (tar.ptr + offset) ≠ 0 ∧ readString m 100 (tar.ptr + offset) ≠ readString m 100 name

/-- Where the walk goes on from a header: behind it and the blocks of its size. -/
def nextOffset (m : Mem) (tar : Tar) (offset : Word) : Word :=
  if headerSize m tar offset % 512 ≠ 0 then
    offset + (headerSize m tar offset / 512 + 1) * 512 + 512
  else offset + (headerSize m tar offset / 512 + 1) * 512

section Turns

variable (m : Mem) (tar : Tar) (name offset : Word)

/-- At the end of the archive the walk reports nothing. -/
theorem turn_end (hzero : m (tar.ptr + offset) = 0) :
    tarGetFileTurn m tar name offset = some (.exit ⟨0, 0⟩) := by
  unfold tarGetFileTurn
  rw [if_pos hzero]

theorem strncmp_name (a : Word) :
    strncmp m a name 100 = 0 ↔ readString m 100 a = readString m 100 name :=
  strncmp_eq_zero m a name 100

/-- At a header of the name the walk reports what is behind it. -/
theorem turn_named (h : Named m tar name offset) : tarGetFileTurn m tar name offset
    = some (.exit ⟨tar.ptr + offset + 512, headerSize m tar offset⟩) := by
  unfold tarGetFileTurn
  rw [if_neg h.1, if_pos ((strncmp_name m name _).mpr h.2)]
  rfl

/-- At any other header the walk goes on. -/
theorem turn_passedOver (h : PassedOver m tar name offset) :
    tarGetFileTurn m tar name offset = some (.again (nextOffset m tar offset)) := by
  unfold tarGetFileTurn
  rw [if_neg h.1, if_neg (fun hc => h.2 ((strncmp_name m name _).mp hc))]
  rfl

/-- There is no other kind of header. -/
theorem header_cases :
    m (tar.ptr + offset) = 0 ∨ Named m tar name offset ∨ PassedOver m tar name offset := by
  by_cases hzero : m (tar.ptr + offset) = 0
  · exact Or.inl hzero
  · by_cases hname : readString m 100 (tar.ptr + offset) = readString m 100 name
    · exact Or.inr (Or.inl ⟨hzero, hname⟩)
    · exact Or.inr (Or.inr ⟨hzero, hname⟩)

end Turns

section Member

variable (m : Mem) (tar : Tar) (name offset : Word) (mb : Member)
  (h : Holds m (tar.ptr + offset) mb.encode)

include h

/-- Behind a member comes what is behind its encoding. -/
theorem nextOffset_member (hlt : mb.contents.length < 2 ^ 32) :
    nextOffset m tar offset = offset + BitVec.ofNat 32 mb.encode.length := by
  have hdiv : (BitVec.ofNat 32 mb.contents.length / 512).toNat = mb.contents.length / 512 := by
    rw [BitVec.toNat_udiv, BitVec.toNat_ofNat, Nat.mod_eq_of_lt hlt]
    rfl
  have hmod : (BitVec.ofNat 32 mb.contents.length % 512).toNat = mb.contents.length % 512 := by
    rw [BitVec.toNat_umod, BitVec.toNat_ofNat, Nat.mod_eq_of_lt hlt]
    rfl
  unfold nextOffset headerSize
  rw [tarGetSize_header m mb _ h, length_encode]
  -- From here on only the sizes in blocks matter.
  generalize BitVec.ofNat 32 mb.contents.length / 512 = blocks at hdiv
  generalize BitVec.ofNat 32 mb.contents.length % 512 = last at hmod
  by_cases hfull : last = 0
  · simp only [hfull, ne_eq, not_true_eq_false, if_false]
    rw [hfull, toNat_word_zero] at hmod
    bv_omega
  · have hpos : last.toNat ≠ 0 := fun hc => hfull (BitVec.eq_of_toNat_eq hc)
    simp only [hfull, ne_eq, not_false_eq_true, if_true]
    bv_omega

variable (nm : List Byte) (hname : CString m name nm)

include hname

theorem readString_header :
    readString m 100 (tar.ptr + offset) = readString m 100 name ↔ mb.name = nm.take 100 := by
  rw [readString_name m mb _ h, readString_of_cstring m 100 name nm hname]

/-- At a member of the name the walk reports its contents. -/
theorem turn_match (hmatch : mb.name = nm.take 100) :
    tarGetFileTurn m tar name offset
      = some (.exit ⟨tar.ptr + offset + 512, BitVec.ofNat 32 mb.contents.length⟩) := by
  rw [turn_named m tar name offset ⟨name_ne_zero m mb _ h,
    (readString_header m tar name offset mb h nm hname).mpr hmatch⟩, headerSize,
    tarGetSize_header m mb _ h]

/-- At any other member the walk goes on behind its contents. -/
theorem turn_skip (hother : mb.name ≠ nm.take 100) (hlt : mb.contents.length < 2 ^ 32) :
    tarGetFileTurn m tar name offset
      = some (.again (offset + BitVec.ofNat 32 mb.encode.length)) := by
  rw [turn_passedOver m tar name offset ⟨name_ne_zero m mb _ h,
    fun hc => hother ((readString_header m tar name offset mb h nm hname).mp hc)⟩,
    nextOffset_member m tar offset mb h hlt]

end Member

/-! ### The walk -/

theorem length_le_encodeAll (members : List Member) :
    members.length ≤ (encodeAll members).length := by
  induction members with
  | nil => exact Nat.le_refl 0
  | cons mb members ih =>
      rw [length_encodeAll_cons, length_encode, List.length_cons]
      omega

theorem encodeAll_append (before after : List Member) :
    encodeAll (before ++ after) = encodeAll before ++ encodeAll after := by
  unfold encodeAll
  rw [List.map_append, List.flatten_append]

theorem encodeAll_cons (mb : Member) (members : List Member) :
    encodeAll (mb :: members) = mb.encode ++ encodeAll members := by
  unfold encodeAll
  rw [List.map_cons, List.flatten_cons]

theorem length_archive (lead : Member) (before after : List Member) (hlead : lead.contents = []) :
    (archive lead (before ++ after)).length
      = 512 + (encodeAll before).length + (encodeAll after).length + 512 := by
  unfold archive
  rw [List.length_append, List.length_append, encodeAll_append, List.length_append, length_encode,
    hlead, List.length_replicate, List.length_nil]
  omega

/-- What lies in memory behind some of the members. -/
theorem holds_behind (m : Mem) (a : Word) (lead : Member) (before after : List Member)
    (hlead : lead.contents = []) (h : Holds m a (archive lead (before ++ after))) :
    Holds m (a + 512) (encodeAll before) ∧
      Holds m (a + (512 + BitVec.ofNat 32 (encodeAll before).length))
        (encodeAll after ++ List.replicate 512 0) := by
  have hleadLength : lead.encode.length = 512 := by
    rw [length_encode, hlead]
    rfl
  have hstart : (BitVec.ofNat 32 512 : Word) = 512 := rfl
  unfold archive at h
  rw [holds_append, hleadLength, encodeAll_append, List.append_assoc, holds_append, hstart,
    BitVec.add_assoc] at h
  exact h.2

/-- A member is no longer than the archive it is in. -/
theorem contents_lt_of_archive (lead : Member) (before after : List Member)
    (hlead : lead.contents = []) (hlen : (archive lead (before ++ after)).length < 2 ^ 32) :
    ∀ mb ∈ before, mb.contents.length < 2 ^ 32 := by
  intro mb hmb
  have hle : mb.encode.length ≤ (encodeAll before).length :=
    (List.sublist_flatten_of_mem (List.mem_map_of_mem hmb)).length_le
  rw [length_encode] at hle
  rw [length_archive lead before after hlead] at hlen
  omega

section Walk

variable (m : Mem) (tar : Tar) (name : Word) (nm : List Byte) (hname : CString m name nm)

include hname

/-- Members of other names are passed over. -/
theorem tarGetFile_skip (before : List Member)
    (hbefore : ∀ mb ∈ before, mb.name ≠ nm.take 100 ∧ mb.contents.length < 2 ^ 32) :
    ∀ (offset : Word) (fuel : Nat), Holds m (tar.ptr + offset) (encodeAll before) →
      runLoop (tarGetFileTurn m tar name) (before.length + fuel) offset
        = runLoop (tarGetFileTurn m tar name) fuel
            (offset + BitVec.ofNat 32 (encodeAll before).length) := by
  induction before with
  | nil =>
      intro offset fuel _
      rw [List.length_nil, Nat.zero_add]
      exact congrArg _ (BitVec.add_zero offset).symm
  | cons mb before ih =>
      intro offset fuel h
      -- One turn for the first member, and the rest by induction.
      rcases hbefore mb List.mem_cons_self with ⟨hother, hlt⟩
      rw [encodeAll_cons, holds_append, BitVec.add_assoc] at h
      rw [List.length_cons, show before.length + 1 + fuel = before.length + fuel + 1 by omega,
        runLoop_again _ _ _ _ (turn_skip m tar name offset mb h.1 nm hname hother hlt),
        ih (fun b hb => hbefore b (List.mem_cons_of_mem mb hb)) _ fuel h.2, add_ofNat_add,
        length_encodeAll_cons]

/-- The walk over an archive, up to where it stops. -/
theorem tarGetFile_walk (lead : Member) (before after : List Member) (hlead : lead.contents = [])
    (hlen : (archive lead (before ++ after)).length < 2 ^ 32)
    (h : Holds m tar.ptr (archive lead (before ++ after)))
    (hbefore : ∀ mb ∈ before, mb.name ≠ nm.take 100) :
    Holds m (tar.ptr + (512 + BitVec.ofNat 32 (encodeAll before).length))
        (encodeAll after ++ List.replicate 512 0) ∧
      ∃ fuel, tarGetFile m tar name = runLoop (tarGetFileTurn m tar name) (fuel + 1)
        (512 + BitVec.ofNat 32 (encodeAll before).length) := by
  have hshort := contents_lt_of_archive lead before after hlead hlen
  have hfew := length_le_encodeAll before
  rcases holds_behind m tar.ptr lead before after hlead h with ⟨hfront, hrest⟩
  rw [length_archive lead before after hlead] at hlen
  refine ⟨hrest, turnBound - before.length, ?_⟩
  unfold tarGetFile
  rw [show turnBound + 1 = before.length + (turnBound - before.length + 1) by
    unfold turnBound
    omega]
  exact tarGetFile_skip m tar name nm hname before (fun mb hmb => ⟨hbefore mb hmb, hshort mb hmb⟩)
    512 _ hfront

end Walk

/-- On an archive of a leading member without contents, any members and a block
    of zeros, `tar_get_file` reports exactly the contents of the first member of
    the name behind the leading one, and nothing if there is none. -/
theorem tarGetFile_exact (m : Mem) (tar : Tar) (name : Word) (nm : List Byte) (lead : Member)
    (members : List Member) (hname : CString m name nm) (hlead : lead.contents = [])
    (hlen : (archive lead members).length < 2 ^ 32) (h : Holds m tar.ptr (archive lead members)) :
    (∀ before mb after, members = before ++ mb :: after →
        (∀ other ∈ before, other.name ≠ nm.take 100) → mb.name = nm.take 100 →
        ∃ file, tarGetFile m tar name = some file ∧ file.size.toNat = mb.contents.length ∧
          file.ptr = tar.ptr + BitVec.ofNat 32 (512 + (encodeAll before).length + 512) ∧
          Holds m file.ptr mb.contents) ∧
      ((∀ mb ∈ members, mb.name ≠ nm.take 100) → tarGetFile m tar name = some ⟨0, 0⟩) := by
  constructor
  · rintro before mb after rfl hbefore hmatch
    rcases tarGetFile_walk m tar name nm hname lead before (mb :: after) hlead hlen h hbefore with
      ⟨hrest, fuel, hwalk⟩
    rw [encodeAll_cons, List.append_assoc, holds_append] at hrest
    -- The walk stands on the member of the name.
    have hturn := turn_match m tar name _ mb hrest.1 nm hname hmatch
    refine ⟨_, hwalk.trans (runLoop_exit _ fuel _ _ hturn), ?_, ?_, ?_⟩
    · have hfits : mb.contents.length < 2 ^ 32 := by
        rw [length_archive lead before (mb :: after) hlead, length_encodeAll_cons, length_encode]
          at hlen
        omega
      rw [BitVec.toNat_ofNat, Nat.mod_eq_of_lt hfits]
    · bv_omega
    · exact holds_contents m mb _ hrest.1
  · intro hnone
    -- All the members are passed over, and a zero block follows.
    have hall : members = members ++ [] := (List.append_nil members).symm
    rw [hall] at hlen h
    rcases tarGetFile_walk m tar name nm hname lead members [] hlead hlen h hnone with
      ⟨hrest, fuel, hwalk⟩
    have hzero := holds_getElem m _ _ hrest 0 (by
      rw [List.length_append, List.length_replicate]
      omega)
    rw [BitVec.add_zero] at hzero
    exact hwalk.trans (runLoop_exit _ fuel _ _ (turn_end m tar name _ hzero))

/-- A member with a name of one letter. -/
def letterMember (letter : Byte) (hne : letter ≠ 0) (contents : List Byte)
    (hlt : contents.length < 8 ^ 11) : Member where
  name := [letter]
  owners := List.replicate 24 48
  rest := List.replicate 377 48
  contents := contents
  name_ne := List.cons_ne_nil _ _
  name_le := Nat.le_of_ble_eq_true rfl
  name_bytes := fun b hb => by
    rw [List.mem_singleton.mp hb]
    exact hne
  owners_length := List.length_replicate
  rest_length := List.length_replicate
  contents_lt := hlt

/-- A directory and two files. -/
def letterArchive : List Byte :=
  archive (letterMember 105 (by decide) [] (by decide))
    [letterMember 97 (by decide) [1, 2, 3] (by decide), letterMember 98 (by decide) [4] (by decide)]

/-- The second file is found, by the name in its own header. -/
theorem tarGetFile_exact_letters :
    ∃ file, tarGetFile (memOf letterArchive) ⟨0, 0⟩ 1536 = some file ∧ file.size.toNat = 1 ∧
      Holds (memOf letterArchive) file.ptr [4] := by
  have hlead : (letterMember 105 (by decide) [] (by decide)).encode.length = 512 := by
    rw [length_encode]
    rfl
  have hfirst : (letterMember 97 (by decide) [1, 2, 3] (by decide)).encode.length = 1024 := by
    rw [length_encode]
    rfl
  have hsecond : (letterMember 98 (by decide) [4] (by decide)).encode.length = 1024 := by
    rw [length_encode]
    rfl
  have hlen : letterArchive.length = 3072 := by
    unfold letterArchive archive encodeAll
    simp only [List.length_append, List.map_cons, List.map_nil, List.flatten_cons, List.flatten_nil,
      hlead, hfirst, hsecond, List.length_replicate]
    rfl
  have hholds := holds_memOf letterArchive (by rw [hlen]; decide)
  -- The name asked for is the one in the header of the second file.
  have hname : ∀ m, Holds m 0 letterArchive → CString m 1536 [98] := by
    intro m hfield
    unfold letterArchive archive at hfield
    rw [holds_append, encodeAll_cons, encodeAll_cons, List.append_assoc, List.append_assoc,
      holds_append, holds_append, hlead, hfirst,
      show (0 : Word) + BitVec.ofNat 32 512 + BitVec.ofNat 32 1024 = 1536 by decide] at hfield
    have hheader := hfield.2.2.1
    unfold Member.encode Member.header Member.nameField at hheader
    rw [holds_append, holds_append, holds_append] at hheader
    have hletter := holds_getElem _ _ _ hheader.1.1.1 0 Nat.one_pos
    have hzero := holds_getElem _ _ _ hheader.1.1.2 0 (by rw [List.length_replicate]; decide)
    rw [BitVec.add_zero] at hletter
    rw [List.getElem_replicate, BitVec.add_zero] at hzero
    exact ⟨by decide, hletter, hzero, trivial⟩
  rcases (tarGetFile_exact (memOf letterArchive) ⟨0, 0⟩ 1536 [98] _ _ (hname _ hholds) rfl
    (hlen.trans_lt (by decide)) hholds).1 [letterMember 97 (by decide) [1, 2, 3] (by decide)]
    (letterMember 98 (by decide) [4] (by decide)) [] rfl (by decide) rfl with
    ⟨file, hfile, hsize, _, hcontents⟩
  exact ⟨file, hfile, hsize, hcontents⟩

end UnixP6
