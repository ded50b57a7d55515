import UnixP6.Theory.Multiboot.Walk

/-!
# The Walk over Well-Formed Boot Information

What `sys_init` makes of the boot information a boot loader leaves. A tag
carries the facts that make it well formed, and the information is any list of
them. Of the structure of a tag no more is asked than the walk reads: a memory
map has its entry size, a framebuffer its type.

Each tag has one lemma, saying that the walk gets past it and what it leaves in
the two globals. The addresses come from `place`, which lays the tags out one
after another, and the walk is compared with it.

## Main definitions

* `BootTag`: A well-formed tag.
* `bootInfo`: The layout of the boot information.
* `place`: The tags with their addresses.
* `moduleTags`, `displays`: What the tags say about modules and the display.

## Theorems

* `modules_foldl`: The list of modules after any number of additions.
* `readMmap_total`: The walk over a memory map ends.
* `sysInitTag_ok`, `sysInitTurn_tag`: What one tag leaves, and one turn at it.
* `walk_tags`: What the walk leaves.
* `sysInit_tags`: The whole of `sys_init` on well-formed boot information.
-/

namespace UnixP6

open CSemantics

/-! ### The list of modules -/

/-- The list of modules after any number of additions. -/
theorem modules_foldl (l : List Word) : ∀ (ms : Modules), l.length ≤ 2 ^ 32 →
    (l.foldl moduleAddToList ms).count = ms.count + BitVec.ofNat 32 l.length ∧
      ∀ i, (l.foldl moduleAddToList ms).slots i
        = (l[(i - ms.count).toNat]?).getD (ms.slots i) := by
  induction l with
  | nil => exact fun ms _ => ⟨(BitVec.add_zero _).symm, fun i => rfl⟩
  | cons a l ih =>
      intro ms hlen
      rw [List.length_cons] at hlen
      rcases ih (moduleAddToList ms a) (by omega) with ⟨hcount, hslots⟩
      rw [List.foldl_cons, List.length_cons]
      refine ⟨?_, fun i => ?_⟩
      · rw [hcount]
        simp only [moduleAddToList]
        bv_omega
      · rw [hslots]
        simp only [moduleAddToList]
        by_cases hi : i = ms.count
        · -- The slot just filled is past the end of the later additions.
          have hlast : l.length ≤ (i - (ms.count + 1)).toNat := by bv_omega
          have hzero : (i - ms.count).toNat = 0 := by bv_omega
          rw [if_pos hi, List.getElem?_eq_none hlast, hzero]
          rfl
        · have hnext : (i - ms.count).toNat = (i - (ms.count + 1)).toNat + 1 := by bv_omega
          rw [if_neg hi, hnext, List.getElem?_cons_succ]

/-- From an empty list, `module_get` gives the additions in order and null past
    them. -/
theorem moduleGet_foldl (l : List Word) (ms : Modules) (hempty : ms.count = 0)
    (hlen : l.length < 2 ^ 32) (idx : Word) :
    moduleGet (l.foldl moduleAddToList ms) idx = (l[idx.toNat]?).getD 0 := by
  rcases modules_foldl l ms (by omega) with ⟨hcount, hslots⟩
  have hcount' : (l.foldl moduleAddToList ms).count.toNat = l.length := by
    rw [hcount, hempty]
    bv_omega
  unfold moduleGet
  -- Past the count `module_get` does not look at the slots.
  by_cases hidx : idx.toNat < l.length
  · have hfrom : (idx - 0).toNat = idx.toNat := by bv_omega
    rw [if_neg (by rw [BitVec.le_def, hcount']; omega), hslots, hempty, hfrom,
      List.getElem?_eq_getElem hidx]
    rfl
  · rw [if_pos (by rw [BitVec.le_def, hcount']; omega), List.getElem?_eq_none (by omega)]
    rfl

/-! ### Tags -/

/-- A well-formed tag: its type, what is behind its header, and the bytes up to
    the next tag. -/
structure BootTag where
  type : Nat
  body : List Byte
  padding : List Byte
  type_pos : 1 ≤ type
  type_le : type ≤ 21
  padding_length : padding.length = (8 - (8 + body.length) % 8) % 8
  mmap : type = 6 → 8 ≤ body.length ∧
    24 ≤ (body.getD 3 0 ++ body.getD 2 0 ++ body.getD 1 0 ++ body.getD 0 0).toNat ∧
    (body.getD 3 0 ++ body.getD 2 0 ++ body.getD 1 0 ++ body.getD 0 0).toNat ≤ 2 ^ 16
  framebuffer : type = 8 → 22 ≤ body.length ∧ (body.getD 21 0).toNat ≤ 2

namespace BootTag

/-- The size in the header: the header and what is behind it. -/
def size (t : BootTag) : Nat := 8 + t.body.length

def encode (t : BootTag) : List Byte :=
  bytes32 (BitVec.ofNat 32 t.type) ++ (bytes32 (BitVec.ofNat 32 t.size) ++ (t.body ++ t.padding))

/-- The display a framebuffer tag asks for. -/
def display (t : BootTag) : Option Word :=
  if t.type = 8 then some ((t.body.getD 21 0).setWidth 32) else none

end BootTag

/-- The tags one after another. -/
def encodeTags (tags : List BootTag) : List Byte := (tags.map BootTag.encode).flatten

/-- The boot information: eight bytes, the tags, and an end tag of any size. -/
def bootInfo (header : List Byte) (tags : List BootTag) (endSize : Word) : List Byte :=
  header ++ (encodeTags tags ++ (bytes32 tagTypeEnd ++ bytes32 endSize))

/-- The tags with their addresses. -/
def place : Word → List BootTag → List (Word × BootTag)
  | _, [] => []
  | a, t :: tags => (a, t) :: place (a + BitVec.ofNat 32 t.encode.length) tags

/-- The addresses of the module tags, in order. -/
def moduleTags (tags : List (Word × BootTag)) : List Word :=
  (tags.filter fun p => p.2.type = 3).map Prod.fst

/-- The displays asked for, in order. -/
def displays (tags : List (Word × BootTag)) : List Word := tags.filterMap fun p => p.2.display

theorem length_encode_tag (t : BootTag) :
    t.encode.length = t.size + (8 - t.size % 8) % 8 := by
  have hpad := t.padding_length
  unfold BootTag.encode BootTag.size
  simp only [List.length_append, bytes32, List.length_cons, List.length_nil]
  omega

/-! ### One tag -/

section Tag

variable (m : Mem) (tag : Word) (t : BootTag) (h : Holds m tag t.encode)

include h

theorem tagType_eq : tagType m tag = BitVec.ofNat 32 t.type := by
  unfold BootTag.encode at h
  exact load32_bytes32 m tag _ ((holds_append _ _ _ _).mp h).1

theorem tagSize_eq : tagSize m tag = BitVec.ofNat 32 t.size := by
  unfold BootTag.encode at h
  rw [holds_append, holds_append] at h
  exact load32_bytes32 m (tag + 4) _ h.2.1

/-- A byte behind the header. -/
theorem body_byte (i : Nat) (hi : i < t.body.length) :
    m (tag + BitVec.ofNat 32 (8 + i)) = t.body.getD i 0 := by
  unfold BootTag.encode at h
  rw [holds_append, holds_append, holds_append] at h
  have hbyte := holds_getElem m _ _ h.2.2.1 i hi
  rw [length_bytes32, length_bytes32, add_ofNat_add, add_ofNat_add] at hbyte
  rw [List.getD_eq_getElem?_getD, List.getElem?_eq_getElem hi, Option.getD_some, ← hbyte,
    show 4 + (4 + i) = 8 + i by omega]

theorem framebufferType_eq (htype : t.type = 8) : framebufferType m tag = t.body.getD 21 0 := by
  have hlen := (t.framebuffer htype).1
  exact body_byte m tag t h 21 (by omega)

theorem tagEntrySize_eq (htype : t.type = 6) :
    tagEntrySize m tag
      = t.body.getD 3 0 ++ t.body.getD 2 0 ++ t.body.getD 1 0 ++ t.body.getD 0 0 := by
  have hlen := (t.mmap htype).1
  have hadd : tag + 8 + 1 = tag + BitVec.ofNat 32 (8 + 1) ∧
      tag + 8 + 2 = tag + BitVec.ofNat 32 (8 + 2) ∧
      tag + 8 + 3 = tag + BitVec.ofNat 32 (8 + 3) := ⟨by bv_omega, by bv_omega, by bv_omega⟩
  unfold tagEntrySize Mem.load32
  rw [hadd.1, hadd.2.1, hadd.2.2, body_byte m tag t h 1 (by omega), body_byte m tag t h 2 (by omega),
    body_byte m tag t h 3 (by omega), ← body_byte m tag t h 0 (by omega)]
  rfl

/-- The next header is behind the tag. -/
theorem nextTag_eq (hlt : t.size + 7 < 2 ^ 32) :
    nextTag m tag = tag + BitVec.ofNat 32 t.encode.length := by
  have hround := toNat_and_not_seven (tagSize m tag + 7)
  have hsize : (tagSize m tag + 7).toNat = t.size + 7 := by
    rw [tagSize_eq m tag t h]
    bv_omega
  have hencode := length_encode_tag t
  -- The padding of a tag is what rounds its size up to eight.
  unfold nextTag
  rw [hsize] at hround
  generalize tagSize m tag + 7 &&& ~~~7 = step at hround
  bv_omega

/-- The walk over the entries of a memory map ends. -/
theorem readMmap_total (htype : t.type = 6) (hwrap : tag.toNat + t.size + 2 ^ 16 ≤ 2 ^ 32)
    (entries : List Word) : ∃ entries', readMmap m tag entries = some entries' := by
  rcases t.mmap htype with ⟨_, hlow, hhigh⟩
  have hsize := tagSize_eq m tag t h
  have hlimit : (tag + tagSize m tag).toNat = tag.toNat + t.size := by
    rw [hsize]
    bv_omega
  unfold readMmap
  rw [tagEntrySize_eq m tag t h htype]
  generalize t.body.getD 3 0 ++ t.body.getD 2 0 ++ t.body.getD 1 0 ++ t.body.getD 0 0 = stride
    at hlow hhigh
  -- The address grows by the stride, and there is room for one stride past the limit.
  rcases runLoop_total (mmapTurn (tag + tagSize m tag) stride) (fun _ => True)
    (fun s => 2 ^ 32 - s.1.toNat) (fun _ => True) (fun s _ => by
      unfold mmapTurn
      by_cases hlt : s.1 < tag + tagSize m tag
      · refine Or.inr ⟨(s.1 + stride, s.2 ++ [s.1]), if_pos hlt, trivial, ?_⟩
        rw [BitVec.lt_def, hlimit] at hlt
        simp only []
        bv_omega
      · exact Or.inl ⟨s.2, if_neg hlt, trivial⟩)
    (turnBound + 1) (tag + 16, entries) trivial (by unfold turnBound; omega) with ⟨r, hrun, _⟩
  exact ⟨r, hrun⟩

/-- What a tag leaves: a module is added to the list, if there is room for it, a
    framebuffer sets the display, and nothing else touches the two. -/
theorem sysInitTag_ok (st : SysInit) (hwrap : tag.toNat + t.size + 2 ^ 16 ≤ 2 ^ 32)
    (hroom : t.type = 3 → st.modules.count < modulesMaxLoad) :
    ∃ st', sysInitTag m tag st = some (.ok st') ∧ st'.headers = st.headers ∧
      st'.modules = (if t.type = 3 then moduleAddToList st.modules tag else st.modules) ∧
      st'.dispDrv = t.display.getD st.dispDrv := by
  have hle := t.type_le
  have hnat : (tagType m tag).toNat = t.type := by
    rw [tagType_eq m tag t h]
    bv_omega
  have hname : t.type < mb2HtagsStr.length := Nat.lt_succ_of_le hle
  -- The type read is the type of the tag, so the tests go by the latter.
  have hcase : ∀ n : Nat, n < 2 ^ 32 → (tagType m tag = BitVec.ofNat 32 n ↔ t.type = n) := by
    intro n hn
    rw [tagType_eq m tag t h]
    constructor
    · intro heq
      bv_omega
    · exact fun heq => congrArg _ heq
  have hmodule : tagType m tag = tagTypeModule ↔ t.type = 3 := hcase 3 (by omega)
  have hmmap : tagType m tag = tagTypeMmap ↔ t.type = 6 := hcase 6 (by omega)
  have hfb : tagType m tag = tagTypeFramebuffer ↔ t.type = 8 := hcase 8 (by omega)
  simp only [sysInitTag, hnat, List.getElem?_eq_getElem hname, hmodule, hmmap, hfb, BootTag.display]
  -- A module, a memory map, a framebuffer, or none of these.
  by_cases h3 : t.type = 3
  · have h8 : ¬ t.type = 8 := by omega
    simp only [if_pos h3, if_neg h8, if_neg (BitVec.not_le.mpr (hroom h3))]
    exact ⟨_, rfl, rfl, rfl, rfl⟩
  · by_cases h6 : t.type = 6
    · have h8 : ¬ t.type = 8 := by omega
      rcases readMmap_total m tag t h h6 hwrap st.entries with ⟨entries, hread⟩
      simp only [if_neg h3, if_pos h6, if_neg h8, hread, Option.map_some]
      exact ⟨_, rfl, rfl, rfl, rfl⟩
    · by_cases h8 : t.type = 8
      · have hfbType := framebufferType_eq m tag t h h8
        have hfbName : (t.body.getD 21 0).toNat < mb2HtagFbStr.length :=
          Nat.lt_succ_of_le (t.framebuffer h8).2
        simp only [if_neg h3, if_neg h6, if_pos h8, readFramebuffer, hfbType,
          List.getElem?_eq_getElem hfbName]
        exact ⟨_, rfl, rfl, rfl, rfl⟩
      · simp only [if_neg h3, if_neg h6, if_neg h8]
        exact ⟨_, rfl, rfl, rfl, rfl⟩

/-- One turn of the walk at a well-formed tag: its header is read, it is dealt
    with, and the walk goes on behind it. -/
theorem sysInitTurn_tag (st : SysInit) (hwrap : tag.toNat + t.encode.length + 2 ^ 16 ≤ 2 ^ 32)
    (hroom : t.type = 3 → st.modules.count < modulesMaxLoad) :
    ∃ st', sysInitTurn m (tag, st)
        = some (.again (tag + BitVec.ofNat 32 t.encode.length, st')) ∧
      st'.headers = st.headers ++ [tag] ∧
      st'.modules = (if t.type = 3 then moduleAddToList st.modules tag else st.modules) ∧
      st'.dispDrv = t.display.getD st.dispDrv := by
  have hencode := length_encode_tag t
  -- A well-formed tag is not an end tag.
  have hend : ¬ tagType m tag = tagTypeEnd := by
    have hpos := t.type_pos
    have hle := t.type_le
    rw [tagType_eq m tag t h]
    intro heq
    have hnat := congrArg BitVec.toNat heq
    rw [BitVec.toNat_ofNat, show tagTypeEnd.toNat = 0 from rfl] at hnat
    omega
  rcases sysInitTag_ok m tag t h { st with headers := st.headers ++ [tag] } (by omega) hroom with
    ⟨st', htag, heffect⟩
  refine ⟨st', ?_, heffect⟩
  unfold sysInitTurn
  simp only [if_neg hend, htag, Option.map_some, nextTag_eq m tag t h (by omega)]

end Tag

/-! ### The walk -/

theorem encodeTags_nil : encodeTags [] = [] :=
  rfl

theorem encodeTags_cons (t : BootTag) (tags : List BootTag) :
    encodeTags (t :: tags) = t.encode ++ encodeTags tags := by
  unfold encodeTags
  rw [List.map_cons, List.flatten_cons]

theorem moduleTags_cons (p : Word × BootTag) (tags : List (Word × BootTag)) :
    moduleTags (p :: tags) = if p.2.type = 3 then p.1 :: moduleTags tags else moduleTags tags := by
  unfold moduleTags
  -- The filter is on the type.
  by_cases h3 : p.2.type = 3
  · rw [if_pos h3, List.filter_cons_of_pos (by rw [decide_eq_true_eq]; exact h3), List.map_cons]
  · rw [if_neg h3, List.filter_cons_of_neg (by rw [decide_eq_true_eq]; exact h3)]

/-- The last display of a list with one more tag in front. -/
theorem displays_cons (p : Word × BootTag) (tags : List (Word × BootTag)) (d : Word) :
    ((displays (p :: tags)).getLast?).getD d
      = ((displays tags).getLast?).getD (p.2.display.getD d) := by
  unfold displays
  rw [List.filterMap_cons]
  cases p.2.display with
  | none => rfl
  | some d' =>
      simp only [List.getLast?_cons, Option.getD_some]

/-- The walk over well-formed tags ends at the end tag, having read every header
    once and in order. -/
theorem walk_tags (m : Mem) (endSize : Word) (tags : List BootTag) :
    ∀ (tag : Word) (st : SysInit) (n : Nat),
      Holds m tag (encodeTags tags ++ (bytes32 tagTypeEnd ++ bytes32 endSize)) →
      tag.toNat + (encodeTags tags).length + 8 + 2 ^ 16 ≤ 2 ^ 32 → tags.length < n →
      st.modules.count.toNat + (moduleTags (place tag tags)).length ≤ modulesMaxLoad.toNat →
      ∃ st', runLoop (sysInitTurn m) n (tag, st) = some (.ok st') ∧
        st'.headers = st.headers ++ ((place tag tags).map Prod.fst
          ++ [tag + BitVec.ofNat 32 (encodeTags tags).length]) ∧
        st'.modules = (moduleTags (place tag tags)).foldl moduleAddToList st.modules ∧
        st'.dispDrv = ((displays (place tag tags)).getLast?).getD st.dispDrv := by
  induction tags with
  | nil =>
      intro tag st n h _ hn _
      have htype : tagType m tag = tagTypeEnd := by
        rw [encodeTags_nil, List.nil_append, holds_append] at h
        exact load32_bytes32 m tag _ h.1
      rcases Nat.exists_eq_add_of_lt hn with ⟨k, rfl⟩
      refine ⟨{ st with headers := st.headers ++ [tag] }, runLoop_exit _ _ _ _ (if_pos htype),
        ?_, rfl, rfl⟩
      -- No tag is left: the header behind them is the end tag.
      have hzero : tag + BitVec.ofNat 32 (encodeTags []).length = tag := BitVec.add_zero tag
      rw [hzero]
      rfl
  | cons t tags ih =>
      intro tag st n h hwrap hn hroom
      have hmax : modulesMaxLoad.toNat = 256 := rfl
      rw [encodeTags_cons, List.append_assoc, holds_append] at h
      rw [encodeTags_cons, List.length_append] at hwrap
      rw [place, moduleTags_cons] at hroom
      -- A module tag is one of those there is room for.
      have hhere : t.type = 3 → st.modules.count < modulesMaxLoad := by
        intro h3
        rw [if_pos h3, List.length_cons] at hroom
        rw [BitVec.lt_def]
        omega
      rcases sysInitTurn_tag m tag t h.1 st (by omega) hhere with
        ⟨st', hturn, hheaders, hmodules, hdisplay⟩
      have hrest : st'.modules.count.toNat
          + (moduleTags (place (tag + BitVec.ofNat 32 t.encode.length) tags)).length
            ≤ modulesMaxLoad.toNat := by
        rw [hmodules]
        by_cases h3 : t.type = 3
        · rw [if_pos h3, List.length_cons] at hroom
          simp only [if_pos h3, moduleAddToList]
          bv_omega
        · rw [if_neg h3] at hroom
          rw [if_neg h3]
          exact hroom
      rcases Nat.exists_eq_add_of_lt hn with ⟨k, rfl⟩
      rw [runLoop_again _ _ _ _ hturn]
      -- The rest is laid out from the next header on.
      rcases ih (tag + BitVec.ofNat 32 t.encode.length) st' ((t :: tags).length + k) h.2 (by bv_omega)
        (by rw [List.length_cons]; omega) hrest with ⟨st'', hrun, hheaders', hmodules', hdisplay'⟩
      refine ⟨st'', hrun, ?_, ?_, ?_⟩
      · rw [hheaders', hheaders, place, List.map_cons, encodeTags_cons, List.length_append,
          add_ofNat_add, List.append_assoc]
        rfl
      · rw [hmodules', hmodules, place, moduleTags_cons]
        by_cases h3 : t.type = 3
        · rw [if_pos h3, if_pos h3, List.foldl_cons]
        · rw [if_neg h3, if_neg h3]
      · rw [hdisplay', hdisplay, place, displays_cons]

theorem length_le_encodeTags (tags : List BootTag) : tags.length ≤ (encodeTags tags).length := by
  induction tags with
  | nil => exact Nat.le_refl 0
  | cons t tags ih =>
      have hencode := length_encode_tag t
      have hsize : 8 ≤ t.size := Nat.le_add_right 8 _
      rw [encodeTags_cons, List.length_append, List.length_cons]
      omega

/-- On well-formed boot information `sys_init` returns zero, having read every
    header once and in order. From an empty list of modules, the list then holds
    the module tags in order; the display is that of the last framebuffer tag, if
    there is one. -/
theorem sysInit_tags (m : Mem) (addr : Word) (header : List Byte) (tags : List BootTag)
    (endSize : Word) (st : SysInit) (haddr : addr.toNat % 8 = 0) (hheader : header.length = 8)
    (hinfo : Holds m addr (bootInfo header tags endSize))
    (hwrap : addr.toNat + (bootInfo header tags endSize).length + 2 ^ 16 ≤ 2 ^ 32)
    (hempty : st.modules.count = 0)
    (hmodules : (moduleTags (place (addr + 8) tags)).length ≤ modulesMaxLoad.toNat) :
    ∃ st', sysInit m multiboot2BootloaderMagic addr st = some (.ok (0, st')) ∧
      st'.headers = st.headers ++ ((place (addr + 8) tags).map Prod.fst
        ++ [addr + 8 + BitVec.ofNat 32 (encodeTags tags).length]) ∧
      (∀ idx, moduleGet st'.modules idx
        = ((moduleTags (place (addr + 8) tags))[idx.toNat]?).getD 0) ∧
      st'.dispDrv = ((displays (place (addr + 8) tags)).getLast?).getD st.dispDrv := by
  have hmax : modulesMaxLoad.toNat = 256 := rfl
  unfold bootInfo at hinfo hwrap
  rw [holds_append, hheader] at hinfo
  rw [List.length_append, List.length_append, hheader] at hwrap
  have hendLength : (bytes32 tagTypeEnd ++ bytes32 endSize).length = 8 := rfl
  have hfew := length_le_encodeTags tags
  have hroom : st.modules.count.toNat + (moduleTags (place (addr + 8) tags)).length
      ≤ modulesMaxLoad.toNat := by
    rw [hempty, toNat_word_zero, Nat.zero_add]
    exact hmodules
  -- Every tag is eight bytes or more, so there are fewer tags than turns.
  rcases walk_tags m endSize tags (addr + 8) st (turnBound + 1) hinfo.2 (by bv_omega)
    (by unfold turnBound; omega) hroom with ⟨st', hrun, hheaders, hmods, hdisplay⟩
  refine ⟨st', ?_, hheaders, fun idx => ?_, hdisplay⟩
  · rw [sysInit_walk m addr st haddr, hrun]
    rfl
  · rw [hmods]
    exact moduleGet_foldl _ st.modules hempty (by omega) idx

/-- A module, a memory map of one entry, and a text framebuffer. -/
def threeTags : List BootTag :=
  [{ type := 3
     body := List.replicate 9 0
     padding := List.replicate 7 0
     type_pos := by decide
     type_le := by decide
     padding_length := rfl
     mmap := fun h => absurd h (by decide)
     framebuffer := fun h => absurd h (by decide) },
    { type := 6
      body := 24 :: List.replicate 31 0
      padding := []
      type_pos := by decide
      type_le := by decide
      padding_length := rfl
      mmap := fun _ => ⟨by decide, by decide, by decide⟩
      framebuffer := fun h => absurd h (by decide) },
    { type := 8
      body := List.replicate 21 0 ++ [2, 0, 0]
      padding := []
      type_pos := by decide
      type_le := by decide
      padding_length := rfl
      mmap := fun h => absurd h (by decide)
      framebuffer := fun _ => ⟨by decide, by decide⟩ }]

theorem sysInit_tags_three :
    ∃ st', sysInit (memOf (bootInfo (List.replicate 8 0) threeTags 8)) multiboot2BootloaderMagic 0
        ⟨⟨fun _ => 0, 0⟩, 0, [], [], [], []⟩ = some (.ok (0, st')) ∧
      st'.headers = [8, 32, 72, 104] ∧ moduleGet st'.modules 0 = 8 ∧
      moduleGet st'.modules 1 = 0 ∧ st'.dispDrv = 2 := by
  have hlength : (bootInfo (List.replicate 8 0) threeTags 8).length = 112 := rfl
  rcases sysInit_tags (memOf (bootInfo (List.replicate 8 0) threeTags 8)) 0 (List.replicate 8 0)
    threeTags 8 ⟨⟨fun _ => 0, 0⟩, 0, [], [], [], []⟩ rfl rfl
    (holds_memOf _ (by rw [hlength]; decide)) (by rw [hlength]; decide) rfl (by decide) with
    ⟨st', hrun, hheaders, hget, hdisplay⟩
  exact ⟨st', hrun, hheaders, hget 0, hget 1, hdisplay⟩

end UnixP6
