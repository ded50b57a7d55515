import UnixP6.Theory.Multiboot.Tags

/-!
# The Capacity of the List of Modules

`module_add_to_list` tests the count against `MODULES_MAX_LOAD`, and the test
guards an empty statement. What is kept up to 256 modules is said on the memory
that the array and the count lie in, where a slot past the array is whatever
comes next, the count itself perhaps.

Up to the capacity the memory shows the list: the additions refine those of
`Modules`, and what an addition leaves of the earlier ones is known there. The
call after that writes behind the array, whatever was in memory.

## Main definitions

* `ModuleTable.Shows`: The memory shows a list of modules.
* `ListKept`: What is promised of a sequence of additions.

## Theorems

* `moduleAddIn_shows`, `addAll_shows`: Below the capacity additions are additions.
* `moduleGetIn_shows`: Looking a module up is looking it up in the list.
* `listKept_iff`: The list is kept up to its capacity, and no further.
* `not_listKept`: One module more.
-/

namespace UnixP6

open CSemantics

/-- The count and the slots of the array are those of the list. -/
def ModuleTable.Shows (t : ModuleTable) (m : Mem) (ms : Modules) : Prop :=
  m.load32 t.count = ms.count ∧
    ∀ i, i < modulesMaxLoad → m.load32 (t.modules + 4 * i) = ms.slots i

/-- The memory after the first so many of the modules are added. -/
def addedFirst (t : ModuleTable) (m : Mem) (tags : List Word) (k : Nat) : Mem :=
  (tags.take k).foldl (moduleAddIn t) m

/-- What is promised of a sequence of additions: at any time the count is within
    the capacity and what was added can be looked up, and every addition is to a
    slot of the array. -/
structure ListKept (t : ModuleTable) (m : Mem) (tags : List Word) : Prop where
  bounded : ∀ k ≤ tags.length, (addedFirst t m tags k).load32 t.count ≤ modulesMaxLoad
  inside : ∀ k < tags.length, (addedFirst t m tags k).load32 t.count < modulesMaxLoad
  kept : ∀ k ≤ tags.length, ∀ i, i < (addedFirst t m tags k).load32 t.count →
    tags[i.toNat]? = some (moduleGetIn t (addedFirst t m tags k) i)

section Table

variable (t : ModuleTable) (hapart : Apart t.modules 1024 t.count 4)

include hapart

/-- A slot of the array shares no byte with the count. -/
theorem slot_apart_count (i : Word) (hi : i < modulesMaxLoad) :
    Apart (t.modules + 4 * i) 4 t.count 4 := by
  rcases hapart with ⟨hbelow, habove⟩
  rw [modulesMaxLoad, BitVec.lt_def] at hi
  exact ⟨by bv_omega, by bv_omega⟩

omit hapart in
theorem slots_apart (i j : Word) (hi : i < modulesMaxLoad) (hj : j < modulesMaxLoad)
    (hne : i ≠ j) : Apart (t.modules + 4 * i) 4 (t.modules + 4 * j) 4 := by
  rw [modulesMaxLoad, BitVec.lt_def] at hi hj
  exact ⟨by bv_omega, by bv_omega⟩

/-- Below the capacity an addition in memory is an addition to the list. -/
theorem moduleAddIn_shows (m : Mem) (ms : Modules) (tag : Word) (h : t.Shows m ms)
    (hroom : ms.count < modulesMaxLoad) :
    t.Shows (moduleAddIn t m tag) (moduleAddToList ms tag) := by
  rcases h with ⟨hcount, hslots⟩
  have hstored : (m.store32 (t.modules + 4 * ms.count) tag).load32 t.count = ms.count := by
    rw [Mem.load32_store32_apart _ _ _ _ (slot_apart_count t hapart ms.count hroom), hcount]
  simp only [ModuleTable.Shows, moduleAddIn, hcount, hstored, moduleAddToList]
  refine ⟨Mem.load32_store32_same _ _ _, fun i hi => ?_⟩
  rw [Mem.load32_store32_apart _ _ _ _ (slot_apart_count t hapart i hi).symm]
  by_cases hlast : i = ms.count
  · rw [if_pos hlast, hlast, Mem.load32_store32_same]
  · rw [if_neg hlast, Mem.load32_store32_apart _ _ _ _
      (slots_apart t ms.count i hroom hi (Ne.symm hlast)), hslots i hi]

/-- So are any number of them that the array has room for. -/
theorem addAll_shows (l : List Word) (m : Mem) (ms : Modules) (h : t.Shows m ms)
    (hroom : ms.count.toNat + l.length ≤ 256) :
    t.Shows (l.foldl (moduleAddIn t) m) (l.foldl moduleAddToList ms) := by
  induction l generalizing m ms with
  | nil => exact h
  | cons tag l ih =>
      rw [List.length_cons] at hroom
      have hhere : ms.count < modulesMaxLoad := by
        rw [modulesMaxLoad, BitVec.lt_def, show (256 : Word).toNat = 256 from rfl]
        omega
      rw [List.foldl_cons, List.foldl_cons]
      refine ih _ _ (moduleAddIn_shows t hapart m ms tag h hhere) ?_
      simp only [moduleAddToList]
      bv_omega

omit hapart in
/-- Looking a module up in memory is looking it up in the list. -/
theorem moduleGetIn_shows (m : Mem) (ms : Modules) (h : t.Shows m ms)
    (hcount : ms.count ≤ modulesMaxLoad) (idx : Word) :
    moduleGetIn t m idx = moduleGet ms idx := by
  rcases h with ⟨hshown, hslots⟩
  unfold moduleGetIn moduleGet
  rw [hshown]
  by_cases hidx : ms.count ≤ idx
  · rw [if_pos hidx, if_pos hidx]
  · rw [if_neg hidx, if_neg hidx]
    have hlt := Nat.lt_of_lt_of_le (BitVec.lt_def.mp (BitVec.not_le.mp hidx))
      (BitVec.le_def.mp hcount)
    exact hslots idx (BitVec.lt_def.mpr hlt)

variable (m : Mem) (hzero : m.load32 t.count = 0) (tags : List Word)

include hzero

/-- Up to the capacity the memory shows what was added, in order. -/
theorem addedFirst_shows (k : Nat) (hk : k ≤ tags.length) (hroom : k ≤ 256) :
    ∃ ms, t.Shows (addedFirst t m tags k) ms ∧ ms.count.toNat = k ∧
      ∀ i : Word, i.toNat < k → tags[i.toNat]? = some (moduleGet ms i) := by
  have hlen : (tags.take k).length = k := List.length_take_of_le hk
  let ms : Modules := ⟨fun i => m.load32 (t.modules + 4 * i), 0⟩
  have hshows : t.Shows m ms := ⟨hzero, fun i _ => rfl⟩
  rcases modules_foldl (tags.take k) ms (by omega) with ⟨hcount, _⟩
  refine ⟨_, addAll_shows t hapart (tags.take k) m ms hshows ?_, ?_, fun i hi => ?_⟩
  · rw [hlen, show ms.count.toNat = 0 from rfl]
    omega
  · rw [hcount, hlen, show ms.count = 0 from rfl]
    bv_omega
  · have hsome : i.toNat < tags.length := Nat.lt_of_lt_of_le hi hk
    rw [moduleGet_foldl (tags.take k) ms rfl (by omega), List.getElem?_take_of_lt hi,
      List.getElem?_eq_getElem hsome]
    rfl

theorem count_addedFirst (k : Nat) (hk : k ≤ tags.length) (hroom : k ≤ 256) :
    ((addedFirst t m tags k).load32 t.count).toNat = k := by
  rcases addedFirst_shows t hapart m hzero tags k hk hroom with ⟨ms, hshows, hcount, _⟩
  rw [hshows.1, hcount]

theorem listKept_of_length (hroom : tags.length ≤ 256) : ListKept t m tags where
  bounded k hk := by
    rw [modulesMaxLoad, BitVec.le_def, count_addedFirst t hapart m hzero tags k hk (by omega)]
    exact Nat.le_trans hk hroom
  inside k hk := by
    rw [modulesMaxLoad, BitVec.lt_def, count_addedFirst t hapart m hzero tags k hk.le (by omega)]
    exact Nat.lt_of_lt_of_le hk hroom
  kept k hk i hi := by
    rcases addedFirst_shows t hapart m hzero tags k hk (by omega) with
      ⟨ms, hshows, hcount, hget⟩
    rw [hshows.1, BitVec.lt_def, hcount] at hi
    have hfull : ms.count ≤ modulesMaxLoad := by
      rw [modulesMaxLoad, BitVec.le_def, hcount]
      exact Nat.le_trans hk hroom
    rw [moduleGetIn_shows t _ ms hshows hfull]
    exact hget i hi

theorem length_of_listKept (h : ListKept t m tags) : tags.length ≤ 256 := by
  by_contra hmore
  -- The call with a full array writes to the slot behind it.
  have hinside := h.inside 256 (by omega)
  rw [modulesMaxLoad, BitVec.lt_def,
    count_addedFirst t hapart m hzero tags 256 (by omega) (Nat.le_refl 256)] at hinside
  exact absurd hinside (by decide)

/-- The list is kept up to its capacity, and no further. -/
theorem listKept_iff : ListKept t m tags ↔ tags.length ≤ 256 :=
  ⟨length_of_listKept t hapart m hzero tags, listKept_of_length t hapart m hzero tags⟩

end Table

/-- An array at zero with the count behind it, and two modules. -/
theorem listKept_iff_two :
    Apart (0 : Word) 1024 1024 4 ∧ Mem.load32 (fun _ => 0) 1024 = 0 ∧
      (ListKept ⟨0, 1024⟩ (fun _ => 0) [64, 128] ↔ [(64 : Word), 128].length ≤ 256) :=
  ⟨by unfold Apart; decide, by decide,
    listKept_iff ⟨0, 1024⟩ (by unfold Apart; decide) _ (by decide) [64, 128]⟩

/-- With one module more than the array has slots the last is stored behind it. -/
theorem not_listKept : ¬ ListKept ⟨0, 1024⟩ (fun _ => 0) (List.replicate 257 64) := by
  intro h
  have hlen := length_of_listKept ⟨0, 1024⟩ (by unfold Apart; decide) _ (by decide) _ h
  rw [List.length_replicate] at hlen
  exact absurd hlen (by decide)

end UnixP6
