import UnixP6.Core.Bitmaps
import UnixP6.Theory.Boot.Chain

/-!
# Bitmaps in Memory

An entry of the pool keeps no bitmap, only where it is in memory. Together with
a memory it makes a region (`BitmapList.region`), and the entries a walk along
`next` passes make a chain of them (`Boot.regions`). A word written in memory is
then a word written in the region.

For this the bitmaps of the chain must not overlap and not wrap. `Chained` says
so, together with what the walk passes. What a call leaves alone is the other
half: entries change in their starting point only, memory only in the bitmaps
(`OnlyBitmaps`).

## Main definitions

* `BitmapList.region`: The region an entry stands for in a memory.
* `Boot.regions`: The chain of regions behind the pool.
* `Chained`: The entries the walk passes, with bitmaps apart.
* `OnlyBitmaps`: Nothing changes but bitmaps and starting points.

## Theorems

* `searchIn_refines`: The search of one bitmap.
* `freeFrames_refines`: The release in one bitmap.
* `OnlyBitmaps.chained`: Such a change keeps the chain.
* `OnlyBitmaps.regions`: Regions out of its reach are as they were.
-/

namespace UnixP6

open CSemantics

namespace BitmapList

/-- The region an entry stands for in a memory. -/
def region (e : BitmapList) (m : Mem) : Region :=
  { searchNextStartblock := e.searchNextStartblock
    firstBitmap := fun i => if i < e.repeatcount then m.load32 (e.bitmapAddr i) else 0
    blocksCount := e.blocksCount
    firstBlock := e.firstBlock }

/-- The bytes of the bitmap. -/
def bitmap (e : BitmapList) : Set Nat := CSemantics.span e.firstBitmap.toNat (4 * e.repeatcount)

/-- The entry without its starting point. -/
def forgetHint (e : BitmapList) : BitmapList := { e with searchNextStartblock := 0 }

section Words

variable (e : BitmapList) (m : Mem)

theorem repeatcount_le : 4 * e.repeatcount < 2 ^ 32 := by
  have hlt := e.blocksCount.isLt
  unfold repeatcount
  omega

theorem region_word (i : Nat) (hi : i < e.repeatcount) :
    (e.region m).firstBitmap i = m.load32 (e.bitmapAddr i) :=
  if_pos hi

/-- Two words of a bitmap do not meet, even where the bitmap wraps. -/
theorem bitmapAddr_apart (i j : Nat) (hi : i < e.repeatcount) (hj : j < e.repeatcount)
    (hij : i ≠ j) : Apart (e.bitmapAddr i) 4 (e.bitmapAddr j) 4 := by
  have hle := e.repeatcount_le
  unfold bitmapAddr
  exact ⟨by bv_omega, by bv_omega⟩

theorem sameOutside_store (i : Nat) (v : Word) (hi : i < e.repeatcount) :
    SameOutside e.firstBitmap (4 * e.repeatcount) m (m.store32 (e.bitmapAddr i) v) :=
  SameOutside.widen e.firstBitmap (4 * i) 4 _ m _ (by omega) e.repeatcount_le.le
    (fun x hx => Mem.store32_far m _ x v hx)

/-- A word written in memory is a word written in the region. -/
theorem region_store (i : Nat) (v : Word) (hi : i < e.repeatcount) :
    e.region (m.store32 (e.bitmapAddr i) v) = (e.region m).setWord i v := by
  have hwords : (e.region (m.store32 (e.bitmapAddr i) v)).firstBitmap
      = fun k => if k = i then v else (e.region m).firstBitmap k := by
    funext k
    by_cases hk : k < e.repeatcount
    · rw [region_word e _ k hk, region_word e m k hk]
      by_cases hki : k = i
      · rw [if_pos hki, hki, Mem.load32_store32_same]
      · rw [if_neg hki, Mem.load32_store32_apart m _ _ v
          (e.bitmapAddr_apart i k hi hk (Ne.symm hki))]
    · -- Past the bitmap both read as clear.
      have hki : k ≠ i := fun hc => hk (hc ▸ hi)
      simp only [region, if_neg hk, if_neg hki]
  unfold Region.setWord
  rw [← hwords]
  rfl

/-- The region depends on the bytes of the bitmap only. -/
theorem region_congr (m' : Mem) (hnoWrap : e.firstBitmap.toNat + 4 * e.repeatcount ≤ 2 ^ 32)
    (h : ∀ x : Word, x.toNat ∈ e.bitmap → m' x = m x) : e.region m' = e.region m := by
  have hwords : (e.region m').firstBitmap = (e.region m).firstBitmap := by
    funext i
    by_cases hi : i < e.repeatcount
    · rw [region_word e m' i hi, region_word e m i hi]
      -- The four bytes of the word are bytes of the bitmap.
      have hbyte : ∀ d : Word, d.toNat < 4 → (e.bitmapAddr i + d).toNat ∈ e.bitmap := by
        intro d hd
        unfold bitmapAddr bitmap
        exact Set.mem_Ico.mpr (by constructor <;> bv_omega)
      have hzero := hbyte 0 (by decide)
      rw [BitVec.ofNat_eq_ofNat, BitVec.add_zero] at hzero
      exact Mem.load32_congr m m' _ (h _ hzero) (h _ (hbyte 1 (by decide)))
        (h _ (hbyte 2 (by decide))) (h _ (hbyte 3 (by decide)))
    · simp only [region, if_neg hi]
  unfold region at hwords ⊢
  simp only at hwords
  rw [hwords]

theorem region_startSearchAt (i : Nat) (move : Bool) :
    (e.startSearchAt i move).region m = (e.region m).startSearchAt i move := by
  cases move with
  | false => rfl
  | true => rfl

theorem forgetHint_startSearchAt (i : Nat) (move : Bool) :
    (e.startSearchAt i move).forgetHint = e.forgetHint := by
  cases move with
  | false => rfl
  | true => rfl

end Words

/-- Entries that differ in their starting point at most. -/
theorem fields_of_forgetHint (e f : BitmapList) (h : f.forgetHint = e.forgetHint) :
    f.next = e.next ∧ f.firstBitmap = e.firstBitmap ∧ f.blocksCount = e.blocksCount ∧
      f.firstBlock = e.firstBlock := by
  simp only [forgetHint, BitmapList.mk.injEq, true_and] at h
  exact h

theorem repeatcount_of_forgetHint (e f : BitmapList) (h : f.forgetHint = e.forgetHint) :
    f.repeatcount = e.repeatcount := by
  unfold repeatcount
  rw [(fields_of_forgetHint e f h).2.2.1]

end BitmapList

/-! ### One region -/

/-- An entry and its bitmap, written so as to stand for a region. -/
structure Rewrites (e : BitmapList) (m : Mem) (res : BitmapList × Mem) (r : Region) : Prop where
  region : res.1.region res.2 = r
  entry : res.1.forgetHint = e.forgetHint
  memory : SameOutside e.firstBitmap (4 * e.repeatcount) m res.2

/-- A search of a bitmap in memory has the answer of one of the region, and
    leaves what it leaves. -/
structure SearchRefines (e : BitmapList) (m : Mem) (res : Option Word × BitmapList × Mem)
    (abs : Option Word × Region) : Prop where
  answer : res.1 = abs.1
  rewrites : Rewrites e m res.2 abs.2

theorem SearchRefines.of_hint (e e' : BitmapList) (m : Mem)
    (res : Option Word × BitmapList × Mem) (abs : Option Word × Region)
    (he : e'.forgetHint = e.forgetHint) (h : SearchRefines e' m res abs) :
    SearchRefines e m res abs := by
  refine ⟨h.answer, h.rewrites.region, h.rewrites.entry.trans he, ?_⟩
  have hmemory := h.rewrites.memory
  rw [(BitmapList.fields_of_forgetHint e e' he).2.1,
    BitmapList.repeatcount_of_forgetHint e e' he] at hmemory
  exact hmemory

/-- The words loop in memory is the words loop of the region. -/
theorem searchWords_refines (count alignUp : Nat) (n : Nat) :
    ∀ (i : Nat) (isnotset : Bool) (e : BitmapList) (m : Mem), i + n ≤ e.repeatcount →
      SearchRefines e m (searchWords count alignUp n i isnotset e m)
        (scanWords count alignUp n i isnotset (e.region m)) := by
  induction n with
  | zero =>
      intro i isnotset e m _
      exact ⟨rfl, rfl, rfl, SameOutside.refl _ _ m⟩
  | succ n ih =>
      intro i isnotset e m hle
      have hi : i < e.repeatcount := by omega
      rw [searchWords, scanWords, e.region_word m i hi]
      by_cases hfull : m.load32 (e.bitmapAddr i) = 0xffffffff
      · rw [if_pos hfull, if_pos hfull]
        exact ih (i + 1) isnotset e m (by omega)
      · rw [if_neg hfull, if_neg hfull]
        generalize scanBits (m.load32 (e.bitmapAddr i)) count alignUp 32 0
          { bit := 1, streak := 0, firstj := 0 } = scan
        -- From here on the entry has its new starting point.
        have hhint := e.forgetHint_startSearchAt i (isnotset && scan.2)
        simp only [← e.region_startSearchAt m i (isnotset && scan.2)]
        generalize e.startSearchAt i (isnotset && scan.2) = e' at hhint ⊢
        have hi' : i < e'.repeatcount := by
          rw [BitmapList.repeatcount_of_forgetHint e e' hhint]
          exact hi
        refine SearchRefines.of_hint e e' m _ _ hhint ?_
        rcases scan.1 with _ | ⟨j, firstj⟩
        · refine ih (i + 1) _ e' m ?_
          rw [BitmapList.repeatcount_of_forgetHint e e' hhint]
          omega
        · simp only [e'.region_word m i hi']
          exact ⟨rfl, e'.region_store m i _ hi', rfl, e'.sameOutside_store m i _ hi'⟩

/-- The search of a bitmap in memory is the search of the region. -/
theorem searchIn_refines (count alignUp : Nat) (e : BitmapList) (m : Mem) :
    SearchRefines e m (searchIn count alignUp e m) (allocIn count alignUp (e.region m)) := by
  unfold searchIn allocIn
  by_cases hle : e.searchNextStartblock.toNat ≤ e.repeatcount
  · exact searchWords_refines count alignUp _ _ true e m (by omega)
  · -- The search starts past the end, so there are no words.
    have hzero : e.repeatcount - e.searchNextStartblock.toNat = 0 := by omega
    have hzero' : (e.region m).repeatcount - (e.region m).searchNextStartblock.toNat = 0 := hzero
    rw [hzero, hzero']
    exact ⟨rfl, rfl, rfl, SameOutside.refl _ _ m⟩

/-- The release of frames in the region of an address. -/
theorem freeFrames_refines (e : BitmapList) (m : Mem) (addr : Word) (count : Nat)
    (howns : e.owns addr = true) :
    Rewrites e m (e, e.freeFrames addr count m) ((e.region m).freeFrames addr count) := by
  -- The bound is in blocks, so the word is well within the bitmap.
  have hword : (((addr - e.firstBlock) / 4096 - (addr - e.firstBlock) / 4096 % 31) / 32).toNat
      < e.repeatcount := by
    have hle : (addr - e.firstBlock).toNat ≤ e.blocksCount.toNat := by
      simp only [BitmapList.owns, Bool.and_eq_true, decide_eq_true_eq] at howns
      rcases howns with ⟨hlo, hhi⟩
      bv_omega
    have hdiv : ((addr - e.firstBlock) / 4096 - (addr - e.firstBlock) / 4096 % 31).toNat
        ≤ (addr - e.firstBlock).toNat / 4096 := by
      have hmod : (addr - e.firstBlock) / 4096 % 31 ≤ (addr - e.firstBlock) / 4096 :=
        BitVec.le_def.mpr (Nat.mod_le _ 31)
      rw [BitVec.toNat_sub_of_le hmod]
      exact Nat.sub_le _ _
    rw [BitVec.toNat_udiv, show (32 : Word).toNat = 32 from rfl]
    unfold BitmapList.repeatcount
    omega
  unfold BitmapList.freeFrames Region.freeFrames
  simp only [show (e.region m).firstBlock = e.firstBlock from rfl, e.region_word m _ hword]
  by_cases hroom : 32 - ((addr - e.firstBlock) / 4096 % 31).toNat < count
  · rw [if_pos hroom, if_pos hroom]
    exact ⟨rfl, rfl, SameOutside.refl _ _ m⟩
  · rw [if_neg hroom, if_neg hroom]
    exact ⟨e.region_store m _ _ hword, rfl, e.sameOutside_store m _ _ hword⟩

/-! ### The chain -/

/-- The entries at these places of the pool. -/
def Boot.entries (boot : Boot) (chain : List Nat) : List BitmapList :=
  chain.filterMap fun i => boot.bitmapStack[i]?

/-- The chain of regions behind the pool. -/
def Boot.regions (boot : Boot) (chain : List Nat) : List Region :=
  (boot.entries chain).map fun e => e.region boot.heap.mem

/-- The bytes of the bitmaps of some entries. -/
def bitmapBytes (es : List BitmapList) : Set Nat := {a | ∃ e ∈ es, a ∈ e.bitmap}

/-- The walk from `p` passes these places of the pool, whose bitmaps do not wrap
    and do not overlap. -/
structure Chained (boot : Boot) (p : Option Nat) (chain : List Nat) : Prop where
  links : Links boot.nextOf none p (chain.map some)
  inPool : ∀ i ∈ chain, i < boot.bitmapStack.length
  noWrap : ∀ e ∈ boot.entries chain, e.firstBitmap.toNat + 4 * e.repeatcount ≤ 2 ^ 32
  apart : (boot.entries chain).Pairwise fun e f => Disjoint e.bitmap f.bitmap

/-- Nothing changes but the bitmaps and the starting points of these entries. -/
structure OnlyBitmaps (chain : List Nat) (boot boot' : Boot) : Prop where
  globals : boot'.heap = { boot.heap with mem := boot'.heap.mem }
  first : boot'.firstblock = boot.firstblock
  hints : boot'.bitmapStack.map BitmapList.forgetHint = boot.bitmapStack.map BitmapList.forgetHint
  others : ∀ j, j ∉ chain → boot'.bitmapStack[j]? = boot.bitmapStack[j]?
  outside : ∀ x : Word, x.toNat ∉ bitmapBytes (boot.entries chain) →
    boot'.heap.mem x = boot.heap.mem x

section Entries

variable (boot : Boot)

theorem entries_cons (i : Nat) (rest : List Nat) (e : BitmapList)
    (h : boot.bitmapStack[i]? = some e) : boot.entries (i :: rest) = e :: boot.entries rest := by
  simp only [Boot.entries, List.filterMap_cons, h]

theorem mem_entries (chain : List Nat) (e : BitmapList) :
    e ∈ boot.entries chain ↔ ∃ i ∈ chain, boot.bitmapStack[i]? = some e :=
  List.mem_filterMap

theorem regions_cons (i : Nat) (rest : List Nat) (e : BitmapList)
    (h : boot.bitmapStack[i]? = some e) :
    boot.regions (i :: rest) = e.region boot.heap.mem :: boot.regions rest := by
  simp only [Boot.regions, entries_cons boot i rest e h, List.map_cons]

/-- The first place of the walk, with its entry and the rest of the walk. -/
theorem Chained.cons (i j : Nat) (rest : List Nat) (h : Chained boot (some i) (j :: rest)) :
    j = i ∧ ∃ e, boot.bitmapStack[i]? = some e ∧ boot.entries (i :: rest) = e :: boot.entries rest ∧
      Chained boot e.next rest ∧ i ∉ rest ∧ e.firstBitmap.toNat + 4 * e.repeatcount ≤ 2 ^ 32 ∧
      ∀ f ∈ boot.entries rest, Disjoint e.bitmap f.bitmap := by
  have hij : j = i := (Option.some.inj h.links.1).symm
  subst hij
  have hget := List.getElem?_eq_getElem (h.inPool j List.mem_cons_self)
  have hentries := entries_cons boot j rest _ hget
  have hnodup := Links.nodup _ _ _ _ h.links
  have hlinks := h.links.2.2
  have hnoWrap := h.noWrap
  have hapart := h.apart
  rw [hentries] at hnoWrap hapart
  rw [List.pairwise_cons] at hapart
  simp only [Boot.nextOf, Option.bind_some, hget] at hlinks
  refine ⟨rfl, _, hget, hentries, ⟨hlinks, fun k hk => h.inPool k (List.mem_cons_of_mem j hk),
    fun f hf => hnoWrap f (List.mem_cons_of_mem _ hf), hapart.2⟩, fun hmem => ?_,
    hnoWrap _ List.mem_cons_self, hapart.1⟩
  rw [List.map_cons, List.nodup_cons] at hnodup
  exact hnodup.1 (List.mem_map_of_mem hmem)

end Entries

theorem OnlyBitmaps.refl (chain : List Nat) (boot : Boot) : OnlyBitmaps chain boot boot :=
  ⟨rfl, rfl, rfl, fun _ _ => rfl, fun _ _ => rfl⟩

section Frame

variable (chain : List Nat) (boot boot' : Boot) (h : OnlyBitmaps chain boot boot')

include h

/-- Entry by entry the pool is the same up to starting points. -/
theorem OnlyBitmaps.entry (j : Nat) :
    (boot'.bitmapStack[j]?).map BitmapList.forgetHint
      = (boot.bitmapStack[j]?).map BitmapList.forgetHint := by
  rw [← List.getElem?_map, ← List.getElem?_map, h.hints]

theorem OnlyBitmaps.entries (js : List Nat) :
    (boot'.entries js).map BitmapList.forgetHint = (boot.entries js).map BitmapList.forgetHint := by
  unfold Boot.entries
  rw [List.map_filterMap, List.map_filterMap]
  exact List.filterMap_congr (fun j _ => h.entry chain boot boot' j)

theorem OnlyBitmaps.bitmapBytes (js : List Nat) :
    bitmapBytes (boot'.entries js) = bitmapBytes (boot.entries js) := by
  have hbytes : ∀ es : List BitmapList,
      UnixP6.bitmapBytes (es.map BitmapList.forgetHint) = UnixP6.bitmapBytes es := by
    intro es
    ext a
    simp only [UnixP6.bitmapBytes, List.mem_map, exists_exists_and_eq_and, Set.mem_ofPred_eq]
    exact Iff.rfl
  rw [← hbytes, h.entries chain boot boot' js, hbytes]

theorem OnlyBitmaps.length : boot'.bitmapStack.length = boot.bitmapStack.length := by
  have hlength := congrArg List.length h.hints
  rw [List.length_map, List.length_map] at hlength
  exact hlength

theorem OnlyBitmaps.nextOf (p : Option Nat) : boot'.nextOf p = boot.nextOf p := by
  cases p with
  | none => rfl
  | some j =>
      have hentry := h.entry chain boot boot' j
      simp only [Boot.nextOf, Option.bind_some]
      rcases hj : boot.bitmapStack[j]? with _ | e
      · rw [hj, Option.map_none, Option.map_eq_none_iff] at hentry
        rw [hentry]
      · rw [hj, Option.map_some, Option.map_eq_some_iff] at hentry
        rcases hentry with ⟨e', hj', he'⟩
        rw [hj', Option.bind_some, Option.bind_some]
        exact (BitmapList.fields_of_forgetHint e e' he').1

/-- The chain is kept, whatever part of it the change is to. -/
theorem OnlyBitmaps.chained (p : Option Nat) (js : List Nat) (hjs : Chained boot p js) :
    Chained boot' p js := by
  have hentries := h.entries chain boot boot' js
  refine ⟨Links.congr boot.nextOf boot'.nextOf none _ p
      (fun b _ => h.nextOf chain boot boot' b) hjs.links, ?_, ?_, ?_⟩
  · rw [h.length chain boot boot']
    exact hjs.inPool
  · -- Both conditions look at the bitmaps only.
    intro f hf
    have hmem := List.mem_map_of_mem (f := BitmapList.forgetHint) hf
    rw [hentries, List.mem_map] at hmem
    rcases hmem with ⟨e, he, hef⟩
    rw [(BitmapList.fields_of_forgetHint f e hef).2.1.symm,
      (BitmapList.repeatcount_of_forgetHint f e hef).symm]
    exact hjs.noWrap e he
  · have hapart : ((boot.entries js).map BitmapList.forgetHint).Pairwise
        fun e f => Disjoint e.bitmap f.bitmap := List.pairwise_map.mpr hjs.apart
    rw [← hentries] at hapart
    exact (List.pairwise_map (f := BitmapList.forgetHint)
      (R := fun e f => Disjoint e.bitmap f.bitmap)).mp hapart

/-- Regions whose bitmaps the change does not reach are as they were. -/
theorem OnlyBitmaps.regions (js : List Nat) (hout : ∀ j ∈ js, j ∉ chain)
    (hnoWrap : ∀ e ∈ boot.entries js, e.firstBitmap.toNat + 4 * e.repeatcount ≤ 2 ^ 32)
    (hapart : ∀ e ∈ boot.entries js, Disjoint (UnixP6.bitmapBytes (boot.entries chain)) e.bitmap) :
    boot'.regions js = boot.regions js := by
  have hsame : boot'.entries js = boot.entries js :=
    List.filterMap_congr (fun j hj => h.others j (hout j hj))
  unfold Boot.regions
  rw [hsame]
  refine List.map_congr_left (fun e he => ?_)
  refine BitmapList.region_congr e boot.heap.mem boot'.heap.mem (hnoWrap e he) (fun x hx => ?_)
  exact h.outside x (fun hc => Set.disjoint_left.mp (hapart e he) hc hx)

end Frame

theorem OnlyBitmaps.mono (chain chain' : List Nat) (boot boot' : Boot) (hsub : chain ⊆ chain')
    (h : OnlyBitmaps chain boot boot') : OnlyBitmaps chain' boot boot' := by
  refine ⟨h.globals, h.first, h.hints, fun j hj => h.others j (fun hc => hj (hsub hc)),
    fun x hx => h.outside x (fun hc => hx ?_)⟩
  rcases hc with ⟨e, he, hxe⟩
  rcases (mem_entries boot chain e).mp he with ⟨i, hi, hget⟩
  exact ⟨e, (mem_entries boot chain' e).mpr ⟨i, hsub hi, hget⟩, hxe⟩

theorem OnlyBitmaps.trans (chain : List Nat) (boot boot' boot'' : Boot)
    (h : OnlyBitmaps chain boot boot') (h' : OnlyBitmaps chain boot' boot'') :
    OnlyBitmaps chain boot boot'' := by
  refine ⟨?_, h'.first.trans h.first, h'.hints.trans h.hints,
    fun j hj => (h'.others j hj).trans (h.others j hj), fun x hx => ?_⟩
  · rw [h'.globals, h.globals]
  · refine (h'.outside x ?_).trans (h.outside x hx)
    rw [h.bitmapBytes chain boot boot' chain]
    exact hx

/-- Writing back an entry with a new starting point, and memory changed in its
    bitmap. -/
theorem onlyBitmaps_update (boot : Boot) (i : Nat) (e e' : BitmapList) (m : Mem)
    (hget : boot.bitmapStack[i]? = some e) (hhint : e'.forgetHint = e.forgetHint)
    (hnoWrap : e.firstBitmap.toNat + 4 * e.repeatcount ≤ 2 ^ 32)
    (hmem : SameOutside e.firstBitmap (4 * e.repeatcount) boot.heap.mem m) :
    OnlyBitmaps [i] boot (boot.update i e' m) := by
  refine ⟨rfl, rfl, ?_, fun j hj => ?_, fun x hx => hmem x ?_⟩
  · refine List.ext_getElem? fun j => ?_
    simp only [Boot.update, List.getElem?_map, List.getElem?_set]
    by_cases hij : i = j
    · have hlt := (List.getElem?_eq_some_iff.mp hget).1
      rw [if_pos hij, if_pos hlt, ← hij, hget, Option.map_some, Option.map_some, hhint]
    · rw [if_neg hij]
  · have hij : i ≠ j := fun hc => hj (hc ▸ List.mem_cons_self)
    exact List.getElem?_set_ne hij
  · -- Outside the bitmap as a set of numbers is far from it.
    refine far_of_lt_or_le _ _ _ hnoWrap ?_
    by_contra hc
    rw [not_or, Nat.not_lt, Nat.not_le] at hc
    exact hx ⟨e, (mem_entries boot [i] e).mpr ⟨i, List.mem_cons_self, hget⟩, hc⟩

theorem bitmapBytes_one (boot : Boot) (i : Nat) (e : BitmapList)
    (hget : boot.bitmapStack[i]? = some e) : bitmapBytes (boot.entries [i]) = e.bitmap := by
  rw [entries_cons boot i [] e hget]
  ext a
  constructor
  · rintro ⟨f, hf, ha⟩
    rw [List.mem_singleton.mp hf] at ha
    exact ha
  · exact fun ha => ⟨e, List.mem_cons_self, ha⟩

end UnixP6
