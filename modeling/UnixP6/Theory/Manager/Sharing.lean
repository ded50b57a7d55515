import UnixP6.CSemantics.Ownership
import UnixP6.Theory.Boot.Partition
import UnixP6.Theory.Manager.Calls
import UnixP6.Theory.Manager.Pool

/-!
# One Memory for Heap and Frames

The heap and the frame allocator at work in one memory, in any order of calls,
with the holders of what they hand out writing to it in between. Each keeps its
books in that memory: the headers of the heap, the bitmaps of the regions. What
keeps the two apart is where `mm_init` puts them, and what a call writes.

A call is safe if what is known of the two allocators by themselves allows it:
an allocation on the heap has room for the header after it, an allocation of
frames stays in step and is met inside, a release of frames is of frames that
are held and goes to their bits or to none. A holder writes to what it holds.
Any pointer at all may be given to `kfree`.

## Main definitions

* `ManagerCall`: A call of either allocator, or a write by a holder.
* `Manager`: The globals with everything that is held.
* `Manager.Safe`: The calls that are safe.
* `Held`: A payload or a run of frames.
* `Manager.areas`: The kernel, the heap, and the regions with their bitmaps.
* `Manager.Inv`: Both allocators in order, and the areas apart.
* `Manager.start`: The globals with nothing held.

## Theorems

* `Manager.heap_step`, `Manager.frame_step`, `Manager.write_step`: What a safe
  call does.
* `Manager.step_inv`: A safe call returns and keeps the invariant.
* `Manager.inv_start`: One region behind the heap is a state in order.
-/

namespace UnixP6

open CSemantics
open Block (addr)
open MemBlock (next)

/-- A call of either allocator, or a write of a byte by whoever holds it. -/
inductive ManagerCall
  | heap (c : HeapCall)
  | frame (c : FrameCall)
  | write (x : Word) (v : Byte)

/-- The globals, the pointers `kmalloc` has returned, and the payloads and frames
    that are held. -/
structure Manager where
  boot : Boot
  returned : List Word
  payloads : List (Word × Word)
  frames : List (Word × Word)

/-- What is held: a payload of so many bytes, or so many frames. -/
inductive Held
  | payload (ptr size : Word)
  | frames (ptr count : Word)
deriving DecidableEq

/-- The bytes of it, as numbers. -/
def Held.span : Held → Set Nat
  | .payload ptr size => CSemantics.span ptr.toNat size.toNat
  | .frames ptr count => rangeOf (ptr, count)

/-- The bytes of it. -/
def Held.bytes (r : Held) : Set Word := {x | x.toNat ∈ r.span}

/-- The frames of an entry. -/
def BitmapList.frames (e : BitmapList) : Set Nat :=
  CSemantics.span e.firstBlock.toNat (4096 * e.blocksCount.toNat)

namespace Manager

/-- The heap part of the state. -/
def session (s : Manager) : Session :=
  { heap := s.boot.heap, returned := s.returned, live := s.payloads }

/-- The frames part of the state. -/
def pool (s : Manager) : PoolSession := { boot := s.boot, live := s.frames }

/-- What is held. -/
def Holds (s : Manager) : Held → Prop
  | .payload ptr size => (ptr, size) ∈ s.payloads
  | .frames ptr count => (ptr, count) ∈ s.frames

instance (s : Manager) : (r : Held) → Decidable (s.Holds r)
  | .payload ptr size => inferInstanceAs (Decidable ((ptr, size) ∈ s.payloads))
  | .frames ptr count => inferInstanceAs (Decidable ((ptr, count) ∈ s.frames))

/-- Memory with one byte written. -/
def write (s : Manager) (x : Word) (v : Byte) : Manager :=
  { s with boot := { s.boot with heap := { s.boot.heap with mem := s.boot.heap.mem.store8 x v } } }

/-- One call. -/
def call (s : Manager) : ManagerCall → Option Manager
  | .heap c => (s.session.call c).map fun t =>
      { s with boot := { s.boot with heap := t.heap }, returned := t.returned, payloads := t.live }
  | .frame c => (s.pool.call c).map fun t => { s with boot := t.boot, frames := t.live }
  | .write x v => some (s.write x v)

def Step (s : Manager) (c : ManagerCall) (t : Manager) : Prop := s.call c = some t

/-- The kernel, the heap, and each region with its bitmap. -/
def areas (k : Kernel) (boot : Boot) (chain : List Nat) : List (Set Nat) :=
  Set.Ico k.kernelStart.toNat k.kernelEnd.toNat :: boot.heapRange ::
    (boot.entries chain).flatMap fun e => [e.frames, e.bitmap]

section Chain

variable (k : Kernel) (chain : List Nat)

/-- The calls that are safe. -/
def Safe (s : Manager) : ManagerCall → Prop
  | .heap (.kmalloc size) => s.session.RoomForTail (.kmalloc size)
  | .heap (.kfree _) => True
  | .frame (.alloc count alignUp) => (0 < count.toNat ∧ count.toNat ≤ 32) ∧
      SearchInStep (s.boot.regions chain) count.toNat (effectiveAlign alignUp) ∧
      FrameSession.MetInside (s.boot.regions chain) count.toNat (effectiveAlign alignUp)
  | .frame (.free ptr count) => (ptr, count) ∈ s.frames ∧
      FrameSession.ReleaseAgrees (s.boot.regions chain) ptr
  | .write x _ => ∃ r, s.Holds r ∧ x ∈ r.bytes

/-- Both allocators are in order, what is held of the frames are frames, and the
    areas are apart. -/
structure Inv (s : Manager) : Prop where
  heap : ∃ bs, Session.Inv s.session bs
  pool : Pooled s.boot chain
  frames : FrameSession.Inv (s.pool.abstract chain)
  inside : ∀ pc ∈ s.frames, ∃ e ∈ s.boot.entries chain, rangeOf pc ⊆ e.frames
  areas : (areas k s.boot chain).Pairwise Disjoint

/-! ### Areas -/

section Areas

variable (s : Manager) (h : Inv k chain s)

include h

theorem area_apart (e : BitmapList) (he : e ∈ s.boot.entries chain) :
    Disjoint s.boot.heapRange e.frames ∧ Disjoint s.boot.heapRange e.bitmap ∧
      Disjoint (Set.Ico k.kernelStart.toNat k.kernelEnd.toNat) e.frames ∧
      Disjoint (Set.Ico k.kernelStart.toNat k.kernelEnd.toNat) e.bitmap := by
  have hareas := h.areas
  unfold Manager.areas at hareas
  rw [List.pairwise_cons, List.pairwise_cons] at hareas
  rcases hareas with ⟨hkernel, hheap, _⟩
  have hmem : ∀ a ∈ [e.frames, e.bitmap],
      a ∈ (s.boot.entries chain).flatMap fun e => [e.frames, e.bitmap] :=
    fun a ha => List.mem_flatMap.mpr ⟨e, he, ha⟩
  have hframes := hmem e.frames List.mem_cons_self
  have hbitmap := hmem e.bitmap (List.mem_cons_of_mem _ List.mem_cons_self)
  exact ⟨hheap _ hframes, hheap _ hbitmap, hkernel _ (List.mem_cons_of_mem _ hframes),
    hkernel _ (List.mem_cons_of_mem _ hbitmap)⟩

theorem kernel_heap_apart :
    Disjoint (Set.Ico k.kernelStart.toNat k.kernelEnd.toNat) s.boot.heapRange := by
  have hareas := h.areas
  unfold Manager.areas at hareas
  rw [List.pairwise_cons] at hareas
  exact hareas.1 _ List.mem_cons_self

/-- The frames of one region do not meet the bitmap of any. -/
theorem frames_bitmap_apart (e f : BitmapList) (he : e ∈ s.boot.entries chain)
    (hf : f ∈ s.boot.entries chain) : Disjoint e.frames f.bitmap := by
  have hareas := h.areas
  unfold Manager.areas at hareas
  rw [List.pairwise_cons, List.pairwise_cons] at hareas
  have hflat := hareas.2.2
  rw [List.pairwise_flatMap] at hflat
  rcases hflat with ⟨hown, hcross⟩
  by_cases hef : e = f
  · -- In its own region the bitmap comes after the frames.
    have hpair := hown e he
    rw [List.pairwise_cons] at hpair
    rw [← hef]
    exact hpair.1 _ List.mem_cons_self
  · have hsymm : Std.Symm fun e f : BitmapList =>
        ∀ a ∈ [e.frames, e.bitmap], ∀ b ∈ [f.frames, f.bitmap], Disjoint a b :=
      ⟨fun _ _ hd a ha b hb => Disjoint.symm (hd b hb a ha)⟩
    exact hcross.forall he hf hef _ List.mem_cons_self _
      (List.mem_cons_of_mem _ List.mem_cons_self)

theorem frames_off_bitmaps (e : BitmapList) (he : e ∈ s.boot.entries chain) :
    Disjoint e.frames (bitmapBytes (s.boot.entries chain)) := by
  refine Set.disjoint_left.mpr (fun a ha hb => ?_)
  rcases hb with ⟨f, hf, haf⟩
  exact Set.disjoint_left.mp (frames_bitmap_apart k chain s h e f he hf) ha haf

theorem heap_off_bitmaps : Disjoint s.boot.heapRange (bitmapBytes (s.boot.entries chain)) := by
  refine Set.disjoint_left.mpr (fun a ha hb => ?_)
  rcases hb with ⟨f, hf, haf⟩
  exact Set.disjoint_left.mp (area_apart k chain s h f hf).2.1 ha haf

/-- A payload lies in the heap, off the headers. -/
theorem payload_inside (ptr size : Word) (hmem : (ptr, size) ∈ s.payloads) :
    CSemantics.span ptr.toNat size.toNat ⊆ s.boot.heapRange := by
  rcases h.heap with ⟨bs, hbs⟩
  rcases hbs.contained with ⟨_, _, _, hpayloads, _⟩
  exact hpayloads (ptr, size) hmem

/-- What is held lies off the bitmaps. -/
theorem held_off_bitmaps (r : Held) (hr : s.Holds r) :
    Disjoint r.span (bitmapBytes (s.boot.entries chain)) := by
  cases r with
  | payload ptr size =>
      exact (heap_off_bitmaps k chain s h).mono_left (payload_inside k chain s h ptr size hr)
  | frames ptr count =>
      rcases h.inside (ptr, count) hr with ⟨e, he, hsub⟩
      exact (frames_off_bitmaps k chain s h e he).mono_left hsub

/-- What is held lies off the kernel. -/
theorem held_off_kernel (r : Held) (hr : s.Holds r) :
    Disjoint (Set.Ico k.kernelStart.toNat k.kernelEnd.toNat) r.span := by
  cases r with
  | payload ptr size =>
      exact (kernel_heap_apart k chain s h).mono_right (payload_inside k chain s h ptr size hr)
  | frames ptr count =>
      rcases h.inside (ptr, count) hr with ⟨e, he, hsub⟩
      exact (area_apart k chain s h e he).2.2.1.mono_right hsub

/-- What is held lies off the headers of the heap. -/
theorem held_off_headers (bs : List Block) (hbs : Session.Inv s.session bs) (r : Held)
    (hr : s.Holds r) (x : Word) (hx : x ∈ r.bytes) (b : Block) (hb : b ∈ bs) : Far b.addr 16 x := by
  cases r with
  | payload ptr size => exact hbs.far_header _ bs (ptr, size) hr x hx b hb
  | frames ptr count =>
      rcases h.inside (ptr, count) hr with ⟨e, he, hsub⟩
      have hin := hbs.header_inside _ bs b hb
      refine Session.far_of_outside _ bs hbs x (fun hc => ?_) b.addr hin.1 (by omega)
      exact Set.disjoint_left.mp (area_apart k chain s h e he).1 hc (hsub hx)

/-- Two different things held do not meet. -/
theorem held_apart (r q : Held) (hr : s.Holds r) (hq : s.Holds q) (hrq : r ≠ q) :
    Disjoint r.span q.span := by
  rcases h.heap with ⟨bs, hbs⟩
  have hcross : ∀ ptr size ptr' count, (ptr, size) ∈ s.payloads → (ptr', count) ∈ s.frames →
      Disjoint (Held.payload ptr size).span (Held.frames ptr' count).span := by
    intro ptr size ptr' count hp hf
    rcases h.inside (ptr', count) hf with ⟨e, he, hsub⟩
    exact ((area_apart k chain s h e he).1.mono_left
      (payload_inside k chain s h ptr size hp)).mono_right hsub
  cases r with
  | payload ptr size =>
      cases q with
      | payload ptr' size' =>
          have hsymm : Std.Symm fun pn qk : Word × Word => Disjoint
              (CSemantics.span pn.1.toNat pn.2.toNat) (CSemantics.span qk.1.toNat qk.2.toNat) :=
            ⟨fun _ _ hd => Disjoint.symm hd⟩
          exact (hbs.live_apart _ bs).forall hr hq (fun hc => hrq (by
            rw [Prod.mk.injEq] at hc
            rw [hc.1, hc.2]))
      | frames ptr' count => exact hcross ptr size ptr' count hr hq
  | frames ptr count =>
      cases q with
      | payload ptr' size => exact (hcross ptr' size ptr count hq hr).symm
      | frames ptr' count' =>
          have hsymm : Std.Symm fun pc qd : Word × Word => Disjoint (rangeOf pc) (rangeOf qd) :=
            ⟨fun _ _ hd => Disjoint.symm hd⟩
          exact h.frames.apart.forall hr hq (fun hc => hrq (by
            rw [Prod.mk.injEq] at hc
            rw [hc.1, hc.2]))

end Areas

/-! ### What a call does -/

/-- What may be handed out: the heap and the frames. -/
def arena (boot : Boot) : Set Word :=
  {x | x.toNat ∈ boot.heapRange ∨ ∃ e ∈ boot.entries chain, x.toNat ∈ e.frames}

/-- Heap and regions stay where they are, and memory changes inside the heap, in
    bitmaps, and where it is written. -/
structure StaysIn (s t : Manager) : Prop where
  areas : Manager.areas k t.boot chain = Manager.areas k s.boot chain
  arena : Manager.arena chain t.boot = Manager.arena chain s.boot
  kernel : ∀ x : Word, x.toNat ∈ Set.Ico k.kernelStart.toNat k.kernelEnd.toNat →
    t.boot.heap.mem x = s.boot.heap.mem x

/-- Areas and arena are read off the range of the heap and the entries up to their
    starting points. -/
theorem areas_congr (boot boot' : Boot) (hrange : boot'.heapRange = boot.heapRange)
    (hentries : (boot'.entries chain).map BitmapList.forgetHint
      = (boot.entries chain).map BitmapList.forgetHint) :
    areas k boot' chain = areas k boot chain ∧ arena chain boot' = arena chain boot := by
  have hflat : ∀ es : List BitmapList, (es.flatMap fun e => [e.frames, e.bitmap])
      = (es.map BitmapList.forgetHint).flatMap fun e => [e.frames, e.bitmap] := by
    intro es
    rw [List.flatMap_map]
    rfl
  have hex : ∀ (es : List BitmapList) (a : Nat), (∃ e ∈ es, a ∈ e.frames)
      ↔ ∃ e ∈ es.map BitmapList.forgetHint, a ∈ e.frames := by
    intro es a
    simp only [List.mem_map, exists_exists_and_eq_and]
    exact Iff.rfl
  constructor
  · unfold areas
    rw [hrange, hflat, hentries, ← hflat]
  · unfold arena
    ext x
    simp only [Set.mem_ofPred_eq]
    rw [hrange, hex, hentries, ← hex]

section Steps

variable (s : Manager) (h : Inv k chain s)

include h

/-- A safe call of the heap returns, writes inside the heap, and leaves every
    payload as it is. -/
theorem heap_step (c : HeapCall) (hsafe : s.Safe chain (.heap c)) :
    ∃ t, s.call (.heap c) = some t ∧ Inv k chain t ∧ s.StaysIn k chain t ∧
      (∃ u, s.session.call c = some u ∧ t.payloads = u.live) ∧ t.frames = s.frames ∧
      ∀ r, s.Holds r → ∀ x ∈ r.bytes, t.boot.heap.mem x = s.boot.heap.mem x := by
  rcases h.heap with ⟨bs, hbs⟩
  -- The heap on its own, with room where the call asks for it.
  have hroom : s.session.RoomForTail c := by
    cases c with
    | kmalloc size => exact hsafe
    | kfree ptr => trivial
  have hone : ∃ u bs', s.session.call c = some u ∧ Session.Inv u bs' ∧ s.session.KeepsPayloads u := by
    cases c with
    | kmalloc size => exact Session.inv_kmalloc s.session bs size hbs hroom
    | kfree ptr => exact Session.inv_kfree s.session bs ptr hbs
  rcases hone with ⟨u, bs', hu, huInv, hkeeps⟩
  have hout : ∀ x : Word, x.toNat ∉ s.boot.heapRange → u.heap.mem x = s.boot.heap.mem x :=
    fun x hx => Session.call_outside s.session bs hbs x hx c u hroom hu
  rcases Session.call_globals s.session u c hu with ⟨hbase, htotal⟩
  have hrange : ({ s.boot with heap := u.heap } : Boot).heapRange = s.boot.heapRange := by
    unfold Boot.heapRange
    rw [show u.heap.mDynBase = s.boot.heap.mDynBase from hbase,
      show u.heap.mDynTotal = s.boot.heap.mDynTotal from htotal]
  rcases areas_congr k chain s.boot { s.boot with heap := u.heap } hrange rfl with ⟨hareas, harena⟩
  -- No bitmap is in the heap, so the regions are the same.
  have hregions : ({ s.boot with heap := u.heap } : Boot).regions chain = s.boot.regions chain := by
    refine List.map_congr_left (fun e he => ?_)
    refine e.region_congr _ _ (h.pool.chained.noWrap e he) (fun x hx => hout x (fun hc => ?_))
    exact Set.disjoint_left.mp (area_apart k chain s h e he).2.1 hc hx
  have hcall : s.call (.heap c) = some { s with
      boot := { s.boot with heap := u.heap }, returned := u.returned, payloads := u.live } := by
    simp only [call, hu, Option.map_some]
  refine ⟨_, hcall, ⟨⟨bs', huInv⟩, h.pool.of_heap _ u.heap chain, ?_, h.inside, ?_⟩,
    ⟨hareas, harena, fun x hx => hout x ?_⟩, ⟨u, hu, rfl⟩, rfl, fun r hr x hx => ?_⟩
  · have hframes := h.frames
    simp only [PoolSession.abstract, pool] at hframes ⊢
    rw [hregions]
    exact hframes
  · rw [hareas]
    exact h.areas
  · exact Set.disjoint_left.mp (kernel_heap_apart k chain s h) hx
  · cases r with
    | payload ptr size => exact hkeeps (ptr, size) hr x hx
    | frames ptr count =>
        rcases h.inside (ptr, count) hr with ⟨e, he, hsub⟩
        exact hout x (fun hc =>
          Set.disjoint_left.mp (area_apart k chain s h e he).1 hc (hsub hx))

/-- What a change to bitmaps alone keeps. -/
theorem keeps_of_onlyBitmaps (boot' : Boot) (honly : OnlyBitmaps chain s.boot boot') :
    (∃ bs, Session.Inv { s.session with heap := boot'.heap } bs) ∧
      areas k boot' chain = areas k s.boot chain ∧ arena chain boot' = arena chain s.boot ∧
      ∀ x : Word, x.toNat ∉ bitmapBytes (s.boot.entries chain) →
        boot'.heap.mem x = s.boot.heap.mem x := by
  rcases h.heap with ⟨bs, hbs⟩
  have hrange : boot'.heapRange = s.boot.heapRange := by
    unfold Boot.heapRange
    rw [honly.globals]
  rcases areas_congr k chain s.boot boot' hrange (honly.entries chain _ _ chain) with
    ⟨hareas, harena⟩
  refine ⟨⟨bs, ?_⟩, hareas, harena, honly.outside⟩
  have hheap := Session.inv_of_headers s.session bs boot'.heap.mem hbs (fun b hb x hx => ?_)
  · rw [honly.globals]
    exact hheap
  · -- A byte of a header is in the heap, so it is in no bitmap.
    refine honly.outside x (fun hc => ?_)
    have hin := hbs.header_inside _ bs b hb
    refine hx (Session.far_of_outside _ bs hbs x (fun hheap => ?_) b.addr hin.1 (by omega))
    exact Set.disjoint_left.mp (heap_off_bitmaps k chain s h) hheap hc

/-- Over the regions, a safe call returns and hands out frames of a region. -/
theorem frameCall_abstract (c : FrameCall) (hsafe : s.Safe chain (.frame c)) :
    ∃ u, (s.pool.abstract chain).call c = some u ∧ FrameSession.Inv u ∧
      ∀ pc ∈ u.live, ∃ r ∈ s.boot.regions chain, rangeOf pc ⊆ r.frames := by
  have hlive : ∀ pc ∈ s.frames, ∃ r ∈ s.boot.regions chain, rangeOf pc ⊆ r.frames := by
    intro pc hpc
    rcases h.inside pc hpc with ⟨e, he, hsub⟩
    exact ⟨_, List.mem_map_of_mem he, hsub⟩
  cases c with
  | alloc count alignUp =>
      rcases hsafe with ⟨hallowed, hin, hinside⟩
      rcases FrameSession.inv_alloc _ count alignUp h.frames hallowed hin with
        ⟨res, hres, hspec, hinv⟩
      refine ⟨_, by simp only [FrameSession.call, hres, Option.map_some], hinv,
        fun pc hpc => ?_⟩
      by_cases hnull : res.1 = 0
      · rw [if_pos hnull] at hpc
        exact hlive pc hpc
      · rw [if_neg hnull] at hpc
        rcases List.mem_cons.mp hpc with rfl | hpc
        · exact FrameSession.alloc_inside _ _ _ res h.frames.separate hinside hspec hnull
        · exact hlive pc hpc
  | free ptr count =>
      rcases hsafe with ⟨hmem, hagree⟩
      rcases FrameSession.inv_free _ ptr count h.frames hmem hagree with ⟨rs, hrs, _, hinv⟩
      exact ⟨_, by simp only [FrameSession.call, hrs, Option.map_some], hinv,
        fun pc hpc => hlive pc (List.mem_of_mem_erase hpc)⟩

/-- A safe call of the frame allocator returns, writes in bitmaps, and leaves
    everything held as it is. -/
theorem frame_step (c : FrameCall) (hsafe : s.Safe chain (.frame c)) :
    ∃ t, s.call (.frame c) = some t ∧ Inv k chain t ∧ s.StaysIn k chain t ∧
      (∃ u, (s.pool.abstract chain).call c = some u ∧ t.frames = u.live) ∧
      t.payloads = s.payloads ∧
      ∀ r, s.Holds r → ∀ x ∈ r.bytes, t.boot.heap.mem x = s.boot.heap.mem x := by
  rcases frameCall_abstract k chain s h c hsafe with ⟨u, hu, huInv, hinside⟩
  -- The call in memory has the same outcome.
  have hrefines := PoolSession.call_abstract s.pool chain h.pool c
  rw [hu, Option.map_eq_some_iff] at hrefines
  rcases hrefines with ⟨t, ht, rfl⟩
  have honly := PoolSession.call_only s.pool chain h.pool c t ht
  rcases keeps_of_onlyBitmaps k chain s h t.boot honly with ⟨hheap, hareas, harena, hout⟩
  have hcall : s.call (.frame c) = some { s with boot := t.boot, frames := t.live } := by
    simp only [call, ht, Option.map_some]
  refine ⟨_, hcall, ⟨hheap, h.pool.of_onlyBitmaps _ _ _ honly, huInv, fun pc hpc => ?_, ?_⟩,
    ⟨hareas, harena, fun x hx => hout x (fun hc => ?_)⟩, ⟨_, hu, rfl⟩, rfl, fun r hr x hx => ?_⟩
  · -- The regions are those of the entries, which have not moved.
    rcases hinside pc hpc with ⟨r, hr, hsub⟩
    rcases List.mem_map.mp hr with ⟨e, he, rfl⟩
    have hmem := List.mem_map_of_mem (f := BitmapList.forgetHint) he
    have hsame := honly.entries chain _ _ chain
    simp only [pool] at hsame
    rw [← hsame, List.mem_map] at hmem
    rcases hmem with ⟨f, hf, hfe⟩
    rcases BitmapList.fields_of_forgetHint e f hfe with ⟨_, _, hblocks, hfirst⟩
    refine ⟨f, hf, ?_⟩
    unfold BitmapList.frames
    rw [hblocks, hfirst]
    exact hsub
  · rw [hareas]
    exact h.areas
  · rcases hc with ⟨e, he, hxe⟩
    exact Set.disjoint_left.mp (area_apart k chain s h e he).2.2.2 hx hxe
  · exact hout x (Set.disjoint_left.mp (held_off_bitmaps k chain s h r hr) hx)

/-- A write by a holder changes the byte and nothing else. -/
theorem write_step (x : Word) (v : Byte) (hsafe : s.Safe chain (.write x v)) :
    Inv k chain (s.write x v) ∧ s.StaysIn k chain (s.write x v) := by
  rcases hsafe with ⟨r, hr, hx⟩
  rcases h.heap with ⟨bs, hbs⟩
  have hother : ∀ y, y ≠ x → (s.write x v).boot.heap.mem y = s.boot.heap.mem y :=
    fun y hy => Mem.store8_ne _ x y v hy
  -- The byte is in no header, in no bitmap, and not in the kernel.
  have hheap := Session.inv_of_headers s.session bs (s.boot.heap.mem.store8 x v) hbs
    (fun b hb y hy => hother y (fun hc =>
      hy (hc ▸ held_off_headers k chain s h bs hbs r hr x hx b hb)))
  have hregions : (s.write x v).boot.regions chain = s.boot.regions chain := by
    refine List.map_congr_left (fun e he => ?_)
    refine e.region_congr _ _ (h.pool.chained.noWrap e he) (fun y hy => hother y (fun hc => ?_))
    exact Set.disjoint_left.mp (held_off_bitmaps k chain s h r hr) hx ⟨e, he, hc ▸ hy⟩
  refine ⟨⟨⟨bs, hheap⟩, h.pool.of_heap _ _ chain, ?_, h.inside, h.areas⟩, rfl, rfl,
    fun y hy => hother y (fun hc => ?_)⟩
  · have hframes := h.frames
    simp only [PoolSession.abstract, pool] at hframes ⊢
    rw [hregions]
    exact hframes
  · exact Set.disjoint_left.mp (held_off_kernel k chain s h r hr) hy (hc ▸ hx)

/-- A safe call returns, keeps the invariant, and leaves heap, regions and the
    kernel where they are. -/
theorem step_inv (c : ManagerCall) (hsafe : s.Safe chain c) :
    ∃ t, s.call c = some t ∧ Inv k chain t ∧ s.StaysIn k chain t := by
  cases c with
  | heap c =>
      rcases heap_step k chain s h c hsafe with ⟨t, ht, hinv, hstays, _⟩
      exact ⟨t, ht, hinv, hstays⟩
  | frame c =>
      rcases frame_step k chain s h c hsafe with ⟨t, ht, hinv, hstays, _⟩
      exact ⟨t, ht, hinv, hstays⟩
  | write x v =>
      rcases write_step k chain s h x v hsafe with ⟨hinv, hstays⟩
      exact ⟨_, rfl, hinv, hstays⟩

end Steps

end Chain

/-! ### Where nothing is held -/

/-- The globals with nothing held. -/
def start (boot : Boot) : Manager := { boot := boot, returned := [], payloads := [], frames := [] }

theorem not_holds_start (boot : Boot) (r : Held) : ¬ (start boot).Holds r := by
  cases r with
  | payload ptr size => exact List.not_mem_nil
  | frames ptr count => exact List.not_mem_nil

section OneRegion

variable (k : Kernel) (boot : Boot) (e : BitmapList) (hstack : boot.bitmapStack = [e])
  (hfirst : boot.firstblock = some 0) (hnext : e.next = none)
  (hend : e.firstBitmap.toNat + 4 * e.repeatcount ≤ 2 ^ 32)

include hstack

theorem entries_one : boot.entries [0] = [e] :=
  entries_cons boot 0 [] e (by rw [hstack]; rfl)

theorem regions_one : boot.regions [0] = [e.region boot.heap.mem] :=
  regions_cons boot 0 [] e (by rw [hstack]; rfl)

include hfirst hnext hend

theorem pooled_region : Pooled boot [0] := by
  refine ⟨?_, ⟨hfirst, Option.some_ne_none 0, ?_⟩, ?_, fun f hf => ?_, ?_⟩
  · rw [hstack]
    exact Nat.succ_le_of_lt (by decide)
  · simp only [Boot.nextOf, Option.bind_some, hstack, List.getElem?_cons_zero, hnext]
    rfl
  · intro i hi
    rw [List.mem_singleton.mp hi, hstack]
    exact Nat.one_pos
  · rw [entries_one boot e hstack, List.mem_singleton] at hf
    rw [hf]
    exact hend
  · rw [entries_one boot e hstack]
    exact List.pairwise_singleton _ _

/-- One region behind the heap, and the heap behind the kernel, is a state in
    order. -/
theorem inv_start (hbitmap : e.firstBitmap.toNat = e.firstBlock.toNat + 4096 * e.blocksCount.toNat)
    (hcover : e.firstBlock.toNat + 131072 * e.repeatcount ≤ 2 ^ 32)
    (hheap : ∃ bs, Session.Inv (start boot).session bs)
    (hkernel : k.kernelEnd.toNat ≤ boot.heap.mDynBase.toNat)
    (hbehind : boot.heap.mDynBase.toNat + boot.heap.mDynTotal.toNat ≤ e.firstBlock.toNat) :
    Inv k [0] (start boot) := by
  have hentries := entries_one boot e hstack
  have hregions := regions_one boot e hstack
  have hno : ∀ pc : Word × Word, pc ∉ ([] : List (Word × Word)) := fun pc => List.not_mem_nil
  refine ⟨hheap, pooled_region boot e hstack hfirst hnext hend,
    ⟨?_, ⟨fun r hr => ?_, ?_⟩, List.Pairwise.nil, ?_, fun pc hpc => absurd hpc (hno pc)⟩,
    fun pc hpc => absurd hpc (hno pc), ?_⟩
  · simp only [PoolSession.abstract, pool, start, hregions]
    exact List.cons_ne_nil _ _
  · simp only [PoolSession.abstract, pool, start, hregions, List.mem_singleton] at hr
    rw [hr]
    exact hcover
  · simp only [PoolSession.abstract, pool, start, hregions]
    exact List.pairwise_singleton _ _
  · rintro a ⟨pc, hpc, _⟩
    exact absurd hpc (hno pc)
  · -- Kernel, heap, frames and bitmap follow one another.
    unfold Manager.areas
    simp only [start, hentries, List.flatMap_cons, List.flatMap_nil, List.append_nil,
      List.pairwise_cons, List.mem_cons, List.not_mem_nil, or_false, forall_eq_or_imp, forall_eq,
      false_imp_iff, implies_true, List.Pairwise.nil, and_true]
    simp only [Boot.heapRange, BitmapList.frames, BitmapList.bitmap, CSemantics.span,
      Set.Ico_disjoint_Ico]
    unfold BitmapList.repeatcount
    omega

end OneRegion

end Manager

end UnixP6
