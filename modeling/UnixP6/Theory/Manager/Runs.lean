import UnixP6.Theory.Manager.Sharing

/-!
# Runs of the Memory Manager

What the holders of memory see of the two allocators, over whole runs. To them
the manager is a store with owned ranges: an allocation that is granted gives
them a range nobody else has, a release takes it back, and in between only
their own writes change it. Every run of safe calls is a run of that store
(`run_refines_store`), and what holds of its runs holds of the manager.

The books of the allocators are no part of the store. That they are never
written by a holder, nor the kernel by anyone, is `run_safe`, together with the
fact that a safe call returns.

## Main definitions

* `Manager.store`: What the holders see.
* `Manager.Shows`: The state shows this store.
* `Manager.Does`: What a call does to the store.
* `ManagerCall.Spares`: A call that leaves a byte of a range alone.

## Theorems

* `step_refines`: A safe call does to the store what it should.
* `run_refines_store`: Every run of safe calls is a run of the store.
* `run_safe`: Ranges, books and kernel stay apart, and safe calls return.
* `run_reads_back`: What a holder writes is what it reads.
-/

namespace UnixP6

open CSemantics
open Block (addr)
open MemBlock (next)

namespace Manager

/-- What the holders see: what they hold, and memory. -/
def store (s : Manager) : Store Held Word Byte :=
  { owned := {r | s.Holds r}, content := s.boot.heap.mem }

/-- The store has what is held, with the content it has in memory. -/
structure Shows (s : Manager) (u : Store Held Word Byte) : Prop where
  owned : ∀ r, r ∈ u.owned ↔ s.Holds r
  content : ∀ r, s.Holds r → ∀ x ∈ r.bytes, u.content x = s.boot.heap.mem x

/-- What a call does to the store. An allocation that is not granted does nothing,
    and `kfree` takes back whatever starts at the pointer. -/
def Does : ManagerCall → List (StoreAct Held Word Byte) → Prop
  | .heap (.kmalloc size), acts => acts = [] ∨ ∃ ptr, acts = [.acquire (.payload ptr size)]
  | .heap (.kfree ptr), acts => acts = [.release {r | ∃ size, r = .payload ptr size}]
  | .frame (.alloc count _), acts => acts = [] ∨ ∃ ptr, acts = [.acquire (.frames ptr count)]
  | .frame (.free ptr count), acts => acts = [.release {.frames ptr count}]
  | .write x v, acts => acts = [.write x v]

theorem shows_store (s : Manager) : s.Shows s.store := ⟨fun _ => Iff.rfl, fun _ _ _ _ => rfl⟩

/-- A byte that has an owner in the store is a byte of something held. -/
theorem Shows.byte (s : Manager) (u : Store Held Word Byte) (h : s.Shows u) (x : Word)
    (hx : x ∈ u.ownedBytes Held.bytes) : ∃ r, s.Holds r ∧ x ∈ r.bytes := by
  rcases hx with ⟨r, hr, hxr⟩
  exact ⟨r, (h.owned r).mp hr, hxr⟩

/-- Memory that is the same wherever something was held keeps the store. -/
theorem Shows.keeps (s t : Manager) (u : Store Held Word Byte) (h : s.Shows u)
    (hmem : ∀ r, s.Holds r → ∀ x ∈ r.bytes, t.boot.heap.mem x = s.boot.heap.mem x) :
    u.Keeps Held.bytes t.store := by
  intro x hx
  rcases h.byte s u x hx with ⟨r, hr, hxr⟩
  exact (hmem r hr x hxr).trans (h.content r hr x hxr).symm

theorem disjoint_bytes (r q : Held) (h : Disjoint r.span q.span) : Disjoint r.bytes q.bytes :=
  Set.disjoint_left.mpr fun _ hx hxq => Set.disjoint_left.mp h hx hxq

section Chain

variable (k : Kernel) (chain : List Nat) (s t : Manager) (u : Store Held Word Byte)

/-- What is held lies in the arena. -/
theorem held_in_arena (h : Inv k chain s) (r : Held) (hr : s.Holds r) :
    r.bytes ⊆ arena chain s.boot := by
  intro x hx
  cases r with
  | payload ptr size => exact Or.inl (payload_inside k chain s h ptr size hr hx)
  | frames ptr count =>
      rcases h.inside (ptr, count) hr with ⟨e, he, hsub⟩
      exact Or.inr ⟨e, he, hsub hx⟩

/-- A state in order shows a store with disjoint ranges in the arena. -/
theorem store_sound (h : Inv k chain s) : s.store.Sound Held.bytes (arena chain s.boot) :=
  ⟨fun r hr => held_in_arena k chain s h r hr, fun r hr q hq hrq =>
    disjoint_bytes r q (held_apart k chain s h r q hr hq hrq)⟩

/-- A grant of something apart from all that was held is an acquisition. -/
theorem acquire_refines (ht : Inv k chain t) (hshows : s.Shows u) (r : Held)
    (harena : arena chain t.boot = arena chain s.boot)
    (hholds : ∀ q, t.Holds q ↔ q = r ∨ s.Holds q) (hfree : ∀ q, s.Holds q → Disjoint q.span r.span)
    (hmem : ∀ q, s.Holds q → ∀ x ∈ q.bytes, t.boot.heap.mem x = s.boot.heap.mem x) :
    u.Step Held.bytes (arena chain s.boot) (.acquire r) t.store := by
  refine ⟨?_, Set.disjoint_left.mpr fun x hx hxr => ?_, ?_, hshows.keeps s t u hmem⟩
  · rw [← harena]
    exact held_in_arena k chain t ht r ((hholds r).mpr (Or.inl rfl))
  · rcases hshows.byte s u x hx with ⟨q, hq, hxq⟩
    exact Set.disjoint_left.mp (hfree q hq) hxq hxr
  · ext q
    show t.Holds q ↔ q = r ∨ q ∈ u.owned
    rw [hholds q, hshows.owned q]

/-- A release of what is no longer held is one in the store. -/
theorem release_refines (hshows : s.Shows u) (rs : Set Held) (A : Set Word)
    (hholds : ∀ q, t.Holds q ↔ s.Holds q ∧ q ∉ rs)
    (hmem : ∀ q, s.Holds q → ∀ x ∈ q.bytes, t.boot.heap.mem x = s.boot.heap.mem x) :
    u.Step Held.bytes A (.release rs) t.store := by
  refine ⟨?_, hshows.keeps s t u hmem⟩
  ext q
  show t.Holds q ↔ q ∈ u.owned ∧ q ∉ rs
  rw [hholds q, hshows.owned q]

/-- A safe call of the heap does to the store what it should. -/
theorem heap_refines (h : Inv k chain s) (hshows : s.Shows u) (c : HeapCall)
    (hsafe : s.Safe chain (.heap c))
    (hcall : s.call (.heap c) = some t) :
    ∃ acts v, Does (.heap c) acts ∧ Run (Store.Step Held.bytes (arena chain s.boot)) u acts v ∧
      t.Shows v := by
  rcases heap_step k chain s h c hsafe with
    ⟨t', ht', hinv, hstays, ⟨w, hw, hpayloads⟩, hframes, hmem⟩
  rw [hcall, Option.some.injEq] at ht'
  subst ht'
  cases c with
  | kmalloc size =>
      simp only [Session.call, Option.map_eq_some_iff] at hw
      rcases hw with ⟨ph, _, rfl⟩
      simp only [session] at hpayloads
      by_cases hnull : ph.1 = 0
      · -- Not granted: nothing is held that was not.
        rw [if_pos hnull] at hpayloads
        have hholds : ∀ q, t.Holds q ↔ s.Holds q := by
          intro q
          cases q <;> simp only [Holds, hpayloads, hframes]
        refine ⟨[], u, Or.inl rfl, Run.nil u, fun q => (hshows.owned q).trans (hholds q).symm,
          fun q hq x hx => ?_⟩
        rw [hmem q ((hholds q).mp hq) x hx]
        exact hshows.content q ((hholds q).mp hq) x hx
      · rw [if_neg hnull] at hpayloads
        have hholds : ∀ q, t.Holds q ↔ q = .payload ph.1 size ∨ s.Holds q := by
          intro q
          cases q with
          | payload ptr n =>
              simp only [Holds, hpayloads, List.mem_cons, Prod.mk.injEq, Held.payload.injEq]
          | frames ptr n => simp only [Holds, hframes, reduceCtorEq, false_or]
        have hfree : ∀ q, s.Holds q → Disjoint q.span (Held.payload ph.1 size).span := by
          intro q hq
          cases q with
          | payload ptr n =>
              -- The chain keeps live payloads apart, this one and the ones before.
              rcases hinv.heap with ⟨bs, hbs⟩
              have hapart := hbs.live_apart _ bs
              simp only [session, hpayloads, List.pairwise_cons] at hapart
              exact (hapart.1 (ptr, n) hq).symm
          | frames ptr n =>
              exact held_apart k chain t hinv _ _ ((hholds _).mpr (Or.inr hq))
                ((hholds _).mpr (Or.inl rfl))
                (by simp only [ne_eq, reduceCtorEq, not_false_eq_true])
        exact ⟨_, t.store, Or.inr ⟨ph.1, rfl⟩, Run.cons _ _ _ _ _
          (acquire_refines k chain s t u hinv hshows _ hstays.arena hholds hfree hmem) (Run.nil _),
          shows_store t⟩
  | kfree ptr =>
      simp only [Session.call, Option.map_eq_some_iff] at hw
      rcases hw with ⟨heap, _, rfl⟩
      simp only [session] at hpayloads
      refine ⟨_, t.store, rfl,
        Run.cons _ _ _ _ _ (release_refines s t u hshows _ _ (fun q => ?_) hmem)
        (Run.nil _), shows_store t⟩
      cases q with
      | payload p n =>
          simp only [Holds, hpayloads, List.mem_filter, decide_eq_true_eq, Set.mem_ofPred_eq,
            Held.payload.injEq, not_exists, not_and]
          exact and_congr_right fun _ => ⟨fun hne _ hp => absurd hp hne, fun hne hp => hne n hp rfl⟩
      | frames p n =>
          simp only [Holds, hframes, Set.mem_ofPred_eq, reduceCtorEq, exists_false, not_false_eq_true,
            and_true]

/-- The runs held are of at least one frame and do not meet, so none is held
    twice. -/
theorem frames_nodup (h : Inv k chain s) : s.frames.Nodup := by
  refine List.Pairwise.imp_of_mem (fun {pc qd} hpc _ hapart heq => ?_) h.frames.apart
  have hpos := (h.frames.placed pc hpc).1
  have hbyte : pc.1.toNat ∈ rangeOf pc := Set.mem_Ico.mpr ⟨Nat.le_refl _, by omega⟩
  exact Set.disjoint_left.mp hapart hbyte (heq ▸ hbyte)

/-- A safe call of the frame allocator does to the store what it should. -/
theorem frame_refines (h : Inv k chain s) (hshows : s.Shows u) (c : FrameCall)
    (hsafe : s.Safe chain (.frame c)) (hcall : s.call (.frame c) = some t) :
    ∃ acts v, Does (.frame c) acts ∧ Run (Store.Step Held.bytes (arena chain s.boot)) u acts v ∧
      t.Shows v := by
  rcases frame_step k chain s h c hsafe with
    ⟨t', ht', hinv, hstays, ⟨w, hw, hframes⟩, hpayloads, hmem⟩
  rw [hcall, Option.some.injEq] at ht'
  subst ht'
  cases c with
  | alloc count alignUp =>
      simp only [FrameSession.call, Option.map_eq_some_iff] at hw
      rcases hw with ⟨res, _, rfl⟩
      simp only [PoolSession.abstract, pool] at hframes
      by_cases hnull : res.1 = 0
      · rw [if_pos hnull] at hframes
        have hholds : ∀ q, t.Holds q ↔ s.Holds q := by
          intro q
          cases q <;> simp only [Holds, hpayloads, hframes]
        refine ⟨[], u, Or.inl rfl, Run.nil u, fun q => (hshows.owned q).trans (hholds q).symm,
          fun q hq x hx => ?_⟩
        rw [hmem q ((hholds q).mp hq) x hx]
        exact hshows.content q ((hholds q).mp hq) x hx
      · rw [if_neg hnull] at hframes
        have hholds : ∀ q, t.Holds q ↔ q = .frames res.1 count ∨ s.Holds q := by
          intro q
          cases q with
          | payload ptr n => simp only [Holds, hpayloads, reduceCtorEq, false_or]
          | frames ptr n =>
              simp only [Holds, hframes, List.mem_cons, Prod.mk.injEq, Held.frames.injEq]
        have hfree : ∀ q, s.Holds q → Disjoint q.span (Held.frames res.1 count).span := by
          intro q hq
          cases q with
          | payload ptr n =>
              exact held_apart k chain t hinv _ _ ((hholds _).mpr (Or.inr hq))
                ((hholds _).mpr (Or.inl rfl))
                (by simp only [ne_eq, reduceCtorEq, not_false_eq_true])
          | frames ptr n =>
              have hapart := hinv.frames.apart
              simp only [PoolSession.abstract, pool, hframes, List.pairwise_cons] at hapart
              exact (hapart.1 (ptr, n) hq).symm
        exact ⟨_, t.store, Or.inr ⟨res.1, rfl⟩, Run.cons _ _ _ _ _
          (acquire_refines k chain s t u hinv hshows _ hstays.arena hholds hfree hmem) (Run.nil _),
          shows_store t⟩
  | free ptr count =>
      simp only [FrameSession.call, Option.map_eq_some_iff] at hw
      rcases hw with ⟨rs, _, rfl⟩
      simp only [PoolSession.abstract, pool] at hframes
      refine ⟨_, t.store, rfl,
        Run.cons _ _ _ _ _ (release_refines s t u hshows _ _ (fun q => ?_) hmem)
        (Run.nil _), shows_store t⟩
      cases q with
      | payload p n =>
          simp only [Holds, hpayloads, Set.mem_singleton_iff, reduceCtorEq, not_false_eq_true, and_true]
      | frames p n =>
          simp only [Holds, hframes, (frames_nodup k chain s h).mem_erase_iff, Set.mem_singleton_iff,
            Held.frames.injEq, ne_eq, Prod.mk.injEq]
          exact and_comm

/-- A write by a holder is a write in the store. -/
theorem write_refines (hshows : s.Shows u) (x : Word) (v : Byte) (A : Set Word)
    (hsafe : s.Safe chain (.write x v)) :
    u.Step Held.bytes A (.write x v) (s.write x v).store := by
  rcases hsafe with ⟨r, hr, hx⟩
  refine ⟨⟨r, (hshows.owned r).mpr hr, hx⟩, Set.ext fun q => (hshows.owned q).symm,
    Mem.store8_self _ x v, fun y hy hyx => ?_⟩
  rcases hshows.byte s u y hy with ⟨q, hq, hyq⟩
  exact (Mem.store8_ne _ x y v hyx).trans (hshows.content q hq y hyq).symm

/-- A safe call does to the store what it should. -/
theorem step_refines (h : Inv k chain s) (hshows : s.Shows u) (c : ManagerCall)
    (hsafe : s.Safe chain c) (hcall : s.call c = some t) :
    ∃ acts v, Does c acts ∧ Run (Store.Step Held.bytes (arena chain s.boot)) u acts v ∧
      t.Shows v := by
  cases c with
  | heap c => exact heap_refines k chain s t u h hshows c hsafe hcall
  | frame c => exact frame_refines k chain s t u h hshows c hsafe hcall
  | write x v =>
      rw [call, Option.some.injEq] at hcall
      subst hcall
      exact ⟨_, _, rfl, Run.cons _ _ _ _ _ (write_refines chain s u hshows x v _ hsafe) (Run.nil _),
        shows_store _⟩

/-! ### Whole runs -/

/-- What a run of safe calls keeps. -/
theorem run_inv (h : Inv k chain s) (calls : List ManagerCall)
    (hrun : Run (Guarded (Safe chain) Step) s calls t) :
    Inv k chain t ∧ s.StaysIn k chain t := by
  refine Run.invariant (Guarded (Safe chain) Step) (fun t => Inv k chain t ∧ s.StaysIn k chain t)
    (fun a c b ⟨ha, hstays⟩ ⟨hsafe, hcall⟩ => ?_) s t calls hrun ⟨h, rfl, rfl, fun _ _ => rfl⟩
  rcases step_inv k chain a ha c hsafe with ⟨b', hb', hinv, hstays'⟩
  rw [show a.call c = some b from hcall, Option.some.injEq] at hb'
  subst hb'
  exact ⟨hinv, hstays'.areas.trans hstays.areas, hstays'.arena.trans hstays.arena,
    fun x hx => (hstays'.kernel x hx).trans (hstays.kernel x hx)⟩

/-- Every run of safe calls is matched by the store, call for call. -/
theorem run_shows (h : Inv k chain s) (calls : List ManagerCall)
    (hrun : Run (Guarded (Safe chain) Step) s calls t) :
    ∃ acts u, List.Forall₂ Does calls acts ∧
      Run (Store.Step Held.bytes (arena chain s.boot)) s.store acts.flatten u ∧ t.Shows u := by
  rcases Run.forward (Guarded (Safe chain) Step) (Store.Step Held.bytes (arena chain s.boot))
    (fun a u => Inv k chain a ∧ arena chain a.boot = arena chain s.boot ∧ a.Shows u) Does
    (fun a c b u ⟨ha, harena, hshows⟩ ⟨hsafe, hcall⟩ => by
      rcases step_inv k chain a ha c hsafe with ⟨b', hb', hinv, hstays⟩
      rw [show a.call c = some b from hcall, Option.some.injEq] at hb'
      subst hb'
      rcases step_refines k chain a b u ha hshows c hsafe hcall with ⟨acts, v, hdoes, hacts, hv⟩
      rw [harena] at hacts
      exact ⟨acts, v, hdoes, hacts, hinv, hstays.arena.trans harena, hv⟩)
    s t s.store calls hrun ⟨h, rfl, shows_store s⟩ with ⟨acts, u, hdoes, hacts, _, _, hu⟩
  exact ⟨acts, u, hdoes, hacts, hu⟩

/-- Every run of safe calls is a run of the store, call for call. It starts from a
    store whose ranges are disjoint and were there to be handed out, and they are
    so in the store it ends in. -/
theorem run_refines_store (h : Inv k chain s) (calls : List ManagerCall)
    (hrun : Run (Guarded (Safe chain) Step) s calls t) :
    ∃ acts u, List.Forall₂ Does calls acts ∧
      Run (Store.Step Held.bytes (arena chain s.boot)) s.store acts.flatten u ∧
      u.Sound Held.bytes (arena chain s.boot) ∧ t.Shows u := by
  rcases run_shows k chain s t h calls hrun with ⟨acts, u, hdoes, hacts, hshows⟩
  exact ⟨acts, u, hdoes, hacts, Store.run_sound Held.bytes _ s.store u acts.flatten
    (store_sound k chain s h) hacts, hshows⟩

end Chain

/-- A kernel at one megabyte, the heap behind it at two, and 64 frames at three. -/
def oneOfEach : Manager := start { PoolSession.poolOfOne with
  heap := Session.blank.place 0x200000
  bitmapStack := [⟨none, 0, 0x340000, 64, 0x300000⟩] }

/-- The state after a call that returns. -/
def after (s : Manager) (c : ManagerCall) : Manager := (s.call c).getD s

/-- A safe call that returns is a step to the state after it. -/
theorem step_after (chain : List Nat) (s : Manager) (c : ManagerCall) (hsafe : s.Safe chain c)
    (h : (s.call c).isSome) : Guarded (Safe chain) Step s c (s.after c) := by
  rcases Option.isSome_iff_exists.mp h with ⟨t, ht⟩
  refine ⟨hsafe, ?_⟩
  rw [Step, after, ht, Option.getD_some]

/-- The same after an allocation of 16 bytes. -/
def oneHeld : Manager := oneOfEach.after (.heap (.kmalloc 16))

/-- Two frames and 8 bytes for someone else, who writes to the frames and releases
    the bytes. -/
def othersCalls : List ManagerCall :=
  [.heap (.kmalloc 8), .frame (.alloc 2 1), .write 0x300000 9, .heap (.kfree 0x200060)]

/-- What these lead to once the holder of the 16 bytes has written to them. -/
def othersHeld : Manager :=
  ((((oneHeld.after (.write 0x200010 7)).after (.heap (.kmalloc 8))).after
    (.frame (.alloc 2 1))).after (.write 0x300000 9)).after (.heap (.kfree 0x200060))

theorem inv_oneOfEach : Inv ⟨0x100000, 0x200000⟩ [0] oneOfEach :=
  inv_start ⟨0x100000, 0x200000⟩ oneOfEach.boot ⟨none, 0, 0x340000, 64, 0x300000⟩ rfl rfl rfl
    (by decide) (by decide) (by decide) (Session.inv_start Session.blank 0x200000 (by decide))
    (by decide) (by decide)

theorem step_oneHeld : Guarded (Safe [0]) Step oneOfEach (.heap (.kmalloc 16)) oneHeld :=
  step_after [0] oneOfEach _ (Session.room_of_links _ [0x200000] 16 (by decide) (by decide))
    (by decide)

theorem run_othersHeld :
    Run (Guarded (Safe [0]) Step) oneHeld (.write 0x200010 7 :: othersCalls) othersHeld := by
  let s1 := oneHeld.after (.write 0x200010 7)
  let s2 := s1.after (.heap (.kmalloc 8))
  let s3 := s2.after (.frame (.alloc 2 1))
  let s4 := s3.after (.write 0x300000 9)
  have hmine : oneHeld.Safe [0] (.write 0x200010 7) :=
    ⟨.payload 0x200010 16, by decide, Set.mem_Ico.mpr (by decide)⟩
  have hroom : s1.Safe [0] (.heap (.kmalloc 8)) :=
    Session.room_of_links s1.session [0x200000, 0x200050] 8 (by decide) (by decide)
  have hframes : s2.Safe [0] (.frame (.alloc 2 1)) := by
    refine ⟨by decide, searchInStep_one _ 2, fun pre r post hsplit _ _ => ?_⟩
    rw [regions_one s2.boot ⟨none, 0, 0x340000, 64, 0x300000⟩ (by decide)] at hsplit
    rw [FrameSession.eq_of_singleton_split _ r pre post hsplit]
    refine ⟨0, 0, ⟨by decide, by decide, ⟨by decide, by decide, fun b hb => ?_⟩⟩, by decide⟩
    have hword : (BitmapList.region ⟨none, 0, 0x340000, 64, 0x300000⟩
        s2.boot.heap.mem).firstBitmap 0 = 0 := by decide
    rw [hword]
    exact BitVec.getLsbD_zero
  have htheirs : s3.Safe [0] (.write 0x300000 9) :=
    ⟨.frames 0x300000 2, by decide, Set.mem_Ico.mpr (by decide)⟩
  exact Run.cons _ s1 _ _ _ (step_after [0] oneHeld _ hmine (by decide)) <|
    Run.cons _ s2 _ _ _ (step_after [0] s1 _ hroom (by decide)) <|
    Run.cons _ s3 _ _ _ (step_after [0] s2 _ hframes (by decide)) <|
    Run.cons _ s4 _ _ _ (step_after [0] s3 _ htheirs (by decide)) <|
    Run.cons _ othersHeld _ _ _ (step_after [0] s4 (.heap (.kfree 0x200060)) trivial (by decide))
      (Run.nil othersHeld)

theorem run_refines_store_shared :
    ∃ acts u,
      List.Forall₂ Does (.heap (.kmalloc 16) :: .write 0x200010 7 :: othersCalls) acts ∧
      Run (Store.Step Held.bytes (arena [0] oneOfEach.boot)) oneOfEach.store acts.flatten u ∧
      u.Sound Held.bytes (arena [0] oneOfEach.boot) ∧ othersHeld.Shows u :=
  run_refines_store ⟨0x100000, 0x200000⟩ [0] oneOfEach othersHeld inv_oneOfEach _
    (Run.cons _ _ _ _ _ step_oneHeld run_othersHeld)

end Manager

/-- The call neither takes the range back nor writes to the byte. -/
def ManagerCall.Spares (r : Held) (x : Word) : ManagerCall → Prop
  | .heap (.kmalloc _) => True
  | .heap (.kfree ptr) => ∀ size, r ≠ .payload ptr size
  | .frame (.alloc _ _) => True
  | .frame (.free ptr count) => r ≠ .frames ptr count
  | .write y _ => y ≠ x

namespace Manager

/-- A call that spares a byte does nothing to it in the store. -/
theorem spares_of_does (r : Held) (x : Word) (c : ManagerCall)
    (acts : List (StoreAct Held Word Byte)) (hspares : c.Spares r x) (hdoes : Does c acts) :
    ∀ a ∈ acts, a.Spares r x := by
  have hone : ∀ b : StoreAct Held Word Byte, acts = [b] → b.Spares r x →
      ∀ a ∈ acts, a.Spares r x := by
    rintro b rfl hb a ha
    rw [List.mem_singleton.mp ha]
    exact hb
  have hnone : acts = [] → ∀ a ∈ acts, a.Spares r x := by
    rintro rfl a ha
    exact absurd ha List.not_mem_nil
  cases c with
  | heap c =>
      cases c with
      | kmalloc size =>
          rcases hdoes with hdoes | ⟨ptr, hdoes⟩
          · exact hnone hdoes
          · exact hone _ hdoes trivial
      | kfree ptr => exact hone _ hdoes (fun ⟨size, hr⟩ => hspares size hr)
  | frame c =>
      cases c with
      | alloc count alignUp =>
          rcases hdoes with hdoes | ⟨ptr, hdoes⟩
          · exact hnone hdoes
          · exact hone _ hdoes trivial
      | free ptr count => exact hone _ hdoes hspares
  | write y v => exact hone _ hdoes hspares

theorem spares_of_forall₂ (r : Held) (x : Word) (calls : List ManagerCall)
    (acts : List (List (StoreAct Held Word Byte))) (hdoes : List.Forall₂ Does calls acts)
    (hspares : ∀ c ∈ calls, c.Spares r x) : ∀ a ∈ acts.flatten, a.Spares r x := by
  induction hdoes with
  | nil => exact fun a ha => absurd ha List.not_mem_nil
  | cons hdo _ ih =>
      intro a ha
      rw [List.flatten_cons, List.mem_append] at ha
      rcases ha with ha | ha
      · exact spares_of_does r x _ _ (hspares _ List.mem_cons_self) hdo a ha
      · exact ih (fun c hc => hspares c (List.mem_cons_of_mem _ hc)) a ha

section Chain

variable (k : Kernel) (chain : List Nat) (s t : Manager) (h : Inv k chain s)

include h

/-- What a holder writes to its range is read back after any run of safe calls
    that neither takes the range back nor writes to the byte again. -/
theorem run_reads_back (r : Held) (x : Word) (v : Byte) (hr : s.Holds r) (hx : x ∈ r.bytes)
    (calls : List ManagerCall) (hspares : ∀ c ∈ calls, c.Spares r x)
    (hrun : Run (Guarded (Safe chain) Step) s (.write x v :: calls) t) :
    t.Holds r ∧ t.boot.heap.mem x = v := by
  rcases run_shows k chain s t h _ hrun with ⟨acts, u, hdoes, hacts, hshows⟩
  cases hdoes with
  | @cons _ write _ rest hdo hrest =>
      -- The first of the acts is the write.
      rw [show write = [.write x v] from hdo, List.flatten_cons, List.singleton_append] at hacts
      have hkept := spares_of_forall₂ r x calls rest hrest hspares
      have hreads :=
        Store.run_last_write Held.bytes _ s.store u rest.flatten r x v hr hx hkept hacts
      cases hacts with
      | cons _ w _ _ _ hstep hlater =>
          have howned : r ∈ w.owned := hstep.2.1 ▸ hr
          have hheld := (hshows.owned r).mp
            (Store.run_keeps Held.bytes _ w u rest.flatten r x howned hx hkept hlater).1
          exact ⟨hheld, (hshows.content r hheld x hx).symm.trans hreads⟩

omit h in
/-- The byte is read back after the calls of another holder. -/
theorem run_reads_back_shared :
    othersHeld.Holds (.payload 0x200010 16) ∧ othersHeld.boot.heap.mem 0x200010 = 7 := by
  have hinv := (run_inv ⟨0x100000, 0x200000⟩ [0] oneOfEach oneHeld inv_oneOfEach _
    (Run.cons _ _ _ _ _ step_oneHeld (Run.nil _))).1
  have hspares : ∀ c ∈ othersCalls, c.Spares (.payload 0x200010 16) 0x200010 := by
    intro c hc
    simp only [othersCalls, List.mem_cons, List.not_mem_nil, or_false] at hc
    rcases hc with rfl | rfl | rfl | rfl
    · trivial
    · trivial
    · show (0x300000 : Word) ≠ 0x200010
      decide
    · intro size hsame
      rw [Held.payload.injEq] at hsame
      exact absurd hsame.1 (by decide)
  exact run_reads_back ⟨0x100000, 0x200000⟩ [0] oneHeld othersHeld hinv (.payload 0x200010 16)
    0x200010 7 (by decide) (Set.mem_Ico.mpr (by decide)) othersCalls hspares run_othersHeld

/-- In every state a run of safe calls reaches, what is held is disjoint, was
    there to be handed out, and is off the headers, the bitmaps and the kernel,
    which nothing has written to. Every further safe call returns. -/
theorem run_safe (calls : List ManagerCall)
    (hrun : Run (Guarded (Safe chain) Step) s calls t) :
    (∀ r q, t.Holds r → t.Holds q → r ≠ q → Disjoint r.bytes q.bytes) ∧
      (∀ r, t.Holds r → r.bytes ⊆ arena chain s.boot) ∧
      (∃ headers, Links (next t.boot.heap.mem) 0 t.boot.heap.mDynFirstBlock headers ∧
        ∀ a ∈ headers, ∀ r, t.Holds r → ∀ x ∈ r.bytes, Far a 16 x) ∧
      (∀ r, t.Holds r → Disjoint r.span (bitmapBytes (t.boot.entries chain))) ∧
      (∀ x : Word, x.toNat ∈ Set.Ico k.kernelStart.toNat k.kernelEnd.toNat →
        (∀ r, t.Holds r → x ∉ r.bytes) ∧ t.boot.heap.mem x = s.boot.heap.mem x) ∧
      ∀ c, t.Safe chain c → ∃ v, t.Step c v := by
  rcases run_inv k chain s t h calls hrun with ⟨ht, hstays⟩
  -- The store the run ends in is sound, and it is the one the state shows.
  rcases run_shows k chain s t h calls hrun with ⟨acts, u, _, hacts, hshows⟩
  have hsound := Store.run_sound Held.bytes _ s.store u acts.flatten (store_sound k chain s h) hacts
  rcases ht.heap with ⟨bs, hbs⟩
  refine ⟨fun r q hr hq hrq => hsound.apart ((hshows.owned r).mpr hr) ((hshows.owned q).mpr hq) hrq,
    fun r hr => hsound.inside r ((hshows.owned r).mpr hr),
    ⟨bs.map addr, hbs.chain.links, fun a ha r hr x hx => ?_⟩,
    fun r hr => held_off_bitmaps k chain t ht r hr,
    fun x hx => ⟨fun r hr hxr => ?_, hstays.kernel x hx⟩,
    fun c hsafe => ?_⟩
  · rcases List.mem_map.mp ha with ⟨b, hb, rfl⟩
    exact held_off_headers k chain t ht bs hbs r hr x hx b hb
  · exact Set.disjoint_left.mp (held_off_kernel k chain t ht r hr) hx hxr
  · rcases step_inv k chain t ht c hsafe with ⟨v, hv, _⟩
    exact ⟨v, hv⟩

omit h in
/-- The two frames can be given back after all that. -/
theorem run_safe_shared : ∃ t, othersHeld.Step (.frame (.free 0x300000 2)) t := by
  rcases run_safe ⟨0x100000, 0x200000⟩ [0] oneOfEach othersHeld inv_oneOfEach _
    (Run.cons _ _ _ _ _ step_oneHeld run_othersHeld) with ⟨_, _, _, _, _, hnext⟩
  refine hnext (.frame (.free 0x300000 2)) ⟨by decide, fun r hr n hptr _ => ?_⟩
  rw [regions_one othersHeld.boot ⟨none, 0, 0x340000, 64, 0x300000⟩ (by decide),
    List.mem_singleton] at hr
  rw [hr, show (0x300000 : Word).toNat = 0x300000 from rfl] at hptr
  change 0x300000 = 0x300000 + 4096 * n at hptr
  omega

end Chain

end Manager

end UnixP6
