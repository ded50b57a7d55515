import UnixP6.CSemantics.Arrays

/-!
# Words on a Stack

A stack of 32-bit words that grows downwards. A push moves the stack pointer
four bytes down and stores a word there, so that words pushed one after another
lie in memory as an array, the last one first. Offsets are measured from the
stack pointer and wrap with it, so nothing is asked of where the stack lies,
only that it is no longer than the address space.

## Main definitions

* `pushAll`: Memory after words have been pushed.

## Theorems

* `pushAll_outside`: Pushes write below the stack pointer only.
* `load32_pushAll`: Each word pushed is found where it was pushed.
* `dword_pushAll`: Read upwards, a stack gives its words in reverse.
-/

namespace CSemantics

/-- Memory after words have been pushed, with the stack pointer before them. -/
def pushAll (m : Mem) (sp : Word) : List Word → Mem
  | [] => m
  | v :: vs => pushAll (m.store32 (sp - 4) v) (sp - 4) vs

/-- Pushes write below the stack pointer only, and no further than they go. -/
theorem pushAll_outside (vs : List Word) : ∀ (m : Mem) (sp : Word), 4 * vs.length ≤ 2 ^ 32 →
    SameOutside (sp - BitVec.ofNat 32 (4 * vs.length)) (4 * vs.length) m (pushAll m sp vs) := by
  induction vs with
  | nil => exact fun m _ _ => SameOutside.refl _ _ m
  | cons v vs ih =>
      intro m sp hlen x hx
      rw [List.length_cons] at hlen hx
      have hrest : Far (sp - 4 - BitVec.ofNat 32 (4 * vs.length)) (4 * vs.length) x := by
        unfold Far at hx ⊢
        bv_omega
      have hfirst : Far (sp - 4) 4 x := by
        unfold Far at hx ⊢
        bv_omega
      exact (ih (m.store32 (sp - 4) v) (sp - 4) (by omega) x hrest).trans
        (Mem.store32_far m _ x v hfirst)

/-- Each word pushed is found where it was pushed. -/
theorem load32_pushAll (vs : List Word) : ∀ (m : Mem) (sp : Word) (i : Nat) (v : Word),
    4 * vs.length ≤ 2 ^ 32 → vs[i]? = some v →
    (pushAll m sp vs).load32 (sp - BitVec.ofNat 32 (4 * (i + 1))) = v := by
  induction vs with
  | nil => exact fun _ _ _ _ _ h => absurd h (by simp)
  | cons w vs ih =>
      intro m sp i v hlen h
      rw [List.length_cons] at hlen
      cases i with
      | zero =>
          rw [List.getElem?_cons_zero, Option.some.injEq] at h
          rw [pushAll, ← h]
          refine Eq.trans ?_ (Mem.load32_store32_same m (sp - 4) w)
          cases vs with
          | nil => rfl
          | cons u us =>
              -- The later pushes all go below it.
              have hlater := pushAll_outside (u :: us) (m.store32 (sp - 4) w) (sp - 4) (by omega)
              rw [List.length_cons] at hlen hlater
              refine Mem.load32_sameOutside _ _ _ (sp - 4) _ hlater ⟨?_, ?_⟩
              · bv_omega
              · bv_omega
      | succ i =>
          rw [List.getElem?_cons_succ] at h
          have hdown : sp - BitVec.ofNat 32 (4 * (i + 1 + 1))
              = sp - 4 - BitVec.ofNat 32 (4 * (i + 1)) := by
            bv_omega
          rw [pushAll, hdown]
          exact ih (m.store32 (sp - 4) w) (sp - 4) i v (by omega) h

/-- Read upwards from the stack pointer, a stack gives its words in reverse. -/
theorem dword_pushAll (vs : List Word) (m : Mem) (sp : Word) (j : Nat) (v : Word)
    (hlen : 4 * vs.length ≤ 2 ^ 32) (h : vs.reverse[j]? = some v) :
    (pushAll m sp vs).dword (sp - BitVec.ofNat 32 (4 * vs.length)) j = v := by
  have hj : j < vs.length := by
    rcases List.getElem?_eq_some_iff.mp h with ⟨hj, _⟩
    rwa [List.length_reverse] at hj
  rw [List.getElem?_reverse hj] at h
  rw [Mem.dword, ← load32_pushAll vs m sp _ v hlen h]
  congr 1
  bv_omega

end CSemantics
