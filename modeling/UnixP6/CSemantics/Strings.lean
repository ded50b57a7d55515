import UnixP6.CSemantics.Bytes
import UnixP6.CSemantics.Loop

/-!
# Loops over a String

A loop that goes along a string and leaves at its terminator folds its turns
over the bytes. The rule asks of the loop state only that the address it stands
for rises by one, so that a pointer and an index from a fixed address are the
same thing. A loop over a pointer and an accumulator is the common case.

A string has fewer bytes than there are addresses, so a bound of that many turns
is enough for any.

## Theorems

* `runLoop_cstring`: A loop along a string is a fold.
* `runLoop_pointer`: The same with a pointer and an accumulator.
* `foldl_add_one`: Counting up.
-/

namespace CSemantics

section Strings

variable {σ ρ : Type} (m : Mem) (s : List Byte)

/-- A loop along a string, from any of its states on. -/
theorem runLoop_cstring (body : σ → Option (Turn σ ρ)) (here : σ → Word) (step : σ → Byte → σ)
    (result : σ → ρ) (hnext : ∀ x c, here (step x c) = here x + 1)
    (hexit : ∀ x, m (here x) = 0 → body x = some (.exit (result x)))
    (hagain : ∀ x, ∀ c ∈ s, m (here x) = c → body x = some (.again (step x c)))
    (x : σ) (fuel : Nat) (h : CString m (here x) s) (hfuel : 2 ^ 32 ≤ fuel) :
    runLoop body fuel x = some (result (s.foldl step x)) := by
  have hlen := Nat.lt_of_lt_of_le (length_lt_of_cstring m (here x) s h) hfuel
  clear hfuel
  induction s generalizing x fuel with
  | nil =>
      rcases Nat.exists_eq_add_of_lt hlen with ⟨k, rfl⟩
      exact runLoop_exit body _ x _ (hexit x h.2.1)
  | cons c s ih =>
      rw [List.length_cons] at hlen
      rcases Nat.exists_eq_add_of_lt (Nat.zero_lt_of_lt hlen) with ⟨k, rfl⟩
      have htail := cstring_tail m (here x) c s h
      rw [← hnext x c] at htail
      rw [runLoop_again body _ x _ (hagain x c List.mem_cons_self h.2.1), List.foldl_cons]
      exact ih (fun y d hd => hagain y d (List.mem_cons_of_mem c hd)) _ _ htail (by omega)

/-- A loop along a string with a pointer and an accumulator. -/
theorem runLoop_pointer (body : Word × σ → Option (Turn (Word × σ) ρ)) (f : σ → Byte → σ)
    (result : σ → ρ) (hexit : ∀ a v, m a = 0 → body (a, v) = some (.exit (result v)))
    (hagain : ∀ a v, ∀ c ∈ s, m a = c → body (a, v) = some (.again (a + 1, f v c)))
    (a : Word) (v : σ) (fuel : Nat) (h : CString m a s) (hfuel : 2 ^ 32 ≤ fuel) :
    runLoop body fuel (a, v) = some (result (s.foldl f v)) := by
  have hloop := runLoop_cstring m s body Prod.fst (fun x c => (x.1 + 1, f x.2 c))
    (fun x => result x.2) (fun _ _ => rfl) (fun x => hexit x.1 x.2) (fun x => hagain x.1 x.2)
    (a, v) fuel h hfuel
  have hfold : (s.foldl (fun x c => (x.1 + 1, f x.2 c)) (a, v)).2 = s.foldl f v :=
    (List.foldl_hom Prod.snd fun _ _ => rfl).symm
  rw [hloop, hfold]

/-- Counting up once for each of the bytes. -/
theorem foldl_add_one (n : Word) : s.foldl (fun n _ => n + 1) n = n + BitVec.ofNat 32 s.length := by
  induction s generalizing n with
  | nil => exact (BitVec.add_zero n).symm
  | cons c s ih =>
      rw [List.foldl_cons, ih, List.length_cons]
      bv_omega

end Strings

end CSemantics
