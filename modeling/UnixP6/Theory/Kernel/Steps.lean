import UnixP6.Core.Kernel
import UnixP6.Theory.Console.Canvas
import UnixP6.Theory.Heap.Alloc
import UnixP6.Theory.Tools.Format

/-!
# What the Kernel Writes on its Way

On its way from start to halt the kernel itself writes to three places: the
buffer of `__doprnt`, the screen, and the record of `tar_init`. There is no heap
at that time, so the record is at address zero. Whatever lies elsewhere is read
as the boot loader left it.

Each step of `kmain` has one lemma, which says what it leaves in memory and in
the globals that later steps read.

## Main definitions

* `Clear`: An address in none of the three places.
* `Quiet`: Two memories that differ in these places only.

## Theorems

* `startDrivers_spec`: Starting drivers.
* `log_spec`: A call of `LOG`.
* `tarInit_spec`: `tar_init` without a heap.
-/

namespace UnixP6

open CSemantics

/-- An address that the kernel does not write to. -/
structure Clear (img : KernelImage) (x : Word) : Prop where
  record : Far 0 8 x
  buffer : Far img.buffer 32 x
  screen : Far tvgaVbuffer screenBytes x

/-- So many addresses from one on that it does not write to. -/
def ClearRange (img : KernelImage) (a : Word) (n : Nat) : Prop :=
  ∀ i < n, Clear img (a + BitVec.ofNat 32 i)

/-- The two memories differ at most where the kernel writes. -/
def Quiet (img : KernelImage) (m m' : Mem) : Prop := ∀ x, Clear img x → m' x = m x

section Quiet

variable (img : KernelImage) (m m' m'' : Mem)

theorem Quiet.refl : Quiet img m m := fun _ _ => rfl

theorem Quiet.trans (h : Quiet img m m') (h' : Quiet img m' m'') : Quiet img m m'' :=
  fun x hx => (h' x hx).trans (h x hx)

theorem quiet_buffer (h : SameOutside img.buffer 32 m m') : Quiet img m m' :=
  fun x hx => h x hx.buffer

theorem quiet_screen (h : SameOutside tvgaVbuffer screenBytes m m') : Quiet img m m' :=
  fun x hx => h x hx.screen

theorem quiet_record (h : SameOutside 0 8 m m') : Quiet img m m' := fun x hx => h x hx.record

/-- What lies elsewhere stays. -/
theorem holds_quiet (a : Word) (bs : List Byte) (h : Holds m a bs) (hquiet : Quiet img m m')
    (hclear : ClearRange img a bs.length) : Holds m' a bs :=
  holds_of_getElem m' a bs fun i hi =>
    (hquiet _ (hclear i hi)).trans (holds_getElem m a bs h i hi)

theorem cstring_quiet (a : Word) (s : List Byte) (h : CString m a s) (hquiet : Quiet img m m')
    (hclear : ClearRange img a (s.length + 1)) : CString m' a s :=
  ⟨h.1, holds_quiet img m m' a _ h.2 hquiet (by rw [List.length_append]; exact hclear)⟩

end Quiet

/-- A range of addresses each of which is far from another range. -/
theorem apart_of_far (a b : Word) (n k : Nat) (hn : 0 < n) (hk : 0 < k)
    (h : ∀ i < k, Far a n (b + BitVec.ofNat 32 i)) : Apart a n b k := by
  have hfirst := h 0 hk
  rw [BitVec.add_zero] at hfirst
  refine ⟨hfirst, ?_⟩
  by_contra hlt
  -- Otherwise the first range starts within the second.
  have hin := h (a - b).toNat (Nat.lt_of_not_le hlt)
  have hat : b + BitVec.ofNat 32 (a - b).toNat = a := by bv_omega
  rw [hat, Far, BitVec.sub_self] at hin
  exact absurd hin (Nat.not_le.mpr hn)

theorem ClearRange.apart_buffer (img : KernelImage) (a : Word) (n : Nat) (hn : 0 < n)
    (h : ClearRange img a n) : Apart img.buffer 32 a n :=
  apart_of_far img.buffer a 32 n (by decide) hn fun i hi => (h i hi).buffer

/-- A part of such a range. -/
theorem ClearRange.part (img : KernelImage) (a : Word) (n i k : Nat) (h : ClearRange img a n)
    (hk : i + k ≤ n) : ClearRange img (a + BitVec.ofNat 32 i) k := by
  intro j hj
  rw [add_ofNat_add]
  exact h (i + j) (by omega)

/-! ### Drivers -/

/-- Starting a driver writes to the screen, if to anything. -/
theorem startDriver_screen (k : KernelState) (d : DriverCall) :
    SameOutside tvgaVbuffer screenBytes k.mem (k.startDriver d).mem := by
  cases d with
  | tvgaInit =>
      exact (clr_screen (tvgaSetattr ⟨k.mem, k.tvgaCurattr, k.cursorPos, []⟩ defaultColor)).2
  | vbeInit fb w h bpp => exact SameOutside.refl _ _ _

/-- What the drivers leave of what is read later. -/
theorem startDrivers_spec (img : KernelImage) (ds : List DriverCall) : ∀ k : KernelState,
    Quiet img k.mem (ds.foldl KernelState.startDriver k).mem ∧
      (ds.foldl KernelState.startDriver k).modules = k.modules ∧
      (ds.foldl KernelState.startDriver k).mDynFirstBlock = k.mDynFirstBlock ∧
      (ds.foldl KernelState.startDriver k).com = k.com := by
  induction ds with
  | nil => exact fun k => ⟨Quiet.refl img _, rfl, rfl, rfl⟩
  | cons d ds ih =>
      intro k
      have hfirst : (k.startDriver d).modules = k.modules ∧
          (k.startDriver d).mDynFirstBlock = k.mDynFirstBlock ∧ (k.startDriver d).com = k.com := by
        cases d with
        | tvgaInit => exact ⟨rfl, rfl, rfl⟩
        | vbeInit fb w h bpp => exact ⟨rfl, rfl, rfl⟩
      rcases ih (k.startDriver d) with ⟨hquiet, hmodules, hblock, hcom⟩
      rw [List.foldl_cons]
      exact ⟨Quiet.trans img _ _ _ (quiet_screen img _ _ (startDriver_screen k d)) hquiet,
        hmodules.trans hfirst.1, hblock.trans hfirst.2.1, hcom.trans hfirst.2.2⟩

/-! ### Printing -/

/-- The arguments of a call, with the stack behind them. -/
def callArgs (img : KernelImage) (args : List Word) (n : Nat) : Word :=
  (args[n]?).getD (img.stack (n - args.length))

/-- A call of `LOG` prints the expansion of its format, and writes to the buffer. -/
theorem log_spec (img : KernelImage) (buffer : Word) (k : KernelState) (fmt : Word)
    (args : List Word) (s : List Byte) (hs : CString k.mem fmt s) (hapart : Apart buffer 32 fmt (s.length + 1))
    (hplain : ¬ [37, 108] <:+: s)
    (hgiven : StringsGiven k.mem buffer (callArgs img args) 0 (pieces s)) :
    ∃ mem, k.log img buffer fmt args = some { k with
        mem := mem
        com := k.com ++ expand k.mem (callArgs img args) 0 (pieces s) } ∧
      SameOutside buffer 32 k.mem mem := by
  rcases doprnt_prints k.mem fmt buffer (callArgs img args) s hs hapart hplain hgiven with
    ⟨r, hrun, hout, -⟩
  refine ⟨r.mem, ?_, doprnt_mem k.mem fmt buffer (callArgs img args) s hs hapart
    (fun hcut => pieces_plain s hplain _ hcut) r hrun⟩
  unfold KernelState.log
  unfold callArgs at hrun hout ⊢
  rw [hrun, Option.map_some, hout]

/-! ### The record of an archive -/

/-- Without a heap the record is written at zero. -/
theorem tarInit_spec (h : Heap) (hnone : h.mDynFirstBlock = 0) (ptr size : Word) :
    tarInit ptr size h = some (0, { h with mem := (h.mem.store32 0 ptr).store32 4 size }) := by
  have hnull : kmalloc 8 h = some (0, h) :=
    kmalloc_none h 8 [] ⟨hnone, fun b hb => absurd hb List.not_mem_nil, List.Pairwise.nil⟩
      (Or.inr fun b hb => absurd hb List.not_mem_nil)
  unfold tarInit
  rw [hnull]
  rfl

section Record

variable (m : Mem) (ptr size : Word)

theorem record_sameOutside : SameOutside 0 8 m ((m.store32 0 ptr).store32 4 size) := by
  intro x hx
  unfold Far at hx
  rw [Mem.store32_far _ _ _ _ (show Far 4 4 x by unfold Far; bv_omega),
    Mem.store32_far _ _ _ _ (show Far 0 4 x by unfold Far; bv_omega)]

/-- The record is read back from there. -/
theorem tar_load_record : Tar.load ((m.store32 0 ptr).store32 4 size) 0 = ⟨ptr, size⟩ := by
  have hptr : ((m.store32 0 ptr).store32 4 size).load32 0 = ptr := by
    rw [Mem.load32_store32_apart _ _ _ _ (by unfold Apart; decide), Mem.load32_store32_same]
  have hsize : ((m.store32 0 ptr).store32 4 size).load32 (0 + 4) = size :=
    Mem.load32_store32_same _ _ _
  unfold Tar.load
  rw [hptr, hsize]

/-- A stored word lies in memory as its bytes. -/
theorem holds_store32 (a v : Word) : Holds (m.store32 a v) a (bytes32 v) := by
  have hload := Mem.load32_store32_same m a v
  rcases Mem.bytes_load32 (m.store32 a v) a with ⟨h0, h1, h2, h3⟩
  rw [hload] at h0 h1 h2 h3
  refine ⟨h0.symm, h1.symm, ?_, ?_, trivial⟩
  · rw [show a + 1 + 1 = a + 2 by bv_omega]
    exact h2.symm
  · rw [show a + 1 + 1 + 1 = a + 3 by bv_omega]
    exact h3.symm

theorem holds_record :
    Holds ((m.store32 0 ptr).store32 4 size) 0 (bytes32 ptr ++ bytes32 size) := by
  rw [holds_append]
  refine ⟨holds_sameOutside (m.store32 0 ptr) _ 4 0 4 _ (holds_store32 m 0 ptr)
    (fun x hx => Mem.store32_far _ 4 x size hx) fun i hi => ?_, holds_store32 _ 4 size⟩
  rw [length_bytes32] at hi
  unfold Far
  bv_omega

end Record

end UnixP6
