import UnixP6.Core.IntHandlers

/-!
# The Frame of an Interrupt

What the stubs push, and what the C handlers read. `irqctx_t` lists the eight
general registers first and the data segment after them, but the stub pushes
the data segment last, so it is the word just above the return address and the
registers are above it. From `edi` to `ds` every field reads the word pushed for
the field before it; from the number on the two agree again.

The displaced fields have their registers' values only if all of these are the
same. That value is then also the one `pusha` pushed for `esp`, which `ebx`
reads, so it is the stack pointer below what the processor and the stub pushed.

## Main definitions

* `irqPushes`, `isrPushes`: The words on the stack, the return address last.
* `IrqFrame`, `IsrFrame`: A structure has the values of the registers at entry.
* `Cpu.AllHold`: One value in every displaced register.
* `Resumed`: The registers an interrupted program has back.

## Theorems

* `irq_word`, `isr_word`: A field reads the word pushed that far from the last.
* `shifted_iff`: Displaced fields are right when all registers are the same.
* `irqFrame_iff`, `isrFrame_iff`: When the frame of an entry is right.
* `frames_iff`: The entries at which the frames are right.
* `irq_resumes`: A frame left alone gives the registers back.
-/

namespace UnixP6

open CSemantics

/-! ### The stack -/

/-- The words of the registers and of the data segment, as both kinds of entry
    push them from the stack pointer `sp` on, with the return address. -/
def savedWords (c : Cpu) (sp ret : Word) : List Word :=
  [c.eax, c.ecx, c.edx, c.ebx, sp, c.ebp, c.esi, c.edi, c.eax.extractLsb' 16 16 ++ c.ds, ret]

/-- What is on the stack when `handle_irqint` is entered. -/
def irqPushes (c : Cpu) (line ret : Word) : List Word :=
  [c.eflags, c.cs.setWidth 32, c.eip, line] ++ savedWords c (c.esp - 16) ret

/-- What is on the stack when `handle_exception` is entered. -/
def isrPushes (c : Cpu) (vector errcode ret : Word) : List Word :=
  [c.eflags, c.cs.setWidth 32, c.eip, errcode, vector] ++ savedWords c (c.esp - 20) ret

theorem irqint_stack (c : Cpu) (line ret : Word) :
    (irqint line ret (c.interrupt none)).mem = pushAll c.mem c.esp (irqPushes c line ret) ∧
      (irqint line ret (c.interrupt none)).esp = c.esp - 56 := by
  -- Four words are pushed before `pusha` looks at the stack pointer.
  have hsp : c.esp - 16 = c.esp - 4 - 4 - 4 - 4 := by
    simp only [BitVec.sub_sub]
    rfl
  have hend : c.esp - 56
      = c.esp - 4 - 4 - 4 - 4 - 4 - 4 - 4 - 4 - 4 - 4 - 4 - 4 - 4 - 4 := by
    simp only [BitVec.sub_sub]
    rfl
  rw [irqPushes, hsp, hend]
  exact ⟨rfl, rfl⟩

/-- An exception pushes one word more, whether the error code is the
    processor's or the stub's zero. -/
theorem isrStub_stack (c : Cpu) (vector ret : Word) (errcode : Option Word)
    (h : errcode.isSome = decide (vector ∈ errVectors)) :
    (isrStub vector ret (c.interrupt errcode)).mem
        = pushAll c.mem c.esp (isrPushes c vector (errcode.getD 0) ret) ∧
      (isrStub vector ret (c.interrupt errcode)).esp = c.esp - 60 := by
  have hsp : c.esp - 20 = c.esp - 4 - 4 - 4 - 4 - 4 := by
    simp only [BitVec.sub_sub]
    rfl
  have hend : c.esp - 60
      = c.esp - 4 - 4 - 4 - 4 - 4 - 4 - 4 - 4 - 4 - 4 - 4 - 4 - 4 - 4 - 4 := by
    simp only [BitVec.sub_sub]
    rfl
  rw [isrPushes, hsp, hend, isrStub]
  cases errcode with
  | none =>
      rw [if_neg fun hmem => of_decide_eq_false h.symm (List.contains_iff_mem.mp hmem)]
      exact ⟨rfl, rfl⟩
  | some e =>
      rw [if_pos (List.contains_iff_mem.mpr (of_decide_eq_true h.symm))]
      exact ⟨rfl, rfl⟩

/-- A word above the return address is the one pushed that far before it. -/
theorem parameter_word (c : Cpu) (sp : Word) (m : Mem) (vs : List Word) (j : Nat) (v : Word)
    (hmem : c.mem = pushAll m sp vs) (hesp : c.esp = sp - BitVec.ofNat 32 (4 * vs.length))
    (hlen : 4 * vs.length ≤ 2 ^ 32) (hv : vs.reverse[j + 1]? = some v) :
    c.mem.dword (c.esp + 4) j = v := by
  rw [show (4 : Word) = BitVec.ofNat 32 (4 * 1) by rfl, Mem.dword_add, Nat.add_comm, hmem, hesp]
  exact dword_pushAll vs m sp (j + 1) v hlen hv

theorem irq_word (c : Cpu) (line ret : Word) (j : Nat) (v : Word)
    (hv : (irqPushes c line ret).reverse[j + 1]? = some v) :
    (irqint line ret (c.interrupt none)).mem.dword
      ((irqint line ret (c.interrupt none)).esp + 4) j = v := by
  rcases irqint_stack c line ret with ⟨hmem, hesp⟩
  exact parameter_word _ c.esp c.mem _ j v hmem hesp (show 4 * 14 ≤ 2 ^ 32 by decide) hv

theorem isr_word (c : Cpu) (vector ret : Word) (errcode : Option Word)
    (h : errcode.isSome = decide (vector ∈ errVectors)) (j : Nat) (v : Word)
    (hv : (isrPushes c vector (errcode.getD 0) ret).reverse[j + 1]? = some v) :
    (isrStub vector ret (c.interrupt errcode)).mem.dword
      ((isrStub vector ret (c.interrupt errcode)).esp + 4) j = v := by
  rcases isrStub_stack c vector ret errcode h with ⟨hmem, hesp⟩
  exact parameter_word _ c.esp c.mem _ j v hmem hesp (show 4 * 15 ≤ 2 ^ 32 by decide) hv

/-! ### The structures -/

/-- An `irqctx_t` has the values of the registers at entry and the number of the
    line. Of the data segment it has a word, whose low half counts. -/
structure IrqFrame (ctx : IrqCtx) (c : Cpu) (line : Word) : Prop where
  edi : ctx.edi = c.edi
  esi : ctx.esi = c.esi
  ebp : ctx.ebp = c.ebp
  ebx : ctx.ebx = c.ebx
  edx : ctx.edx = c.edx
  ecx : ctx.ecx = c.ecx
  eax : ctx.eax = c.eax
  ds : ctx.ds.setWidth 16 = c.ds
  irq : ctx.irq = line
  eip : ctx.eip = c.eip
  cs : ctx.cs = c.cs.setWidth 32
  eflags : ctx.eflags = c.eflags

/-- The same for an `isrctx_t`, with the number of the exception and its error
    code. -/
structure IsrFrame (ctx : IsrCtx) (c : Cpu) (vector errcode : Word) : Prop where
  edi : ctx.edi = c.edi
  esi : ctx.esi = c.esi
  ebp : ctx.ebp = c.ebp
  ebx : ctx.ebx = c.ebx
  edx : ctx.edx = c.edx
  ecx : ctx.ecx = c.ecx
  eax : ctx.eax = c.eax
  ds : ctx.ds.setWidth 16 = c.ds
  intnum : ctx.intnum = vector
  errcode : ctx.errcode = errcode
  eip : ctx.eip = c.eip
  cs : ctx.cs = c.cs.setWidth 32
  eflags : ctx.eflags = c.eflags

/-- One value in every register whose field is displaced. -/
structure Cpu.AllHold (c : Cpu) (v : Word) : Prop where
  edi : c.edi = v
  esi : c.esi = v
  ebp : c.ebp = v
  ebx : c.ebx = v
  edx : c.edx = v
  ecx : c.ecx = v
  eax : c.eax = v
  ds : c.ds = v.setWidth 16

theorem halves_append (v : Word) : v.extractLsb' 16 16 ++ v.setWidth 16 = v := by
  ext i hi
  simp only [BitVec.getElem_append, BitVec.getElem_extractLsb', BitVec.getElem_setWidth]
  by_cases hlow : i < 16
  · simp only [hlow, dite_true]
    exact BitVec.getLsbD_eq_getElem hi
  · rw [dif_neg hlow, show 16 + (i - 16) = i by omega]
    exact BitVec.getLsbD_eq_getElem hi

theorem setWidth_append_low (hi lo : Half) : (hi ++ lo : Word).setWidth 16 = lo := by
  rw [BitVec.setWidth_append, dif_pos (Nat.le_refl 16), BitVec.setWidth_eq]

/-- Displaced by one word, the fields have their registers' values when all of
    these hold what `pusha` pushed for `esp`. -/
theorem shifted_iff (c : Cpu) (sp edi esi ebp ebx edx ecx eax ds : Word)
    (hedi : edi = c.eax.extractLsb' 16 16 ++ c.ds) (hesi : esi = c.edi) (hebp : ebp = c.esi)
    (hebx : ebx = sp) (hedx : edx = c.ebx) (hecx : ecx = c.edx) (heax : eax = c.ecx)
    (hds : ds = c.eax) :
    (edi = c.edi ∧ esi = c.esi ∧ ebp = c.ebp ∧ ebx = c.ebx ∧ edx = c.edx ∧ ecx = c.ecx ∧
      eax = c.eax ∧ ds.setWidth 16 = c.ds) ↔ c.AllHold sp := by
  rw [hedi, hesi, hebp, hebx, hedx, hecx, heax, hds]
  constructor
  · rintro ⟨hedi, hesi, hebp, hebx, hedx, hecx, heax, hds⟩
    -- The registers pushed before `esp` hold `sp`, so the word of the data segment does.
    have hall : c.eax = sp := by rw [← heax, ← hecx, ← hedx, ← hebx]
    have hword : c.edi = sp := by rw [← hedi, ← hds, halves_append, hall]
    exact ⟨hword, by rw [← hesi, hword], by rw [← hebp, ← hesi, hword], hebx.symm,
      by rw [← hedx, ← hebx], by rw [← hecx, ← hedx, ← hebx], hall, by rw [← hds, hall]⟩
  · rintro ⟨hedi, hesi, hebp, hebx, hedx, hecx, heax, hds⟩
    rw [hedi, hesi, hebp, hebx, hedx, hecx, heax, hds]
    exact ⟨halves_append sp, rfl, rfl, rfl, rfl, rfl, rfl, rfl⟩

/-- The frame of an interrupt is right when the displaced registers hold what
    `pusha` pushed for `esp`. -/
theorem irqFrame_iff (c : Cpu) (line ret : Word) :
    IrqFrame (irqParameter (irqint line ret (c.interrupt none))) c line ↔
      c.AllHold (c.esp - 16) := by
  have hword := fun j v hv => irq_word c line ret j v hv
  rw [← shifted_iff c (c.esp - 16) _ _ _ _ _ _ _ _ (hword 0 _ rfl) (hword 1 _ rfl)
    (hword 2 _ rfl) (hword 4 _ rfl) (hword 5 _ rfl) (hword 6 _ rfl) (hword 7 _ rfl)
    (hword 8 _ rfl)]
  constructor
  · exact fun hframe => ⟨hframe.edi, hframe.esi, hframe.ebp, hframe.ebx, hframe.edx, hframe.ecx,
      hframe.eax, hframe.ds⟩
  · -- The fields from the number on are right in any case.
    rintro ⟨hedi, hesi, hebp, hebx, hedx, hecx, heax, hds⟩
    exact ⟨hedi, hesi, hebp, hebx, hedx, hecx, heax, hds, hword 9 _ rfl, hword 10 _ rfl,
      hword 11 _ rfl, hword 12 _ rfl⟩

/-- The frame of an exception likewise, with one word more below `pusha`. -/
theorem isrFrame_iff (c : Cpu) (vector ret : Word) (errcode : Option Word)
    (h : errcode.isSome = decide (vector ∈ errVectors)) :
    IsrFrame (isrParameter (isrStub vector ret (c.interrupt errcode))) c vector
      (errcode.getD 0) ↔ c.AllHold (c.esp - 20) := by
  have hword := fun j v hv => isr_word c vector ret errcode h j v hv
  rw [← shifted_iff c (c.esp - 20) _ _ _ _ _ _ _ _ (hword 0 _ rfl) (hword 1 _ rfl)
    (hword 2 _ rfl) (hword 4 _ rfl) (hword 5 _ rfl) (hword 6 _ rfl) (hword 7 _ rfl)
    (hword 8 _ rfl)]
  constructor
  · exact fun hframe => ⟨hframe.edi, hframe.esi, hframe.ebp, hframe.ebx, hframe.edx, hframe.ecx,
      hframe.eax, hframe.ds⟩
  · rintro ⟨hedi, hesi, hebp, hebx, hedx, hecx, heax, hds⟩
    exact ⟨hedi, hesi, hebp, hebx, hedx, hecx, heax, hds, hword 9 _ rfl, hword 10 _ rfl,
      hword 11 _ rfl, hword 12 _ rfl, hword 13 _ rfl⟩

/-- The frame of an interrupt is right exactly at the entries where all the
    displaced registers hold one value: the stack pointer below the words that
    the processor and the stub push. The same goes for an exception whose error
    code the processor pushes when the stub expects it to. -/
theorem frames_iff (c : Cpu) (ret : Word) :
    (∀ line, IrqFrame (irqParameter (irqint line ret (c.interrupt none))) c line ↔
      c.AllHold (c.esp - 16)) ∧
    ∀ vector errcode, errcode.isSome = decide (vector ∈ errVectors) →
      (IsrFrame (isrParameter (isrStub vector ret (c.interrupt errcode))) c vector
          (errcode.getD 0) ↔ c.AllHold (c.esp - 20)) :=
  ⟨fun line => irqFrame_iff c line ret,
    fun vector errcode h => isrFrame_iff c vector ret errcode h⟩

/-! ### The way back -/

/-- The registers an interrupted program has back. -/
structure Resumed (c c' : Cpu) : Prop where
  edi : c'.edi = c.edi
  esi : c'.esi = c.esi
  ebp : c'.ebp = c.ebp
  esp : c'.esp = c.esp
  ebx : c'.ebx = c.ebx
  edx : c'.edx = c.edx
  ecx : c'.ecx = c.ecx
  eax : c'.eax = c.eax
  ds : c'.ds = c.ds
  eip : c'.eip = c.eip
  cs : c'.cs = c.cs
  eflags : c'.eflags = c.eflags

/-- What the way back leaves, by the words above the stack pointer: nine of the
    stub's, `k` that are dropped, and three of the processor's. -/
theorem restore_iret (s : Cpu) (k : Nat) (w : Nat → Word)
    (hw : ∀ j, s.mem.dword s.esp j = w j) :
    (s.restore (BitVec.ofNat 32 (4 * k))).iret = { s with
      edi := w 1, esi := w 2, ebp := w 3, ebx := w 5, edx := w 6, ecx := w 7, eax := w 8
      ds := (w 0).setWidth 16, es := (w 0).setWidth 16, fs := (w 0).setWidth 16
      gs := (w 0).setWidth 16, eip := w (9 + k), cs := (w (10 + k)).setWidth 16
      eflags := w (11 + k), esp := s.esp + BitVec.ofNat 32 (4 * (12 + k)) } := by
  have htop : s.top = w 0 := (Mem.dword_zero s.mem s.esp).symm.trans (hw 0)
  have hsaved : ∀ j, s.mem.dword (s.esp + 4) j = w (1 + j) := by
    intro j
    rw [← hw]
    exact Mem.dword_add s.mem s.esp 1 j
  have hpushed : ∀ j, s.mem.dword (s.esp + 4 + 32 + BitVec.ofNat 32 (4 * k)) j = w (9 + k + j) := by
    intro j
    rw [BitVec.add_assoc s.esp, show (4 + 32 : Word) = BitVec.ofNat 32 (4 * 9) by rfl,
      add_ofNat_add, ← Nat.mul_add, Mem.dword_add, hw]
  have hesp : s.esp + BitVec.ofNat 32 (4 * (12 + k))
      = s.esp + 4 + 32 + BitVec.ofNat 32 (4 * k) + 12 := by
    rw [BitVec.add_assoc s.esp, show (4 + 32 : Word) = BitVec.ofNat 32 36 by rfl, add_ofNat_add,
      show (12 : Word) = BitVec.ofNat 32 12 by rfl, add_ofNat_add]
    congr 2
    omega
  rw [hesp, ← htop, ← hsaved 0, ← hsaved 1, ← hsaved 2, ← hsaved 4, ← hsaved 5, ← hsaved 6,
    ← hsaved 7, show 10 + k = 9 + k + 1 by omega, ← hpushed 1, show 11 + k = 9 + k + 2 by omega,
    ← hpushed 2, ← Nat.add_zero (9 + k), ← hpushed 0]
  rfl

/-- A handler that leaves the frame as it was, with the stack pointer back at
    it, has the interrupted program go on as it would have. -/
theorem irq_resumes (c s : Cpu) (line ret : Word) (hesp : s.esp = c.esp - 52)
    (hkept : ∀ j < 13, s.mem.dword s.esp j = (irqint line ret (c.interrupt none)).mem.dword
      ((irqint line ret (c.interrupt none)).esp + 4) j) : Resumed c (irqLeave s) := by
  have hword := fun j (hj : j < 13) v hv => (hkept j hj).trans (irq_word c line ret j v hv)
  rw [irqLeave, show (4 : Word) = BitVec.ofNat 32 (4 * 1) by rfl, restore_iret s 1 _ fun _ => rfl]
  refine ⟨hword 1 (by omega) _ rfl, hword 2 (by omega) _ rfl, hword 3 (by omega) _ rfl, ?_,
    hword 5 (by omega) _ rfl, hword 6 (by omega) _ rfl, hword 7 (by omega) _ rfl,
    hword 8 (by omega) _ rfl, ?_, hword 10 (by omega) _ rfl, ?_, hword 12 (by omega) _ rfl⟩
  · rw [hesp]
    exact BitVec.sub_add_cancel c.esp 52
  · rw [hword 0 (by omega) _ rfl]
    exact setWidth_append_low _ c.ds
  · rw [hword 11 (by omega) _ rfl]
    exact BitVec.setWidth_setWidth_of_le c.cs (show 16 ≤ 32 by decide)

/-- A processor with its stack at `0x1000` and one value in every register. -/
def levelCpu (v : Word) : Cpu :=
  { mem := fun _ => 0, edi := v, esi := v, ebp := v, esp := 0x1000, ebx := v, edx := v, ecx := v
    eax := v, ds := v.setWidth 16, es := 0, fs := 0, gs := 0, cs := 8, eip := 0x100000
    eflags := 0x202 }

/-- The value that makes the frame of an interrupt right, and the one that makes
    that of a page fault right. -/
theorem frames_iff_level :
    IrqFrame (irqParameter (irqint 3 0 ((levelCpu 0xFF0).interrupt none))) (levelCpu 0xFF0) 3 ∧
      IsrFrame (isrParameter (isrStub 14 0 ((levelCpu 0xFEC).interrupt (some 2))))
        (levelCpu 0xFEC) 14 2 :=
  ⟨((frames_iff (levelCpu 0xFF0) 0).1 3).mpr ⟨rfl, rfl, rfl, rfl, rfl, rfl, rfl, rfl⟩,
    ((frames_iff (levelCpu 0xFEC) 0).2 14 (some 2) (by decide)).mpr
      ⟨rfl, rfl, rfl, rfl, rfl, rfl, rfl, rfl⟩⟩

/-- With the kernel's data segment in `ds` and everything else zero, the field
    `edi` reads that segment. -/
theorem frame_displaced :
    ¬ ∀ (c : Cpu) (ret : Word),
      (∀ line : Word, line < 16 →
        IrqFrame (irqParameter (irqint line ret (c.interrupt none))) c line) ∧
      ∀ (vector : Word) (errcode : Option Word), vector < 32 →
        errcode.isSome = decide (vector ∈ errVectors) →
        IsrFrame (isrParameter (isrStub vector ret (c.interrupt errcode))) c vector
          (errcode.getD 0) := by
  intro hall
  have hframe := (hall { levelCpu 0 with ds := 0x10 } 0).1 0 (by decide)
  have hedi := irq_word { levelCpu 0 with ds := 0x10 } 0 0 0 _ rfl
  exact absurd (hedi.symm.trans hframe.edi) (by decide)

end UnixP6
