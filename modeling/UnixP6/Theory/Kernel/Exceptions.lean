import UnixP6.Core.Exceptions
import UnixP6.Theory.Interrupts.Frame
import UnixP6.Theory.Kernel.Ramdisk

/-!
# The Report of an Exception

From the processor to the text. The processor pushes an error code for some
exceptions, and the stubs push a zero for the others, so that the handler finds
the number and a code in either case. Which exceptions have one is decided in
two places, and the stubs do not look.

Where the two agree, the report has the number, the name and the code. Where the
processor has pushed a code that the stub does not expect, the handler finds the
stub's zero and prints no code. Where it has not and the stub expects one, the
address of the instruction is in its place.

## Main definitions

* `exceptionPushes`: What is on the stack of the handler.
* `reported`: The code that the handler finds.
* `report`: The text of a report.
* `ExceptionText`: The strings of the handler lie apart from the stack.

## Theorems

* `isrStub_pushes`: The stack, whether the processor and the stub agree or not.
* `handleException_spec`: What the handler prints.
* `raise_report`: What is printed for an exception.
-/

namespace UnixP6

open CSemantics

/-! ### The stack -/

/-- The words pushed by the processor and the stub. -/
def entryWords (c : Cpu) (vector : Word) (errcode : Option Word) : List Word :=
  [c.eflags, c.cs.setWidth 32, c.eip] ++ (errcode.toList ++
    ((if errVectors.contains vector then [] else [0]) ++ [vector]))

/-- What is on the stack when `handle_exception` is entered. -/
def exceptionPushes (c : Cpu) (vector ret : Word) (errcode : Option Word) : List Word :=
  entryWords c vector errcode ++
    savedWords c (c.esp - BitVec.ofNat 32 (4 * (entryWords c vector errcode).length)) ret

/-- The word that the handler takes for the error code. -/
def reported (c : Cpu) (vector : Word) (errcode : Option Word) : Word :=
  if errVectors.contains vector then errcode.getD c.eip else 0

/-- The stack pointer after so many pushes. -/
theorem esp_pushes (sp : Word) :
    sp - BitVec.ofNat 32 (4 * 4) = sp - 4 - 4 - 4 - 4 ∧
      sp - BitVec.ofNat 32 (4 * 5) = sp - 4 - 4 - 4 - 4 - 4 ∧
      sp - BitVec.ofNat 32 (4 * 6) = sp - 4 - 4 - 4 - 4 - 4 - 4 ∧
      ∀ n, sp - BitVec.ofNat 32 (4 * (n + 10)) = sp - BitVec.ofNat 32 (4 * n)
        - 4 - 4 - 4 - 4 - 4 - 4 - 4 - 4 - 4 - 4 :=
  ⟨by bv_omega, by bv_omega, by bv_omega, fun n => by bv_omega⟩

section Stack

variable (c : Cpu) (vector ret : Word) (errcode : Option Word)

/-- The stack, whether the processor and the stub agree or not. -/
theorem isrStub_pushes :
    (isrStub vector ret (c.interrupt errcode)).mem
        = pushAll c.mem c.esp (exceptionPushes c vector ret errcode) ∧
      (isrStub vector ret (c.interrupt errcode)).esp
        = c.esp - BitVec.ofNat 32 (4 * (exceptionPushes c vector ret errcode).length) := by
  rcases esp_pushes c.esp with ⟨h4, h5, h6, hsaved⟩
  unfold exceptionPushes
  rw [List.length_append, show (savedWords c _ ret).length = 10 from rfl, hsaved, entryWords]
  by_cases herr : errVectors.contains vector
  · have hstub : isrStub vector ret (c.interrupt errcode)
        = isrErr vector ret (c.interrupt errcode) := if_pos herr
    rw [hstub, if_pos herr]
    cases errcode with
    | none =>
        have hlen : ([c.eflags, c.cs.setWidth 32, c.eip] ++ ((none : Option Word).toList ++
          ([] ++ [vector]))).length = 4 := rfl
        rw [hlen, h4]
        exact ⟨rfl, rfl⟩
    | some e =>
        have hlen : ([c.eflags, c.cs.setWidth 32, c.eip] ++ ((some e).toList ++
          ([] ++ [vector]))).length = 5 := rfl
        rw [hlen, h5]
        exact ⟨rfl, rfl⟩
  · have hstub : isrStub vector ret (c.interrupt errcode)
        = isrNoerr vector ret (c.interrupt errcode) := if_neg herr
    rw [hstub, if_neg herr]
    cases errcode with
    | none =>
        have hlen : ([c.eflags, c.cs.setWidth 32, c.eip] ++ ((none : Option Word).toList ++
          ([0] ++ [vector]))).length = 5 := rfl
        rw [hlen, h5]
        exact ⟨rfl, rfl⟩
    | some e =>
        have hlen : ([c.eflags, c.cs.setWidth 32, c.eip] ++ ((some e).toList ++
          ([0] ++ [vector]))).length = 6 := rfl
        rw [hlen, h6]
        exact ⟨rfl, rfl⟩

theorem length_exceptionPushes : (exceptionPushes c vector ret errcode).length ≤ 16 := by
  unfold exceptionPushes entryWords
  by_cases herr : errVectors.contains vector
  · rw [if_pos herr]
    cases errcode with
    | none => exact show 14 ≤ 16 by decide
    | some e => exact show 15 ≤ 16 by decide
  · rw [if_neg herr]
    cases errcode with
    | none => exact show 15 ≤ 16 by decide
    | some e => exact show 16 ≤ 16 by decide

/-- The handler finds the number, and a word for the error code. -/
theorem exception_parameter :
    (isrParameter (isrStub vector ret (c.interrupt errcode))).intnum = vector ∧
      (isrParameter (isrStub vector ret (c.interrupt errcode))).errcode
        = reported c vector errcode := by
  have hlen := length_exceptionPushes c vector ret errcode
  rcases isrStub_pushes c vector ret errcode with ⟨hmem, hesp⟩
  have hword := fun j v hv =>
    parameter_word _ c.esp c.mem _ j v hmem hesp (Nat.le_trans (Nat.mul_le_mul_left 4 hlen)
      (by decide)) hv
  unfold isrParameter isrCtxAt reported
  unfold exceptionPushes entryWords at hword
  by_cases herr : errVectors.contains vector
  · rw [if_pos herr] at hword ⊢
    cases errcode with
    | none => exact ⟨hword 9 vector rfl, hword 10 c.eip rfl⟩
    | some e => exact ⟨hword 9 vector rfl, hword 10 e rfl⟩
  · rw [if_neg herr] at hword ⊢
    cases errcode with
    | none => exact ⟨hword 9 vector rfl, hword 10 0 rfl⟩
    | some e => exact ⟨hword 9 vector rfl, hword 10 0 rfl⟩

end Stack

/-! ### The text -/

def exceptionName (vector : Word) : List Byte := exceptionNames.getD vector.toNat []

/-- The report of an exception. A code of zero is not printed, and of another the
    low three bits are not. -/
def report (vector errcode : Word) : List Byte :=
  10 :: ascii ['A', 'n', ' ', 'e', 'x', 'c', 'e', 'p', 't', 'i', 'o', 'n', ' ', 'o', 'c', 'c', 'u',
    'r', 'r', 'e', 'd', '!'] ++ 10 :: ascii ['I', 'S', 'R', ':'] ++ (intText 10 vector ++
      (ascii [',', ' ', 'N', 'a', 'm', 'e', ':'] ++ (exceptionName vector ++
        ((if errcode ≠ 0 then ascii [',', ' ', 'E', 'r', 'r', 'o', 'r', ' ', 'C', 'o', 'd', 'e', ':']
          ++ numeralText 16 (errcode >>> 3).toNat else []) ++ (ascii ['.'] ++ [10])))))

/-- The formats with their addresses. -/
def ExceptionImage.strings (ex : ExceptionImage) : List (Word × List Byte) :=
  [(ex.reportFmt, reportFormat), (ex.codeFmt, codeFormat), (ex.endFmt, endFormat)]

/-- An address that neither the entry nor the handler writes to. -/
structure Spared (ex : ExceptionImage) (c : Cpu) (x : Word) : Prop where
  stack : Far (c.esp - 64) 64 x
  buffer : Far ex.buffer 32 x

/-- The formats, and the name of an exception with its entry of the table, lie
    apart from the stack. -/
structure ExceptionText (ex : ExceptionImage) (c : Cpu) (m : Mem) (vector : Word) : Prop where
  strings : ∀ s ∈ ex.strings, CString m s.1 s.2 ∧
    ∀ i < s.2.length + 1, Spared ex c (s.1 + BitVec.ofNat 32 i)
  entry : ∀ i < 4, Spared ex c (ex.names + 4 * vector + BitVec.ofNat 32 i)
  name : CString m (m.load32 (ex.names + 4 * vector)) (exceptionName vector)
  name_spared : ∀ i < (exceptionName vector).length + 1,
    Spared ex c (m.load32 (ex.names + 4 * vector) + BitVec.ofNat 32 i)

section Text

variable (ex : ExceptionImage) (c : Cpu) (m m' : Mem) (vector : Word)

/-- Memory is the same where neither writes. -/
def SparedSame : Prop := ∀ x, Spared ex c x → m' x = m x

variable (hsame : SparedSame ex c m m') (h : ExceptionText ex c m vector)

include hsame

theorem cstring_spared (a : Word) (s : List Byte) (hs : CString m a s)
    (hspared : ∀ i < s.length + 1, Spared ex c (a + BitVec.ofNat 32 i)) :
    CString m' a s ∧ Apart ex.buffer 32 a (s.length + 1) := by
  refine ⟨⟨hs.1, holds_of_getElem m' a _ fun i hi => ?_⟩,
    apart_of_far ex.buffer a 32 _ (by decide) (Nat.succ_pos _) fun i hi => (hspared i hi).buffer⟩
  rw [hsame _ (hspared i (by rw [List.length_append] at hi; exact hi))]
  exact holds_getElem m a _ hs.2 i hi

include h

/-- The texts stay where they are. -/
theorem text_spared : ExceptionText ex c m' vector ∧
    m'.load32 (ex.names + 4 * vector) = m.load32 (ex.names + 4 * vector) := by
  have hentry : m'.load32 (ex.names + 4 * vector) = m.load32 (ex.names + 4 * vector) := by
    have hzero := hsame _ (h.entry 0 (by decide))
    rw [BitVec.add_zero] at hzero
    exact Mem.load32_congr m m' _ hzero (hsame _ (h.entry 1 (by decide)))
      (hsame _ (h.entry 2 (by decide))) (hsame _ (h.entry 3 (by decide)))
  refine ⟨⟨fun s hs => ?_, h.entry, ?_, ?_⟩, hentry⟩
  · rcases h.strings s hs with ⟨hstring, hspared⟩
    exact ⟨(cstring_spared ex c m m' hsame s.1 s.2 hstring hspared).1, hspared⟩
  · rw [hentry]
    exact (cstring_spared ex c m m' hsame _ _ h.name h.name_spared).1
  · rw [hentry]
    exact h.name_spared

end Text

/-! ### The report -/

theorem expand_reportFormat (m : Mem) (args : Nat → Word) (t : List Byte)
    (ht : CString m (args 1) t) : expand m args 0 (pieces reportFormat)
      = 10 :: ascii ['A', 'n', ' ', 'e', 'x', 'c', 'e', 'p', 't', 'i', 'o', 'n', ' ', 'o', 'c', 'c',
        'u', 'r', 'r', 'e', 'd', '!'] ++ 10 :: ascii ['I', 'S', 'R', ':'] ++
          (intText 10 (args 0) ++ (ascii [',', ' ', 'N', 'a', 'm', 'e', ':'] ++ t)) := by
  have hstring : stringAt m (args 1) = t := by
    rw [stringAt, readString_of_cstring m _ _ t ht]
    exact List.take_of_length_le (length_lt_of_cstring m _ t ht).le
  have hpieces : expand m args 0 (pieces reportFormat)
      = 10 :: ascii ['A', 'n', ' ', 'e', 'x', 'c', 'e', 'p', 't', 'i', 'o', 'n', ' ', 'o', 'c', 'c',
        'u', 'r', 'r', 'e', 'd', '!'] ++ 10 :: ascii ['I', 'S', 'R', ':'] ++
          (intText 10 (args 0) ++ (ascii [',', ' ', 'N', 'a', 'm', 'e', ':'] ++
            (stringAt m (args 1) ++ []))) := rfl
  rw [hpieces, hstring, List.append_nil]

theorem expand_codeFormat (m : Mem) (args : Nat → Word) : expand m args 0 (pieces codeFormat)
    = ascii [',', ' ', 'E', 'r', 'r', 'o', 'r', ' ', 'C', 'o', 'd', 'e', ':']
      ++ (numeralText 16 (args 0).toNat ++ []) := rfl

/-- Only the last piece of the first format is a string. -/
theorem stringsGiven_reportFormat (m : Mem) (buffer : Word) (args : Nat → Word)
    (hgiven : ∃ t, CString m (args 1) t ∧ Apart buffer 32 (args 1) (t.length + 1)) :
    StringsGiven m buffer args 0 (pieces reportFormat) := by
  have hsplit : pieces reportFormat = (pieces reportFormat).dropLast ++ [.convert 115] := by decide
  have hcount : arguments (pieces reportFormat).dropLast = 1 := by decide
  rw [hsplit, stringsGiven_append, hcount]
  exact ⟨stringsGiven_none m buffer args _ (by decide) 0, fun _ => hgiven, trivial⟩

section Report

variable (img : KernelImage) (ex : ExceptionImage) (c : Cpu) (vector : Word)

/-- A call of `LOG` in the handler leaves the texts where they are. -/
theorem log_text (k : KernelState) (h : ExceptionText ex c k.mem vector) (fmt : Word)
    (s : List Byte) (hs : (fmt, s) ∈ ex.strings) (args : List Word) (hplain : ¬ [37, 108] <:+: s)
    (hgiven : StringsGiven k.mem ex.buffer (callArgs img args) 0 (pieces s)) :
    ∃ m, k.log img ex.buffer fmt args = some { k with
        mem := m
        com := k.com ++ expand k.mem (callArgs img args) 0 (pieces s) } ∧
      ExceptionText ex c m vector := by
  rcases h.strings (fmt, s) hs with ⟨hfmt, hspared⟩
  have hkeep : SparedSame ex c k.mem k.mem := fun x _ => rfl
  rcases log_spec img ex.buffer k fmt args s hfmt
    (cstring_spared ex c k.mem k.mem hkeep fmt s hfmt hspared).2 hplain hgiven with
    ⟨m, hlog, hsame⟩
  exact ⟨m, hlog, (text_spared ex c k.mem m vector (fun x hx => hsame x hx.buffer) h).1⟩

/-- The handler prints the report of what it finds in the frame. -/
theorem handleException_spec (k : KernelState) (ctx : IsrCtx)
    (h : ExceptionText ex c k.mem vector) (hnum : ctx.intnum = vector) :
    ∃ k', handleException img ex k ctx = some k' ∧
      k'.com = k.com ++ report vector ctx.errcode := by
  have hkeep : SparedSame ex c k.mem k.mem := fun x _ => rfl
  -- The number and the name.
  rcases cstring_spared ex c k.mem k.mem hkeep _ _ h.name h.name_spared with ⟨hname, hnameApart⟩
  rcases log_text img ex c vector k h ex.reportFmt reportFormat List.mem_cons_self
    [vector, k.mem.load32 (ex.names + 4 * vector)] (by decide)
    (stringsGiven_reportFormat _ _ _ ⟨_, hname, hnameApart⟩) with ⟨m1, hlog1, h1⟩
  rw [expand_reportFormat _ _ _ hname] at hlog1
  -- The code, if it is not zero.
  let k1 : KernelState := { k with
    mem := m1
    com := k.com ++ (10 :: ascii ['A', 'n', ' ', 'e', 'x', 'c', 'e', 'p', 't', 'i', 'o', 'n', ' ',
      'o', 'c', 'c', 'u', 'r', 'r', 'e', 'd', '!'] ++ 10 :: ascii ['I', 'S', 'R', ':'] ++
        (intText 10 vector ++ (ascii [',', ' ', 'N', 'a', 'm', 'e', ':']
          ++ exceptionName vector))) }
  have hcode : ∃ m2, (if ctx.errcode ≠ 0 then
      k1.log img ex.buffer ex.codeFmt [ctx.errcode >>> 3] else some k1) = some { k1 with
        mem := m2
        com := k1.com ++ if ctx.errcode ≠ 0 then
          ascii [',', ' ', 'E', 'r', 'r', 'o', 'r', ' ', 'C', 'o', 'd', 'e', ':']
            ++ numeralText 16 (ctx.errcode >>> 3).toNat else [] } ∧
      ExceptionText ex c m2 vector := by
    by_cases hzero : ctx.errcode = 0
    · rw [if_neg (not_not.mpr hzero), if_neg (not_not.mpr hzero), List.append_nil]
      exact ⟨m1, rfl, h1⟩
    · rw [if_pos hzero, if_pos hzero]
      rcases log_text img ex c vector k1 h1 ex.codeFmt codeFormat
        (List.mem_cons_of_mem _ List.mem_cons_self) [ctx.errcode >>> 3] (by decide)
        (stringsGiven_none _ _ _ _ (by decide) 0) with ⟨m2, hlog2, h2⟩
      rw [expand_codeFormat, List.append_nil] at hlog2
      exact ⟨m2, hlog2, h2⟩
  rcases hcode with ⟨m2, hcode, h2⟩
  -- The end of the line.
  let k2 : KernelState := { k1 with
    mem := m2
    com := k1.com ++ if ctx.errcode ≠ 0 then
      ascii [',', ' ', 'E', 'r', 'r', 'o', 'r', ' ', 'C', 'o', 'd', 'e', ':']
        ++ numeralText 16 (ctx.errcode >>> 3).toNat else [] }
  rcases log_text img ex c vector k2 h2 ex.endFmt endFormat
    (List.mem_cons_of_mem _ (List.mem_cons_of_mem _ List.mem_cons_self)) [] (by decide)
    (stringsGiven_none _ _ _ _ (by decide) 0) with ⟨m3, hlog3, -⟩
  have hfirst : k.log img ex.buffer ex.reportFmt
      [ctx.intnum, k.mem.load32 (ex.names + 4 * ctx.intnum)] = some k1 := by
    rw [hnum]
    exact hlog1
  refine ⟨{ k2 with mem := m3, com := k2.com ++ endFormat }, ?_, ?_⟩
  · unfold handleException
    rw [hfirst, Option.bind_some, hcode, Option.bind_some]
    exact hlog3
  · simp only [k2, k1, report, List.append_assoc]
    rfl

omit img ex c vector in
/-- What is far from the 64 bytes below the stack pointer is far from fewer. -/
theorem far_pushed (sp x : Word) (n : Nat) (hn : n ≤ 16) (h : Far (sp - 64) 64 x) :
    Far (sp - BitVec.ofNat 32 (4 * n)) (4 * n) x := by
  unfold Far at *
  bv_omega

/-- What is printed for an exception: the report of its number and of the word that
    is found for the error code. -/
theorem raise_report (k : KernelState) (errcode : Option Word)
    (h : ExceptionText ex c k.mem vector) : ∃ k', raise img ex k c vector errcode = some k' ∧
      k'.com = k.com ++ report vector (reported c vector errcode) := by
  obtain ⟨d, hd⟩ : ∃ d : Cpu, d = { c with mem := k.mem } := ⟨_, rfl⟩
  have hdmem : d.mem = k.mem := by rw [hd]
  have hdesp : d.esp = c.esp := by rw [hd]
  have hdeip : reported d vector errcode = reported c vector errcode := by rw [hd]; rfl
  have hlen := length_exceptionPushes d vector ex.ret errcode
  have hmem := (isrStub_pushes d vector ex.ret errcode).1
  rcases exception_parameter d vector ex.ret errcode with ⟨hnum, herr⟩
  have hsame : SparedSame ex c k.mem (isrStub vector ex.ret (d.interrupt errcode)).mem := by
    intro x hx
    have houtside := pushAll_outside (exceptionPushes d vector ex.ret errcode) d.mem d.esp
      (Nat.le_trans (Nat.mul_le_mul_left 4 hlen) (by decide))
    rw [hmem, houtside x (far_pushed d.esp x _ hlen (hdesp ▸ hx.stack)), hdmem]
  rcases handleException_spec img ex c vector
    { k with mem := (isrStub vector ex.ret (d.interrupt errcode)).mem }
    (isrParameter (isrStub vector ex.ret (d.interrupt errcode)))
    (text_spared ex c k.mem _ vector hsame h).1 hnum with ⟨k', hrun, hcom⟩
  rw [herr, hdeip] at hcom
  refine ⟨k', ?_, hcom⟩
  unfold raise
  rw [← hd]
  exact hrun

/-- A code that is not zero is seen in the report. -/
theorem report_eq_iff (errcode : Word) : report vector errcode = report vector 0 ↔ errcode = 0 := by
  refine ⟨fun h => ?_, fun h => by rw [h]⟩
  by_contra hne
  have hlength := congrArg List.length h
  unfold report at hlength
  rw [if_pos hne, if_neg (not_not.mpr rfl)] at hlength
  simp only [List.length_append] at hlength
  have hcode : (ascii [',', ' ', 'E', 'r', 'r', 'o', 'r', ' ', 'C', 'o', 'd', 'e', ':']).length
    = 13 := rfl
  rw [hcode, List.length_nil] at hlength
  omega

/-- The report has the code of the exception, or none if there is none, exactly
    when the processor and the stub agree on whether there is one, or the word that
    one of them does not count is zero. -/
theorem report_reported_iff (errcode : Option Word) :
    report vector (reported c vector errcode) = report vector (errcode.getD 0) ↔
      (vector ∈ errVectors ↔ errcode.isSome) ∨ errcode.getD c.eip = 0 := by
  unfold reported
  rw [← List.contains_iff_mem]
  by_cases herr : errVectors.contains vector
  · rw [if_pos herr]
    cases errcode with
    | none =>
        refine (report_eq_iff vector c.eip).trans ⟨Or.inr, fun h => h.resolve_left fun hagree => ?_⟩
        exact Bool.false_ne_true (hagree.mp herr)
    | some e => exact ⟨fun _ => Or.inl ⟨fun _ => rfl, fun _ => herr⟩, fun _ => rfl⟩
  · rw [if_neg herr]
    cases errcode with
    | none =>
        exact ⟨fun _ => Or.inl ⟨fun hmem => absurd hmem herr,
          fun hsome => absurd hsome Bool.false_ne_true⟩, fun _ => rfl⟩
    | some e =>
        rw [eq_comm]
        refine (report_eq_iff vector e).trans ⟨Or.inr, fun h => h.resolve_left fun hagree => ?_⟩
        exact herr (hagree.mpr rfl)

/-- Every exception is reported, and when its report is right. -/
theorem raise_prints (k : KernelState) (errcode : Option Word)
    (h : ExceptionText ex c k.mem vector) : ∃ k', raise img ex k c vector errcode = some k' ∧
      k'.com = k.com ++ report vector (reported c vector errcode) ∧
      (report vector (reported c vector errcode) = report vector (errcode.getD 0) ↔
        (vector ∈ errVectors ↔ errcode.isSome) ∨ errcode.getD c.eip = 0) := by
  rcases raise_report img ex c vector k errcode h with ⟨k', hrun, hcom⟩
  exact ⟨k', hrun, hcom, report_reported_iff c vector errcode⟩

end Report

/-! ### Number 21 -/

/-- The formats, the name of number 21, and its entry of the table. -/
def faultMemory : List Byte :=
  List.replicate 64 0 ++ (reportFormat ++ [0] ++ (codeFormat ++ [0] ++ (endFormat ++ [0] ++
    (exceptionName 21 ++ [0] ++ [123, 0, 0, 0]))))

def faultKernel : KernelState := { greetingKernel with mem := memOf faultMemory }

def faultImage : ExceptionImage where
  reportFmt := 64
  codeFmt := 104
  endFmt := 120
  names := 57
  buffer := 0x10000
  ret := 0x30000

def faultCpu : Cpu where
  mem := memOf []
  edi := 0
  esi := 0
  ebp := 0
  esp := 0x12000
  ebx := 0
  edx := 0
  ecx := 0
  eax := 0
  ds := 16
  es := 16
  fs := 16
  gs := 16
  cs := 8
  eip := 0x30010
  eflags := 2

theorem fault_spared (a : Word) (n : Nat) (hn : a.toNat + n ≤ 4096) (i : Nat) (hi : i < n) :
    Spared faultImage faultCpu (a + BitVec.ofNat 32 i) := by
  have hat : (a + BitVec.ofNat 32 i).toNat = a.toNat + i := by bv_omega
  refine ⟨far_of_lt_or_le _ _ _ (by decide) (Or.inl ?_), far_of_lt_or_le _ _ _ (by decide)
    (Or.inl ?_)⟩
  · rw [hat]
    exact Nat.lt_of_lt_of_le (by omega) (show 4096 ≤ (faultCpu.esp - 64).toNat by decide)
  · rw [hat]
    exact Nat.lt_of_lt_of_le (by omega) (show 4096 ≤ faultImage.buffer.toNat by decide)

theorem fault_text : ExceptionText faultImage faultCpu faultKernel.mem 21 := by
  have hholds : Holds faultKernel.mem 0 faultMemory :=
    holds_memOf _ (show (145 : Nat) ≤ 2 ^ 32 by decide)
  rcases (holds_append _ _ (List.replicate 64 0) _).mp hholds with ⟨-, hstrings⟩
  rcases (holds_append _ _ (reportFormat ++ [0]) _).mp hstrings with ⟨hreport, hstrings⟩
  rcases (holds_append _ _ (codeFormat ++ [0]) _).mp hstrings with ⟨hcode, hstrings⟩
  rcases (holds_append _ _ (endFormat ++ [0]) _).mp hstrings with ⟨hend, hstrings⟩
  rcases (holds_append _ _ (exceptionName 21 ++ [0]) _).mp hstrings with ⟨hname, -⟩
  have hentry : faultKernel.mem.load32 (faultImage.names + 4 * 21) = 123 := rfl
  refine ⟨fun s hs => ?_, fault_spared _ _ (by decide), ?_, ?_⟩
  · simp only [ExceptionImage.strings, List.mem_cons, List.not_mem_nil, or_false] at hs
    rcases hs with rfl | rfl | rfl
    · exact ⟨⟨by decide, hreport⟩, fault_spared _ _ (by decide)⟩
    · exact ⟨⟨by decide, hcode⟩, fault_spared _ _ (by decide)⟩
    · exact ⟨⟨by decide, hend⟩, fault_spared _ _ (by decide)⟩
  · rw [hentry]
    exact ⟨by decide, hname⟩
  · rw [hentry]
    exact fault_spared _ _ (by decide)

/-- The processor pushes a code for number 21, and the report is without one. -/
theorem raise_prints_fault : ∃ k', raise greetingImage faultImage faultKernel faultCpu 21 (some 24)
      = some k' ∧
    k'.com = [] ++ report 21 0 ∧
      (report 21 0 = report 21 24 ↔ ((21 : Word) ∈ errVectors ↔ true) ∨ (24 : Word) = 0) :=
  raise_prints greetingImage faultImage faultCpu 21 faultKernel (some 24) fault_text

end UnixP6
