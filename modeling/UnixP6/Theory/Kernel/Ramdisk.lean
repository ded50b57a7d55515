import UnixP6.Theory.Interrupts.Masks
import UnixP6.Theory.Kernel.Start
import UnixP6.Theory.Serial.Progress

/-!
# The File that the Kernel Prints

Once `sys_init` has returned, the kernel looks up one file of the ramdisk, prints
it with `%s`, and halts. The string that is printed is not the file but what
comes before the first zero byte from the start of the file on. For a file that
fills its last block that is not its end: the next header follows, and a name is
printed behind the file.

A file that is not there is found at address zero. `tar_init` has written its
record to that address, and the record is printed.

All of it reaches the serial line, in whatever order the processor and the
device take their steps.

## Main definitions

* `BootImage.behind`: What lies in memory from the start of a file on.
* `crlf`: A text as it is to be heard.

## Theorems

* `finds_member`, `finds_nothing`: What the lookup finds.
* `start_prints`: What the kernel prints.
* `start_prints_file_iff`: When that is the file.
* `start_sends`: What is heard of it.
-/

namespace UnixP6

open CSemantics

/-- What lies in memory from the start of a member's contents on. -/
def behind (mb : Member) (after : List Member) : List Byte :=
  mb.contents ++ (mb.padding ++ (encodeAll after ++ List.replicate 512 0))

/-- What comes before the first zero byte. -/
def untilZero (bs : List Byte) : List Byte := bs.takeWhile fun b => b != 0

theorem ne_zero_of_mem_untilZero (bs : List Byte) (c : Byte) (h : c ∈ untilZero bs) : c ≠ 0 := by
  have hc := List.mem_takeWhile_imp h
  exact bne_iff_ne.mp hc

theorem length_untilZero (bs : List Byte) (h : (0 : Byte) ∈ bs) :
    (untilZero bs).length < bs.length := by
  have hprefix : untilZero bs <+: bs := List.takeWhile_prefix _
  refine Nat.lt_of_le_of_ne hprefix.length_le fun hlen => ?_
  -- Otherwise nothing would have been cut off, the zero byte included.
  rw [← hprefix.eq_of_length hlen] at h
  exact ne_zero_of_mem_untilZero bs 0 h rfl

theorem zero_mem_behind (mb : Member) (after : List Member) : (0 : Byte) ∈ behind mb after :=
  List.mem_append_right _ (List.mem_append_right _ (List.mem_append_right _
    (List.mem_replicate.mpr ⟨by decide, rfl⟩)))

/-- Behind the header of a member comes what is behind the member. -/
theorem encodeAll_behind (mb : Member) (after : List Member) :
    encodeAll (mb :: after) ++ List.replicate 512 0 = mb.header ++ behind mb after := by
  unfold behind
  rw [encodeAll_cons, Member.encode, List.append_assoc, List.append_assoc, List.append_assoc]

section Finds

variable (img : KernelImage) (k : KernelState) (addr : Word) (b : BootImage)
  (h : Booted img k addr b)

include h

/-- The first member of the name is found. -/
theorem finds_member (before after : List Member) (mb : Member)
    (hmembers : b.members = before ++ mb :: after)
    (hbefore : ∀ other ∈ before, other.name ≠ fileName) (hname : mb.name = fileName) :
    Finds img k b ⟨b.start + BitVec.ofNat 32 (512 + (encodeAll before).length + 512),
      BitVec.ofNat 32 mb.contents.length⟩ (untilZero (behind mb after)) := by
  intro m hquiet _
  have hdisk := holds_quiet img k.mem m b.start _ h.disk hquiet h.disk_clear
  have hlen := h.disk_length
  have hclear := h.disk_clear
  unfold BootImage.disk at hdisk hlen hclear
  rw [hmembers] at hdisk hlen hclear
  have hstring := (string_quiet img k addr b h m hquiet img.fileNm fileName
    (List.mem_cons_of_mem _ List.mem_cons_self)).1
  have htake : fileName.take 100 = fileName := rfl
  rcases tarGetFile_walk m ⟨b.start, b.size⟩ img.fileNm fileName hstring b.lead before (mb :: after)
    b.lead_contents hlen hdisk (fun other hother => by rw [htake]; exact hbefore other hother) with
    ⟨hrest, fuel, hwalk⟩
  have hencode := hrest
  rw [encodeAll_cons, List.append_assoc, holds_append] at hencode
  have hturn := turn_match m ⟨b.start, b.size⟩ img.fileNm _ mb hencode.1 fileName hstring
    (by rw [htake]; exact hname)
  have hptr : b.start + (512 + BitVec.ofNat 32 (encodeAll before).length) + 512
      = b.start + BitVec.ofNat 32 (512 + (encodeAll before).length + 512) := by bv_omega
  rw [hptr] at hturn
  -- The header is passed, and the string starts behind it.
  rw [encodeAll_behind, holds_append, length_header,
    show (BitVec.ofNat 32 512 : Word) = 512 from rfl, hptr] at hrest
  refine ⟨hwalk.trans (runLoop_exit _ fuel _ _ hturn),
    cstring_of_holds m _ _ hrest.2 (zero_mem_behind mb after), ?_⟩
  have hshort := length_untilZero _ (zero_mem_behind mb after)
  have hlength := congrArg List.length (encodeAll_behind mb after)
  rw [List.length_append, List.length_append, List.length_replicate, length_header] at hlength
  refine ClearRange.apart_buffer img _ _ (Nat.succ_pos _) (hclear.part img _ _ _ _ ?_)
  rw [length_archive b.lead before (mb :: after) b.lead_contents]
  omega

/-- Without a member of the name it is address zero that is found. -/
theorem finds_nothing (hnone : ∀ mb ∈ b.members, mb.name ≠ fileName)
    (hzero : (0 : Byte) ∈ b.record) : Finds img k b ⟨0, 0⟩ (untilZero b.record) := by
  intro m hquiet hrecord
  have hdisk := holds_quiet img k.mem m b.start _ h.disk hquiet h.disk_clear
  have hlen := h.disk_length
  have hall : b.members = b.members ++ [] := (List.append_nil _).symm
  unfold BootImage.disk at hdisk hlen
  rw [hall] at hdisk hlen
  have hstring := (string_quiet img k addr b h m hquiet img.fileNm fileName
    (List.mem_cons_of_mem _ List.mem_cons_self)).1
  have htake : fileName.take 100 = fileName := rfl
  rcases tarGetFile_walk m ⟨b.start, b.size⟩ img.fileNm fileName hstring b.lead b.members []
    b.lead_contents hlen hdisk (fun mb hmb => by rw [htake]; exact hnone mb hmb) with
    ⟨hrest, fuel, hwalk⟩
  -- All the members are passed over, and a zero block follows.
  have hend := holds_getElem m _ _ hrest 0 (by
    rw [List.length_append, List.length_replicate]
    omega)
  rw [BitVec.add_zero] at hend
  have hshort := length_untilZero b.record hzero
  have hrecordLength : b.record.length = 8 := rfl
  have hapart : Apart img.buffer 32 0 ((untilZero b.record).length + 1) :=
    ⟨h.record_buffer.1, Nat.le_trans (by omega) h.record_buffer.2⟩
  exact ⟨hwalk.trans (runLoop_exit _ fuel _ _ (turn_end m ⟨b.start, b.size⟩ img.fileNm _ hend)),
    cstring_of_holds m b.record 0 hrecord hzero, hapart⟩

end Finds

/-! ### What is printed -/

/-- What `kmain` prints once `sys_init` has returned: a line about the module, and
    a text of the file that was found. `_start` adds its own line. -/
structure Printed (img : KernelImage) (k : KernelState) (addr : Word) (b : BootImage) (file : Tar)
    (text : List Byte) : Prop where
  main : ∃ k', kmain img k multiboot2BootloaderMagic addr = some (.ok (1, file, k')) ∧
    k'.com = banner b.start b.size ++ text
  halt : ∃ k', k.start img multiboot2BootloaderMagic addr = some (.ok k') ∧
    k'.com = banner b.start b.size ++ (text ++ goodbye)

section Prints

variable (img : KernelImage) (k : KernelState) (addr : Word) (b : BootImage)
  (h : Booted img k addr b)

include h

theorem printed_of_finds (file : Tar) (text : List Byte) (hfinds : Finds img k b file text) :
    Printed img k addr b file text := by
  rcases kmain_spec img k addr b h file text hfinds with ⟨k', hmain, -, hcom⟩
  exact ⟨⟨k', hmain, hcom⟩, start_spec img k addr b h file text hfinds⟩

/-- The kernel gets from its start to the halt. Once `sys_init` has returned it
    prints what comes before the first zero byte from the start of the file on, or
    of the record at zero if there is no file of the name. -/
theorem start_prints :
    (∀ before mb after, b.members = before ++ mb :: after →
      (∀ other ∈ before, other.name ≠ fileName) → mb.name = fileName →
      Printed img k addr b ⟨b.start + BitVec.ofNat 32 (512 + (encodeAll before).length + 512),
        BitVec.ofNat 32 mb.contents.length⟩ (untilZero (behind mb after))) ∧
    ((∀ mb ∈ b.members, mb.name ≠ fileName) → (0 : Byte) ∈ b.record →
      Printed img k addr b ⟨0, 0⟩ (untilZero b.record)) :=
  ⟨fun before mb after hmembers hbefore hname => printed_of_finds img k addr b h _ _
      (finds_member img k addr b h before after mb hmembers hbefore hname),
    fun hnone hzero => printed_of_finds img k addr b h _ _
      (finds_nothing img k addr b h hnone hzero)⟩

end Prints

/-! A ramdisk with the file and two letters in it, behind the strings of the
    kernel and the boot information. -/

theorem module_type_pos : 1 ≤ 3 := by decide

theorem module_type_le : 3 ≤ 21 := by decide

theorem directory_contents_lt : ([] : List Byte).length < 8 ^ 11 := by decide

/-- The file. -/
def greeting : Member where
  name := fileName
  owners := List.replicate 24 32
  rest := List.replicate 377 32
  contents := [104, 105]
  name_ne := by decide
  name_le := by decide
  name_bytes := by decide
  owners_length := List.length_replicate
  rest_length := List.length_replicate
  contents_lt := by decide

/-- The tag of a module from 164 to 2212. -/
def greetingTag : BootTag where
  type := 3
  body := bytes32 164 ++ (bytes32 2212 ++ [114, 0])
  padding := List.replicate 6 0
  type_pos := module_type_pos
  type_le := module_type_le
  padding_length := rfl
  mmap := fun h => absurd h (Nat.ne_of_beq_eq_false rfl)
  framebuffer := fun h => absurd h (Nat.ne_of_beq_eq_false rfl)

def greetingBoot : BootImage where
  header := List.replicate 8 0
  before := []
  ramdisk := greetingTag
  after := []
  endSize := 8
  start := 164
  stop := 2212
  cmdline := [114, 0]
  lead := letterMember 100 (by decide) [] directory_contents_lt
  members := [greeting]
  header_length := rfl
  before_type := fun _ h => absurd h List.not_mem_nil
  ramdisk_type := rfl
  ramdisk_body := rfl
  lead_contents := rfl

def greetingImage : KernelImage where
  moduleFmt := 104
  fileNm := 122
  fileFmt := 135
  returnedFmt := 138
  idtTable := 0x20000
  isrTable := fun _ => 0x30000
  irqTable := fun _ => 0x31000
  buffer := 0x10000
  startBuffer := 0x11000
  stack := fun _ => 0

/-- The bytes from 64 to the start of the archive. -/
def greetingFront : List Byte :=
  greetingBoot.info ++ (moduleFormat ++ [0] ++ (fileName ++ [0] ++ (fileFormat ++ [0] ++
    (returnedFormat ++ [0]))))

def greetingKernel : KernelState where
  mem := memOf (List.replicate 64 0 ++ (greetingFront ++ greetingBoot.disk))
  gdtTable := fun _ => 0
  interrupts := zeroInterrupts
  modules := ⟨fun _ => 0, 0⟩
  dispDrv := 0
  tvgaCurattr := 0x0F
  cursorPos := 0
  mDynAvailable := 0
  mDynTotal := 0
  mDynBase := 0
  mDynFirstBlock := 0
  com := []

/-- All of it lies below what the kernel writes to, but for the record. -/
theorem greeting_clear (a : Word) (n : Nat) (ha : 8 ≤ a.toNat) (hn : a.toNat + n ≤ 4096) :
    ClearRange greetingImage a n := by
  intro i hi
  have hat : (a + BitVec.ofNat 32 i).toNat = a.toNat + i := by bv_omega
  refine ⟨far_of_lt_or_le _ _ _ (by decide) (Or.inr ?_),
    far_of_lt_or_le _ _ _ (by decide) (Or.inl ?_), far_of_lt_or_le _ _ _ (by decide) (Or.inl ?_)⟩
  · rw [hat]
    exact Nat.le_trans ha (Nat.le_add_right _ _)
  · rw [hat]
    exact Nat.lt_of_lt_of_le (by omega) (show 4096 ≤ (0x10000 : Word).toNat by decide)
  · rw [hat]
    exact Nat.lt_of_lt_of_le (by omega) (show 4096 ≤ tvgaVbuffer.toNat by decide)

theorem greeting_disk_length : greetingBoot.disk.length = 2048 := by
  have hmember : greeting.encode.length = 1024 := by
    rw [length_encode]
    rfl
  have hdisk := length_archive greetingBoot.lead [] [greeting] rfl
  rw [length_encodeAll_cons, hmember] at hdisk
  exact hdisk

theorem greeting_booted : Booted greetingImage greetingKernel 64 greetingBoot := by
  have hdisk := greeting_disk_length
  have hfront : greetingFront.length = 100 := rfl
  have hinfo : greetingBoot.info.length = 40 := rfl
  have hholds : Holds greetingKernel.mem 0
      (List.replicate 64 0 ++ (greetingFront ++ greetingBoot.disk)) := by
    refine holds_memOf _ ?_
    rw [List.length_append, List.length_append, hdisk, hfront, List.length_replicate]
    decide
  rw [holds_append, holds_append, List.length_replicate, hfront] at hholds
  rcases (holds_append _ _ greetingBoot.info _).mp hholds.2.1 with ⟨hloaded, hstrings⟩
  rcases (holds_append _ _ (moduleFormat ++ [0]) _).mp hstrings with ⟨hmodule, hstrings⟩
  rcases (holds_append _ _ (fileName ++ [0]) _).mp hstrings with ⟨hname, hstrings⟩
  rcases (holds_append _ _ (fileFormat ++ [0]) _).mp hstrings with ⟨hfile, hreturned⟩
  refine ⟨rfl, hloaded, by rw [hinfo]; decide, ?_, by decide, hholds.2.2, by rw [hdisk]; decide,
    ?_, ?_, by unfold Apart; decide, by unfold Apart; decide, rfl, rfl⟩
  · rw [hinfo]
    exact greeting_clear _ _ (by decide) (by decide)
  · rw [hdisk]
    exact greeting_clear _ _ (by decide) (by decide)
  · intro s hs
    -- The four strings, one behind the other.
    simp only [KernelImage.strings, List.mem_cons, List.not_mem_nil, or_false] at hs
    rcases hs with rfl | rfl | rfl | rfl
    · exact ⟨⟨by decide, hmodule⟩, greeting_clear _ _ (by decide) (by decide)⟩
    · exact ⟨⟨by decide, hname⟩, greeting_clear _ _ (by decide) (by decide)⟩
    · exact ⟨⟨by decide, hfile⟩, greeting_clear _ _ (by decide) (by decide)⟩
    · exact ⟨⟨by decide, hreturned⟩, greeting_clear _ _ (by decide) (by decide)⟩

/-- Nothing is printed but the two letters. -/
theorem start_prints_greeting : Printed greetingImage greetingKernel 64 greetingBoot ⟨1188, 2⟩
    (untilZero (behind greeting [])) :=
  (start_prints greetingImage greetingKernel 64 greetingBoot greeting_booted).1 [] greeting [] rfl
    (fun _ h => absurd h List.not_mem_nil) rfl

/-! ### When it is the file -/

theorem untilZero_append_iff (xs ys : List Byte) :
    untilZero (xs ++ ys) = xs ↔ (∀ c ∈ xs, c ≠ 0) ∧ untilZero ys = [] := by
  constructor
  · intro h
    have hne : ∀ c ∈ xs, c ≠ 0 := by
      intro c hc
      rw [← h] at hc
      exact ne_zero_of_mem_untilZero _ c hc
    refine ⟨hne, ?_⟩
    have hsplit : untilZero (xs ++ ys) = xs ++ untilZero ys :=
      List.takeWhile_append_of_pos fun c hc => bne_iff_ne.mpr (hne c hc)
    rw [h] at hsplit
    exact List.append_cancel_left (hsplit.symm.trans (List.append_nil xs).symm)
  · rintro ⟨hne, hys⟩
    have hsplit : untilZero (xs ++ ys) = xs ++ untilZero ys :=
      List.takeWhile_append_of_pos fun c hc => bne_iff_ne.mpr (hne c hc)
    rw [hsplit, hys, List.append_nil]

/-- The string ends where the file does if no zero byte comes before that and one
    comes then: one of the padding, or the block of zeros. -/
theorem untilZero_behind_iff (mb : Member) (after : List Member) :
    untilZero (behind mb after) = mb.contents ↔
      (∀ c ∈ mb.contents, c ≠ 0) ∧ (mb.contents.length % 512 ≠ 0 ∨ after = []) := by
  unfold behind
  rw [untilZero_append_iff]
  refine and_congr_right fun _ => ?_
  by_cases hpart : mb.contents.length % 512 = 0
  · have hpadding : mb.padding = [] := by
      unfold Member.padding
      rw [hpart]
      rfl
    rw [hpadding, List.nil_append]
    refine Iff.trans ?_ (or_iff_right (not_not.mpr hpart)).symm
    cases after with
    | nil => exact iff_of_true rfl rfl
    | cons other after =>
        -- The next header begins with a name.
        refine iff_of_false (fun hempty => ?_) (List.cons_ne_nil _ _)
        rw [encodeAll_behind, Member.header, Member.nameField] at hempty
        cases hname : other.name with
        | nil => exact other.name_ne hname
        | cons c rest =>
            have hc : c ≠ 0 := other.name_bytes c (by rw [hname]; exact List.mem_cons_self)
            rw [hname, List.cons_append, List.cons_append, List.cons_append, untilZero,
              List.takeWhile_cons, if_pos (bne_iff_ne.mpr hc)] at hempty
            exact List.cons_ne_nil _ _ hempty
  · refine iff_of_true ?_ (Or.inl hpart)
    obtain ⟨n, hn⟩ : ∃ n, (512 - mb.contents.length % 512) % 512 = n + 1 :=
      ⟨(512 - mb.contents.length % 512) % 512 - 1, by omega⟩
    unfold Member.padding
    rw [hn]
    rfl

section File

variable (img : KernelImage) (k : KernelState) (addr : Word) (b : BootImage)
  (h : Booted img k addr b)
  (before after : List Member) (mb : Member) (hmembers : b.members = before ++ mb :: after)
  (hbefore : ∀ other ∈ before, other.name ≠ fileName) (hname : mb.name = fileName)

include h hmembers hbefore hname

/-- Between its own two lines the kernel prints exactly the file if there is no
    zero byte in it and its last block is not full, or it is the last of the
    archive. -/
theorem start_prints_file_iff :
    (∃ k', k.start img multiboot2BootloaderMagic addr = some (.ok k') ∧
      k'.com = banner b.start b.size ++ (mb.contents ++ goodbye)) ↔
    (∀ c ∈ mb.contents, c ≠ 0) ∧ (mb.contents.length % 512 ≠ 0 ∨ after = []) := by
  rcases start_spec img k addr b h _ _ (finds_member img k addr b h before after mb hmembers hbefore
    hname) with ⟨k', hrun, hcom⟩
  rw [← untilZero_behind_iff mb after]
  constructor
  · rintro ⟨k'', hrun', hcom'⟩
    rw [hrun, Option.some.injEq, Except.ok.injEq] at hrun'
    rw [← hrun', hcom] at hcom'
    exact List.append_cancel_right (List.append_cancel_left hcom')
  · intro hfile
    exact ⟨k', hrun, by rw [hcom, hfile]⟩

end File

theorem start_prints_file_iff_greeting :
    (∃ k', greetingKernel.start greetingImage multiboot2BootloaderMagic 64 = some (.ok k') ∧
      k'.com = banner 164 2048 ++ ([104, 105] ++ goodbye)) ↔
    (∀ c ∈ ([104, 105] : List Byte), c ≠ 0) ∧ (2 % 512 ≠ 0 ∨ ([] : List Member) = []) :=
  start_prints_file_iff greetingImage greetingKernel 64 greetingBoot greeting_booted [] [] greeting
    rfl (fun _ h => absurd h List.not_mem_nil) rfl

/-! ### What is heard -/

/-- A text with a carriage return in front of every newline. -/
def crlf (text : List Byte) : List Byte := text.flatMap fun c => if c = 10 then [13, 10] else [c]

/-- If every carriage return gets past the register, this is what is heard. -/
theorem heard_all (text : List Byte) : ∀ flags : List Bool, flags.length = newlines text →
    (∀ f ∈ flags, f = true) → heard flags text = crlf text := by
  induction text with
  | nil => exact fun _ _ _ => rfl
  | cons c text ih =>
      intro flags hlen hall
      by_cases hc : c = 10
      · subst hc
        rw [newlines, List.count_cons_self] at hlen
        cases flags with
        | nil => exact absurd hlen (Nat.succ_ne_zero _).symm
        | cons f flags =>
            rw [heard_newline, hall f List.mem_cons_self,
              ih flags (Nat.succ.inj hlen) fun g hg => hall g (List.mem_cons_of_mem f hg)]
            rfl
      · rw [newlines, List.count_cons_of_ne hc] at hlen
        rw [heard_other _ _ _ hc, ih flags hlen hall, crlf, crlf, List.flatMap_cons, if_neg hc]
        rfl

section Sends

variable (img : KernelImage) (k : KernelState) (addr : Word) (b : BootImage)
  (h : Booted img k addr b)
  (before after : List Member) (mb : Member) (hmembers : b.members = before ++ mb :: after)
  (hbefore : ∀ other ∈ before, other.name ≠ fileName) (hname : mb.name = fileName)

include h hmembers hbefore hname

/-- From `sys_init` to the halt, on a line on which nothing is left to send by
    then: with a register of two places, and in any order of steps of the processor
    and the device, what the kernel writes is heard, every newline with its
    carriage return, once nothing but reading the status in vain is left to be
    done. -/
theorem start_sends : ∃ k', k.start img multiboot2BootloaderMagic addr = some (.ok k') ∧
    ∀ depth, 2 ≤ depth → ∀ events s, Run (SerialStep depth) (Serial.start k'.com) events s →
      (useful events).length ≤ 5 * k'.com.length ∧
        ((∃ e t, ¬ e.InVain ∧ SerialStep depth s e t) ∨
          s.line.sent
            = crlf (banner b.start b.size ++ (untilZero (behind mb after) ++ goodbye))) := by
  rcases start_spec img k addr b h _ _ (finds_member img k addr b h before after mb hmembers hbefore
    hname) with ⟨k', hrun, hcom⟩
  refine ⟨k', hrun, fun depth hdepth events s hserial => ?_⟩
  rcases sends_of_run depth (by omega) k'.com events s hserial with ⟨hbound, hleft⟩
  refine ⟨hbound, hleft.imp_right fun hsent => ?_⟩
  rcases hsent with ⟨hsent, hlen, hall⟩
  rw [hsent, heard_all _ _ hlen (hall hdepth), hcom]

end Sends

theorem start_sends_greeting :
    ∃ k', greetingKernel.start greetingImage multiboot2BootloaderMagic 64 = some (.ok k') ∧
    ∀ depth, 2 ≤ depth → ∀ events s, Run (SerialStep depth) (Serial.start k'.com) events s →
      (useful events).length ≤ 5 * k'.com.length ∧
        ((∃ e t, ¬ e.InVain ∧ SerialStep depth s e t) ∨
          s.line.sent = crlf (banner 164 2048 ++ (untilZero (behind greeting []) ++ goodbye))) :=
  start_sends greetingImage greetingKernel 64 greetingBoot greeting_booted [] [] greeting rfl
    (fun _ h => absurd h List.not_mem_nil) rfl

end UnixP6
