import UnixP6.Theory.Fs.Tar
import UnixP6.Theory.Kernel.Steps
import UnixP6.Theory.Multiboot.Tags

/-!
# From Start to Halt

What the kernel does on its way from `_start` to the halt, given what the boot
loader has loaded and what `tar_get_file` finds there.

`BootImage` is what the boot loader has loaded, and `Booted` says that it lies in
memory where the kernel does not write. `kmain` reads the boot information,
takes the first module for an archive, and prints the string at the file it
finds. Nothing it has done before gets in the way of that.

## Main definitions

* `BootImage`: What the boot loader has loaded.
* `Booted`: It lies in memory.
* `banner`, `goodbye`: What `kmain` and `_start` print before and after the file.
* `Finds`: What the lookup finds.

## Theorems

* `moduleTags_ramdisk`: The ramdisk is the first module.
* `kmainFile_spec`, `kmain_spec`: The main function.
* `start_spec`: The whole way.
-/

namespace UnixP6

open CSemantics

/-! ### What is loaded -/

/-- What the boot loader has loaded: tags, the first of the module tags among
    them, and an archive where that tag says. -/
structure BootImage where
  header : List Byte
  before : List BootTag
  ramdisk : BootTag
  after : List BootTag
  endSize : Word
  start : Word
  stop : Word
  cmdline : List Byte
  lead : Member
  members : List Member
  header_length : header.length = 8
  before_type : ∀ t ∈ before, t.type ≠ 3
  ramdisk_type : ramdisk.type = 3
  ramdisk_body : ramdisk.body = bytes32 start ++ (bytes32 stop ++ cmdline)
  lead_contents : lead.contents = []

namespace BootImage

def tags (b : BootImage) : List BootTag := b.before ++ b.ramdisk :: b.after
def info (b : BootImage) : List Byte := bootInfo b.header b.tags b.endSize
def disk (b : BootImage) : List Byte := archive b.lead b.members
def size (b : BootImage) : Word := b.stop - b.start

/-- The tag of the ramdisk. -/
def tagAddr (b : BootImage) (addr : Word) : Word :=
  addr + 8 + BitVec.ofNat 32 (encodeTags b.before).length

/-- The record that `tar_init` writes. -/
def record (b : BootImage) : List Byte := bytes32 b.start ++ bytes32 b.size

end BootImage

/-- The strings of the kernel, with their addresses. -/
def KernelImage.strings (img : KernelImage) : List (Word × List Byte) :=
  [(img.moduleFmt, moduleFormat), (img.fileNm, fileName), (img.fileFmt, fileFormat),
    (img.returnedFmt, returnedFormat)]

/-- The kernel is entered with all of this in memory, apart from what it writes
    to, and with its own globals as they were loaded. -/
structure Booted (img : KernelImage) (k : KernelState) (addr : Word) (b : BootImage) : Prop where
  aligned : addr.toNat % 8 = 0
  info : Holds k.mem addr b.info
  info_wrap : addr.toNat + b.info.length + 2 ^ 16 ≤ 2 ^ 32
  info_clear : ClearRange img addr b.info.length
  few : (moduleTags (place (addr + 8) b.tags)).length ≤ modulesMaxLoad.toNat
  disk : Holds k.mem b.start b.disk
  disk_length : b.disk.length < 2 ^ 32
  disk_clear : ClearRange img b.start b.disk.length
  strings : ∀ s ∈ img.strings, CString k.mem s.1 s.2 ∧ ClearRange img s.1 (s.2.length + 1)
  record_buffer : Apart img.buffer 32 0 8
  returned_buffer : Apart img.startBuffer 32 img.returnedFmt (returnedFormat.length + 1)
  no_modules : k.modules.count = 0
  no_heap : k.mDynFirstBlock = 0

/-- The line about the module. -/
def banner (start size : Word) : List Byte :=
  ascii ['p', 'a', 'd', 'd', 'r', '='] ++ (numeralText 16 start.toNat ++
    (ascii [' ', 's', 'i', 'z', 'e', '='] ++ (numeralText 10 size.toNat ++ [10])))

/-- The line that `_start` prints, with the one of `return 1`. -/
def goodbye : List Byte :=
  ascii ['K', 'e', 'r', 'n', 'e', 'l', ' ', 'r', 'e', 't', 'u', 'r', 'n', 'e', 'd', ' ', 'w', 'i',
    't', 'h', ' ', '1', '.'] ++ [10]

/-! ### The tag of the ramdisk -/

theorem encodeTags_append (xs ys : List BootTag) :
    encodeTags (xs ++ ys) = encodeTags xs ++ encodeTags ys := by
  unfold encodeTags
  rw [List.map_append, List.flatten_append]

theorem place_append (xs ys : List BootTag) : ∀ a : Word, place a (xs ++ ys)
    = place a xs ++ place (a + BitVec.ofNat 32 (encodeTags xs).length) ys := by
  induction xs with
  | nil =>
      intro a
      exact congrArg (fun x => place x ys) (BitVec.add_zero a).symm
  | cons t xs ih =>
      intro a
      rw [List.cons_append, place, place, ih, List.cons_append, encodeTags_cons,
        List.length_append, add_ofNat_add]

/-- No module tag among tags of other types. -/
theorem moduleTags_none (xs : List BootTag) : ∀ a : Word, (∀ t ∈ xs, t.type ≠ 3) →
    moduleTags (place a xs) = [] := by
  induction xs with
  | nil => exact fun _ _ => rfl
  | cons t xs ih =>
      intro a h
      rw [place, moduleTags_cons, if_neg (h t List.mem_cons_self)]
      exact ih _ fun u hu => h u (List.mem_cons_of_mem t hu)

section Tag

variable (b : BootImage) (m : Mem) (addr : Word)

/-- The ramdisk is the first of the modules. -/
theorem moduleTags_ramdisk :
    (moduleTags (place (addr + 8) b.tags))[0]? = some (b.tagAddr addr) := by
  have hcons : place (b.tagAddr addr) (b.ramdisk :: b.after) = (b.tagAddr addr, b.ramdisk) ::
      place (b.tagAddr addr + BitVec.ofNat 32 b.ramdisk.encode.length) b.after := rfl
  have hsplit : moduleTags (place (addr + 8) b.tags) = moduleTags (place (addr + 8) b.before)
      ++ moduleTags (place (b.tagAddr addr) (b.ramdisk :: b.after)) := by
    rw [BootImage.tags, place_append]
    unfold moduleTags
    rw [List.filter_append, List.map_append]
    rfl
  rw [hsplit, moduleTags_none b.before (addr + 8) b.before_type, hcons, moduleTags_cons,
    if_pos b.ramdisk_type]
  rfl

variable (h : Holds m addr b.info)

include h

theorem holds_ramdisk : Holds m (b.tagAddr addr) b.ramdisk.encode := by
  have height : (BitVec.ofNat 32 8 : Word) = 8 := rfl
  unfold BootImage.info bootInfo BootImage.tags at h
  rw [holds_append, holds_append, encodeTags_append, holds_append, encodeTags_cons, holds_append,
    b.header_length, height] at h
  exact h.2.1.2.1

/-- Its fields say where the archive is. -/
theorem moduleStart_ramdisk : moduleStart m (b.tagAddr addr) = b.start ∧
    moduleEnd m (b.tagAddr addr) = b.stop := by
  have hbody := holds_ramdisk b m addr h
  unfold BootTag.encode at hbody
  rw [b.ramdisk_body, holds_append, holds_append, holds_append, holds_append, holds_append,
    length_bytes32, length_bytes32, length_bytes32, add_ofNat_add, add_ofNat_add] at hbody
  exact ⟨load32_bytes32 m _ _ hbody.2.2.1.1, load32_bytes32 m _ _ hbody.2.2.1.2.1⟩

end Tag

/-! ### The kernel -/

/-- What the lookup finds wherever the kernel has written by then, and the string
    at it. -/
def Finds (img : KernelImage) (k : KernelState) (b : BootImage) (file : Tar) (text : List Byte) :
    Prop :=
  ∀ m, Quiet img k.mem m → Holds m 0 b.record →
    tarGetFile m ⟨b.start, b.size⟩ img.fileNm = some file ∧ CString m file.ptr text ∧
      Apart img.buffer 32 file.ptr (text.length + 1)

theorem expand_moduleFormat (m : Mem) (args : Nat → Word) :
    expand m args 0 (pieces moduleFormat) = banner (args 0) (args 1) := by
  rfl

theorem expand_returnedFormat (m : Mem) (args : Nat → Word) (hone : args 0 = 1) :
    expand m args 0 (pieces returnedFormat) = goodbye := by
  have hpieces : expand m args 0 (pieces returnedFormat)
      = ascii ['K', 'e', 'r', 'n', 'e', 'l', ' ', 'r', 'e', 't', 'u', 'r', 'n', 'e', 'd', ' ', 'w',
        'i', 't', 'h', ' '] ++ (intText 10 (args 0) ++ (ascii ['.'] ++ [10])) := rfl
  rw [hpieces, hone]
  decide

theorem expand_fileFormat (m : Mem) (args : Nat → Word) (t : List Byte)
    (ht : CString m (args 0) t) : expand m args 0 (pieces fileFormat) = t := by
  have hpieces : expand m args 0 (pieces fileFormat) = stringAt m (args 0) ++ [] := rfl
  rw [hpieces, List.append_nil, stringAt, readString_of_cstring m _ _ t ht]
  exact List.take_of_length_le (length_lt_of_cstring m _ t ht).le

/-- A format without `%s` needs no strings. -/
theorem stringsGiven_none (m : Mem) (buffer : Word) (args : Nat → Word) (ps : List Piece)
    (h : Piece.convert 115 ∉ ps) : ∀ n, StringsGiven m buffer args n ps := by
  induction ps with
  | nil => exact fun _ => trivial
  | cons p ps ih =>
      intro n
      exact ⟨fun hp => absurd (hp ▸ List.mem_cons_self) h,
        ih (fun hmem => h (List.mem_cons_of_mem p hmem)) _⟩

section Run

variable (img : KernelImage) (k : KernelState) (addr : Word) (b : BootImage)
  (h : Booted img k addr b)

include h

/-- The strings of the kernel stay where they are. -/
theorem string_quiet (m : Mem) (hquiet : Quiet img k.mem m) (a : Word) (s : List Byte)
    (hs : (a, s) ∈ img.strings) : CString m a s ∧ Apart img.buffer 32 a (s.length + 1) := by
  rcases h.strings (a, s) hs with ⟨hstring, hclear⟩
  exact ⟨cstring_quiet img k.mem m a s hstring hquiet hclear,
    ClearRange.apart_buffer img a _ (Nat.succ_pos _) hclear⟩

/-- So do the fields of the tag. -/
theorem fields_quiet (m : Mem) (hquiet : Quiet img k.mem m) :
    moduleStart m (b.tagAddr addr) = b.start ∧ moduleEnd m (b.tagAddr addr) = b.stop :=
  moduleStart_ramdisk b m addr (holds_quiet img k.mem m addr _ h.info hquiet h.info_clear)

/-- The rest of `kmain`, once the modules are known. -/
theorem kmainFile_spec (file : Tar) (text : List Byte) (hfinds : Finds img k b file text)
    (k1 : KernelState) (hquiet : Quiet img k.mem k1.mem)
    (hmodule : moduleGet k1.modules 0 = b.tagAddr addr) (hheap : k1.mDynFirstBlock = 0) :
    ∃ k', kmainFile img k1 = some (1, file, k') ∧ Quiet img k.mem k'.mem ∧
      k'.com = k1.com ++ (banner b.start b.size ++ text) := by
  rcases fields_quiet img k addr b h k1.mem hquiet with ⟨hstart, hstop⟩
  rcases string_quiet img k addr b h k1.mem hquiet _ _ (List.mem_cons_self) with ⟨hfmt, hfmtApart⟩
  -- The line about the module.
  rcases log_spec img img.buffer k1 img.moduleFmt [b.start, b.size] moduleFormat hfmt hfmtApart
    (by decide) (stringsGiven_none _ _ _ _ (by decide) 0) with ⟨m1, hlog1, hsame1⟩
  rw [expand_moduleFormat] at hlog1
  have hquiet1 := Quiet.trans img _ _ _ hquiet (quiet_buffer img _ _ hsame1)
  rcases fields_quiet img k addr b h m1 hquiet1 with ⟨hstart1, hstop1⟩
  -- The record, at address zero.
  let k1' : KernelState := { k1 with mem := m1, com := k1.com ++ banner b.start b.size }
  let m2 := (m1.store32 0 b.start).store32 4 b.size
  have htar : tarInit b.start b.size k1'.heap = some (0, { k1'.heap with mem := m2 }) :=
    tarInit_spec k1'.heap hheap b.start b.size
  have hquiet2 : Quiet img k.mem m2 :=
    Quiet.trans img _ _ _ hquiet1 (quiet_record img _ _ (record_sameOutside m1 b.start b.size))
  -- The file.
  rcases hfinds m2 hquiet2 (holds_record m1 b.start b.size) with ⟨hfile, htext, htextApart⟩
  rw [← tar_load_record m1 b.start b.size] at hfile
  rcases string_quiet img k addr b h m2 hquiet2 img.fileFmt fileFormat
    (List.mem_cons_of_mem _ (List.mem_cons_of_mem _ List.mem_cons_self)) with ⟨hfmt2, hfmtApart2⟩
  let k2 : KernelState := k1'.withHeap { k1'.heap with mem := m2 }
  rcases log_spec img img.buffer k2 img.fileFmt [file.ptr] fileFormat hfmt2 hfmtApart2 (by decide)
    ⟨fun _ => ⟨text, htext, htextApart⟩, trivial⟩ with ⟨m3, hlog2, hsame2⟩
  rw [expand_fileFormat _ _ text htext] at hlog2
  refine ⟨{ k2 with mem := m3, com := k2.com ++ text }, ?_,
    Quiet.trans img _ _ _ hquiet2 (quiet_buffer img _ _ hsame2), List.append_assoc k1.com _ _⟩
  have hsize : b.stop - b.start = b.size := rfl
  have hlog1' : k1.log img img.buffer img.moduleFmt [b.start, b.size] = some k1' := hlog1
  have hstart1' : moduleStart k1'.mem (b.tagAddr addr) = b.start := hstart1
  have hstop1' : moduleEnd k1'.mem (b.tagAddr addr) = b.stop := hstop1
  have hwith : k1'.withHeap { k1'.heap with mem := m2 } = k2 := rfl
  have hfile' : tarGetFile k2.mem (Tar.load k2.mem 0) img.fileNm = some file := hfile
  simp only [kmainFile, hmodule, hstart, hstop, hsize, hlog1', Option.bind_some, hstart1', hstop1',
    htar, hwith, hfile', hlog2, Option.map_some]

/-- `sys_init` finds the ramdisk. -/
theorem sysInit_booted : ∃ st, sysInit k.mem multiboot2BootloaderMagic addr
      ⟨k.modules, k.dispDrv, [], [], [], []⟩ = some (.ok (0, st)) ∧
    moduleGet st.modules 0 = b.tagAddr addr := by
  have hinfo := h.info
  have hwrap := h.info_wrap
  have hfew := h.few
  have hcount := length_le_encodeTags b.tags
  have hmax : modulesMaxLoad.toNat = 256 := rfl
  have hend : (bytes32 tagTypeEnd ++ bytes32 b.endSize).length = 8 := rfl
  unfold BootImage.info bootInfo at hinfo hwrap
  rw [holds_append, b.header_length] at hinfo
  rw [List.length_append, List.length_append, b.header_length] at hwrap
  have hroom : k.modules.count.toNat + (moduleTags (place (addr + 8) b.tags)).length
      ≤ modulesMaxLoad.toNat := by
    rw [h.no_modules, toNat_word_zero, Nat.zero_add]
    exact hfew
  rcases walk_tags k.mem b.endSize b.tags (addr + 8) ⟨k.modules, k.dispDrv, [], [], [], []⟩
    (turnBound + 1) hinfo.2 (by bv_omega) (by unfold turnBound; omega) hroom with
    ⟨st, hrun, -, hmodules, -⟩
  refine ⟨st, ?_, ?_⟩
  · rw [sysInit_walk k.mem addr _ h.aligned, hrun]
    rfl
  · have hfirst : (moduleTags (place (addr + 8) b.tags))[(0 : Word).toNat]?
        = some (b.tagAddr addr) := moduleTags_ramdisk b addr
    rw [hmodules, moduleGet_foldl _ k.modules h.no_modules (by omega), hfirst]
    rfl

/-- `kmain`, given what the lookup finds. -/
theorem kmain_spec (file : Tar) (text : List Byte) (hfinds : Finds img k b file text) :
    ∃ k', kmain img k multiboot2BootloaderMagic addr = some (.ok (1, file, k')) ∧
      Quiet img k.mem k'.mem ∧ k'.com = banner b.start b.size ++ text := by
  rcases sysInit_booted img k addr b h with ⟨st, hinit, hmodule⟩
  let k0 : KernelState := { k with
    gdtTable := segInit k.gdtTable
    interrupts := idtInit k.interrupts img.idtTable img.isrTable img.irqTable
    modules := st.modules
    dispDrv := st.dispDrv
    com := [] }
  rcases startDrivers_spec img st.drivers k0 with ⟨hquiet, hmodules, hblock, hcom⟩
  rcases kmainFile_spec img k addr b h file text hfinds
    (st.drivers.foldl KernelState.startDriver k0) hquiet (by rw [hmodules]; exact hmodule)
    (hblock.trans h.no_heap) with ⟨k', hrest, hquiet', hcom'⟩
  refine ⟨k', ?_, hquiet', by rw [hcom', hcom]; rfl⟩
  have hrest' : (kmainFile img (st.drivers.foldl KernelState.startDriver k0)).map
      (Except.ok (ε := SysFault)) = some (.ok (1, file, k')) := by
    rw [hrest]
    rfl
  unfold kmain
  simp only [hinit, Option.bind_some]
  exact hrest'

/-- `_start`, given what the lookup finds. -/
theorem start_spec (file : Tar) (text : List Byte) (hfinds : Finds img k b file text) :
    ∃ k', k.start img multiboot2BootloaderMagic addr = some (.ok k') ∧
      k'.com = banner b.start b.size ++ (text ++ goodbye) := by
  rcases kmain_spec img k addr b h file text hfinds with ⟨k1, hmain, hquiet, hcom⟩
  rcases string_quiet img k addr b h k1.mem hquiet img.returnedFmt returnedFormat
    (List.mem_cons_of_mem _ (List.mem_cons_of_mem _ (List.mem_cons_of_mem _
      List.mem_cons_self))) with ⟨hfmt, -⟩
  rcases log_spec img img.startBuffer k1 img.returnedFmt [1] returnedFormat hfmt h.returned_buffer
    (by decide) (stringsGiven_none _ _ _ _ (by decide) 0) with ⟨m, hlog, -⟩
  rw [expand_returnedFormat _ _ rfl] at hlog
  refine ⟨{ k1 with mem := m, com := k1.com ++ goodbye }, ?_, ?_⟩
  · unfold KernelState.start
    simp only [hmain, Option.bind_some, hlog, Option.map_some]
  · rw [show ({ k1 with mem := m, com := k1.com ++ goodbye } : KernelState).com = k1.com ++ goodbye
      from rfl, hcom, List.append_assoc]

end Run

end UnixP6
