import UnixP6.Core.Tools

/-!
# Reading the Boot Information

`modules.c` and `sys_init` of `sysinit.c`. The boot loader leaves a list of
tags in memory, and `sys_init` walks it from one header to the next by the size
each states, with an inner walk over the entries of a memory map. The memory is
only read: what the walk writes are the kernel's own globals.

Nothing bounds either walk but what is read, so both are `runLoop`s over an
address and yield nothing if they never end. Looking a name up outside its
table is a `SysFault`, and so is storing a module behind the array of modules.
The walk also records which headers and which entries it reads, and which
drivers it starts with which arguments.

## Main definitions

* `Modules`, `ModuleTable`: The list of modules, and where it lies in memory.
* `SysInit`: What the walk leaves behind.
* `readMmap`: The walk over a memory map.
* `sysInitTag`: One tag.
* `sysInit`: The whole of `sys_init`.
-/

namespace UnixP6

open CSemantics

/-! ### Modules -/

/-- `__modules` and `__modules_count`. The array has `MODULES_MAX_LOAD` slots,
    and those past it stand for nothing. -/
structure Modules where
  slots : Word → Word
  count : Word

/-- `MODULES_MAX_LOAD`. -/
def modulesMaxLoad : Word := 256

/-- `module_add_to_list` while the array has room. The test against
    `MODULES_MAX_LOAD` in the source guards an empty statement. -/
def moduleAddToList (ms : Modules) (m : Word) : Modules :=
  { slots := fun i => if i = ms.count then m else ms.slots i, count := ms.count + 1 }

/-- `module_get`. -/
def moduleGet (ms : Modules) (idx : Word) : Word :=
  if ms.count ≤ idx then 0 else ms.slots idx

/-- Where `__modules` and `__modules_count` are in memory. -/
structure ModuleTable where
  modules : Word
  count : Word

/-- `module_add_to_list` on the memory the two lie in, with room or without. The
    count is read again for the increment, after the pointer is stored. -/
def moduleAddIn (t : ModuleTable) (m : Mem) (tag : Word) : Mem :=
  let m := m.store32 (t.modules + 4 * m.load32 t.count) tag
  m.store32 t.count (m.load32 t.count + 1)

/-- `module_get` there. -/
def moduleGetIn (t : ModuleTable) (m : Mem) (idx : Word) : Word :=
  if m.load32 t.count ≤ idx then 0 else m.load32 (t.modules + 4 * idx)

/-! ### The walk -/

/-- `MULTIBOOT2_BOOTLOADER_MAGIC`. -/
def multiboot2BootloaderMagic : Word := 0x36d76289

/-- The types of the tags that `sys_init` does more with than print them. -/
def tagTypeEnd : Word := 0
def tagTypeModule : Word := 3
def tagTypeMmap : Word := 6
def tagTypeFramebuffer : Word := 8

/-- `MULTIBOOT_FRAMEBUFFER_TYPE_RGB` and `MULTIBOOT_FRAMEBUFFER_TYPE_EGA_TEXT`. -/
def framebufferTypeRgb : Byte := 1
def framebufferTypeEgaText : Byte := 2

/-- `__mb2_htags_str`. -/
def mb2HtagsStr : List String :=
  ["TAG_TYPE_END               ",
    "TAG_TYPE_CMDLINE           ",
    "TAG_TYPE_BOOT_LOADER_NAME  ",
    "TAG_TYPE_MODULE            ",
    "TAG_TYPE_BASIC_MEMINFO     ",
    "TAG_TYPE_BOOTDEV           ",
    "TAG_TYPE_MMAP              ",
    "TAG_TYPE_VBE               ",
    "TAG_TYPE_FRAMEBUFFER       ",
    "TAG_TYPE_ELF_SECTIONS      ",
    "TAG_TYPE_APM               ",
    "TAG_TYPE_EFI32             ",
    "TAG_TYPE_EFI64             ",
    "TAG_TYPE_SMBIOS            ",
    "TAG_TYPE_ACPI_OLD          ",
    "TAG_TYPE_ACPI_NEW          ",
    "TAG_TYPE_NETWORK           ",
    "TAG_TYPE_EFI_MMAP          ",
    "TAG_TYPE_EFI_BS            ",
    "TAG_TYPE_EFI32_IH          ",
    "TAG_TYPE_EFI64_IH          ",
    "TAG_TYPE_LOAD_BASE_ADDR    "]

/-- `__mb2_htag_fb_str`. -/
def mb2HtagFbStr : List String :=
  ["FRAMEBUFFER_TYPE_INDEXED",
    "FRAMEBUFFER_TYPE_RGB",
    "FRAMEBUFFER_TYPE_EGA_TEXT"]

/-- A driver started for a framebuffer, with what `vbe_init` is given. -/
inductive DriverCall
  | tvgaInit
  | vbeInit (fb w h bpp : Word)
deriving Repr, DecidableEq

/-- What the walk leaves behind: the modules, `sys_config.disp_drv`, the drivers
    started, the names printed, and the headers and entries read. -/
structure SysInit where
  modules : Modules
  dispDrv : Word
  drivers : List DriverCall
  names : List String
  headers : List Word
  entries : List Word

/-- A name looked up outside its table, or a module stored behind the array. -/
inductive SysFault
  | tagName (idx : Word)
  | framebufferName (idx : Byte)
  | moduleSlot (idx : Word)
deriving Repr, DecidableEq

/-- The fields of a `multiboot_tag`, and the entry size of a memory map. -/
def tagType (m : Mem) (tag : Word) : Word := m.load32 tag
def tagSize (m : Mem) (tag : Word) : Word := m.load32 (tag + 4)
def tagEntrySize (m : Mem) (tag : Word) : Word := m.load32 (tag + 8)

/-- Where the module of a `multiboot_tag_module` begins and ends. -/
def moduleStart (m : Mem) (tag : Word) : Word := m.load32 (tag + 8)
def moduleEnd (m : Mem) (tag : Word) : Word := m.load32 (tag + 12)

/-- The fields of a `multiboot_tag_framebuffer` that are used. -/
def framebufferAddr (m : Mem) (tag : Word) : Word := m.load32 (tag + 8)
def framebufferWidth (m : Mem) (tag : Word) : Word := m.load32 (tag + 20)
def framebufferHeight (m : Mem) (tag : Word) : Word := m.load32 (tag + 24)
def framebufferBpp (m : Mem) (tag : Word) : Byte := m (tag + 28)
def framebufferType (m : Mem) (tag : Word) : Byte := m (tag + 29)

/-- The next tag: the size rounded up to eight. -/
def nextTag (m : Mem) (tag : Word) : Word := tag + ((tagSize m tag + 7) &&& ~~~7)

/-- One turn of the walk over a memory map, up to an address and by a stride. -/
def mmapTurn (limit stride : Word) (s : Word × List Word) :
    Option (Turn (Word × List Word) (List Word)) :=
  if s.1 < limit then some (.again (s.1 + stride, s.2 ++ [s.1])) else some (.exit s.2)

/-- The walk over the entries of a memory map. -/
def readMmap (m : Mem) (tag : Word) (entries : List Word) : Option (List Word) :=
  runLoop (mmapTurn (tag + tagSize m tag) (tagEntrySize m tag)) (turnBound + 1) (tag + 16, entries)

/-- A framebuffer tag: start the driver it asks for. -/
def readFramebuffer (m : Mem) (tag : Word) (st : SysInit) : Except SysFault SysInit :=
  match mb2HtagFbStr[(framebufferType m tag).toNat]? with
  -- The name is printed here too, before the switch.
  | none => .error (.framebufferName (framebufferType m tag))
  | some name =>
    .ok { st with
      names := st.names ++ [name]
      drivers := st.drivers ++
        if framebufferType m tag = framebufferTypeEgaText then [.tvgaInit]
        else if framebufferType m tag = framebufferTypeRgb then
          [.vbeInit (framebufferAddr m tag) (framebufferWidth m tag) (framebufferHeight m tag)
            ((framebufferBpp m tag).setWidth 32)]
        else []
      dispDrv := (framebufferType m tag).setWidth 32 }

/-- The body of the tag loop. -/
def sysInitTag (m : Mem) (tag : Word) (st : SysInit) : Option (Except SysFault SysInit) :=
  match mb2HtagsStr[(tagType m tag).toNat]? with
  | none => some (.error (.tagName (tagType m tag)))
  | some name =>
    -- The name is printed before the type is looked at any further.
    let st := { st with names := st.names ++ [name] }
    if tagType m tag = tagTypeModule then
      -- The source stores behind a full array too, over whatever comes next.
      if modulesMaxLoad ≤ st.modules.count then some (.error (.moduleSlot st.modules.count))
      else some (.ok { st with modules := moduleAddToList st.modules tag })
    else if tagType m tag = tagTypeMmap then
      (readMmap m tag st.entries).map fun entries => .ok { st with entries := entries }
    else if tagType m tag = tagTypeFramebuffer then some (readFramebuffer m tag st)
    else some (.ok st)

/-- One turn of the tag loop: the header at the address. -/
def sysInitTurn (m : Mem) (s : Word × SysInit) :
    Option (Turn (Word × SysInit) (Except SysFault SysInit)) :=
  let st := { s.2 with headers := s.2.headers ++ [s.1] }
  -- The type is read before anything says that a header is there.
  if tagType m s.1 = tagTypeEnd then some (.exit (.ok st))
  else (sysInitTag m s.1 st).map fun res =>
    match res with
    | .error fault => .exit (.error fault)
    | .ok st => .again (nextTag m s.1, st)

/-- `sys_init`, with the value it returns. -/
def sysInit (m : Mem) (magic addr : Word) (st : SysInit) :
    Option (Except SysFault (Word × SysInit)) :=
  if magic ≠ multiboot2BootloaderMagic then some (.ok (-1, st))
  else if addr &&& 7 ≠ 0 then some (.ok (-1, st))
  else (runLoop (sysInitTurn m) (turnBound + 1) (addr + 8, st)).map fun res =>
    res.map fun st => (0, st)

end UnixP6
