import SystemLevel.Foundations.FixedCodec

/-!
`Elf64Inspector` over a buffer in memory. Offsets are relative to `buffer_.data()` and wrap as addresses do; the
memory around the buffer holds anything. Every read of the parser is recorded.
-/

namespace SystemLevel.Elf

open FixedCodec

structure Elf64Ehdr where
  eIdent : { bs : Bytes // bs.length = 16 }
  eType : UInt16
  eMachine : UInt16
  eVersion : UInt32
  eEntry : UInt64
  ePhoff : UInt64
  eShoff : UInt64
  eFlags : UInt32
  eEhsize : UInt16
  ePhentsize : UInt16
  ePhnum : UInt16
  eShentsize : UInt16
  eShnum : UInt16
  eShstrndx : UInt16

structure Elf64Phdr where
  pType : UInt32
  pFlags : UInt32
  pOffset : UInt64
  pVaddr : UInt64
  pPaddr : UInt64
  pFilesz : UInt64
  pMemsz : UInt64
  pAlign : UInt64
  deriving DecidableEq, Repr

structure Elf64Shdr where
  shName : UInt32
  shType : UInt32
  shFlags : UInt64
  shAddr : UInt64
  shOffset : UInt64
  shSize : UInt64
  shLink : UInt32
  shInfo : UInt32
  shAddralign : UInt64
  shEntsize : UInt64
  deriving DecidableEq, Repr

def Elf64Ehdr.codec : FixedCodec Elf64Ehdr :=
  ((raw 16).prod (u16.prod (u16.prod (u32.prod (u64.prod (u64.prod (u64.prod (u32.prod (u16.prod (u16.prod
    (u16.prod (u16.prod (u16.prod u16))))))))))))).via
    (fun h => (h.eIdent, h.eType, h.eMachine, h.eVersion, h.eEntry, h.ePhoff, h.eShoff, h.eFlags, h.eEhsize,
      h.ePhentsize, h.ePhnum, h.eShentsize, h.eShnum, h.eShstrndx))
    (fun x =>
      { eIdent := x.1
        eType := x.2.1
        eMachine := x.2.2.1
        eVersion := x.2.2.2.1
        eEntry := x.2.2.2.2.1
        ePhoff := x.2.2.2.2.2.1
        eShoff := x.2.2.2.2.2.2.1
        eFlags := x.2.2.2.2.2.2.2.1
        eEhsize := x.2.2.2.2.2.2.2.2.1
        ePhentsize := x.2.2.2.2.2.2.2.2.2.1
        ePhnum := x.2.2.2.2.2.2.2.2.2.2.1
        eShentsize := x.2.2.2.2.2.2.2.2.2.2.2.1
        eShnum := x.2.2.2.2.2.2.2.2.2.2.2.2.1
        eShstrndx := x.2.2.2.2.2.2.2.2.2.2.2.2.2 })
    (fun _ => rfl)

def Elf64Phdr.codec : FixedCodec Elf64Phdr :=
  (u32.prod (u32.prod (u64.prod (u64.prod (u64.prod (u64.prod (u64.prod u64))))))).via
    (fun h => (h.pType, h.pFlags, h.pOffset, h.pVaddr, h.pPaddr, h.pFilesz, h.pMemsz, h.pAlign))
    (fun x =>
      { pType := x.1
        pFlags := x.2.1
        pOffset := x.2.2.1
        pVaddr := x.2.2.2.1
        pPaddr := x.2.2.2.2.1
        pFilesz := x.2.2.2.2.2.1
        pMemsz := x.2.2.2.2.2.2.1
        pAlign := x.2.2.2.2.2.2.2 })
    (fun _ => rfl)

def Elf64Shdr.codec : FixedCodec Elf64Shdr :=
  (u32.prod (u32.prod (u64.prod (u64.prod (u64.prod (u64.prod (u32.prod (u32.prod (u64.prod u64))))))))).via
    (fun h => (h.shName, h.shType, h.shFlags, h.shAddr, h.shOffset, h.shSize, h.shLink, h.shInfo, h.shAddralign,
      h.shEntsize))
    (fun x =>
      { shName := x.1
        shType := x.2.1
        shFlags := x.2.2.1
        shAddr := x.2.2.2.1
        shOffset := x.2.2.2.2.1
        shSize := x.2.2.2.2.2.1
        shLink := x.2.2.2.2.2.2.1
        shInfo := x.2.2.2.2.2.2.2.1
        shAddralign := x.2.2.2.2.2.2.2.2.1
        shEntsize := x.2.2.2.2.2.2.2.2.2 })
    (fun _ => rfl)

theorem Elf64Ehdr.codec_size : Elf64Ehdr.codec.size = 64 := rfl

theorem Elf64Phdr.codec_size : Elf64Phdr.codec.size = 56 := rfl

theorem Elf64Shdr.codec_size : Elf64Shdr.codec.size = 64 := rfl

/-- The buffer of the inspector at its address, in a memory that goes on around it. A vector of bytes is no longer
than a pointer difference can tell. -/
structure Image where
  data : UInt64
  bytes : UInt64 → UInt8
  size : UInt64
  size_lt : size.toNat < 2 ^ 63

structure Access where
  offset : UInt64
  size : ℕ
  deriving DecidableEq, Repr

def Access.Within (a : Access) (image : Image) : Prop := a.offset.toNat + a.size ≤ image.size.toNat

instance decidableWithin (a : Access) (image : Image) : Decidable (a.Within image) :=
  inferInstanceAs (Decidable (_ ≤ _))

structure NameRead where
  table : Elf64Shdr
  shName : UInt32
  access : Access
  deriving DecidableEq, Repr

def NameRead.InTable (r : NameRead) : Prop := r.shName.toNat + r.access.size ≤ r.table.shSize.toNat

instance decidableInTable (r : NameRead) : Decidable r.InTable := inferInstanceAs (Decidable (_ ≤ _))

structure Reads (α : Type) where
  value : α
  copies : List Access := []
  names : List NameRead := []

namespace Reads

variable {α β : Type}

def bind (r : Reads α) (f : α → Reads β) : Reads β where
  value := (f r.value).value
  copies := r.copies ++ (f r.value).copies
  names := r.names ++ (f r.value).names

instance monadReads : Monad Reads where
  pure value := { value }
  bind := bind

def forEach (n : ℕ) (f : ℕ → Reads β) : Reads (List β) where
  value := (List.range n).map fun i => (f i).value
  copies := (List.range n).flatMap fun i => (f i).copies
  names := (List.range n).flatMap fun i => (f i).names

@[simp] theorem copies_pure (a : α) : (pure a : Reads α).copies = [] := rfl

@[simp] theorem names_pure (a : α) : (pure a : Reads α).names = [] := rfl

@[simp] theorem value_pure (a : α) : (pure a : Reads α).value = a := rfl

@[simp] theorem copies_bind (r : Reads α) (f : α → Reads β) : (r >>= f).copies = r.copies ++ (f r.value).copies := rfl

@[simp] theorem names_bind (r : Reads α) (f : α → Reads β) : (r >>= f).names = r.names ++ (f r.value).names := rfl

@[simp] theorem value_bind (r : Reads α) (f : α → Reads β) : (r >>= f).value = (f r.value).value := rfl

end Reads

namespace Image

def load {α : Type} (image : Image) (c : FixedCodec α) (offset : UInt64) : α :=
  c.decode ((List.range c.size).map fun i => image.bytes (offset + UInt64.ofNat i))

def memcpy {α : Type} (image : Image) (c : FixedCodec α) (offset : UInt64) : Reads α where
  value := image.load c offset
  copies := [{ offset, size := c.size }]

section Memcpy

variable {α : Type} (image : Image) (c : FixedCodec α) (offset : UInt64)

@[simp] theorem value_memcpy : (image.memcpy c offset).value = image.load c offset := rfl

@[simp] theorem copies_memcpy : (image.memcpy c offset).copies = [{ offset, size := c.size }] := rfl

@[simp] theorem names_memcpy : (image.memcpy c offset).names = [] := rfl

end Memcpy

def cString (image : Image) : ℕ → UInt64 → Bytes
  | 0, _ => []
  | fuel + 1, offset =>
    if image.bytes offset = 0 then [] else image.bytes offset :: image.cString fuel (offset + 1)

end Image

structure SegmentFlags where
  read : Bool
  write : Bool
  execute : Bool
  deriving DecidableEq, Repr

structure ProgramSegment where
  type : UInt32
  typeName : String
  flags : SegmentFlags
  fileOffset : UInt64
  vaddr : UInt64
  paddr : UInt64
  fileSize : UInt64
  memSize : UInt64
  align : UInt64
  deriving DecidableEq, Repr

structure SectionInfo where
  name : Bytes
  type : UInt32
  typeName : String
  flags : UInt64
  flagsStr : String
  vaddr : UInt64
  fileOffset : UInt64
  size : UInt64
  align : UInt64
  deriving DecidableEq, Repr

def segmentTypeNames : List (UInt32 × String) :=
  [(0, "PT_NULL"), (1, "PT_LOAD"), (2, "PT_DYNAMIC"), (3, "PT_INTERP"), (4, "PT_NOTE"), (5, "PT_SHLIB"),
    (6, "PT_PHDR"), (7, "PT_TLS"), (0x6474e550, "PT_GNU_EH_FRAME"), (0x6474e551, "PT_GNU_STACK"),
    (0x6474e552, "PT_GNU_RELRO"), (0x6474e553, "PT_GNU_PROPERTY")]

/-- The number of an unknown type is written in decimal behind the `0x`. -/
def getSegmentTypeName (type : UInt32) : String :=
  (segmentTypeNames.lookup type).getD ("PT_OTHER (0x" ++ toString type.toNat ++ ")")

def sectionTypeNames : List (UInt32 × String) :=
  [(0, "SHT_NULL"), (1, "SHT_PROGBITS"), (2, "SHT_SYMTAB"), (3, "SHT_STRTAB"), (4, "SHT_RELA"), (5, "SHT_HASH"),
    (6, "SHT_DYNAMIC"), (7, "SHT_NOTE"), (8, "SHT_NOBITS"), (9, "SHT_REL"), (11, "SHT_DYNSYM"),
    (14, "SHT_INIT_ARRAY"), (15, "SHT_FINI_ARRAY"), (0x6ffffff6, "SHT_GNU_HASH"), (0x6ffffffd, "SHT_GNU_verdef"),
    (0x6ffffffe, "SHT_GNU_verneed"), (0x6fffffff, "SHT_GNU_versym")]

def getSectionTypeName (type : UInt32) : String := (sectionTypeNames.lookup type).getD "SHT_OTHER"

def sectionFlagLetters : List (UInt64 × Char) :=
  [(0x1, 'W'), (0x2, 'A'), (0x4, 'X'), (0x10, 'M'), (0x20, 'S'), (0x40, 'I'), (0x80, 'L'), (0x100, 'O'), (0x200, 'G'),
    (0x400, 'T')]

def getSectionFlagsStr (flags : UInt64) : String :=
  String.ofList ('[' :: (sectionFlagLetters.filter fun flag => flags &&& flag.1 != 0).map Prod.snd ++ [']'])

def programSegment (phdr : Elf64Phdr) : ProgramSegment where
  type := phdr.pType
  typeName := getSegmentTypeName phdr.pType
  flags := { read := phdr.pFlags &&& 4 != 0, write := phdr.pFlags &&& 2 != 0, execute := phdr.pFlags &&& 1 != 0 }
  fileOffset := phdr.pOffset
  vaddr := phdr.pVaddr
  paddr := phdr.pPaddr
  fileSize := phdr.pFilesz
  memSize := phdr.pMemsz
  align := phdr.pAlign

def sectionInfo (name : Bytes) (shdr : Elf64Shdr) : SectionInfo where
  name := name
  type := shdr.shType
  typeName := getSectionTypeName shdr.shType
  flags := shdr.shFlags
  flagsStr := getSectionFlagsStr shdr.shFlags
  vaddr := shdr.shAddr
  fileOffset := shdr.shOffset
  size := shdr.shSize
  align := shdr.shAddralign

structure Elf64Inspector where
  header : Option Elf64Ehdr := none
  segments : List ProgramSegment := []
  sections : List SectionInfo := []
  isValid : Bool := false

namespace Elf64Inspector

def programHeaderOffset (header : Elf64Ehdr) (i : ℕ) : UInt64 := header.ePhoff + UInt64.ofNat i * 56

def sectionHeaderOffset (header : Elf64Ehdr) (i : ℕ) : UInt64 := header.eShoff + UInt64.ofNat i * 64

def HasProgramHeaders (image : Image) (header : Elf64Ehdr) : Prop :=
  header.ePhoff ≠ 0 ∧ header.ePhnum ≠ 0 ∧ programHeaderOffset header header.ePhnum.toNat ≤ image.size

instance decidableHasProgramHeaders (image : Image) (header : Elf64Ehdr) : Decidable (HasProgramHeaders image header) :=
  inferInstanceAs (Decidable (_ ∧ _ ∧ _))

def HasSectionHeaders (image : Image) (header : Elf64Ehdr) : Prop :=
  header.eShoff ≠ 0 ∧ header.eShnum ≠ 0 ∧ sectionHeaderOffset header header.eShnum.toNat ≤ image.size

instance decidableHasSectionHeaders (image : Image) (header : Elf64Ehdr) : Decidable (HasSectionHeaders image header) :=
  inferInstanceAs (Decidable (_ ∧ _ ∧ _))

def parseProgramHeaders (image : Image) (header : Elf64Ehdr) : Reads (List ProgramSegment) :=
  if HasProgramHeaders image header then
    .forEach header.ePhnum.toNat fun i => do
      let phdr ← image.memcpy Elf64Phdr.codec (programHeaderOffset header i)
      return programSegment phdr
  else pure []

def findStrtab (image : Image) (header : Elf64Ehdr) : Reads (Option Elf64Shdr) :=
  if header.eShstrndx < header.eShnum then do
    let strtabHdr ← image.memcpy Elf64Shdr.codec (sectionHeaderOffset header header.eShstrndx.toNat)
    return if strtabHdr.shOffset + strtabHdr.shSize ≤ image.size ∧ image.data + strtabHdr.shOffset ≠ 0 then
        some strtabHdr
      else none
  else pure none

/-- `std::string` reads the memory until it finds a zero. -/
def readName (image : Image) (table : Elf64Shdr) (shName : UInt32) : Reads Bytes :=
  let start := table.shOffset + shName.toUInt64
  let name := image.cString (2 ^ 64) start
  { value := name, names := [{ table, shName, access := { offset := start, size := name.length + 1 } }] }

def sectionName (image : Image) (strtab : Option Elf64Shdr) (shdr : Elf64Shdr) : Reads Bytes :=
  match strtab with
  | none => pure []
  | some table => if shdr.shName ≠ 0 then readName image table shdr.shName else pure []

def parseSectionHeaders (image : Image) (header : Elf64Ehdr) : Reads (List SectionInfo) :=
  if HasSectionHeaders image header then do
    let strtab ← findStrtab image header
    .forEach header.eShnum.toNat fun i => do
      let shdr ← image.memcpy Elf64Shdr.codec (sectionHeaderOffset header i)
      let name ← sectionName image strtab shdr
      return sectionInfo name shdr
  else pure []

def Accepts (header : Elf64Ehdr) : Prop := header.eIdent.1.take 5 = [0x7f, 0x45, 0x4c, 0x46, 2]

instance decidableAccepts (header : Elf64Ehdr) : Decidable (Accepts header) := inferInstanceAs (Decidable (_ = _))

def parseTables (image : Image) (header : Elf64Ehdr) : Reads Elf64Inspector := do
  let segments ← parseProgramHeaders image header
  let sections ← parseSectionHeaders image header
  return { header := some header, segments, sections, isValid := true }

def parse (image : Image) : Reads Elf64Inspector :=
  if image.size < 64 then pure {}
  else do
    let header ← image.memcpy Elf64Ehdr.codec 0
    if Accepts header then parseTables image header else return { header := some header }

end Elf64Inspector

end SystemLevel.Elf
