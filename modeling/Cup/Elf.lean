/-
  The ELF object model of `include/lielf.h`: the raw structures of the file with their bytes, the
  model in memory and the operations that change it.

  A fixed-width field has the type of its width, so a sum of offsets wraps as in C. A name is a
  string without NUL; a `const uint8_t *` that is copied from is the memory it points at, and
  `none` where it is `NULL`. An allocation succeeds. Where the source returns a pointer into an
  array, the model returns the index.
-/
import Cup.Token
import Cup.Lib.X64
import Cup.Lib.StringTable

namespace Cup.Elf

open Lib.X64 (leBytes ofLe)
open Lib.StringTable (CString)

/-! ## Constants -/

def etRel : UInt16 := 1
def etExec : UInt16 := 2

def shtNull : UInt32 := 0
def shtProgbits : UInt32 := 1
def shtSymtab : UInt32 := 2
def shtStrtab : UInt32 := 3
def shtRela : UInt32 := 4
def shtDynamic : UInt32 := 6
def shtNobits : UInt32 := 8
def shtDynsym : UInt32 := 11

def shfWrite : UInt64 := 1
def shfAlloc : UInt64 := 2
def shfExecinstr : UInt64 := 4

def ptLoad : UInt32 := 1

def pfX : UInt32 := 1
def pfW : UInt32 := 2
def pfR : UInt32 := 4

def dtNull : Int64 := 0

/-- `LIELF_DEFAULT_BASE_EXEC`. -/
def defaultBaseExec : UInt64 := 0x400000
/-- `LIELF_DEFAULT_BASE_DYN`. -/
def defaultBaseDyn : UInt64 := 0
/-- `LIELF_PAGE_SIZE`. -/
def pageSize : UInt64 := 0x1000

/-- `sizeof(lielf_raw_ehdr_t)`. -/
def ehdrSize : Nat := 64
/-- `sizeof(lielf_raw_shdr_t)`. -/
def shdrSize : Nat := 64
/-- `sizeof(lielf_raw_phdr_t)`. -/
def phdrSize : Nat := 56
/-- `sizeof(lielf_raw_sym_t)`. -/
def symSize : Nat := 24
/-- `sizeof(lielf_raw_rela_t)`. -/
def relaSize : Nat := 24
/-- `sizeof(lielf_raw_dyn_t)`. -/
def dynSize : Nat := 16

/-- A string literal. -/
def literal (cs : List Char) : CString := CString.ofBytes (cs.map Char.toUInt8)

def dotSymtab : CString := literal ['.', 's', 'y', 'm', 't', 'a', 'b']
def dotStrtab : CString := literal ['.', 's', 't', 'r', 't', 'a', 'b']
def dotDynsym : CString := literal ['.', 'd', 'y', 'n', 's', 'y', 'm']
def dotDynstr : CString := literal ['.', 'd', 'y', 'n', 's', 't', 'r']
def dotDynamic : CString := literal ['.', 'd', 'y', 'n', 'a', 'm', 'i', 'c']
def dotShstrtab : CString := literal ['.', 's', 'h', 's', 't', 'r', 't', 'a', 'b']
def dotRelaDyn : CString := literal ['.', 'r', 'e', 'l', 'a', '.', 'd', 'y', 'n']
/-- The text of the format `.rela%s` before the name. -/
def dotRela : CString := literal ['.', 'r', 'e', 'l', 'a']

/-! ## Raw structures -/

/-- `lielf_raw_ehdr_t`. -/
structure Ehdr where
  ident : Vector UInt8 16
  type : UInt16
  machine : UInt16
  version : UInt32
  entry : UInt64
  phoff : UInt64
  shoff : UInt64
  flags : UInt32
  ehsize : UInt16
  phentsize : UInt16
  phnum : UInt16
  shentsize : UInt16
  shnum : UInt16
  shstrndx : UInt16
  deriving DecidableEq

/-- `lielf_raw_shdr_t`. -/
structure Shdr where
  name : UInt32
  type : UInt32
  flags : UInt64
  addr : UInt64
  offset : UInt64
  size : UInt64
  link : UInt32
  info : UInt32
  addralign : UInt64
  entsize : UInt64
  deriving DecidableEq

/-- `lielf_raw_phdr_t`. -/
structure Phdr where
  type : UInt32
  flags : UInt32
  offset : UInt64
  vaddr : UInt64
  paddr : UInt64
  filesz : UInt64
  memsz : UInt64
  align : UInt64
  deriving DecidableEq

/-- `lielf_raw_sym_t`. -/
structure RawSym where
  name : UInt32
  info : UInt8
  other : UInt8
  shndx : UInt16
  value : UInt64
  size : UInt64
  deriving DecidableEq

/-- `lielf_raw_rela_t`. -/
structure RawRela where
  offset : UInt64
  info : UInt64
  addend : Int64
  deriving DecidableEq

/-- `lielf_raw_dyn_t`. -/
structure RawDyn where
  tag : Int64
  val : UInt64
  deriving DecidableEq

def le16 (v : UInt16) : Bytes := leBytes 2 v.toNat
def le32 (v : UInt32) : Bytes := leBytes 4 v.toNat
def le64 (v : UInt64) : Bytes := leBytes 8 v.toNat

/-- The little-endian number in the `k` bytes from `off`. -/
def numAt (k : Nat) (b : Bytes) (off : Nat) : Nat := ofLe ((b.drop off).take k)

def u8At (b : Bytes) (off : Nat) : UInt8 := UInt8.ofNat (numAt 1 b off)
def u16At (b : Bytes) (off : Nat) : UInt16 := UInt16.ofNat (numAt 2 b off)
def u32At (b : Bytes) (off : Nat) : UInt32 := UInt32.ofNat (numAt 4 b off)
def u64At (b : Bytes) (off : Nat) : UInt64 := UInt64.ofNat (numAt 8 b off)

def Ehdr.bytes (h : Ehdr) : Bytes :=
  h.ident.toList ++ le16 h.type ++ le16 h.machine ++ le32 h.version ++ le64 h.entry ++
    le64 h.phoff ++ le64 h.shoff ++ le32 h.flags ++ le16 h.ehsize ++ le16 h.phentsize ++
    le16 h.phnum ++ le16 h.shentsize ++ le16 h.shnum ++ le16 h.shstrndx

def Ehdr.ofBytes (b : Bytes) : Ehdr where
  ident := Vector.ofFn fun i => u8At b i
  type := u16At b 16
  machine := u16At b 18
  version := u32At b 20
  entry := u64At b 24
  phoff := u64At b 32
  shoff := u64At b 40
  flags := u32At b 48
  ehsize := u16At b 52
  phentsize := u16At b 54
  phnum := u16At b 56
  shentsize := u16At b 58
  shnum := u16At b 60
  shstrndx := u16At b 62

def Shdr.bytes (h : Shdr) : Bytes :=
  le32 h.name ++ le32 h.type ++ le64 h.flags ++ le64 h.addr ++ le64 h.offset ++ le64 h.size ++
    le32 h.link ++ le32 h.info ++ le64 h.addralign ++ le64 h.entsize

def Shdr.ofBytes (b : Bytes) : Shdr where
  name := u32At b 0
  type := u32At b 4
  flags := u64At b 8
  addr := u64At b 16
  offset := u64At b 24
  size := u64At b 32
  link := u32At b 40
  info := u32At b 44
  addralign := u64At b 48
  entsize := u64At b 56

def Phdr.bytes (h : Phdr) : Bytes :=
  le32 h.type ++ le32 h.flags ++ le64 h.offset ++ le64 h.vaddr ++ le64 h.paddr ++
    le64 h.filesz ++ le64 h.memsz ++ le64 h.align

def Phdr.ofBytes (b : Bytes) : Phdr where
  type := u32At b 0
  flags := u32At b 4
  offset := u64At b 8
  vaddr := u64At b 16
  paddr := u64At b 24
  filesz := u64At b 32
  memsz := u64At b 40
  align := u64At b 48

def RawSym.bytes (s : RawSym) : Bytes :=
  le32 s.name ++ [s.info] ++ [s.other] ++ le16 s.shndx ++ le64 s.value ++ le64 s.size

def RawSym.ofBytes (b : Bytes) : RawSym where
  name := u32At b 0
  info := u8At b 4
  other := u8At b 5
  shndx := u16At b 6
  value := u64At b 8
  size := u64At b 16

def RawRela.bytes (r : RawRela) : Bytes :=
  le64 r.offset ++ le64 r.info ++ le64 r.addend.toUInt64

def RawRela.ofBytes (b : Bytes) : RawRela where
  offset := u64At b 0
  info := u64At b 8
  addend := (u64At b 16).toInt64

def RawDyn.bytes (d : RawDyn) : Bytes := le64 d.tag.toUInt64 ++ le64 d.val

def RawDyn.ofBytes (b : Bytes) : RawDyn where
  tag := (u64At b 0).toInt64
  val := u64At b 8

/-! ## Object model -/

/-- `lielf_sec_kind_t`. -/
inductive SecKind where
  | normal | shstrtab | symtab | strtab | dynsym | dynstr | rela | dynamic
  deriving DecidableEq

/-- `lielf_section_t`. -/
structure Section where
  name : CString
  type : UInt32
  flags : UInt64
  addr : UInt64
  offset : UInt64
  size : UInt64
  link : UInt32
  info : UInt32
  addralign : UInt64
  entsize : UInt64
  data : Option Bytes
  kind : SecKind
  loadedAlloc : Bool
  dirty : Bool
  relaDynamic : Int
  relaTarget : Option CString
  deriving DecidableEq

/-- A section after `memset(s, 0, sizeof(*s))`, with its name. -/
def Section.zero (name : CString) : Section where
  name
  type := 0
  flags := 0
  addr := 0
  offset := 0
  size := 0
  link := 0
  info := 0
  addralign := 0
  entsize := 0
  data := none
  kind := .normal
  loadedAlloc := false
  dirty := false
  relaDynamic := 0
  relaTarget := none

/-- `lielf_segment_t`. -/
structure Segment where
  type : UInt32
  flags : UInt32
  offset : UInt64
  vaddr : UInt64
  paddr : UInt64
  filesz : UInt64
  memsz : UInt64
  align : UInt64
  deriving DecidableEq

/-- `lielf_symbol_t`. -/
structure Symbol where
  name : CString
  value : UInt64
  size : UInt64
  info : UInt8
  other : UInt8
  shndx : UInt16
  deriving DecidableEq

/-- `STN_UNDEF`: a symbol after `memset`, with an empty name. -/
def Symbol.undef : Symbol := ⟨.empty, 0, 0, 0, 0, 0⟩

/-- `LIELF_ST_BIND(info) == LIELF_STB_LOCAL`. -/
def Symbol.isLocal (s : Symbol) : Bool := s.info >>> 4 == 0

/-- `lielf_reloc_t`. -/
structure Reloc where
  targetSection : CString
  offset : UInt64
  sym : UInt32
  type : UInt32
  addend : Int64
  dynamic : Int
  deriving DecidableEq

/-- `lielf_dynentry_t`. -/
structure DynEntry where
  tag : Int64
  val : UInt64
  deriving DecidableEq

/-- `lielf_binary_t`. -/
structure Binary where
  ehdr : Ehdr
  sections : List Section
  segments : List Segment
  symbols : List Symbol
  dynsymbols : List Symbol
  relocs : List Reloc
  dynamic : List DynEntry
  baseVaddr : UInt64
  deriving DecidableEq

/-! ## Operations -/

/-- `lielf__align_up`. -/
def alignUp (v a : UInt64) : UInt64 := if a ≤ 1 then v else (v + (a - 1)) &&& ~~~(a - 1)

/-- `lielf_new`. -/
def lielfNew (type machine : UInt16) : Binary where
  ehdr :=
    { ident := #v[0x7f, 0x45, 0x4c, 0x46, 2, 1, 1, 0, 0, 0, 0, 0, 0, 0, 0, 0]
      type, machine
      version := 1
      entry := 0
      phoff := 0
      shoff := 0
      flags := 0
      ehsize := 64
      phentsize := 56
      phnum := 0
      shentsize := 64
      shnum := 0
      shstrndx := 0 }
  sections := [.zero .empty]
  segments := []
  symbols := [.undef]
  dynsymbols := [.undef]
  relocs := []
  dynamic := []
  baseVaddr := if type = etExec then defaultBaseExec else defaultBaseDyn

/-- The first `size` bytes at a pointer, and zeros for `NULL`. -/
def copyFrom (data : Option (Nat → UInt8)) (size : UInt64) : Bytes :=
  match data with
  | some p => (List.range size.toNat).map p
  | none => List.replicate size.toNat 0

/-- `lielf_get_section`. -/
def getSection (b : Binary) (name : CString) : Option Nat :=
  b.sections.findIdx? fun s => decide (s.name = name)

/-- The section that `lielf_add_section` puts at the end. -/
def newSection (name : CString) (type : UInt32) (flags : UInt64) (data : Option (Nat → UInt8))
    (size addralign : UInt64) : Section :=
  { Section.zero name with
    type, flags, size
    addralign := if addralign ≠ 0 then addralign else 1
    dirty := true
    data := if type ≠ shtNobits ∧ 0 < size then some (copyFrom data size) else none }

/-- `lielf_add_section`. -/
def addSection (b : Binary) (name : CString) (type : UInt32) (flags : UInt64)
    (data : Option (Nat → UInt8)) (size addralign : UInt64) : Binary :=
  { b with sections := b.sections ++ [newSection name type flags data size addralign] }

/-- `lielf_remove_section`; `none` for `-1`. -/
def removeSection (b : Binary) (name : CString) : Option Binary :=
  match getSection b name with
  | some i => some { b with sections := b.sections.eraseIdx i }
  | none => none

/-- `lielf_set_section_data` of the section `i`. -/
def setSectionData (b : Binary) (i : Nat) (data : Option (Nat → UInt8)) (size : UInt64) : Binary :=
  { b with sections := b.sections.modify i fun s =>
      { s with data := if 0 < size then some (copyFrom data size) else none, size, dirty := true } }

/-- `lielf_add_segment`. -/
def addSegment (b : Binary) (type flags : UInt32) (vaddr filesz memsz align : UInt64) : Binary :=
  { b with segments := b.segments ++
      [{ type, flags, offset := 0, vaddr, paddr := vaddr, filesz, memsz
         align := if align ≠ 0 then align else 1 }] }

/-- `lielf_add_symbol`. -/
def addSymbol (b : Binary) (name : CString) (value size : UInt64) (info : UInt8) (shndx : UInt16)
    (dynamic : Int) : Binary :=
  let sym : Symbol := { name, value, size, info, other := 0, shndx }
  if dynamic ≠ 0 then { b with dynsymbols := b.dynsymbols ++ [sym] }
  else { b with symbols := b.symbols ++ [sym] }

/-- `lielf_add_reloc`. -/
def addReloc (b : Binary) (target : CString) (offset : UInt64) (sym type : UInt32) (addend : Int64)
    (dynamic : Int) : Binary :=
  { b with relocs := b.relocs ++
      [{ targetSection := target, offset, sym, type, addend, dynamic }] }

/-- `lielf_set_entry`. -/
def setEntry (b : Binary) (entry : UInt64) : Binary := { b with ehdr := { b.ehdr with entry } }

end Cup.Elf
