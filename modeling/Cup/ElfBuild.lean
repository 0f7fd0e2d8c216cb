/-
  Building an ELF file (`lielf_build` of `include/lielf.h`): the generated tables are made anew
  from the model (`regenerate`), every section and table gets its place (`layout`), and the parts
  are copied into a buffer of the computed size (`pieces`).

  The copies go through `Lib.Image`: one that would leave the buffer is refused, where C writes
  behind it.
-/
import Cup.Elf
import Cup.Lib.Image

namespace Cup.Elf

open Lib.StringTable (CString table offsets)
open Lib.Image (Piece writeAll)

/-! ## Tables -/

/-- The `dynamic` argument as the `int` that relocations are compared with. -/
def dynInt (dynamic : Bool) : Int := if dynamic then 1 else 0

def Binary.syms (b : Binary) (dynamic : Bool) : List Symbol :=
  if dynamic then b.dynsymbols else b.symbols

def Binary.setSyms (b : Binary) (dynamic : Bool) (syms : List Symbol) : Binary :=
  if dynamic then { b with dynsymbols := syms } else { b with symbols := syms }

def Binary.modifySection (b : Binary) (i : Nat) (f : Section → Section) : Binary :=
  { b with sections := b.sections.modify i f }

/-- `lielf__maybe_update_data`; an empty buffer is `NULL`. -/
def maybeUpdateData (buf : Bytes) (s : Section) : Section :=
  if s.data = some buf ∧ s.size = UInt64.ofNat buf.length then s
  else { s with
    data := if buf = [] then none else some buf
    size := UInt64.ofNat buf.length
    dirty := true }

/-- `order`: 0, the local symbols, the others. -/
def symOrder (syms : List Symbol) : List UInt32 :=
  let rest := List.range' 1 (syms.length - 1)
  let isLocal := fun i => (syms.getD i .undef).isLocal
  0 :: (rest.filter isLocal ++ rest.filter fun i => !isLocal i).map UInt32.ofNat

/-- `remap`: the entry `order[i]` becomes `i`, for every `i` in turn. -/
def symRemap (n : Nat) (order : List UInt32) : List UInt32 :=
  order.zipIdx.foldl (fun remap p => remap.set p.1.toNat (UInt32.ofNat p.2)) (List.replicate n 0)

/-- A relocation of the table, with the new index of its symbol. -/
def remapReloc (dynamic : Bool) (remap : List UInt32) (r : Reloc) : Reloc :=
  if r.dynamic = dynInt dynamic ∧ r.sym.toNat < remap.length then
    { r with sym := remap.getD r.sym.toNat 0 }
  else r

/-- `lielf__sort_symbols_local_first`. -/
def sortSymbolsLocalFirst (b : Binary) (dynamic : Bool) : Binary :=
  let syms := b.syms dynamic
  if syms.length ≤ 1 then b
  else
    let order := symOrder syms
    let remap := symRemap syms.length order
    let b := b.setSyms dynamic (order.map fun i => syms.getD i.toNat .undef)
    { b with relocs := b.relocs.map (remapReloc dynamic remap) }

/-- `lielf_get_section`, and `lielf_add_section` of an empty section where there is none. -/
def ensureSection (b : Binary) (name : CString) (type : UInt32) (flags addralign : UInt64) :
    Binary × Nat :=
  match getSection b name with
  | some i => (b, i)
  | none => (addSection b name type flags none 0 addralign, b.sections.length)

/-- `lielf__rebuild_strtab`. -/
def rebuildStrtab (b : Binary) (dynamic : Bool) : Binary :=
  let secname := if dynamic then dotDynstr else dotStrtab
  let syms := b.syms dynamic
  if syms.length ≤ 1 then
    match getSection b secname with
    | none => b
    | some i => b.modifySection i (maybeUpdateData [0])
  else
    let buf := table (syms.tail.map (·.name))
    let e := ensureSection b secname shtStrtab (if dynamic then shfAlloc else 0) 1
    e.1.modifySection e.2 fun s => maybeUpdateData buf
      { s with
        type := shtStrtab
        entsize := 0
        kind := if dynamic then .dynstr else .strtab }

def rawSym (name : Nat) (s : Symbol) : RawSym where
  name := UInt32.ofNat name
  info := s.info
  other := s.other
  shndx := s.shndx
  value := s.value
  size := s.size

/-- The entries of a symbol table; the names of all but the first are behind one another. -/
def rawSyms (syms : List Symbol) : List RawSym :=
  List.zipWith rawSym (0 :: offsets 1 (syms.tail.map (·.name))) syms

/-- The index of the first symbol that is not local. -/
def firstGlobal (syms : List Symbol) : Nat := syms.findIdx fun s => !s.isLocal

/-- `lielf__rebuild_symtab`. -/
def rebuildSymtab (b : Binary) (dynamic : Bool) : Binary :=
  let b := sortSymbolsLocalFirst b dynamic
  let secname := if dynamic then dotDynsym else dotSymtab
  let syms := b.syms dynamic
  if syms.length ≤ 1 then
    match getSection b secname with
    | none => b
    | some i => b.modifySection i (maybeUpdateData (List.replicate symSize 0))
  else
    let buf := (rawSyms syms).flatMap RawSym.bytes
    let e := ensureSection b secname (if dynamic then shtDynsym else shtSymtab)
      (if dynamic then shfAlloc else 0) 8
    e.1.modifySection e.2 fun s => maybeUpdateData buf
      { s with
        type := if dynamic then shtDynsym else shtSymtab
        entsize := UInt64.ofNat symSize
        kind := if dynamic then .dynsym else .symtab
        info := UInt32.ofNat (firstGlobal syms) }

/-! ## Relocations -/

/-- `sizeof(name)` of the buffer a section name is formatted into. -/
def nameBuf : Nat := 256

/-- The name `lielf__find_or_create_rela` formats. -/
def relaName (target : CString) (dynamic : Int) : CString :=
  if dynamic ≠ 0 ∧ target = .empty then dotRelaDyn
  else CString.ofBytes ((dotRela.chars ++ target.chars).take (nameBuf - 1))

def Section.target (s : Section) : CString := s.relaTarget.getD .empty

/-- The section holds the relocations of a target. -/
def Section.isRelaOf (target : CString) (dynamic : Int) (s : Section) : Bool :=
  decide (s.kind = .rela) && decide (s.relaDynamic = dynamic) && decide (s.target = target)

/-- The section a new relocation table is. -/
def newRela (target : CString) (dynamic : Int) : Section :=
  { newSection (relaName target dynamic) shtRela (if dynamic ≠ 0 then shfAlloc else 0) none 0 8 with
    kind := .rela
    relaDynamic := dynamic
    relaTarget := some target }

/-- `lielf__find_or_create_rela`. -/
def findOrCreateRela (b : Binary) (r : Reloc) : Binary :=
  if b.sections.any (Section.isRelaOf r.targetSection r.dynamic) then b
  else { b with sections := b.sections ++ [newRela r.targetSection r.dynamic] }

def rawRela (r : Reloc) : RawRela where
  offset := r.offset
  info := r.sym.toUInt64 <<< 32 ||| r.type.toUInt64
  addend := r.addend

/-- The relocations that go into a section. -/
def relocsOf (relocs : List Reloc) (s : Section) : List Reloc :=
  relocs.filter fun r => decide (r.dynamic = s.relaDynamic) && decide (r.targetSection = s.target)

/-- `lielf__rebuild_one_rela`. -/
def rebuildOneRela (relocs : List Reloc) (s : Section) : Section :=
  maybeUpdateData ((relocsOf relocs s).flatMap fun r => (rawRela r).bytes)
    { s with entsize := UInt64.ofNat relaSize }

/-- `lielf__rebuild_one_rela` on every relocation section. -/
def rebuildEachRela (b : Binary) : Binary :=
  { b with sections := b.sections.map fun s =>
      if s.kind = .rela then rebuildOneRela b.relocs s else s }

/-- `lielf__rebuild_relas`. -/
def rebuildRelas (b : Binary) : Binary :=
  let b := rebuildEachRela b
  rebuildEachRela (b.relocs.foldl findOrCreateRela b)

/-! ## Dynamic entries and section names -/

/-- `lielf__rebuild_dynamic`. -/
def rebuildDynamic (b : Binary) : Binary :=
  if b.dynamic = [] then b
  else
    let buf := (b.dynamic.map fun d => (⟨d.tag, d.val⟩ : RawDyn)).flatMap RawDyn.bytes ++
      List.replicate dynSize 0
    let e := ensureSection b dotDynamic shtDynamic (shfAlloc ||| shfWrite) 8
    e.1.modifySection e.2 fun s => maybeUpdateData buf
      { s with
        type := shtDynamic
        entsize := UInt64.ofNat dynSize
        kind := .dynamic }

/-- `lielf__rebuild_shstrtab`. -/
def rebuildShstrtab (b : Binary) : Binary :=
  let e := ensureSection b dotShstrtab shtStrtab 0 1
  let buf := table (e.1.sections.map (·.name))
  e.1.modifySection e.2 fun s => maybeUpdateData buf
    { s with
      kind := .shstrtab
      type := shtStrtab
      entsize := 0 }

/-- `lielf__section_index`. -/
def sectionIndex (b : Binary) (name : CString) : Nat := (getSection b name).getD 0

/-- The links of one section. -/
def resolveLink (b : Binary) (s : Section) : Section :=
  match s.kind with
  | .symtab => { s with link := UInt32.ofNat (sectionIndex b dotStrtab) }
  | .dynsym => { s with link := UInt32.ofNat (sectionIndex b dotDynstr) }
  | .rela =>
    { s with
      link := UInt32.ofNat (sectionIndex b (if s.relaDynamic ≠ 0 then dotDynsym else dotSymtab))
      info := if s.target ≠ .empty then UInt32.ofNat (sectionIndex b s.target) else 0 }
  | _ => s

/-- `lielf__resolve_links`. -/
def resolveLinks (b : Binary) : Binary := { b with sections := b.sections.map (resolveLink b) }

/-- What `lielf_build` does before it lays out the file. -/
def regenerate (b : Binary) : Binary :=
  let b := rebuildStrtab (rebuildSymtab b false) false
  let b := rebuildStrtab (rebuildSymtab b true) true
  resolveLinks (rebuildShstrtab (rebuildDynamic (rebuildRelas b)))

/-! ## Layout -/

/-- `cls[i]`: 0, 1, 2 and 3 of the source. -/
inductive SecClass where
  | skip | fixed | newAlloc | metadata
  deriving DecidableEq

def Binary.isRel (b : Binary) : Bool := b.ehdr.type == etRel

/-- The class of a section of `b`. -/
def secClass (b : Binary) (s : Section) : SecClass :=
  if s.type = shtNull then .skip
  else if s.flags &&& shfAlloc = 0 then .metadata
  else if !b.isRel && s.loadedAlloc && !s.dirty && !b.segments.isEmpty then .fixed
  else .newAlloc

/-- The bytes a section takes in the file. -/
def Section.fileSize (s : Section) : UInt64 := if s.type = shtNobits then 0 else s.size

/-- The load address of the first `PT_LOAD` segment, less its offset. -/
def loadBase (b : Binary) : UInt64 :=
  if b.isRel then b.baseVaddr
  else
    match b.segments.find? fun seg => decide (seg.type = ptLoad) with
    | some seg => seg.vaddr - seg.offset
    | none => b.baseVaddr

/-- The bytes of the program headers. -/
def phdrsSize (n : Nat) : UInt64 := UInt64.ofNat n * UInt64.ofNat phdrSize

/-- `fixed_end` before the sections are looked at. -/
def headersEnd (b : Binary) : UInt64 :=
  if b.segments = [] then 64
  else
    let lo := 64 + phdrsSize b.segments.length
    let hi := b.ehdr.phoff + phdrsSize b.segments.length
    if lo > hi then lo else hi

/-- `fixed_end` with a kept section. -/
def maxEnd (b : Binary) (e : UInt64) (s : Section) : UInt64 :=
  if secClass b s = .fixed ∧ s.offset + s.fileSize > e then s.offset + s.fileSize else e

/-- `fixed_end`. -/
def fixedEnd (b : Binary) : UInt64 := b.sections.tail.foldl (maxEnd b) (headersEnd b)

/-- `s->addralign`, or 1. -/
def Section.al (s : Section) : UInt64 := if s.addralign ≠ 0 then s.addralign else 1

/-- The sections of a class are placed from `cur` on; their addresses are those of their
offsets. Also gives the end of the last one. -/
def place (b : Binary) (c : SecClass) (addrOf : UInt64 → UInt64) :
    UInt64 → List Section → List Section × UInt64
  | cur, [] => ([], cur)
  | cur, s :: ss =>
    if secClass b s = c then
      let off := alignUp cur s.al
      let r := place b c addrOf (off + s.fileSize) ss
      ({ s with offset := off, addr := addrOf off } :: r.1, r.2)
    else
      let r := place b c addrOf cur ss
      (s :: r.1, r.2)

/-- `new_alloc_flags`. -/
def newAllocFlags (b : Binary) : UInt32 :=
  (b.sections.tail.filter fun s => decide (secClass b s = .newAlloc)).foldl
    (fun f s => f ||| pfR ||| (if s.flags &&& shfWrite ≠ 0 then pfW else 0) |||
      (if s.flags &&& shfExecinstr ≠ 0 then pfX else 0)) 0

/-- `any_new_alloc`. -/
def anyNewAlloc (b : Binary) : Bool := b.sections.tail.any fun s => decide (secClass b s = .newAlloc)

/-- `alloc_region_start`. -/
def allocStart (b : Binary) : UInt64 := alignUp (fixedEnd b) (if b.isRel then 8 else pageSize)

/-- The new and resized ALLOC sections placed, and `alloc_end`. -/
def placeAlloc (b : Binary) : List Section × UInt64 :=
  place b .newAlloc (fun off => if b.isRel then 0 else loadBase b + off) (allocStart b)
    b.sections.tail

/-- The metadata sections placed after them, and `meta_end`. -/
def placeMeta (b : Binary) : List Section × UInt64 :=
  place b .metadata (fun _ => 0) (alignUp (placeAlloc b).2 8) (placeAlloc b).1

/-- The segments with the one for the new ALLOC region. -/
def layoutSegments (b : Binary) : List Segment :=
  if !b.isRel && anyNewAlloc b then
    b.segments ++
      [{ type := ptLoad
         flags := newAllocFlags b
         offset := allocStart b
         vaddr := loadBase b + allocStart b
         paddr := loadBase b + allocStart b
         filesz := (placeAlloc b).2 - allocStart b
         memsz := (placeAlloc b).2 - allocStart b
         align := pageSize }]
  else b.segments

/-- The program headers get a new place. -/
def phdrsMove (b : Binary) : Bool :=
  (layoutSegments b).length ≠ b.segments.length || b.segments.isEmpty

/-- `phdr_off`. -/
def phdrOff (b : Binary) : UInt64 :=
  if phdrsMove b then if layoutSegments b = [] then 0 else alignUp (placeMeta b).2 8
  else b.ehdr.phoff

/-- `meta_end` behind the program headers. -/
def metaEnd (b : Binary) : UInt64 :=
  if phdrsMove b ∧ layoutSegments b ≠ [] then
    phdrOff b + phdrsSize (layoutSegments b).length
  else (placeMeta b).2

/-- `shdr_off`. -/
def shdrOff (b : Binary) : UInt64 := alignUp (metaEnd b) 8

/-- `total_size`. -/
def totalSize (b : Binary) : UInt64 :=
  shdrOff b + UInt64.ofNat b.sections.length * UInt64.ofNat shdrSize

/-- The binary with every offset and the header set. -/
def layout (b : Binary) : Binary :=
  { b with
    sections := b.sections.take 1 ++ (placeMeta b).1
    segments := layoutSegments b
    ehdr := { b.ehdr with
      phoff := if layoutSegments b = [] then 0 else phdrOff b
      phnum := UInt16.ofNat (layoutSegments b).length
      shoff := shdrOff b
      shnum := UInt16.ofNat b.sections.length
      shstrndx := UInt16.ofNat (sectionIndex b dotShstrtab) } }

/-! ## Serialization -/

def Segment.phdr (s : Segment) : Phdr :=
  ⟨s.type, s.flags, s.offset, s.vaddr, s.paddr, s.filesz, s.memsz, s.align⟩

def Section.shdr (name : Nat) (s : Section) : Shdr where
  name := UInt32.ofNat name
  type := s.type
  flags := s.flags
  addr := s.addr
  offset := s.offset
  size := s.size
  link := s.link
  info := s.info
  addralign := s.addralign
  entsize := s.entsize

/-- The section header 0, all zero. -/
def Shdr.zero : Shdr := ⟨0, 0, 0, 0, 0, 0, 0, 0, 0, 0⟩

/-- The section headers of a binary. -/
def shdrs (secs : List Section) : List Shdr :=
  match List.zipWith Section.shdr (offsets 1 (secs.map (·.name))) secs with
  | [] => []
  | _ :: rest => .zero :: rest

/-- Entries of `size` bytes copied behind one another, the first to `off`. -/
def entryPieces (off size : Nat) (entries : List Bytes) : List (Piece UInt8) :=
  entries.zipIdx.map fun e => ⟨off + e.2 * size, e.1⟩

/-- The copy of the bytes of a section, if it has any to copy. -/
def sectionPiece (s : Section) : Option (Piece UInt8) :=
  if s.type = shtNobits ∨ s.size = 0 then none
  else s.data.map fun d => ⟨s.offset.toNat, d.take s.size.toNat⟩

/-- Every `memcpy` into the output, in order, for a binary with its layout. -/
def pieces (b : Binary) : List (Piece UInt8) :=
  ⟨0, b.ehdr.bytes⟩ ::
    ((if b.ehdr.phnum ≠ 0 then
      entryPieces b.ehdr.phoff.toNat phdrSize (b.segments.map fun s => s.phdr.bytes) else []) ++
    b.sections.tail.filterMap sectionPiece ++
    entryPieces b.ehdr.shoff.toNat shdrSize ((shdrs b.sections).map Shdr.bytes))

/-- What was just written is fixed from now on. -/
def settle (s : Section) : Section :=
  { s with
    loadedAlloc := s.type ≠ shtNull ∧ s.flags &&& shfAlloc ≠ 0
    dirty := false }

/-- `lielf_build`: the file and the binary afterwards; `none` where a copy leaves the buffer. -/
def lielfBuild (b : Binary) : Option (Bytes × Binary) :=
  let b := regenerate b
  let out := layout b
  (writeAll (List.replicate (totalSize b).toNat 0) (pieces out)).map fun file =>
    (file, { out with sections := out.sections.map settle })

end Cup.Elf
