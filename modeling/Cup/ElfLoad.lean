/-
  Loading an ELF file (`lielf_load_mem` of `include/lielf.h`).

  A read outside the buffer, or outside the bytes that were copied for a section, is undefined in
  C: it ends the load with `outOfBounds`. A load that returns `NULL` gives `none`.
-/
import Cup.Elf
import Cup.Lib.Image

namespace Cup.Elf

open Lib.StringTable (CString)

/-- Why a load does not return. -/
inductive LoadError where
  | outOfBounds
  deriving DecidableEq

abbrev Load := Except LoadError

/-- `n` bytes are read at `off`. -/
def fetch (buf : Bytes) (off n : Nat) : Load Bytes :=
  match Lib.Image.read buf off n with
  | some bs => .ok bs
  | none => .error .outOfBounds

/-- `lielf__strdup(buf + off)`. -/
def fetchString (buf : Bytes) (off : Nat) : Load CString :=
  match CString.read (buf.drop off) with
  | some s => .ok s
  | none => .error .outOfBounds

/-- `shstrtab + sh->sh_name`, or `""`: `tab` is where the name table is, and its size. -/
def loadName (buf : Bytes) (tab : Option (UInt64 × UInt64)) (name : UInt32) : Load CString :=
  match tab with
  | some (off, sz) => if name.toUInt64 < sz then fetchString buf (off.toNat + name.toNat) else .ok .empty
  | none => .ok .empty

/-- `shdrs[i]`. -/
def fetchShdr (buf : Bytes) (shoff : UInt64) (i : Nat) : Load Shdr :=
  (fetch buf (shoff.toNat + i * shdrSize) shdrSize).map Shdr.ofBytes

/-- The bytes that are copied for a section. -/
def loadData (buf : Bytes) (sh : Shdr) : Load (Option Bytes) :=
  if sh.type ≠ shtNobits ∧ 0 < sh.size ∧ sh.offset + sh.size ≤ UInt64.ofNat buf.length then
    (fetch buf sh.offset.toNat sh.size.toNat).map some
  else .ok none

/-- One turn of the loop over the section headers. -/
def loadSection (buf : Bytes) (tab : Option (UInt64 × UInt64)) (sh : Shdr) : Load Section := do
  let name ← loadName buf tab sh.name
  let data ← loadData buf sh
  return { name, data
           type := sh.type
           flags := sh.flags
           addr := sh.addr
           offset := sh.offset
           size := sh.size
           link := sh.link
           info := sh.info
           addralign := sh.addralign
           entsize := sh.entsize
           kind := .normal
           loadedAlloc := sh.type ≠ shtNull ∧ sh.flags &&& shfAlloc ≠ 0
           dirty := false
           relaDynamic := 0
           relaTarget := none }

/-- Where the section names are, if the table is in the file. -/
def nameTable (buf : Bytes) (ehdr : Ehdr) : Load (Option (UInt64 × UInt64)) :=
  if ehdr.shstrndx < ehdr.shnum then do
    let sh ← fetchShdr buf ehdr.shoff ehdr.shstrndx.toNat
    return if sh.offset + sh.size ≤ UInt64.ofNat buf.length then some (sh.offset, sh.size) else none
  else .ok none

/-- The sections as the headers give them. -/
def loadSections (buf : Bytes) (ehdr : Ehdr) : Load (List Section) := do
  let tab ← nameTable buf ehdr
  (List.range ehdr.shnum.toNat).mapM fun i => do
    let sh ← fetchShdr buf ehdr.shoff i
    loadSection buf tab sh

/-! ## Classification -/

def setKind (k : SecKind) (s : Section) : Section := { s with kind := k }

/-- The section `link` gets a kind, if there is one. -/
def markLink (k : SecKind) (link : UInt32) (secs : List Section) : List Section :=
  secs.modify link.toNat (setKind k)

/-- One turn of the loop that classifies special sections. -/
def classifyAt (secs : List Section) (i : Nat) : List Section :=
  match secs[i]? with
  | none => secs
  | some s =>
    if s.type = shtSymtab then markLink .strtab s.link (secs.modify i (setKind .symtab))
    else if s.type = shtDynsym then markLink .dynstr s.link (secs.modify i (setKind .dynsym))
    else if s.type = shtDynamic then secs.modify i (setKind .dynamic)
    else if s.type = shtRela then
      secs.set i { s with
        kind := .rela
        relaTarget := (secs[s.info.toNat]?).map (·.name)
        relaDynamic := match secs[s.link.toNat]? with
          | some t => if t.type = shtDynsym then 1 else 0
          | none => s.relaDynamic }
    else secs

/-- The special sections get their kinds. -/
def classify (ehdr : Ehdr) (secs : List Section) : List Section :=
  let secs := if ehdr.shstrndx ≠ 0 then secs.modify ehdr.shstrndx.toNat (setKind .shstrtab) else secs
  (List.range secs.length).foldl classifyAt secs

/-! ## Tables -/

/-- The number of entries of a table section; `dflt` where the entry size is 0. -/
def entryCount (s : Section) (dflt : Nat) : Nat :=
  if s.entsize ≠ 0 then (s.size / s.entsize).toNat else dflt

/-- A symbol name: a string of the linked section. -/
def loadSymName (secs : List Section) (s : Section) (name : UInt32) : Load CString :=
  match secs[s.link.toNat]? with
  | none => .ok .empty
  | some t =>
    match t.data with
    | none => .ok .empty
    | some strtab => if name.toUInt64 < t.size then fetchString strtab name.toNat else .ok .empty

/-- The symbol `j` of a table. -/
def loadSymbol (secs : List Section) (s : Section) (data : Bytes) (j : Nat) : Load Symbol := do
  let bs ← fetch data (j * symSize) symSize
  let rs := RawSym.ofBytes bs
  let name ← loadSymName secs s rs.name
  return { name
           value := rs.value
           size := rs.size
           info := rs.info
           other := rs.other
           shndx := rs.shndx }

def loadSymbols (secs : List Section) (s : Section) : Load (List Symbol) :=
  match s.data with
  | none => .ok []
  | some data => (List.range (entryCount s 0)).mapM (loadSymbol secs s data)

/-- The relocation `j` of a table. -/
def loadReloc (s : Section) (data : Bytes) (j : Nat) : Load Reloc := do
  let bs ← fetch data (j * relaSize) relaSize
  let rr := RawRela.ofBytes bs
  return { targetSection := s.relaTarget.getD .empty
           offset := rr.offset
           sym := (rr.info >>> 32).toUInt32
           type := (rr.info &&& 0xffffffff).toUInt32
           addend := rr.addend
           dynamic := s.relaDynamic }

def loadRelocs (s : Section) : Load (List Reloc) :=
  match s.data with
  | none => .ok []
  | some data =>
    (List.range (entryCount s (s.size / UInt64.ofNat relaSize).toNat)).mapM (loadReloc s data)

/-- The dynamic entries from `j`, `k` at most, up to `DT_NULL`. -/
def loadDynamic (data : Bytes) : Nat → Nat → Load (List DynEntry)
  | 0, _ => .ok []
  | k + 1, j => do
    let bs ← fetch data (j * dynSize) dynSize
    let rd := RawDyn.ofBytes bs
    if rd.tag = dtNull then return []
    else
      let rest ← loadDynamic data k (j + 1)
      return ⟨rd.tag, rd.val⟩ :: rest

/-- One turn of the loop that reads the tables into the arrays of the binary. -/
def loadTable (secs : List Section) (b : Binary) (s : Section) : Load Binary :=
  match s.kind with
  | .symtab => do
    let syms ← loadSymbols secs s
    return { b with symbols := b.symbols ++ syms }
  | .dynsym => do
    let syms ← loadSymbols secs s
    return { b with dynsymbols := b.dynsymbols ++ syms }
  | .rela => do
    let relocs ← loadRelocs s
    return { b with relocs := b.relocs ++ relocs }
  | .dynamic =>
    match s.data with
    | none => .ok b
    | some data => do
      let entries ← loadDynamic data (entryCount s (s.size / UInt64.ofNat dynSize).toNat) 0
      return { b with dynamic := b.dynamic ++ entries }
  | _ => .ok b

/-- `lielf__ensure_null_sym`. -/
def ensureNullSym (syms : List Symbol) : List Symbol := if syms = [] then [.undef] else syms

/-! ## Segments -/

def Segment.ofPhdr (p : Phdr) : Segment :=
  ⟨p.type, p.flags, p.offset, p.vaddr, p.paddr, p.filesz, p.memsz, p.align⟩

def loadSegments (buf : Bytes) (ehdr : Ehdr) : Load (List Segment) :=
  if ehdr.phnum ≠ 0 ∧ ehdr.phoff + UInt64.ofNat (ehdr.phnum.toNat * phdrSize) ≤
      UInt64.ofNat buf.length then
    (List.range ehdr.phnum.toNat).mapM fun i =>
      (fetch buf (ehdr.phoff.toNat + i * phdrSize) phdrSize).map fun bs =>
        Segment.ofPhdr (Phdr.ofBytes bs)
  else .ok []

/-! ## The load -/

/-- The file starts with a header of the class and byte order the loader takes. -/
def headerOk (buf : Bytes) : Bool :=
  ehdrSize ≤ buf.length && buf.take 4 == [0x7f, 0x45, 0x4c, 0x46] && buf[4]? == some 2 &&
    buf[5]? == some 1

/-- The sections with their kinds, where the section headers are in the file. -/
def loadHeaders (buf : Bytes) (ehdr : Ehdr) : Load (List Section) :=
  if ehdr.shnum ≠ 0 ∧ ehdr.shoff + UInt64.ofNat (ehdr.shnum.toNat * shdrSize) ≤
      UInt64.ofNat buf.length then do
    let secs ← loadSections buf ehdr
    return classify ehdr secs
  else .ok []

/-- `lielf_load_mem`. -/
def loadMem (buf : Bytes) : Load (Option Binary) :=
  if headerOk buf then do
    let ehdr := Ehdr.ofBytes (buf.take ehdrSize)
    let secs ← loadHeaders buf ehdr
    let b ← secs.foldlM (loadTable secs)
      { ehdr
        sections := secs
        segments := []
        symbols := []
        dynsymbols := []
        relocs := []
        dynamic := []
        baseVaddr := if ehdr.type = etExec then defaultBaseExec else defaultBaseDyn }
    let segments ← loadSegments buf ehdr
    return some { b with
      symbols := ensureNullSym b.symbols
      dynsymbols := ensureNullSym b.dynsymbols
      segments }
  else .ok none

end Cup.Elf
