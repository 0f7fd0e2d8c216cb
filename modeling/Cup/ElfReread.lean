/-
  The tables of a built file read back (`lielf_load_mem` on the bytes of `lielf_build`,
  `include/lielf.h`).

  A symbol table gives the symbols it was made from, with the names of the string table it links
  to, and a relocation section the relocations that were written into it. So the load of a file
  gives the symbols and relocations of the binary, table by table (`loadMem_built`).
-/
import Cup.ElfClassify
import Cup.ElfFile

namespace Cup.Elf

open Lib.StringTable (CString table offsets)

/-! ## Entries -/

theorem RawSym.bytes_length (s : RawSym) : s.bytes.length = symSize := by
  simp [RawSym.bytes, le16, le32, le64, symSize]

theorem RawRela.bytes_length (r : RawRela) : r.bytes.length = relaSize := by
  simp [RawRela.bytes, le64, relaSize]

/-- The info of a relocation is the number of its symbol and its type. -/
theorem rawRela_info (r : Reloc) :
    (rawRela r).info.toNat = r.sym.toNat * 2 ^ 32 + r.type.toNat := by
  have hsym := r.sym.toNat_lt
  have htype := r.type.toNat_lt
  show (r.sym.toUInt64 <<< 32 ||| r.type.toUInt64).toNat = _
  have hshift : (r.sym.toUInt64 <<< 32).toNat = r.sym.toNat <<< 32 := by
    rw [UInt64.toNat_shiftLeft, UInt32.toNat_toUInt64]
    refine Nat.mod_eq_of_lt ?_
    show r.sym.toNat <<< 32 < 2 ^ 64
    rw [Nat.shiftLeft_eq]
    omega
  rw [UInt64.toNat_or, hshift, UInt32.toNat_toUInt64,
    ← Nat.shiftLeft_add_eq_or_of_lt htype, Nat.shiftLeft_eq]

theorem rawRela_sym (r : Reloc) : ((rawRela r).info >>> 32).toUInt32 = r.sym := by
  have hsym := r.sym.toNat_lt
  have htype := r.type.toNat_lt
  have hshift : ((rawRela r).info >>> 32).toNat = r.sym.toNat := by
    rw [UInt64.toNat_shiftRight, rawRela_info]
    show (_ : Nat) >>> 32 = _
    rw [Nat.shiftRight_eq_div_pow]
    omega
  rw [← UInt32.toNat_inj, UInt64.toNat_toUInt32, hshift]
  exact Nat.mod_eq_of_lt hsym

theorem rawRela_type (r : Reloc) : ((rawRela r).info &&& 0xffffffff).toUInt32 = r.type := by
  have htype := r.type.toNat_lt
  have hmask : ((rawRela r).info &&& 0xffffffff).toNat = r.type.toNat := by
    rw [UInt64.toNat_and, rawRela_info]
    show (_ : Nat) &&& (2 ^ 32 - 1) = _
    rw [Nat.and_two_pow_sub_one_eq_mod]
    omega
  rw [← UInt32.toNat_inj, UInt64.toNat_toUInt32, hmask]
  exact Nat.mod_eq_of_lt htype

/-- The entries of a section whose entries have one size. -/
theorem entryCount_eq {s : Section} {n size dflt : Nat} (hpos : 0 < size)
    (hfit : n * size < 2 ^ 64) (hsmall : size < 2 ^ 64) (hentsize : s.entsize = UInt64.ofNat size)
    (hsize : s.size = UInt64.ofNat (n * size)) : entryCount s dflt = n := by
  have hnat : (UInt64.ofNat size).toNat = size := UInt64.toNat_ofNat_of_lt' hsmall
  have hne : s.entsize ≠ 0 := by
    intro h
    rw [hentsize] at h
    rw [h] at hnat
    exact Nat.ne_of_lt hpos hnat
  rw [entryCount, if_pos hne, hentsize, hsize, UInt64.toNat_div, hnat,
    UInt64.toNat_ofNat_of_lt' hfit, Nat.mul_div_cancel _ hpos]

/-! ## Symbols -/

variable {secs : List Section} {s t : Section} {syms : List Symbol}

theorem rawSyms_length (syms : List Symbol) : (rawSyms syms).length = syms.length := by
  rw [rawSyms, List.length_zipWith, List.length_cons, Lib.StringTable.offsets_length,
    List.length_map, List.length_tail]
  omega

/-- The strings of a symbol table: all names but the first. -/
def nameStrings (syms : List Symbol) : Bytes := table (syms.tail.map (·.name))

/-- The entry of a symbol, and where its name is. -/
theorem rawSyms_get {j : Nat} {sym : Symbol} (hfirst : ∀ sym, syms.head? = some sym →
    sym.name = .empty) (hj : syms[j]? = some sym) :
    ∃ o rest, (rawSyms syms)[j]? = some (rawSym o sym) ∧
      (nameStrings syms).drop o = sym.name.bytes ++ rest ∧ o < (nameStrings syms).length := by
  cases syms with
  | nil => cases hj
  | cons s₀ ss =>
    cases j with
    | zero =>
      obtain rfl := Option.some.inj hj
      rw [hfirst s₀ rfl]
      exact ⟨0, (ss.map (·.name)).flatMap CString.bytes, rfl, rfl, Nat.succ_pos _⟩
    | succ j =>
      have hname : (ss.map (·.name))[j]? = some sym.name := by
        rw [List.getElem?_map, show ss[j]? = some sym from hj]
        rfl
      obtain ⟨o, rest, ho, hdrop, hlt⟩ := Lib.StringTable.drop_table hname
      refine ⟨o, rest, ?_, hdrop, hlt⟩
      show (List.zipWith rawSym (offsets 1 (ss.map (·.name))) ss)[j]? = _
      rw [List.getElem?_zipWith, ho, show ss[j]? = some sym from hj]

/-- A symbol table, and the string table it links to. -/
structure SymtabOf (secs : List Section) (syms : List Symbol) (s : Section) : Prop where
  entsize : s.entsize = UInt64.ofNat symSize
  data : s.data = some ((rawSyms syms).flatMap RawSym.bytes)
  size : s.size = UInt64.ofNat ((rawSyms syms).flatMap RawSym.bytes).length
  link : ∃ t, secs[s.link.toNat]? = some t ∧ t.type = shtStrtab ∧
    t.data = some (nameStrings syms) ∧ t.size = UInt64.ofNat (nameStrings syms).length

/-- What fits in the fields of a symbol table; its first symbol has no name. -/
structure SymsFit (syms : List Symbol) : Prop where
  first : ∀ sym, syms.head? = some sym → sym.name = .empty
  count : syms.length * symSize < 2 ^ 32
  names : (nameStrings syms).length < 2 ^ 32

theorem loadSymbol_eq (h : SymtabOf secs syms s) (hfit : SymsFit syms) {j : Nat} {sym : Symbol}
    (hj : syms[j]? = some sym) :
    loadSymbol secs s ((rawSyms syms).flatMap RawSym.bytes) j = .ok sym := by
  obtain ⟨o, rest, hraw, hdrop, ho⟩ := rawSyms_get hfit.first hj
  obtain ⟨t, ht, -, hdata, hsize⟩ := h.link
  have hread := fetch_of_read
    (Lib.Image.read_flatMap (fun rs _ => RawSym.bytes_length rs) hraw)
  have hnat : (UInt32.ofNat o).toNat = o :=
    UInt32.toNat_ofNat_of_lt' (Nat.lt_trans ho hfit.names)
  have hlt : (UInt32.ofNat o).toUInt64 < t.size := by
    have hlen : t.size.toNat = (nameStrings syms).length := by
      rw [hsize]
      exact UInt64.toNat_ofNat_of_lt' (Nat.lt_trans hfit.names (by decide))
    rw [UInt64.lt_iff_toNat_lt, UInt32.toNat_toUInt64, hnat, hlen]
    exact ho
  have hname : loadSymName secs s (UInt32.ofNat o) = .ok sym.name := by
    have hstr : CString.read ((nameStrings syms).drop o) = some sym.name :=
      CString.read_eq_some.mpr ⟨rest, hdrop⟩
    unfold loadSymName
    rw [ht]
    dsimp only
    rw [hdata]
    dsimp only
    rw [if_pos hlt, hnat, fetchString, hstr]
  unfold loadSymbol
  rw [hread]
  show (loadSymName secs s (RawSym.ofBytes (rawSym o sym).bytes).name >>= _) = _
  rw [RawSym.ofBytes_bytes]
  show (loadSymName secs s (UInt32.ofNat o) >>= _) = _
  rw [hname]
  rfl

/-- A symbol table is read as the symbols it was made from. -/
theorem loadSymbols_eq (h : SymtabOf secs syms s) (hfit : SymsFit syms) :
    loadSymbols secs s = .ok syms := by
  have hlen : ((rawSyms syms).flatMap RawSym.bytes).length = syms.length * symSize := by
    rw [Lib.Image.length_flatMap fun rs _ => RawSym.bytes_length rs, rawSyms_length]
  have hcount : entryCount s 0 = syms.length :=
    entryCount_eq (by decide) (Nat.lt_trans hfit.count (by decide)) (by decide) h.entsize
      (hlen ▸ h.size)
  unfold loadSymbols
  rw [h.data]
  dsimp only
  rw [hcount, mapM_eq_ok (g := fun j => syms.getD j .undef) fun j hj => ?_]
  · exact congrArg Except.ok (Lib.Reorder.map_getD_range syms .undef)
  · have hlt := List.mem_range.mp hj
    rw [List.getD_eq_getElem?_getD, List.getElem?_eq_getElem hlt]
    exact loadSymbol_eq h hfit (List.getElem?_eq_getElem hlt)

/-! ## Relocations -/

/-- The relocations a section holds. -/
structure RelaOf (secs : List Section) (relocs : List Reloc) (s : Section) : Prop where
  entsize : s.entsize = UInt64.ofNat relaSize
  size : s.size = UInt64.ofNat (relaBytes relocs s).length
  data : s.data = some (relaBytes relocs s) ∨ relaBytes relocs s = [] ∧ s.data = none
  count : (relocsOf relocs s).length * relaSize < 2 ^ 64
  dynamic : s.relaDynamic = 0
  target : ∃ t, secs[s.info.toNat]? = some t ∧ s.relaTarget = some t.name
  link : ∃ t, secs[s.link.toNat]? = some t ∧ t.type ≠ shtDynsym

variable {relocs : List Reloc}

theorem loadReloc_eq {s' : Section} (htarget : s'.target = s.target)
    (hdyn : s'.relaDynamic = s.relaDynamic) {j : Nat} {r : Reloc}
    (hj : (relocsOf relocs s)[j]? = some r) :
    loadReloc s' (relaBytes relocs s) j = .ok r := by
  have hread := fetch_of_read
    (Lib.Image.read_flatMap (fun r _ => RawRela.bytes_length (rawRela r)) hj)
  have hmem := (List.mem_filter.mp (List.mem_of_getElem? hj)).2
  rw [Bool.and_eq_true, decide_eq_true_eq, decide_eq_true_eq] at hmem
  have hload : loadReloc s' (relaBytes relocs s) j =
      .ok { targetSection := s'.target
            offset := (rawRela r).offset
            sym := ((rawRela r).info >>> 32).toUInt32
            type := ((rawRela r).info &&& 0xffffffff).toUInt32
            addend := (rawRela r).addend
            dynamic := s'.relaDynamic } := by
    unfold loadReloc relaBytes
    rw [hread]
    show Except.ok _ = _
    rw [RawRela.ofBytes_bytes]
    rfl
  rw [hload, rawRela_sym, rawRela_type, htarget, hdyn, ← hmem.1, ← hmem.2]
  rfl

/-- A relocation section is read as the relocations that were written into it. -/
theorem loadRelocs_eq {s' : Section} (h : RelaOf secs relocs s) (htarget : s'.target = s.target)
    (hdyn : s'.relaDynamic = s.relaDynamic) (hdata : s'.data = s.data) (hsize : s'.size = s.size)
    (hentsize : s'.entsize = s.entsize) : loadRelocs s' = .ok (relocsOf relocs s) := by
  have hlen : (relaBytes relocs s).length = (relocsOf relocs s).length * relaSize :=
    Lib.Image.length_flatMap fun r _ => RawRela.bytes_length (rawRela r)
  have hcount : ∀ dflt, entryCount s' dflt = (relocsOf relocs s).length := fun dflt =>
    entryCount_eq (by decide) h.count (by decide) (hentsize.trans h.entsize)
      (hsize.trans (hlen ▸ h.size))
  unfold loadRelocs
  rw [hdata]
  rcases h.data with hsome | ⟨hnil, hnone⟩
  · rw [hsome]
    dsimp only
    rw [hcount, mapM_eq_ok (g := fun j => (relocsOf relocs s).getD j ⟨.empty, 0, 0, 0, 0, 0⟩)
      fun j hj => ?_]
    · exact congrArg Except.ok (Lib.Reorder.map_getD_range _ _)
    · have hlt := List.mem_range.mp hj
      rw [List.getD_eq_getElem?_getD, List.getElem?_eq_getElem hlt]
      exact loadReloc_eq htarget hdyn (List.getElem?_eq_getElem hlt)
  · rw [hnil, List.length_nil] at hlen
    have hempty : (relocsOf relocs s).length = 0 := by
      unfold relaSize at hlen
      omega
    rw [hnone, List.length_eq_zero_iff.mp hempty]

/-! ## The tables of a binary -/

/-- Every table section of the binary holds its symbols or relocations, and none is dynamic. -/
structure TablesOf (r : Binary) : Prop where
  symtab : ∀ s ∈ r.sections, s.type = shtSymtab → SymtabOf r.sections r.symbols s
  rela : ∀ s ∈ r.sections, s.type = shtRela → RelaOf r.sections r.relocs s
  others : ∀ s ∈ r.sections, s.type ≠ shtDynsym ∧ s.type ≠ shtDynamic
  syms : SymsFit r.symbols

/-- The sections of a file, as their headers describe them. -/
def headerSections (r : Binary) : List Section := (layout r).sections.map Section.loaded

/-- The sections of a file with their kinds. -/
def rereadSections (r : Binary) : List Section := classify (layout r).ehdr (headerSections r)

/-- A section and what is loaded for it: the same name, header fields and bytes. -/
structure Reread (s s' : Section) : Prop where
  eq : s' = { s with
    offset := s'.offset
    addr := s'.addr
    kind := s'.kind
    loadedAlloc := s'.loadedAlloc
    dirty := s'.dirty
    relaDynamic := s'.relaDynamic
    relaTarget := s'.relaTarget }

/-- A section and what its header gives. -/
structure HeaderOf (s s' : Section) : Prop extends Reread s s' where
  kind : s'.kind = .normal
  relaDynamic : s'.relaDynamic = 0

variable {r : Binary} {file : Bytes} {j : Nat} {s' : Section}

namespace Reread

theorem name (h : Reread s s') : s'.name = s.name := by rw [h.eq]

theorem type (h : Reread s s') : s'.type = s.type := by rw [h.eq]

theorem link (h : Reread s s') : s'.link = s.link := by rw [h.eq]

theorem info (h : Reread s s') : s'.info = s.info := by rw [h.eq]

theorem size (h : Reread s s') : s'.size = s.size := by rw [h.eq]

theorem entsize (h : Reread s s') : s'.entsize = s.entsize := by rw [h.eq]

theorem data (h : Reread s s') : s'.data = s.data := by rw [h.eq]

/-- The classification does not touch what is read. -/
theorem setKind (h : Reread s s') (k : SecKind) : Reread s (setKind k s') := by
  constructor
  rw [h.eq]
  rfl

theorem aimed (h : Reread s s') (secs : List Section) : Reread s (aimed secs s') := by
  constructor
  rw [h.eq]
  rfl

end Reread

theorem headerSections_length (r : Binary) : (headerSections r).length = r.sections.length := by
  rw [headerSections, List.length_map, layout_length]

theorem headerSections_get (hs : r.sections[j]? = some s) :
    ∃ p, (headerSections r)[j]? = some p ∧ HeaderOf s p := by
  obtain ⟨off, addr, hplaced⟩ := layout_get hs
  refine ⟨({ s with offset := off, addr } : Section).loaded, ?_, ⟨⟨rfl⟩, rfl, rfl⟩⟩
  rw [headerSections, List.getElem?_map, hplaced]
  rfl

/-- What is looked up in the file is in the binary. -/
theorem headerSections_of_get (hs : (headerSections r)[j]? = some s') :
    ∃ s, r.sections[j]? = some s ∧ HeaderOf s s' := by
  have hlt : j < r.sections.length := by
    rw [← headerSections_length]
    exact (List.getElem?_eq_some_iff.mp hs).1
  have hget := List.getElem?_eq_getElem hlt
  obtain ⟨p, hp, hheader⟩ := headerSections_get hget
  obtain rfl := Option.some.inj (hs.symm.trans hp)
  exact ⟨_, hget, hheader⟩

theorem linksToStrings (ht : TablesOf r) : LinksToStrings (headerSections r) := by
  intro u hu htype t hget
  obtain ⟨i, hi⟩ := List.mem_iff_getElem?.mp hu
  obtain ⟨s, hs, hus⟩ := headerSections_of_get hi
  obtain ⟨v, hv, htv⟩ := headerSections_of_get hget
  have hmem := List.mem_of_getElem? hs
  rw [hus.type] at htype
  obtain ⟨w, hw, hstr, -⟩ :=
    (ht.symtab s hmem (htype.resolve_right (ht.others s hmem).1)).link
  rw [hus.link] at hv
  obtain rfl := Option.some.inj (hv.symm.trans hw)
  exact htv.type.trans hstr

/-- How a section is classified. -/
structure Kinds (s s' : Section) : Prop where
  symtab : s.type = shtSymtab → s'.kind = .symtab
  rela : s.type = shtRela → s'.kind = .rela ∧ s'.target = s.target ∧ s'.relaDynamic = s.relaDynamic
  other : s.type ≠ shtSymtab → s.type ≠ shtRela → s'.kind.IsText

/-- A relocation section finds the target it had. -/
theorem aimed_kinds (h : RelaOf r.sections r.relocs s) (htype : s.type = shtRela)
    (hp : HeaderOf s s') : Kinds s (aimed (headerSections r) s') := by
  refine ⟨fun hsymtab => ?_, fun _ => ⟨rfl, ?_, ?_⟩, fun _ hrela => absurd htype hrela⟩
  · have hne : shtRela ≠ shtSymtab := by decide
    exact absurd (htype.symm.trans hsymtab) hne
  · obtain ⟨t, ht, htarget⟩ := h.target
    obtain ⟨u, hget, hu⟩ := headerSections_get ht
    show (((headerSections r)[s'.info.toNat]?).map (·.name)).getD .empty =
      s.relaTarget.getD .empty
    rw [hp.info, hget, htarget]
    exact hu.name
  · obtain ⟨t, ht, hne⟩ := h.link
    obtain ⟨u, hget, hu⟩ := headerSections_get ht
    rw [← hp.link] at hget
    rw [aimed_relaDynamic hget, h.dynamic]
    exact if_neg (hu.type ▸ hne)

/-- Every section is read again, with the kind of its type. -/
theorem reread_get (h : FileOf r file) (ht : TablesOf r) (hs : r.sections[j]? = some s) :
    ∃ s', (rereadSections r)[j]? = some s' ∧ Reread s s' ∧ Kinds s s' := by
  have hmem := List.mem_of_getElem? hs
  obtain ⟨hdynsym, hdynamic⟩ := ht.others s hmem
  obtain ⟨p, hget, hp⟩ := headerSections_get hs
  have hnames : ∀ t, (headerSections r)[(layout r).ehdr.shstrndx.toNat]? = some t →
      t.type = shtStrtab := by
    intro t hget
    obtain ⟨k, u, hk, hu, htype, -⟩ := h.object.names
    rw [h.object.shstrndx hk] at hget
    obtain ⟨v, hv, htv⟩ := headerSections_of_get hget
    obtain rfl := Option.some.inj (hu.symm.trans hv)
    exact htv.type.trans htype
  obtain ⟨s', hs', hretold⟩ := classify_get (linksToStrings ht) hnames hget
  refine ⟨s', hs', ?_⟩
  rw [← hp.type] at hdynsym hdynamic
  by_cases hsymtab : s.type = shtSymtab
  · have hstr : p.type ≠ shtStrtab := by
      rw [hp.type, hsymtab]
      decide
    have hrela : s.type ≠ shtRela := by
      rw [hsymtab]
      decide
    rw [classified_of_symtab (hp.type.trans hsymtab)] at hretold
    obtain rfl := hretold.eq_of_ne hstr
    exact ⟨hp.setKind .symtab,
      ⟨fun _ => rfl, fun h => absurd h hrela, fun h => absurd hsymtab h⟩⟩
  by_cases hrela : s.type = shtRela
  · have hstr : p.type ≠ shtStrtab := by
      rw [hp.type, hrela]
      decide
    rw [classified_of_rela (hp.type.trans hrela)] at hretold
    obtain rfl := hretold.eq_of_ne hstr
    exact ⟨hp.aimed (headerSections r), aimed_kinds (ht.rela s hmem hrela) hrela hp⟩
  · rw [classified_of_other (hp.type ▸ hsymtab) hdynsym hdynamic (hp.type ▸ hrela)] at hretold
    have hkinds : ∀ {u : Section}, u.kind.IsText → Kinds s u := fun hu =>
      ⟨fun h => absurd h hsymtab, fun h => absurd h hrela, fun _ _ => hu⟩
    obtain rfl | ⟨-, k, hk, rfl⟩ := hretold
    · exact ⟨hp.toReread, hkinds (.inl hp.kind)⟩
    · exact ⟨hp.setKind k, hkinds hk⟩

/-! ## The load -/

/-- The symbols a section gives when it is read. -/
def symsIn (r : Binary) (s : Section) : List Symbol := if s.type = shtSymtab then r.symbols else []

/-- The relocations a section gives when it is read. -/
def relocsIn (r : Binary) (s : Section) : List Reloc :=
  if s.type = shtRela then relocsOf r.relocs s else []

/-- A binary with more symbols and relocations. -/
def Binary.extend (b : Binary) (syms : List Symbol) (relocs : List Reloc) : Binary :=
  { b with symbols := b.symbols ++ syms, relocs := b.relocs ++ relocs }

theorem extend_nil (b : Binary) : b.extend [] [] = b := by
  unfold Binary.extend
  rw [List.append_nil, List.append_nil]

theorem extend_extend (b : Binary) (syms syms' : List Symbol) (relocs relocs' : List Reloc) :
    (b.extend syms relocs).extend syms' relocs' = b.extend (syms ++ syms') (relocs ++ relocs') := by
  unfold Binary.extend
  rw [← List.append_assoc, ← List.append_assoc]

/-- A symbol table of the binary is one of the file. -/
theorem SymtabOf.reread (h : SymtabOf r.sections syms s) (hrs : Reread s s')
    (hget : ∀ (j : Nat) (t : Section), r.sections[j]? = some t →
      ∃ t', secs[j]? = some t' ∧ Reread t t') : SymtabOf secs syms s' where
  entsize := hrs.entsize.trans h.entsize
  data := hrs.data.trans h.data
  size := hrs.size.trans h.size
  link := by
    obtain ⟨t, ht, htype, hdata, hsize⟩ := h.link
    obtain ⟨t', ht', hrt⟩ := hget _ t ht
    rw [hrs.link]
    exact ⟨t', ht', hrt.type.trans htype, hrt.data.trans hdata, hrt.size.trans hsize⟩

/-- One turn of the loop over the sections. -/
theorem loadTable_eq (ht : TablesOf r) (hs : s ∈ r.sections) (hrs : Reread s s')
    (hkinds : Kinds s s') (hget : ∀ (j : Nat) (t : Section), r.sections[j]? = some t →
      ∃ t', secs[j]? = some t' ∧ Reread t t') (b : Binary) :
    loadTable secs b s' = .ok (b.extend (symsIn r s) (relocsIn r s)) := by
  by_cases hsymtab : s.type = shtSymtab
  · have hrela : s.type ≠ shtRela := by
      rw [hsymtab]
      decide
    have hload := loadSymbols_eq ((ht.symtab s hs hsymtab).reread hrs hget) ht.syms
    unfold loadTable
    rw [hkinds.symtab hsymtab, symsIn, if_pos hsymtab, relocsIn, if_neg hrela]
    dsimp only
    rw [hload, Binary.extend, List.append_nil]
    rfl
  by_cases hrela : s.type = shtRela
  · obtain ⟨hkind, htarget, hdyn⟩ := hkinds.rela hrela
    have hload := loadRelocs_eq (ht.rela s hs hrela) htarget hdyn hrs.data hrs.size hrs.entsize
    unfold loadTable
    rw [hkind, symsIn, if_neg hsymtab, relocsIn, if_pos hrela]
    dsimp only
    rw [hload, Binary.extend, List.append_nil]
    rfl
  · rw [symsIn, if_neg hsymtab, relocsIn, if_neg hrela, extend_nil]
    unfold loadTable
    obtain hk | hk | hk | hk := hkinds.other hsymtab hrela
    all_goals rw [hk]

/-- The loop over sections that each add symbols and relocations. -/
theorem foldlM_extend {S : Section → List Symbol} {Q : Section → List Reloc} {l l' : List Section}
    (h : List.Forall₂ (fun s s' => ∀ b, loadTable secs b s' = .ok (b.extend (S s) (Q s))) l l')
    (b : Binary) : l'.foldlM (loadTable secs) b = .ok (b.extend (l.flatMap S) (l.flatMap Q)) := by
  induction h generalizing b with
  | nil => exact congrArg Except.ok (extend_nil b).symm
  | cons hs _ ih =>
    rw [List.foldlM_cons, hs, List.flatMap_cons, List.flatMap_cons, ← extend_extend]
    exact ih _

theorem rereadSections_length (r : Binary) : (rereadSections r).length = r.sections.length := by
  rw [rereadSections, classify_length, headerSections_length]

/-- The binary that a file is read as. -/
def reread (r : Binary) : Binary where
  ehdr := (layout r).ehdr
  sections := rereadSections r
  segments := []
  symbols := ensureNullSym (r.sections.flatMap (symsIn r))
  dynsymbols := [.undef]
  relocs := r.sections.flatMap (relocsIn r)
  dynamic := []
  baseVaddr := if (layout r).ehdr.type = etExec then defaultBaseExec else defaultBaseDyn

theorem loadMem_built (h : FileOf r file) (ht : TablesOf r) :
    loadMem file = .ok (some (reread r)) := by
  have hget : ∀ (j : Nat) (t : Section), r.sections[j]? = some t →
      ∃ t', (rereadSections r)[j]? = some t' ∧ Reread t t' := fun j t hj => by
    obtain ⟨t', ht', hrt, -⟩ := reread_get h ht hj
    exact ⟨t', ht', hrt⟩
  have hturns : List.Forall₂ (fun s s' => ∀ b, loadTable (rereadSections r) b s' =
      .ok (b.extend (symsIn r s) (relocsIn r s))) r.sections (rereadSections r) := by
    refine List.forall₂_iff_get.mpr ⟨(rereadSections_length r).symm, fun i hi hi' b => ?_⟩
    obtain ⟨s', hs', hrs, hkinds⟩ := reread_get h ht (List.getElem?_eq_getElem hi)
    obtain rfl := Option.some.inj ((List.getElem?_eq_getElem hi').symm.trans hs')
    exact loadTable_eq ht (List.getElem_mem hi) hrs hkinds hget b
  rw [loadMem_eq h.headerOk_file, h.ehdrOf_eq, h.loadHeaders_built]
  show ((rereadSections r).foldlM (loadTable (rereadSections r)) _ >>= _) = _
  rw [foldlM_extend hturns, h.loadSegments_eq]
  rfl

end Cup.Elf
