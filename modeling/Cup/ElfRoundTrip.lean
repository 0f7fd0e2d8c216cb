/-
  A built object loaded again (`lielf_build`, then `lielf_load_mem`, of `include/lielf.h`).

  The build of an object appends the tables of its symbols and relocations and links them by
  index, so the file is one the reader finds every table in; what it reads are the sections, the
  symbols and the relocations the object was put together from.

  Objects (`Assembled`): an ET_REL binary of `lielf_new`, with sections of type PROGBITS or NOBITS
  whose names are not empty, not twice there and not those of the tables the build makes; with
  symbols, and with relocations of sections and symbols that were added before. Both are of the
  static tables. Beside that the counts and sizes fit the fields of the headers (`TablesFit`) and
  no offset of the layout overflows (`LayoutFits`; `Cup.ElfRoom` says when). Every allocation is
  taken to succeed.

  Proved:
  * `load_build`: every such object is built, and its file is loaded as the object (`LoadedAs`):
    sections at their index, symbols with the local ones in front, relocations of each section in
    order and of the symbols they had.

  Not covered: executables and shared objects, segments, the tables of the dynamic linker, and a
  binary that was itself loaded.
-/
import Cup.ElfObject

namespace Cup.Elf

open Lib.StringTable (CString table)

variable {b : Binary} {s t : Section} {syms : List Symbol}

/-- What the header fields of the file can hold: the number of sections, and the bytes of the
tables of symbols, relocations and names. -/
structure TablesFit (b : Binary) : Prop where
  sections : (regenerate b).sections.length < 2 ^ 16
  symbols : b.symbols.length * symSize < 2 ^ 32
  names : (nameStrings b.symbols).length < 2 ^ 32
  relocs : ∀ target, (b.relocs.filter fun r => decide (r.targetSection = target)).length *
    relaSize < 2 ^ 32
  sectionNames : (table ((regenerate b).sections.map (·.name))).length < 2 ^ 32

theorem TablesFit.syms_le (h : TablesFit b) : b.symbols.length ≤ 2 ^ 32 := by
  have hlt := h.symbols
  unfold symSize at hlt
  omega

/-! ## Names and links -/

/-- Sorting keeps the space the names take. -/
theorem nameStrings_localFirst (syms : List Symbol) :
    (nameStrings (localFirst syms)).length = (nameStrings syms).length := by
  cases syms with
  | nil => rfl
  | cons s ss =>
    have hperm : (localFirst (s :: ss)).tail.Perm ss := Lib.Reorder.stable_perm _ ss
    have hflat := ((hperm.map (·.name)).flatMap_right CString.bytes).length_eq
    show (0 :: _).length = (0 :: _).length
    rw [List.length_cons, List.length_cons, hflat]
    rfl

/-- A section that a link by name is set to. -/
theorem link_get (hcount : (regenerate b).sections.length < 2 ^ 16) {name : CString}
    (hs : s ∈ (withTables b).sections) (hname : s.name = name) :
    ∃ t, (regenerate b).sections[(UInt32.ofNat (sectionIndex (withTables b) name)).toNat]? =
      some t ∧ t.name = name := by
  have hsecs := regenerate_sections b
  generalize regenerate b = r at hcount hsecs ⊢
  generalize withTables b = w at hs hsecs ⊢
  obtain ⟨k, hk⟩ : ∃ k, getSection w name = some k := by
    cases hget : getSection w name with
    | none => exact absurd hname (getSection_eq_none.mp hget s hs)
    | some k => exact ⟨k, rfl⟩
  obtain ⟨t, ht, htname, -⟩ := getSection_eq_some.mp hk
  have hlt : k < w.sections.length := (List.getElem?_eq_some_iff.mp ht).1
  have hlen : r.sections.length = w.sections.length := by rw [hsecs, List.length_map]
  have hsize : 2 ^ 16 < UInt32.size := by decide
  have hnat : (UInt32.ofNat (sectionIndex w name)).toNat = k := by
    rw [sectionIndex, hk]
    exact UInt32.toNat_ofNat_of_lt' (Nat.lt_trans (hlt.trans_eq hlen.symm) (hcount.trans hsize))
  refine ⟨resolveLink w t, ?_, (relinked_resolveLink w t).same_name.trans htname⟩
  rw [hnat, hsecs, List.getElem?_map, ht]
  rfl

theorem resolveLink_symtab (w : Binary) (hkind : s.kind = .symtab) :
    resolveLink w s = { s with link := UInt32.ofNat (sectionIndex w dotStrtab) } := by
  unfold resolveLink
  rw [hkind]

theorem resolveLink_rela (w : Binary) (hkind : s.kind = .rela) (hdyn : s.relaDynamic = 0) :
    resolveLink w s = { s with
      link := UInt32.ofNat (sectionIndex w dotSymtab)
      info := if s.target ≠ .empty then UInt32.ofNat (sectionIndex w s.target) else 0 } := by
  unfold resolveLink
  rw [hkind]
  dsimp only
  rw [hdyn]
  rfl

/-- The types of the sections. -/
theorem ObjectSection.type (h : IsObject b) (hs : ObjectSection b s) :
    s.type = shtProgbits ∨ s.type = shtNobits ∨ s.type = shtSymtab ∨ s.type = shtStrtab ∨
      s.type = shtRela := by
  cases hs with
  | added hs => exact (h.added hs).type.imp_right .inl
  | symtab hlen =>
    exact .inr (.inr (.inl ((symtabSection_written hlen).resolveLink (withTables b)).type_eq))
  | strtab hlen => exact .inr (.inr (.inr (.inl (strtabSection_written hlen).type_eq)))
  | rela ht =>
    refine .inr (.inr (.inr (.inr ?_)))
    rw [(relinked_resolveLink (withTables b) _).eq]
    exact maybeUpdateData_type _ _
  | names => exact .inr (.inr (.inr (.inl (namesSection_written _).type_eq)))

/-- The name of a generated table is that of one section. -/
theorem ObjectSection.eq_of_name (h : IsObject b) (hs : ObjectSection b s) :
    (s.name = dotStrtab → s = strtabSection (sorted b).symbols) ∧
      (s.name = dotShstrtab →
        s = namesSection (shstrtabNames (tabled (sorted b) b.sections))) := by
  cases hs with
  | added hs =>
    have hfresh := (h.added hs).name
    exact ⟨fun heq => absurd (heq ▸ by decide) hfresh, fun heq => absurd (heq ▸ by decide) hfresh⟩
  | symtab hlen =>
    have hname : (resolveLink (withTables b) (symtabSection (sorted b).symbols)).name =
        dotSymtab :=
      (relinked_resolveLink (withTables b) _).same_name.trans (symtabSection_name _)
    rw [hname]
    exact ⟨fun heq => absurd heq (by decide), fun heq => absurd heq (by decide)⟩
  | strtab hlen =>
    refine ⟨fun _ => rfl, fun heq => ?_⟩
    rw [strtabSection_name] at heq
    exact absurd heq (by decide)
  | @rela t ht =>
    have hfresh := relaSection_name (sorted b).relocs t
    rw [(relinked_resolveLink (withTables b) (relaSection (sorted b).relocs t)).same_name]
    exact ⟨fun heq => absurd (heq ▸ by decide) hfresh, fun heq => absurd (heq ▸ by decide) hfresh⟩
  | names =>
    refine ⟨fun heq => ?_, fun _ => rfl⟩
    rw [show (namesSection (shstrtabNames (tabled (sorted b) b.sections))).name = dotShstrtab from
      (shstrtabTable_late _).name _] at heq
    exact absurd heq (by decide)

/-! ## Relocations of a target -/

theorem relocsOf_sorted (h : IsObject b) (hfit : TablesFit b) (target : CString) :
    List.Forall₂ (Follows false b.symbols (localFirst b.symbols))
      (b.relocs.filter fun r => decide (r.targetSection = target))
      (relocsOf (sorted b).relocs (newRela target 0)) := by
  have hc := sorted_object h hfit.syms_le
  have hfilter : relocsOf (sorted b).relocs (newRela target 0) =
      (sorted b).relocs.filter fun r => decide (r.targetSection = target) := by
    rw [relocsOf_newRela]
    refine List.filter_congr fun r hr => ?_
    rw [(hc.reloc h hr).1]
    exact Bool.true_and _
  rw [hfilter]
  refine List.rel_filter (fun r r' hr => ?_) hc.relocs
  rw [hr.same]

/-! ## The object in the file -/

theorem symtab_length (h : IsObject b) (hfit : TablesFit b) :
    ((rawSyms (sorted b).symbols).flatMap RawSym.bytes).length = b.symbols.length * symSize := by
  rw [Lib.Image.length_flatMap fun rs _ => RawSym.bytes_length rs, rawSyms_length,
    (sorted_object h hfit.syms_le).symbols, localFirst_length]

theorem rela_length (h : IsObject b) (hfit : TablesFit b) (target : CString) :
    (relaBytes (sorted b).relocs (newRela target 0)).length =
      (b.relocs.filter fun r => decide (r.targetSection = target)).length * relaSize := by
  have hcount : (relaBytes (sorted b).relocs (newRela target 0)).length = _ :=
    Lib.Image.length_flatMap fun r _ => RawRela.bytes_length (rawRela r)
  rw [hcount, (relocsOf_sorted h hfit target).length_eq]

theorem names_length (h : IsObject b) (hfit : TablesFit b) :
    (nameStrings (sorted b).symbols).length = (nameStrings b.symbols).length := by
  rw [(sorted_object h hfit.syms_le).symbols, nameStrings_localFirst]

theorem shstrtab_names (h : IsObject b) (hfit : TablesFit b) :
    shstrtabNames (tabled (sorted b) b.sections) = (regenerate b).sections.map (·.name) := by
  have happly : ∀ names, (shstrtabTable names).apply (tabled (sorted b) b.sections) =
      tabled (sorted b) b.sections ++ [namesSection names] := fun names =>
    apply_of_absent fun s hs => fresh_names h.fresh s hs
  have hnames := map_name_shstrtab (shstrtabNames (tabled (sorted b) b.sections))
    (tabled (sorted b) b.sections)
  rw [happly] at hnames
  have htables : (withTables b).sections.map (·.name) =
      shstrtabNames (tabled (sorted b) b.sections) := by
    rw [withTables_object h hfit.syms_le]
    exact hnames
  rw [← htables, regenerate_sections, List.map_map]
  exact List.map_congr_left fun s _ => (relinked_resolveLink (withTables b) s).same_name.symm

theorem ObjectSection.hasBytes (h : IsObject b) (hfit : TablesFit b) (hs : ObjectSection b s) :
    HasBytes s := by
  have hsmall : (2 : Nat) ^ 32 < 2 ^ 64 := by decide
  cases hs with
  | added hs => exact (h.added hs).hasBytes
  | symtab hlen =>
    have hcount := symtab_length h hfit
    have hpos := hfit.symbols
    have hne : (rawSyms (sorted b).symbols).flatMap RawSym.bytes ≠ [] := fun hnil => by
      have hmany := hlen
      rw [(sorted_object h hfit.syms_le).symbols, localFirst_length] at hmany
      rw [hnil, List.length_nil] at hcount
      unfold symSize at hcount
      omega
    exact ((symtabSection_written hlen).resolveLink (withTables b)).hasBytes hne
      (by rw [hcount]; exact hpos.trans hsmall) (by decide)
  | strtab hlen =>
    refine (strtabSection_written hlen).hasBytes (List.cons_ne_nil _ _) ?_ (by decide)
    rw [names_length h hfit]
    exact hfit.names.trans hsmall
  | @rela t ht =>
    have hdyn := fun r hr => ((sorted_object h hfit.syms_le).reloc h (r := r) hr).1
    refine ((relaSection_written hdyn ht).resolveLink (withTables b)).hasBytes
      (relaBytes_ne_nil hdyn ht) ?_ (by decide)
    rw [rela_length h hfit]
    exact (hfit.relocs t).trans hsmall
  | names =>
    refine (namesSection_written _).hasBytes (List.cons_ne_nil _ _) ?_ (by decide)
    rw [shstrtab_names h hfit]
    exact hfit.sectionNames.trans hsmall

theorem regenerate_symbols (b : Binary) : (regenerate b).symbols = (sorted b).symbols :=
  (regenerate_other b).syms false

/-- The section names of a built object are found and fit. -/
theorem object_names (h : IsObject b) (hfit : TablesFit b) :
    ∃ k s, getSection (regenerate b) dotShstrtab = some k ∧ (regenerate b).sections[k]? = some s ∧
      s.type = shtStrtab ∧ s.data = some (table ((regenerate b).sections.map (·.name))) ∧
      s.size = UInt64.ofNat (table ((regenerate b).sections.map (·.name))).length := by
  have hnames := shstrtab_names h hfit
  have hwritten := namesSection_written (shstrtabNames (tabled (sorted b) b.sections))
  have hname : (namesSection (shstrtabNames (tabled (sorted b) b.sections))).name = dotShstrtab :=
    (shstrtabTable_late _).name _
  obtain ⟨t, ht, htname⟩ := link_get hfit.sections
    (s := namesSection (shstrtabNames (tabled (sorted b) b.sections)))
    (by rw [withTables_object h hfit.syms_le]
        exact List.mem_append_right _ (List.mem_singleton_self _)) hname
  obtain ⟨k, hk⟩ : ∃ k, getSection (regenerate b) dotShstrtab = some k := by
    cases hget : getSection (regenerate b) dotShstrtab with
    | none => exact absurd htname (getSection_eq_none.mp hget t (List.mem_of_getElem? ht))
    | some k => exact ⟨k, rfl⟩
  obtain ⟨s, hs, hsname, -⟩ := getSection_eq_some.mp hk
  have hpos : 0 < k := by
    refine Nat.pos_of_ne_zero fun hzero => ?_
    rw [hzero, regenerate_first h hfit.syms_le] at hs
    rw [← Option.some.inj hs] at hsname
    revert hsname
    decide
  obtain ⟨j, rfl⟩ : ∃ j, k = j + 1 := ⟨k - 1, by omega⟩
  have htail : s ∈ (regenerate b).sections.tail :=
    List.mem_of_getElem? (List.getElem?_tail.trans hs)
  obtain rfl := ((objectSection h hfit.syms_le htail).eq_of_name h).2 hsname
  rw [← hnames]
  exact ⟨j + 1, _, hk, hs, hwritten.type_eq, hwritten.data, hwritten.size⟩

theorem mem_sections (h : IsObject b) (hfit : TablesFit b) (hs : s ∈ (regenerate b).sections) :
    s = .zero .empty ∨ ObjectSection b s := by
  obtain ⟨i, hi⟩ := List.mem_iff_getElem?.mp hs
  cases i with
  | zero => exact .inl (Option.some.inj (hi.symm.trans (regenerate_first h hfit.syms_le)))
  | succ i =>
    exact .inr (objectSection h hfit.syms_le
      (List.mem_of_getElem? (List.getElem?_tail.trans hi)))

/-- A built object is one the reader can read. -/
theorem object_file (h : IsObject b) (hfit : TablesFit b) : ObjectFile (regenerate b) where
  rel := by
    rw [isRel_regenerate]
    exact beq_iff_eq.mpr h.rel
  ident := by
    rw [(regenerate_other b).ehdr, (sorted_object h hfit.syms_le).ehdr, h.ident]
  segments := by
    rw [(regenerate_other b : regenerate b = _)]
    exact (sorted_object h hfit.syms_le).segments.trans h.segments
  first := regenerate_first h hfit.syms_le
  typed s hs := by
    obtain hty | hty | hty | hty | hty := (objectSection h hfit.syms_le hs).type h
    all_goals rw [hty]; decide
  bytes s hs := ((objectSection h hfit.syms_le hs).hasBytes h hfit).bytes
  noBytes s hs := ((objectSection h hfit.syms_le hs).hasBytes h hfit).noBytes
  count := hfit.sections
  names := object_names h hfit
  namesFit := hfit.sectionNames

/-! ## The tables in the file -/

/-- The symbol table links to the string table. -/
theorem symtab_link (h : IsObject b) (hfit : TablesFit b)
    (hlen : 1 < (sorted b).symbols.length) :
    ∃ t, (regenerate b).sections[(UInt32.ofNat
      (sectionIndex (withTables b) dotStrtab)).toNat]? = some t ∧
      Written shtStrtab (nameStrings (sorted b).symbols) t := by
  have hmem : strtabSection (sorted b).symbols ∈ (withTables b).sections := by
    rw [withTables_object h hfit.syms_le]
    refine List.mem_append_left _ (List.mem_append_left _ (List.mem_append_right _ ?_))
    rw [symbolSections, if_pos hlen]
    exact List.mem_cons_of_mem _ List.mem_cons_self
  obtain ⟨t, ht, hname⟩ := link_get hfit.sections hmem (strtabSection_name _)
  refine ⟨t, ht, ?_⟩
  rcases mem_sections h hfit (List.mem_of_getElem? ht) with rfl | hsec
  · exact absurd hname (by decide)
  · rw [(hsec.eq_of_name h).1 hname]
    exact strtabSection_written hlen

theorem resolveLink_entsize (w : Binary) (s : Section) :
    (resolveLink w s).entsize = s.entsize := by
  rw [(relinked_resolveLink w s).eq]

theorem resolveLink_symtab_link (w : Binary) (hkind : s.kind = .symtab) :
    (resolveLink w s).link = UInt32.ofNat (sectionIndex w dotStrtab) := by
  rw [resolveLink_symtab w hkind]

theorem symtab_of (h : IsObject b) (hfit : TablesFit b) (hlen : 1 < (sorted b).symbols.length) :
    SymtabOf (regenerate b).sections (sorted b).symbols
      (resolveLink (withTables b) (symtabSection (sorted b).symbols)) := by
  obtain ⟨t, ht, hstr⟩ := symtab_link h hfit hlen
  generalize regenerate b = r at ht ⊢
  generalize withTables b = w at ht ⊢
  have hwritten := (symtabSection_written hlen).resolveLink w
  have hlink := resolveLink_symtab_link w (symtabSection_kind hlen)
  refine ⟨?_, hwritten.data, hwritten.size, t, ?_, hstr.type_eq, hstr.data, hstr.size⟩
  · rw [resolveLink_entsize]
    exact symtabSection_entsize hlen
  · rw [hlink]
    exact ht

theorem relocsOf_congr {relocs : List Reloc} {s' : Section} (hd : s'.relaDynamic = s.relaDynamic)
    (ht : s'.relaTarget = s.relaTarget) : relocsOf relocs s' = relocsOf relocs s := by
  unfold relocsOf Section.target
  rw [hd, ht]

/-- What a relocation section says about its relocations. -/
theorem relaSection_fields (relocs : List Reloc) (target : CString) :
    (relaSection relocs target).relaDynamic = 0 ∧
      (relaSection relocs target).relaTarget = some target ∧
      (relaSection relocs target).entsize = UInt64.ofNat relaSize :=
  ⟨maybeUpdateData_relaDynamic _ _, maybeUpdateData_relaTarget _ _, maybeUpdateData_entsize _ _⟩

/-- The section a relocation section applies to. -/
theorem rela_target (h : IsObject b) (hfit : TablesFit b) {target : CString}
    (ht : target ∈ targets (sorted b).relocs) :
    ∃ t, (regenerate b).sections[(if target ≠ .empty then
      UInt32.ofNat (sectionIndex (withTables b) target) else 0).toNat]? = some t ∧
      t.name = target := by
  by_cases hempty : target = .empty
  · rw [if_neg (not_not_intro hempty)]
    exact ⟨_, regenerate_first h hfit.syms_le, hempty.symm⟩
  · obtain ⟨r, hr, rfl⟩ := mem_targets.mp ht
    obtain ⟨-, s, hs, hname⟩ := (sorted_object h hfit.syms_le).reloc h hr
    have hmem : s ∈ (withTables b).sections := by
      rw [withTables_object h hfit.syms_le]
      exact List.mem_append_left _ (List.mem_append_left _ (List.mem_append_left _ hs))
    rw [if_pos hempty]
    exact link_get hfit.sections hmem hname

/-- The section a relocation section links to is no dynamic symbol table. -/
theorem rela_link (h : IsObject b) (hfit : TablesFit b) :
    ∃ t, (regenerate b).sections[(UInt32.ofNat
      (sectionIndex (withTables b) dotSymtab)).toNat]? = some t ∧ t.type ≠ shtDynsym := by
  have htype : ∀ t ∈ (regenerate b).sections, t.type ≠ shtDynsym := by
    intro t ht
    rcases mem_sections h hfit ht with rfl | hsec
    · decide
    · obtain hty | hty | hty | hty | hty := hsec.type h
      all_goals rw [hty]; decide
  by_cases hfound : ∃ s ∈ (withTables b).sections, s.name = dotSymtab
  · obtain ⟨s, hs, hname⟩ := hfound
    obtain ⟨t, ht, -⟩ := link_get hfit.sections hs hname
    exact ⟨t, ht, htype t (List.mem_of_getElem? ht)⟩
  · have hnone : sectionIndex (withTables b) dotSymtab = 0 := by
      rw [sectionIndex, getSection_eq_none.mpr fun s hs hname => hfound ⟨s, hs, hname⟩]
      rfl
    rw [hnone]
    exact ⟨_, regenerate_first h hfit.syms_le, by decide⟩

theorem rela_of (h : IsObject b) (hfit : TablesFit b) {target : CString}
    (ht : target ∈ targets (sorted b).relocs) :
    RelaOf (regenerate b).sections (sorted b).relocs
      (resolveLink (withTables b) (relaSection (sorted b).relocs target)) := by
  have hdyn := fun r hr => ((sorted_object h hfit.syms_le).reloc h (r := r) hr).1
  have hcount := (relocsOf_sorted h hfit target).length_eq
  have htargetOf := rela_target h hfit ht
  have hlinkOf := rela_link h hfit
  generalize regenerate b = r at htargetOf hlinkOf ⊢
  generalize withTables b = w at htargetOf hlinkOf ⊢
  have hwritten := (relaSection_written hdyn ht).resolveLink w
  obtain ⟨hd, htarget, hentsize⟩ := relaSection_fields (sorted b).relocs target
  have hresolve := resolveLink_rela w (relaSection_kind (sorted b).relocs target) hd
  have hname : (relaSection (sorted b).relocs target).target = target := by
    rw [Section.target, htarget]
    rfl
  rw [hname] at hresolve
  have hrelocs : relocsOf (sorted b).relocs
      (resolveLink w (relaSection (sorted b).relocs target)) =
        relocsOf (sorted b).relocs (newRela target 0) :=
    relocsOf_congr (by rw [hresolve]; exact hd) (by rw [hresolve]; exact htarget)
  have hbytes : relaBytes (sorted b).relocs
      (resolveLink w (relaSection (sorted b).relocs target)) =
        relaBytes (sorted b).relocs (newRela target 0) := by
    unfold relaBytes
    rw [hrelocs]
  refine ⟨by rw [hresolve]; exact hentsize, hbytes ▸ hwritten.size, .inl (hbytes ▸ hwritten.data),
    ?_, by rw [hresolve]; exact hd, ?_, ?_⟩
  · rw [hrelocs, ← hcount]
    exact (hfit.relocs target).trans (by decide)
  · obtain ⟨t, hget, htname⟩ := htargetOf
    rw [hresolve]
    exact ⟨t, hget, htname.symm ▸ htarget⟩
  · rw [hresolve]
    exact hlinkOf

theorem regenerate_relocs (b : Binary) : (regenerate b).relocs = (sorted b).relocs :=
  (regenerate_other b).relocs

/-- The tables of a built object hold its symbols and relocations. -/
theorem tables_of (h : IsObject b) (hfit : TablesFit b) : TablesOf (regenerate b) where
  symtab s hs htype := by
    rw [regenerate_symbols]
    rcases mem_sections h hfit hs with rfl | hsec
    · exact absurd htype (by decide)
    · cases hsec with
      | added hs =>
        rcases (h.added hs).type with hty | hty
        all_goals exact absurd (hty.symm.trans htype) (by decide)
      | symtab hlen => exact symtab_of h hfit hlen
      | strtab hlen =>
        exact absurd ((strtabSection_written hlen).type_eq.symm.trans htype) (by decide)
      | @rela t ht =>
        have hdyn := fun r hr => ((sorted_object h hfit.syms_le).reloc h (r := r) hr).1
        have hty := ((relaSection_written hdyn ht).resolveLink (withTables b)).type_eq
        exact absurd (hty.symm.trans htype) (by decide)
      | names => exact absurd ((namesSection_written _).type_eq.symm.trans htype) (by decide)
  rela s hs htype := by
    rw [regenerate_relocs]
    rcases mem_sections h hfit hs with rfl | hsec
    · exact absurd htype (by decide)
    · cases hsec with
      | added hs =>
        rcases (h.added hs).type with hty | hty
        all_goals exact absurd (hty.symm.trans htype) (by decide)
      | symtab hlen =>
        have hty := ((symtabSection_written hlen).resolveLink (withTables b)).type_eq
        exact absurd (hty.symm.trans htype) (by decide)
      | strtab hlen =>
        exact absurd ((strtabSection_written hlen).type_eq.symm.trans htype) (by decide)
      | rela ht => exact rela_of h hfit ht
      | names => exact absurd ((namesSection_written _).type_eq.symm.trans htype) (by decide)
  others s hs := by
    rcases mem_sections h hfit hs with rfl | hsec
    · decide
    · obtain hty | hty | hty | hty | hty := hsec.type h
      all_goals rw [hty]; decide
  syms := by
    rw [regenerate_symbols, (sorted_object h hfit.syms_le).symbols]
    refine ⟨fun sym hsym => ?_, ?_, ?_⟩
    · obtain ⟨syms, hsyms⟩ := h.symbols
      rw [hsyms] at hsym
      rw [← Option.some.inj hsym]
      rfl
    · rw [localFirst_length]
      exact hfit.symbols
    · rw [nameStrings_localFirst]
      exact hfit.names

/-! ## What is loaded -/

/-- The sections of a built object, part by part, for what does not look at the links. -/
theorem flatMap_sections {α : Type} (h : IsObject b) (hfit : TablesFit b) (f : Section → List α)
    (hf : ∀ w s, f (resolveLink w s) = f s) : (regenerate b).sections.flatMap f =
      b.sections.flatMap f ++ (symbolSections (sorted b).symbols).flatMap f ++
        (targets (sorted b).relocs).flatMap (fun t => f (relaSection (sorted b).relocs t)) ++
          f (namesSection (shstrtabNames (tabled (sorted b) b.sections))) := by
  have hmap : (regenerate b).sections.flatMap f = (withTables b).sections.flatMap f := by
    rw [regenerate_sections, List.flatMap_map]
    exact congrArg (fun g => (withTables b).sections.flatMap g) (funext fun s => hf _ s)
  rw [hmap, withTables_object h hfit.syms_le, List.flatMap_append, tabled, List.flatMap_append,
    List.flatMap_append, List.flatMap_map, List.flatMap_singleton]

theorem resolveLink_type (w : Binary) (s : Section) : (resolveLink w s).type = s.type := by
  rw [(relinked_resolveLink w s).eq]

theorem resolveLink_relaDynamic (w : Binary) (s : Section) :
    (resolveLink w s).relaDynamic = s.relaDynamic := by
  rw [(relinked_resolveLink w s).eq]

theorem resolveLink_relaTarget (w : Binary) (s : Section) :
    (resolveLink w s).relaTarget = s.relaTarget := by
  rw [(relinked_resolveLink w s).eq]

theorem section_type_ne (h : IsObject b) (hs : s ∈ b.sections) :
    s.type ≠ shtSymtab ∧ s.type ≠ shtRela := by
  obtain ⟨-, -, hty | hty | hty⟩ := h.section_plain hs
  all_goals rw [hty]; decide

/-- The symbols that are read: all of them, or none where there is only the first. -/
theorem flatMap_symsIn (h : IsObject b) (hfit : TablesFit b) :
    (regenerate b).sections.flatMap (symsIn (regenerate b)) =
      if 1 < b.symbols.length then localFirst b.symbols else [] := by
  have hc := sorted_object h hfit.syms_le
  have hlen : (sorted b).symbols.length = b.symbols.length := by rw [hc.symbols, localFirst_length]
  have hsyms := regenerate_symbols b
  have hparts := flatMap_sections h hfit (symsIn (regenerate b)) fun w s => by
    unfold symsIn
    rw [resolveLink_type]
  generalize regenerate b = r at hsyms hparts ⊢
  have hother : ∀ s : Section, s.type ≠ shtSymtab → symsIn r s = [] := fun s hs => if_neg hs
  have hadded : b.sections.flatMap (symsIn r) = [] :=
    List.flatMap_eq_nil_iff.mpr fun s hs => hother s (section_type_ne h hs).1
  have hrelas : ((targets (sorted b).relocs).flatMap fun t =>
      symsIn r (relaSection (sorted b).relocs t)) = [] := by
    refine List.flatMap_eq_nil_iff.mpr fun t _ => hother _ ?_
    rw [show (relaSection (sorted b).relocs t).type = shtRela from maybeUpdateData_type _ _]
    decide
  have hnames := hother (namesSection (shstrtabNames (tabled (sorted b) b.sections))) (by
    rw [(namesSection_written _).type_eq]
    decide)
  rw [hparts, hadded, hrelas, hnames, List.nil_append, List.append_nil, List.append_nil,
    symbolSections, hlen]
  by_cases hmany : 1 < b.symbols.length
  · have hsymtab : symsIn r (symtabSection (sorted b).symbols) = r.symbols :=
      if_pos (symtabSection_written (hlen.symm ▸ hmany)).type_eq
    have hstrtab := hother (strtabSection (sorted b).symbols) (by
      rw [(strtabSection_written (hlen.symm ▸ hmany)).type_eq]
      decide)
    rw [if_pos hmany, if_pos hmany, List.flatMap_cons, hsymtab, List.flatMap_singleton, hstrtab,
      List.append_nil, hsyms, hc.symbols]
  · rw [if_neg hmany, if_neg hmany]
    rfl

theorem reread_symbols (h : IsObject b) (hfit : TablesFit b) :
    (reread (regenerate b)).symbols = localFirst b.symbols := by
  have hread := flatMap_symsIn h hfit
  generalize regenerate b = r at hread ⊢
  show ensureNullSym (r.sections.flatMap (symsIn r)) = _
  rw [hread]
  obtain ⟨syms, hsyms⟩ := h.symbols
  rw [hsyms]
  cases syms with
  | nil => rfl
  | cons sym syms =>
    have hmany : 1 < (Symbol.undef :: sym :: syms).length := by simp
    rw [if_pos hmany]
    exact if_neg (List.cons_ne_nil _ _)

theorem flatMap_relocsIn (h : IsObject b) (hfit : TablesFit b) :
    (regenerate b).sections.flatMap (relocsIn (regenerate b)) =
      (targets (sorted b).relocs).flatMap fun t =>
        relocsOf (sorted b).relocs (newRela t 0) := by
  have hrelocs := regenerate_relocs b
  have hparts := flatMap_sections h hfit (relocsIn (regenerate b)) fun w s => by
    unfold relocsIn
    rw [resolveLink_type,
      relocsOf_congr (resolveLink_relaDynamic w s) (resolveLink_relaTarget w s)]
  generalize regenerate b = r at hrelocs hparts ⊢
  have hother : ∀ s : Section, s.type ≠ shtRela → relocsIn r s = [] := fun s hs => if_neg hs
  have hrela : ∀ t, relocsIn r (relaSection (sorted b).relocs t) =
      relocsOf (sorted b).relocs (newRela t 0) := by
    intro t
    have hty : (relaSection (sorted b).relocs t).type = shtRela := maybeUpdateData_type _ _
    rw [relocsIn, if_pos hty, hrelocs]
    exact relocsOf_congr (maybeUpdateData_relaDynamic _ _) (maybeUpdateData_relaTarget _ _)
  have hadded : b.sections.flatMap (relocsIn r) = [] :=
    List.flatMap_eq_nil_iff.mpr fun s hs => hother s (section_type_ne h hs).2
  have hsymbols : (symbolSections (sorted b).symbols).flatMap (relocsIn r) = [] := by
    refine List.flatMap_eq_nil_iff.mpr fun s hs => hother s ?_
    obtain ⟨hmany, rfl | rfl⟩ := mem_symbolSections hs
    · rw [(symtabSection_written hmany).type_eq]
      decide
    · rw [(strtabSection_written hmany).type_eq]
      decide
  have hnames := hother (namesSection (shstrtabNames (tabled (sorted b) b.sections))) (by
    rw [(namesSection_written _).type_eq]
    decide)
  rw [hparts, hadded, hsymbols, hnames, List.nil_append, List.nil_append, List.append_nil]
  exact congrArg (fun g => (targets (sorted b).relocs).flatMap g) (funext hrela)

/-- The relocations that are read for a target are those that were written for it. -/
theorem reread_relocs (h : IsObject b) (hfit : TablesFit b) (target : CString) :
    ((reread (regenerate b)).relocs.filter fun r => decide (r.targetSection = target)) =
      relocsOf (sorted b).relocs (newRela target 0) := by
  have hread := flatMap_relocsIn h hfit
  generalize regenerate b = r at hread ⊢
  show ((r.sections.flatMap (relocsIn r)).filter _) = _
  have hkey : ∀ t, ∀ q ∈ relocsOf (sorted b).relocs (newRela t 0), q.targetSection = t := by
    intro t q hq
    rw [relocsOf_newRela] at hq
    have hcond := (List.mem_filter.mp hq).2
    rw [Bool.and_eq_true, decide_eq_true_eq, decide_eq_true_eq] at hcond
    exact hcond.2
  rw [hread, Lib.Reorder.filter_flatMap (targets_nodup _) hkey]
  split
  · rfl
  · rename_i hnot
    refine (List.eq_nil_iff_forall_not_mem.mpr fun q hq => hnot ?_).symm
    exact mem_targets.mpr ⟨q, (List.mem_filter.mp hq).1, hkey target q hq⟩

/-! ## The object and what is loaded -/

/-- A relocation and what is loaded for it: its symbol may have another number. -/
structure SameReloc (syms syms' : List Symbol) (r r' : Reloc) : Prop where
  same : r' = { r with sym := r'.sym }
  symbol : ∃ sym, syms[r.sym.toNat]? = some sym ∧ syms'[r'.sym.toNat]? = some sym

/-- The binary `b'` holds the object `b`, and behind its sections only the tables of a file. -/
structure LoadedAs (b b' : Binary) : Prop where
  type : b'.ehdr.type = b.ehdr.type
  machine : b'.ehdr.machine = b.ehdr.machine
  entry : b'.ehdr.entry = b.ehdr.entry
  sections : ∀ (i : Nat) (s : Section), b.sections[i]? = some s →
    ∃ s', b'.sections[i]? = some s' ∧ Reread s s'
  tables : ∀ s' ∈ b'.sections.drop b.sections.length,
    s'.type = shtSymtab ∨ s'.type = shtStrtab ∨ s'.type = shtRela
  symbols : LocalFirst b.symbols b'.symbols
  relocs : ∀ target, List.Forall₂ (SameReloc b.symbols b'.symbols)
    (b.relocs.filter fun r => decide (r.targetSection = target))
    (b'.relocs.filter fun r => decide (r.targetSection = target))

theorem regenerate_ehdr (h : IsObject b) (hfit : TablesFit b) :
    (regenerate b).ehdr = b.ehdr :=
  (regenerate_other b).ehdr.trans (sorted_object h hfit.syms_le).ehdr

/-- A section of the object keeps its place among the sections of the file. -/
theorem regenerate_get (h : IsObject b) (hfit : TablesFit b) {i : Nat}
    (hs : b.sections[i]? = some s) : (regenerate b).sections[i]? = some s := by
  have hlt : i < b.sections.length := (List.getElem?_eq_some_iff.mp hs).1
  have hnormal := (h.section_plain (List.mem_of_getElem? hs)).1
  have htables := withTables_object h hfit.syms_le
  rw [tabled, List.append_assoc, List.append_assoc] at htables
  rw [regenerate_sections, List.getElem?_map, htables, List.getElem?_append_left hlt, hs]
  exact congrArg some (resolveLink_normal _ hnormal)

/-- Behind them are the tables of the symbols, the relocations and the names. -/
theorem regenerate_drop (h : IsObject b) (hfit : TablesFit b)
    (hs : s ∈ (regenerate b).sections.drop b.sections.length) :
    s.type = shtSymtab ∨ s.type = shtStrtab ∨ s.type = shtRela := by
  have htables := withTables_object h hfit.syms_le
  rw [tabled, List.append_assoc, List.append_assoc] at htables
  rw [regenerate_sections, ← List.map_drop, htables, List.drop_left] at hs
  obtain ⟨u, hu, rfl⟩ := List.mem_map.mp hs
  rw [resolveLink_type]
  rcases List.mem_append.mp hu with hu | hu
  · obtain ⟨hmany, rfl | rfl⟩ := mem_symbolSections hu
    · exact .inl (symtabSection_written hmany).type_eq
    · exact .inr (.inl (strtabSection_written hmany).type_eq)
  · rcases List.mem_append.mp hu with hu | hu
    · obtain ⟨t, -, rfl⟩ := List.mem_map.mp hu
      exact .inr (.inr (maybeUpdateData_type _ _))
    · rw [List.mem_singleton.mp hu]
      exact .inr (.inl (namesSection_written _).type_eq)

/-- The relocations of a target refer to the symbols they referred to. -/
theorem sameReloc_sorted (h : IsObject b) (hfit : TablesFit b) (target : CString) :
    List.Forall₂ (SameReloc b.symbols (localFirst b.symbols))
      (b.relocs.filter fun r => decide (r.targetSection = target))
      (relocsOf (sorted b).relocs (newRela target 0)) := by
  refine List.forall₂_iff_get.mpr ⟨(relocsOf_sorted h hfit target).length_eq, fun i hi hi' => ?_⟩
  have hfollows := (List.forall₂_iff_get.mp (relocsOf_sorted h hfit target)).2 i hi hi'
  have hmem := (List.mem_filter.mp (List.get_mem _ ⟨i, hi⟩)).1
  have happlies := h.relocs _ hmem
  refine ⟨hfollows.same, _, List.getElem?_eq_getElem happlies.sym, ?_⟩
  rw [hfollows.symbol happlies.dynamic happlies.sym]
  exact List.getElem?_eq_getElem happlies.sym

theorem loadedAs_reread (h : IsObject b) (hfit : TablesFit b) {file : Bytes}
    (hfile : FileOf (regenerate b) file) : LoadedAs b (reread (regenerate b)) := by
  have htables := tables_of h hfit
  have hehdr := regenerate_ehdr h hfit
  have hget := fun (i : Nat) (s : Section) (hs : b.sections[i]? = some s) =>
    regenerate_get h hfit hs
  have hdrop := fun s (hs : s ∈ _) => regenerate_drop h hfit (s := s) hs
  have hsymbols := reread_symbols h hfit
  have hrelocs := reread_relocs h hfit
  generalize regenerate b = r at *
  have hkeeps : (reread r).ehdr.type = r.ehdr.type ∧ (reread r).ehdr.machine = r.ehdr.machine ∧
      (reread r).ehdr.entry = r.ehdr.entry := ⟨rfl, rfl, rfl⟩
  rw [hehdr] at hkeeps
  refine ⟨hkeeps.1, hkeeps.2.1, hkeeps.2.2, fun i s hs => ?_, fun s' hs' => ?_, ?_,
    fun target => ?_⟩
  · obtain ⟨s', hs', hread, -⟩ := reread_get hfile htables (hget i s hs)
    exact ⟨s', hs', hread⟩
  · obtain ⟨j, hj⟩ := List.mem_iff_getElem?.mp hs'
    rw [List.getElem?_drop] at hj
    have hlt : b.sections.length + j < r.sections.length := by
      rw [← rereadSections_length r]
      exact (List.getElem?_eq_some_iff.mp hj).1
    obtain ⟨t, ht, hread, -⟩ := reread_get hfile htables (List.getElem?_eq_getElem hlt)
    obtain rfl := Option.some.inj (hj.symm.trans ht)
    rw [hread.type]
    exact hdrop _ (List.mem_of_getElem? (List.getElem?_drop.trans (List.getElem?_eq_getElem hlt)))
  · rw [hsymbols]
    exact localFirst_spec b.symbols
  · rw [hsymbols, hrelocs target]
    exact sameReloc_sorted h hfit target

/-- The build writes a file, and what is loaded from it is the object. -/
def RoundTrips (b : Binary) : Prop :=
  ∃ file out b', lielfBuild b = some (file, out) ∧ loadMem file = .ok (some b') ∧ LoadedAs b b'

theorem IsObject.roundTrips (h : IsObject b) (htables : TablesFit b)
    (hlayout : LayoutFits (regenerate b)) : RoundTrips b := by
  have hfileObject := object_file h htables
  obtain ⟨file, hwrite⟩ := hfileObject.exists_file hlayout
  have hfile : FileOf (regenerate b) file := ⟨hfileObject, hlayout, hwrite⟩
  have hloaded := loadedAs_reread h htables hfile
  have hload := loadMem_built hfile (tables_of h htables)
  unfold RoundTrips lielfBuild
  dsimp only
  generalize regenerate b = r at *
  rw [hwrite]
  exact ⟨file, _, reread r, rfl, hload, hloaded⟩

/-- Every object is built, and the file is loaded as the object. -/
theorem load_build (h : Assembled b) (htables : TablesFit b)
    (hlayout : LayoutFits (regenerate b)) :
    ∃ file out b', lielfBuild b = some (file, out) ∧ loadMem file = .ok (some b') ∧
      LoadedAs b b' := (IsObject.of_assembled h).roundTrips htables hlayout

theorem assembled_sampleLoaded : Assembled sampleLoaded :=
  .addReloc _ _ _ _ _ (by decide) (by decide) <| .setEntry _ <| .addSymbol _ _ _ _ _ <|
    .addSymbol _ _ _ _ _ <|
      .addSection _ _ _ _ _ _ (.inr rfl) (by decide) (by decide) (by decide) <|
        .addSection _ _ _ _ _ _ (.inl rfl) (by decide) (by decide) (by decide) <| .new _

theorem tablesFit_sampleLoaded : TablesFit sampleLoaded := by
  refine ⟨by decide +kernel, by decide +kernel, by decide +kernel, fun target => ?_,
    by decide +kernel⟩
  have hle := List.length_filter_le (fun r => decide (r.targetSection = target)) sampleLoaded.relocs
  have hlen : sampleLoaded.relocs.length = 1 := rfl
  unfold relaSize
  omega

theorem load_build_sampleLoaded : ∃ file out b', lielfBuild sampleLoaded = some (file, out) ∧
    loadMem file = .ok (some b') ∧ LoadedAs sampleLoaded b' :=
  load_build assembled_sampleLoaded tablesFit_sampleLoaded (by decide +kernel)

end Cup.Elf
