/-
  The generated tables of a build (`lielf_build` of `include/lielf.h`) as operations on the list of
  sections.

  A table is found by its name or appended, and then written (`Table.apply`); a relocation section
  is found by its target. What the build makes of the sections is `built`
  (`withTables_sections`), before the links are set.
-/
import Cup.ElfRemoval

namespace Cup.Elf

open Lib.StringTable (CString)

/-! ## Sections with another place -/

/-- The fields that the layout and the end of a build set. -/
structure Placed (s s' : Section) : Prop where
  eq : s' = { s with
    offset := s'.offset
    addr := s'.addr
    loadedAlloc := s'.loadedAlloc
    dirty := s'.dirty }

variable {s s' s'' : Section}

theorem Placed.trans (h : Placed s s') (h' : Placed s' s'') : Placed s s'' := by
  constructor
  rw [h'.eq, h.eq]

theorem Placed.name (h : Placed s s') : s'.name = s.name := by rw [h.eq]

/-- The same section in another place, marked only where the first one is. -/
structure Cleaner (s s' : Section) : Prop where
  placed : Placed s s'
  dirty : s'.dirty = true → s.dirty = true

theorem Cleaner.refl (s : Section) : Cleaner s s := ⟨⟨rfl⟩, id⟩

theorem maybeUpdateData_cases (buf : Bytes) (s : Section) :
    (s.data = some buf ∧ s.size = UInt64.ofNat buf.length) ∧ maybeUpdateData buf s = s ∨
      maybeUpdateData buf s = { s with
        data := if buf = [] then none else some buf
        size := UInt64.ofNat buf.length
        dirty := true } := by
  unfold maybeUpdateData
  split
  · rename_i hsame
    exact .inl ⟨hsame, rfl⟩
  · exact .inr rfl

theorem Cleaner.maybeUpdateData (h : Cleaner s s') (buf : Bytes) :
    Cleaner (maybeUpdateData buf s) (maybeUpdateData buf s') := by
  have hdata : s'.data = s.data := by rw [h.placed.eq]
  have hsize : s'.size = s.size := by rw [h.placed.eq]
  unfold Elf.maybeUpdateData
  rw [hdata, hsize]
  split
  · exact h
  · exact ⟨⟨by rw [h.placed.eq]⟩, fun _ => rfl⟩

/-- Where the layout has put a section. -/
def Section.position (s : Section) : UInt64 × UInt64 × Bool := (s.offset, s.addr, s.loadedAlloc)

theorem maybeUpdateData_position (buf : Bytes) (s : Section) :
    (maybeUpdateData buf s).position = s.position := by
  rw [maybeUpdateData_eq]
  rfl

/-- An update leaves the section alone, whatever its link is. -/
def Steady (update : Section → Section) (s : Section) : Prop :=
  ∀ link, update { s with link } = { s with link }

theorem Steady.self {update : Section → Section} (h : Steady update s) : update s = s := h s.link

/-- The bytes are written after other fields are set: a second time nothing changes. -/
theorem steady_maybeUpdateData {buf : Bytes} (hne : buf ≠ []) {f : Section → Section}
    (hf : ∀ s link data size dirty,
      f { f s with link, data, size, dirty } = { f s with link, data, size, dirty })
    (s : Section) : Steady (fun s => maybeUpdateData buf (f s)) (maybeUpdateData buf (f s)) := by
  intro link
  have hsame : f { maybeUpdateData buf (f s) with link } =
      { maybeUpdateData buf (f s) with link } := by
    rw [maybeUpdateData_eq]
    exact hf _ _ _ _ _
  show maybeUpdateData buf (f _) = _
  rw [hsame, maybeUpdateData, if_pos ⟨maybeUpdateData_data hne _, maybeUpdateData_size _ _⟩]

/-! ## Tables -/

/-- A generated table: its section where there is none, and what is written to it. -/
structure Table where
  must : Bool
  new : Section
  update : Section → Section

/-- The first section of the name is updated, or a new one is put at the end. -/
def Table.apply (t : Table) : List Section → List Section
  | [] => if t.must then [t.update t.new] else []
  | s :: ss => if s.name = t.new.name then t.update s :: ss else s :: t.apply ss

/-- What the tables of the build have in common. -/
structure Table.Ok (t : Table) : Prop where
  name : ∀ s, (t.update s).name = s.name
  kind : ∀ s : Section, s.kind ≠ .rela → (t.update s).kind ≠ .rela
  steady : ∀ s, Steady t.update (t.update s)
  cleaner : ∀ s s', Cleaner s s' → Cleaner (t.update s) (t.update s')
  position : ∀ s, (t.update s).position = s.position
  newKind : t.new.kind ≠ .rela
  generated : t.new.name ∈ generatedNames

/-- The tables that are written behind the relocation sections. -/
def lateNames : List CString := [dotDynamic, dotShstrtab]

/-- A table written before the relocation sections: it is retyped, or has no symbols. -/
structure Table.Early (t : Table) : Prop extends t.Ok where
  spare : ∀ s, (t.update s).kind = .rela → ∃ buf, buf ≠ [] ∧ t.update = maybeUpdateData buf

structure Table.Late (t : Table) : Prop extends t.Ok where
  late : t.new.name ∈ lateNames

variable {t t' : Table}

/-! ## The tables of a build -/

variable {b b' : Binary} {name : CString} {type : UInt32} {flags al : UInt64}
  {update : Section → Section}

theorem apply_of_findIdx {i : Nat} {secs : List Section}
    (h : secs.findIdx? (fun s => decide (s.name = t.new.name)) = some i) :
    t.apply secs = secs.modify i t.update := by
  induction secs generalizing i with
  | nil => cases h
  | cons s ss ih =>
    rw [List.findIdx?_cons] at h
    unfold Table.apply
    by_cases hname : s.name = t.new.name
    · rw [if_pos (decide_eq_true hname)] at h
      obtain rfl := Option.some.inj h
      rw [if_pos hname]
      rfl
    · rw [if_neg (by rwa [decide_eq_true_eq])] at h
      obtain ⟨j, hj, rfl⟩ := Option.map_eq_some_iff.mp h
      rw [if_neg hname, ih hj]
      rfl

theorem apply_of_findIdx_none {secs : List Section}
    (h : secs.findIdx? (fun s => decide (s.name = t.new.name)) = none) :
    t.apply secs = secs ++ if t.must then [t.update t.new] else [] := by
  induction secs with
  | nil => rfl
  | cons s ss ih =>
    rw [List.findIdx?_cons] at h
    unfold Table.apply
    by_cases hname : s.name = t.new.name
    · rw [if_pos (decide_eq_true hname)] at h
      cases h
    · rw [if_neg (by rwa [decide_eq_true_eq])] at h
      rw [if_neg hname, ih (Option.map_eq_none_iff.mp h)]
      rfl

theorem apply_of_some {i : Nat} (t : Table) (h : getSection b t.new.name = some i) :
    t.apply b.sections = b.sections.modify i t.update := apply_of_findIdx h

theorem apply_of_none (t : Table) (h : getSection b t.new.name = none) :
    t.apply b.sections = b.sections ++ if t.must then [t.update t.new] else [] :=
  apply_of_findIdx_none h

theorem modify_append_new (f : Section → Section) (s : Section) (secs : List Section) :
    (secs ++ [s]).modify secs.length f = secs ++ [f s] := by
  induction secs with
  | nil => rfl
  | cons s₀ ss ih => exact congrArg (s₀ :: ·) ih

/-- A table that is made sure of. -/
theorem ensured_sections (t : Table) (b : Binary) (hmust : t.must = true)
    (hnew : t.new = newSection name type flags none 0 al) :
    ((ensureSection b name type flags al).1.modifySection
      (ensureSection b name type flags al).2 t.update).sections = t.apply b.sections := by
  have hname : t.new.name = name := by rw [hnew]; rfl
  cases h : getSection b name with
  | some i =>
    rw [ensureSection_of_some h, apply_of_some t (hname ▸ h)]
    rfl
  | none =>
    rw [ensureSection_of_none h, apply_of_none t (hname ▸ h), if_pos hmust, hnew]
    exact modify_append_new _ _ _

/-- A table that is written only where there is one. -/
theorem found_sections (t : Table) (b : Binary) (hmust : t.must = false) :
    (match getSection b t.new.name with
      | none => b
      | some i => b.modifySection i t.update).sections = t.apply b.sections := by
  cases h : getSection b t.new.name with
  | some i =>
    rw [apply_of_some t h]
    rfl
  | none =>
    rw [apply_of_none t h, hmust]
    exact (List.append_nil _).symm

/-- The symbol table. -/
def symtabTable (dynamic : Bool) (syms : List Symbol) : Table where
  must := 1 < syms.length
  new := newSection (symtabName dynamic) (if dynamic then shtDynsym else shtSymtab)
    (if dynamic then shfAlloc else 0) none 0 8
  update := fun s =>
    if syms.length ≤ 1 then maybeUpdateData (List.replicate symSize 0) s
    else maybeUpdateData ((rawSyms syms).flatMap RawSym.bytes)
      { s with
        type := if dynamic then shtDynsym else shtSymtab
        entsize := UInt64.ofNat symSize
        kind := if dynamic then .dynsym else .symtab
        info := UInt32.ofNat (firstGlobal syms) }

/-- The string table of the symbols. -/
def strtabTable (dynamic : Bool) (syms : List Symbol) : Table where
  must := 1 < syms.length
  new := newSection (if dynamic then dotDynstr else dotStrtab) shtStrtab
    (if dynamic then shfAlloc else 0) none 0 1
  update := fun s =>
    if syms.length ≤ 1 then maybeUpdateData [0] s
    else maybeUpdateData (Lib.StringTable.table (syms.tail.map (·.name)))
      { s with
        type := shtStrtab
        entsize := 0
        kind := if dynamic then .dynstr else .strtab }

/-- The bytes of the dynamic entries. -/
def dynamicBytes (entries : List DynEntry) : Bytes :=
  (entries.map fun d => (⟨d.tag, d.val⟩ : RawDyn)).flatMap RawDyn.bytes ++ List.replicate dynSize 0

/-- The dynamic table. -/
def dynamicTable (entries : List DynEntry) : Table where
  must := entries ≠ []
  new := newSection dotDynamic shtDynamic (shfAlloc ||| shfWrite) none 0 8
  update := fun s =>
    if entries = [] then s
    else maybeUpdateData (dynamicBytes entries)
      { s with
        type := shtDynamic
        entsize := UInt64.ofNat dynSize
        kind := .dynamic }

/-- The table of the section names. -/
def shstrtabTable (names : List CString) : Table where
  must := true
  new := newSection dotShstrtab shtStrtab 0 none 0 1
  update := fun s => maybeUpdateData (Lib.StringTable.table names)
    { s with
      kind := .shstrtab
      type := shtStrtab
      entsize := 0 }

/-- A table that sets some fields and writes its bytes. -/
theorem Table.Ok.of_write {buf : Bytes} {f : Section → Section}
    (hupdate : t.update = fun s => maybeUpdateData buf (f s)) (hne : buf ≠ [])
    (hname : ∀ s, (f s).name = s.name) (hkind : ∀ s : Section, s.kind ≠ .rela → (f s).kind ≠ .rela)
    (hf : ∀ s link data size dirty,
      f { f s with link, data, size, dirty } = { f s with link, data, size, dirty })
    (hplace : ∀ s offset addr loadedAlloc dirty, f { s with offset, addr, loadedAlloc, dirty } =
      { f s with offset, addr, loadedAlloc, dirty })
    (hnew : t.new.kind = .normal) (hgen : t.new.name ∈ generatedNames) : t.Ok where
  name s := by rw [hupdate, maybeUpdateData_name, hname]
  kind s hs := by
    rw [hupdate, maybeUpdateData_kind]
    exact hkind s hs
  steady s := by
    rw [hupdate]
    exact steady_maybeUpdateData hne hf s
  cleaner s s' h := by
    have hsame : f s = { f s with
        offset := s.offset, addr := s.addr, loadedAlloc := s.loadedAlloc, dirty := s.dirty } :=
      hplace s _ _ _ _
    have hmoved : f s' = { f s with
        offset := s'.offset
        addr := s'.addr
        loadedAlloc := s'.loadedAlloc
        dirty := s'.dirty } := by
      rw [← hplace, ← h.placed.eq]
    have hcleaner : Cleaner (f s) (f s') := by
      rw [hmoved, hsame]
      exact ⟨⟨rfl⟩, h.dirty⟩
    rw [hupdate]
    exact hcleaner.maybeUpdateData buf
  position s := by
    have hsame : f s = { f s with
        offset := s.offset, addr := s.addr, loadedAlloc := s.loadedAlloc, dirty := s.dirty } :=
      hplace s _ _ _ _
    rw [hupdate, maybeUpdateData_position, hsame]
    rfl
  newKind := by
    rw [hnew]
    decide
  generated := hgen

theorem symtabTable_early (dynamic : Bool) (syms : List Symbol) :
    (symtabTable dynamic syms).Early := by
  have hgen : (symtabTable dynamic syms).new.name ∈ generatedNames := by
    show symtabName dynamic ∈ generatedNames
    cases dynamic <;> decide
  by_cases h : syms.length ≤ 1
  · have hupdate : (symtabTable dynamic syms).update =
        maybeUpdateData (List.replicate symSize 0) := funext fun s => if_pos h
    exact ⟨.of_write (f := id) hupdate (by decide) (fun _ => rfl) (fun _ hs => hs)
      (fun _ _ _ _ _ => rfl) (fun _ _ _ _ _ => rfl) rfl hgen, fun _ _ => ⟨_, by decide, hupdate⟩⟩
  · have hne : (rawSyms syms).flatMap RawSym.bytes ≠ [] := by
      cases syms with
      | nil => exact absurd (Nat.zero_le _) h
      | cons sym ss => exact List.cons_ne_nil _ _
    have hretyped : (if dynamic then SecKind.dynsym else .symtab) ≠ .rela := by
      cases dynamic <;> decide
    have hupdate : (symtabTable dynamic syms).update = _ := funext fun s => if_neg h
    refine ⟨.of_write hupdate hne (fun _ => rfl) (fun _ _ => hretyped) (fun _ _ _ _ _ => rfl)
      (fun _ _ _ _ _ => rfl) rfl hgen, fun s hrela => absurd ?_ hretyped⟩
    rwa [hupdate, maybeUpdateData_kind] at hrela

theorem strtabTable_early (dynamic : Bool) (syms : List Symbol) :
    (strtabTable dynamic syms).Early := by
  have hgen : (strtabTable dynamic syms).new.name ∈ generatedNames := by
    show (if dynamic then dotDynstr else dotStrtab) ∈ generatedNames
    cases dynamic <;> decide
  by_cases h : syms.length ≤ 1
  · have hupdate : (strtabTable dynamic syms).update = maybeUpdateData [0] :=
      funext fun s => if_pos h
    exact ⟨.of_write (f := id) hupdate (by decide) (fun _ => rfl) (fun _ hs => hs)
      (fun _ _ _ _ _ => rfl) (fun _ _ _ _ _ => rfl) rfl hgen, fun _ _ => ⟨_, by decide, hupdate⟩⟩
  · have hretyped : (if dynamic then SecKind.dynstr else .strtab) ≠ .rela := by
      cases dynamic <;> decide
    have hupdate : (strtabTable dynamic syms).update = _ := funext fun s => if_neg h
    refine ⟨.of_write hupdate (List.cons_ne_nil _ _) (fun _ => rfl) (fun _ _ => hretyped)
      (fun _ _ _ _ _ => rfl) (fun _ _ _ _ _ => rfl) rfl hgen, fun s hrela => absurd ?_ hretyped⟩
    rwa [hupdate, maybeUpdateData_kind] at hrela

theorem dynamicTable_late (entries : List DynEntry) : (dynamicTable entries).Late := by
  have hgen : (dynamicTable entries).new.name ∈ generatedNames := by
    show dotDynamic ∈ generatedNames
    decide
  have hlate : (dynamicTable entries).new.name ∈ lateNames := by
    show dotDynamic ∈ lateNames
    decide
  by_cases h : entries = []
  · have hupdate : (dynamicTable entries).update = id := funext fun s => if_pos h
    refine ⟨⟨fun s => ?_, fun s hs => ?_, fun s link => ?_, fun s s' hs => ?_, fun s => ?_, nofun,
      hgen⟩, hlate⟩
    · rw [hupdate]
      rfl
    · rwa [hupdate]
    · rw [hupdate]
      rfl
    · rwa [hupdate]
    · rw [hupdate]
      rfl
  · have hne : dynamicBytes entries ≠ [] := fun hnil => by
      obtain ⟨-, hzeros⟩ := List.append_eq_nil_iff.mp hnil
      revert hzeros
      decide
    exact ⟨.of_write (funext fun s => if_neg h) hne (fun _ => rfl) (fun _ _ => nofun)
      (fun _ _ _ _ _ => rfl) (fun _ _ _ _ _ => rfl) rfl hgen, hlate⟩

theorem shstrtabTable_late (names : List CString) : (shstrtabTable names).Late := by
  have hgen : (shstrtabTable names).new.name ∈ generatedNames := by
    show dotShstrtab ∈ generatedNames
    decide
  have hlate : (shstrtabTable names).new.name ∈ lateNames := by
    show dotShstrtab ∈ lateNames
    decide
  exact ⟨.of_write rfl (List.cons_ne_nil _ _) (fun _ => rfl) (fun _ _ => nofun)
    (fun _ _ _ _ _ => rfl) (fun _ _ _ _ _ => rfl) rfl hgen, hlate⟩

/-! ## Relocation sections -/

/-- The relocation sections written. -/
def eachRela (relocs : List Reloc) (secs : List Section) : List Section :=
  secs.map fun s => if s.kind = .rela then rebuildOneRela relocs s else s

/-- The section of a relocation found or put at the end. -/
def createRela (secs : List Section) (r : Reloc) : List Section :=
  if secs.any (Section.isRelaOf r.targetSection r.dynamic) then secs
  else secs ++ [newRela r.targetSection r.dynamic]

def relaSecs (relocs : List Reloc) (secs : List Section) : List Section :=
  eachRela relocs (relocs.foldl createRela (eachRela relocs secs))

theorem rebuildRelas_sections (b : Binary) :
    (rebuildRelas b).sections = relaSecs b.relocs b.sections := by
  have hcreate : ∀ (b : Binary) (r : Reloc),
      (findOrCreateRela b r).sections = createRela b.sections r := by
    intro b r
    unfold findOrCreateRela createRela
    split <;> rfl
  have hfold : ∀ (relocs : List Reloc) (b : Binary),
      (relocs.foldl findOrCreateRela b).sections = relocs.foldl createRela b.sections := by
    intro relocs
    induction relocs with
    | nil => exact fun _ => rfl
    | cons r relocs ih =>
      intro b
      rw [List.foldl_cons, List.foldl_cons, ih, hcreate]
  have hrelocs : ∀ (relocs : List Reloc) (b : Binary),
      (relocs.foldl findOrCreateRela b).relocs = b.relocs := by
    intro relocs
    induction relocs with
    | nil => exact fun _ => rfl
    | cons r relocs ih =>
      intro b
      rw [List.foldl_cons, ih]
      unfold findOrCreateRela
      split <;> rfl
  show eachRela (b.relocs.foldl findOrCreateRela (rebuildEachRela b)).relocs
    (b.relocs.foldl findOrCreateRela (rebuildEachRela b)).sections = _
  rw [hfold, hrelocs]
  rfl

/-- The bytes of a relocation section. -/
def relaBytes (relocs : List Reloc) (s : Section) : Bytes :=
  (relocsOf relocs s).flatMap fun r => (rawRela r).bytes

theorem isRelaOf_kind {target : CString} {dynamic : Int} (h : s.isRelaOf target dynamic = true) :
    s.kind = .rela := by
  unfold Section.isRelaOf at h
  rw [Bool.and_eq_true, Bool.and_eq_true] at h
  exact of_decide_eq_true h.1.1

theorem relaBytes_congr {relocs : List Reloc} (hd : s'.relaDynamic = s.relaDynamic)
    (ht : s'.relaTarget = s.relaTarget) : relaBytes relocs s' = relaBytes relocs s := by
  unfold relaBytes relocsOf Section.target
  rw [hd, ht]

theorem isRelaOf_congr {target : CString} {dynamic : Int} (hk : s'.kind = s.kind)
    (hd : s'.relaDynamic = s.relaDynamic) (ht : s'.relaTarget = s.relaTarget) :
    s'.isRelaOf target dynamic = s.isRelaOf target dynamic := by
  unfold Section.isRelaOf Section.target
  rw [hk, hd, ht]

/-- The name of a relocation section that the build makes starts with `.r`. -/
theorem relaName_second (target : CString) (dynamic : Int) :
    (relaName target dynamic).chars[1]? = some 114 := by
  unfold relaName
  split
  · decide
  · have hchars : dotRela.chars = [46, 114, 101, 108, 97] := by decide
    rw [CString.ofBytes_chars, hchars]
    rfl

theorem relaName_not_generated (target : CString) (dynamic : Int) :
    relaName target dynamic ∉ generatedNames := by
  have hother : ∀ name ∈ generatedNames, name.chars[1]? ≠ some 114 := by decide
  exact fun h => hother _ h (relaName_second target dynamic)

theorem relaName_not_late (target : CString) (dynamic : Int) :
    relaName target dynamic ∉ lateNames := by
  have hgen : ∀ name ∈ lateNames, name ∈ generatedNames := by decide
  exact fun h => relaName_not_generated target dynamic (hgen _ h)

/-! ## The sections of a build -/

/-- The symbol and string tables. -/
def symbolTables (b : Binary) (secs : List Section) : List Section :=
  let tables := fun dynamic secs =>
    (strtabTable dynamic (b.syms dynamic)).apply ((symtabTable dynamic (b.syms dynamic)).apply secs)
  tables true (tables false secs)

/-- The names of the sections and of the table of them. -/
def shstrtabNames (secs : List Section) : List CString :=
  ((shstrtabTable []).apply secs).map (·.name)

/-- The sections with all tables, for a binary whose symbols are sorted. -/
def built (b : Binary) (secs : List Section) : List Section :=
  let secs := (dynamicTable b.dynamic).apply (relaSecs b.relocs (symbolTables b secs))
  (shstrtabTable (shstrtabNames secs)).apply secs

theorem map_name_apply (ht : t.Ok) (ht' : t'.Ok) (hnew : t'.new = t.new) (hmust : t'.must = t.must)
    (secs : List Section) : (t'.apply secs).map (·.name) = (t.apply secs).map (·.name) := by
  induction secs with
  | nil =>
    unfold Table.apply
    rw [hmust, hnew]
    split
    · exact congrArg (fun name => [name]) ((ht'.name _).trans (ht.name _).symm)
    · rfl
  | cons s ss ih =>
    unfold Table.apply
    rw [hnew]
    split
    · exact congrArg (· :: ss.map (·.name)) ((ht'.name _).trans (ht.name _).symm)
    · exact congrArg (s.name :: ·) ih

theorem map_name_shstrtab (names : List CString) (secs : List Section) :
    ((shstrtabTable names).apply secs).map (·.name) = shstrtabNames secs :=
  map_name_apply (shstrtabTable_late []).toOk (shstrtabTable_late names).toOk rfl rfl secs

theorem rebuildSymtab_sections (b : Binary) (dynamic : Bool) : (rebuildSymtab b dynamic).sections =
    (symtabTable dynamic ((sortSymbolsLocalFirst b dynamic).syms dynamic)).apply b.sections := by
  have hsecs := sort_sections b dynamic
  generalize hsort : sortSymbolsLocalFirst b dynamic = c at hsecs
  unfold rebuildSymtab
  dsimp only
  rw [hsort, ← hsecs]
  by_cases h : (c.syms dynamic).length ≤ 1
  · have hfound := found_sections (symtabTable dynamic (c.syms dynamic)) c
      (decide_eq_false (Nat.not_lt_of_le h))
    have hupdate : (symtabTable dynamic (c.syms dynamic)).update = _ := funext fun s => if_pos h
    rw [hupdate] at hfound
    rw [if_pos h]
    exact hfound
  · have hensured := ensured_sections (symtabTable dynamic (c.syms dynamic)) c
      (decide_eq_true (Nat.lt_of_not_le h)) rfl
    have hupdate : (symtabTable dynamic (c.syms dynamic)).update = _ := funext fun s => if_neg h
    rw [hupdate] at hensured
    rw [if_neg h]
    exact hensured

theorem rebuildStrtab_sections (b : Binary) (dynamic : Bool) : (rebuildStrtab b dynamic).sections =
    (strtabTable dynamic (b.syms dynamic)).apply b.sections := by
  unfold rebuildStrtab
  dsimp only
  by_cases h : (b.syms dynamic).length ≤ 1
  · have hfound := found_sections (strtabTable dynamic (b.syms dynamic)) b
      (decide_eq_false (Nat.not_lt_of_le h))
    have hupdate : (strtabTable dynamic (b.syms dynamic)).update = _ := funext fun s => if_pos h
    rw [hupdate] at hfound
    rw [if_pos h]
    exact hfound
  · have hensured := ensured_sections (strtabTable dynamic (b.syms dynamic)) b
      (decide_eq_true (Nat.lt_of_not_le h)) rfl
    have hupdate : (strtabTable dynamic (b.syms dynamic)).update = _ := funext fun s => if_neg h
    rw [hupdate] at hensured
    rw [if_neg h]
    exact hensured

theorem apply_of_nothing (hmust : t.must = false) (hupdate : t.update = id) (secs : List Section) :
    t.apply secs = secs := by
  induction secs with
  | nil =>
    unfold Table.apply
    rw [hmust]
    rfl
  | cons s ss ih =>
    unfold Table.apply
    rw [ih, hupdate]
    split <;> rfl

theorem rebuildDynamic_sections (b : Binary) :
    (rebuildDynamic b).sections = (dynamicTable b.dynamic).apply b.sections := by
  unfold rebuildDynamic
  by_cases h : b.dynamic = []
  · rw [if_pos h]
    exact (apply_of_nothing (decide_eq_false (not_not_intro h)) (funext fun s => if_pos h) _).symm
  · have hensured := ensured_sections (dynamicTable b.dynamic) b (decide_eq_true h) rfl
    have hupdate : (dynamicTable b.dynamic).update = _ := funext fun s => if_neg h
    rw [hupdate] at hensured
    rw [if_neg h]
    exact hensured

theorem rebuildShstrtab_sections (b : Binary) : (rebuildShstrtab b).sections =
    (shstrtabTable (shstrtabNames b.sections)).apply b.sections := by
  have hnames : (ensureSection b dotShstrtab shtStrtab 0 1).1.sections.map (·.name) =
      shstrtabNames b.sections := by
    have h : ((ensureSection b dotShstrtab shtStrtab 0 1).1.modifySection
        (ensureSection b dotShstrtab shtStrtab 0 1).2 (shstrtabTable []).update).sections =
          (shstrtabTable []).apply b.sections := ensured_sections (shstrtabTable []) b rfl rfl
    unfold shstrtabNames
    rw [← h]
    exact (map_name_modify (shstrtabTable_late []).name _ _).symm
  unfold rebuildShstrtab
  dsimp only
  rw [hnames]
  exact ensured_sections (shstrtabTable (shstrtabNames b.sections)) b rfl rfl

theorem OnlySections.relocs (h : OnlySections b b') : b'.relocs = b.relocs := by
  rw [(h : b' = { b with sections := b'.sections })]

theorem OnlySections.dynamic (h : OnlySections b b') : b'.dynamic = b.dynamic := by
  rw [(h : b' = { b with sections := b'.sections })]

theorem OnlySections.ehdr (h : OnlySections b b') : b'.ehdr = b.ehdr := by
  rw [(h : b' = { b with sections := b'.sections })]

/-- The tables are made from the sorted symbols. -/
theorem withTables_sections (b : Binary) :
    (withTables b).sections = built (sorted b) b.sections := by
  -- the first two tables are made before the dynamic symbols are sorted
  let b₁ := rebuildSymtab b false
  let b₂ := rebuildStrtab b₁ false
  let b₃ := rebuildSymtab b₂ true
  let b₄ := rebuildStrtab b₃ true
  let b₅ := rebuildRelas b₄
  let b₆ := rebuildDynamic b₅
  have h₁ : OnlySections (sortSymbolsLocalFirst b false) b₁ := rebuildSymtab_other b false
  have h₂ : OnlySections (sortSymbolsLocalFirst b false) b₂ :=
    h₁.trans (rebuildStrtab_other _ false)
  have hsort : OnlySections (sorted b) (sortSymbolsLocalFirst b₂ true) := h₂.sort true
  have h₃ : OnlySections (sorted b) b₃ := hsort.trans (rebuildSymtab_other _ true)
  have h₄ : OnlySections (sorted b) b₄ := h₃.trans (rebuildStrtab_other _ true)
  have h₅ : OnlySections (sorted b) b₅ := h₄.trans (rebuildRelas_other _)
  have hfalse : (sortSymbolsLocalFirst b false).syms false = (sorted b).syms false :=
    (sort_syms_other (sortSymbolsLocalFirst b false) true).symm
  show (rebuildShstrtab b₆).sections = _
  rw [rebuildShstrtab_sections, rebuildDynamic_sections, rebuildRelas_sections,
    rebuildStrtab_sections, rebuildSymtab_sections, rebuildStrtab_sections, rebuildSymtab_sections,
    hsort.syms, h₃.syms, h₁.syms, hfalse, h₄.relocs, h₅.dynamic]
  rfl

/-! ## Links -/

/-- The same section with another link, and another info field if it holds relocations. -/
structure Relinked (s s' : Section) : Prop where
  eq : s' = { s with link := s'.link, info := s'.info }
  link : s.kind ≠ .rela → s' = { s with link := s'.link }

theorem Relinked.same_name (h : Relinked s s') : s'.name = s.name := by rw [h.eq]

theorem relinked_resolveLink (b : Binary) (s : Section) : Relinked s (resolveLink b s) := by
  unfold resolveLink
  split
  · exact ⟨rfl, fun _ => rfl⟩
  · exact ⟨rfl, fun _ => rfl⟩
  · rename_i hkind
    exact ⟨rfl, fun h => absurd hkind h⟩
  · exact ⟨rfl, fun _ => rfl⟩

theorem map_name_resolveLink (b : Binary) :
    (resolveLinks b).sections.map (·.name) = b.sections.map (·.name) := by
  show (b.sections.map (resolveLink b)).map (·.name) = _
  rw [List.map_map]
  exact List.map_congr_left fun s _ => (relinked_resolveLink b s).same_name

theorem resolveLink_congr (h : b'.sections.map (·.name) = b.sections.map (·.name)) (s : Section) :
    resolveLink b' s = resolveLink b s := by
  have hindex : ∀ name, sectionIndex b' name = sectionIndex b name := fun name =>
    congrArg (·.getD 0) (getSection_congr h name)
  unfold resolveLink
  rw [hindex, hindex, hindex, hindex]

theorem resolveLink_resolveLink (b : Binary) (s : Section) :
    resolveLink b (resolveLink b s) = resolveLink b s := by
  rcases s with ⟨⟩
  rename_i kind _ _ _ _
  cases kind <;> rfl

end Cup.Elf
