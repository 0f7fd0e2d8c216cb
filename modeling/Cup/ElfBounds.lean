/-
  Which files `lielf_load_mem` reads without leaving them.

  `fileSections` is what the section headers of a file say, read without any check. The load
  returns exactly when the sums it compares with the file size do not overflow, the strings it
  copies end, and the entries it counts fit in their table (`FileSafe`).

  Proved: `load_inside`, for every buffer whose size is a `size_t`. The allocations of the load
  are taken to succeed (`ElfLoad`); what a load does when one of them fails is not covered.
-/
import Cup.ElfBuild
import Cup.ElfLoad

namespace Cup.Elf

open Lib.StringTable (CString)

/-! ## Loads that return -/

/-- Nothing is read outside. -/
def Returns {α : Type} (x : Load α) : Prop := ∃ a, x = .ok a

theorem returns_ok {α : Type} (a : α) : Returns (.ok a : Load α) := ⟨a, rfl⟩

theorem returns_iff {α : Type} {x : Load α} : Returns x ↔ x ≠ .error .outOfBounds := by
  cases x with
  | ok a => exact ⟨fun _ h => (by cases h), fun _ => ⟨a, rfl⟩⟩
  | error e =>
    refine ⟨fun ⟨_, h⟩ => (by cases h), fun h => ?_⟩
    cases e
    exact absurd rfl h

theorem not_returns_error {α : Type} (e : LoadError) : ¬ Returns (.error e : Load α) := by
  rintro ⟨a, h⟩
  cases h

section Returns

variable {α β : Type} {x : Load α} {f : α → Load β} {g : α → β} {l : List α}

theorem returns_bind : Returns (x >>= f) ↔ ∃ a, x = .ok a ∧ Returns (f a) := by
  cases x with
  | ok a =>
    constructor
    · exact fun h => ⟨a, rfl, h⟩
    · rintro ⟨b, hb, h⟩
      cases hb
      exact h
  | error e =>
    constructor
    · exact fun h => absurd h (not_returns_error e)
    · rintro ⟨b, hb, -⟩
      cases hb

theorem returns_map : Returns (x.map g) ↔ Returns x := by
  cases x with
  | ok a => exact ⟨fun _ => ⟨a, rfl⟩, fun _ => ⟨g a, rfl⟩⟩
  | error e => exact ⟨fun h => absurd h (not_returns_error e), fun h => absurd h (not_returns_error e)⟩

theorem mapM_cons_eq (a : α) (l : List α) :
    (a :: l).mapM f = f a >>= fun b => l.mapM f >>= fun bs => .ok (b :: bs) := List.mapM_cons

/-- Every element is loaded. -/
theorem mapM_eq_ok (h : ∀ a ∈ l, f a = .ok (g a)) : l.mapM f = .ok (l.map g) := by
  induction l with
  | nil => rfl
  | cons a l ih =>
    rw [mapM_cons_eq, h a List.mem_cons_self, ih fun c hc => h c (List.mem_cons_of_mem _ hc)]
    rfl

theorem returns_mapM : Returns (l.mapM f) ↔ ∀ a ∈ l, Returns (f a) := by
  induction l with
  | nil => exact ⟨fun _ _ h => (by cases h), fun _ => ⟨[], rfl⟩⟩
  | cons a l ih =>
    rw [mapM_cons_eq, returns_bind, List.forall_mem_cons]
    constructor
    · rintro ⟨b, hb, h⟩
      obtain ⟨bs, hbs, -⟩ := returns_bind.mp h
      exact ⟨⟨b, hb⟩, ih.mp ⟨bs, hbs⟩⟩
    · rintro ⟨⟨b, hb⟩, h⟩
      obtain ⟨bs, hbs⟩ := ih.mpr h
      exact ⟨b, hb, returns_bind.mpr ⟨bs, hbs, returns_ok _⟩⟩

/-- A loop whose turns return or not whatever they start from. -/
theorem returns_foldlM {f : β → α → Load β} {P : α → Prop} (h : ∀ b a, Returns (f b a) ↔ P a)
    (b : β) : Returns (l.foldlM f b) ↔ ∀ a ∈ l, P a := by
  induction l generalizing b with
  | nil => exact ⟨fun _ _ h => (by cases h), fun _ => ⟨b, rfl⟩⟩
  | cons a l ih =>
    rw [List.foldlM_cons, returns_bind, List.forall_mem_cons, ← h b a]
    constructor
    · rintro ⟨c, hc, hrest⟩
      exact ⟨⟨c, hc⟩, (ih c).mp hrest⟩
    · rintro ⟨⟨c, hc⟩, hrest⟩
      exact ⟨c, hc, (ih c).mpr hrest⟩

end Returns

theorem fetch_eq {buf : Bytes} {off n : Nat} (h : off + n ≤ buf.length) :
    fetch buf off n = .ok ((buf.drop off).take n) := by
  rw [fetch, Lib.Image.read, if_pos h]

theorem returns_fetch {buf : Bytes} {off n : Nat} :
    Returns (fetch buf off n) ↔ off + n ≤ buf.length := by
  unfold fetch Lib.Image.read
  by_cases h : off + n ≤ buf.length
  · rw [if_pos h]
    exact ⟨fun _ => h, fun _ => ⟨_, rfl⟩⟩
  · rw [if_neg h]
    exact ⟨fun h' => absurd h' (not_returns_error _), fun h' => absurd h' h⟩

theorem fetchString_eq {buf : Bytes} {off : Nat} (h : 0 ∈ buf.drop off) :
    fetchString buf off = .ok (CString.ofBytes (buf.drop off)) := by
  rw [fetchString, CString.read, if_pos h]

theorem returns_fetchString {buf : Bytes} {off : Nat} :
    Returns (fetchString buf off) ↔ 0 ∈ buf.drop off := by
  unfold fetchString CString.read
  by_cases h : 0 ∈ buf.drop off
  · rw [if_pos h]
    exact ⟨fun _ => h, fun _ => ⟨_, rfl⟩⟩
  · rw [if_neg h]
    exact ⟨fun h' => absurd h' (not_returns_error _), fun h' => absurd h' h⟩

/-! ## What the file says -/

/-- The section header `i`. -/
def shdrAt (buf : Bytes) (shoff : UInt64) (i : Nat) : Shdr :=
  Shdr.ofBytes ((buf.drop (shoff.toNat + i * shdrSize)).take shdrSize)

/-- Where the section names are. -/
def nameTab (buf : Bytes) (e : Ehdr) : Option (UInt64 × UInt64) :=
  if e.shstrndx < e.shnum then
    let sh := shdrAt buf e.shoff e.shstrndx.toNat
    if sh.offset + sh.size ≤ UInt64.ofNat buf.length then some (sh.offset, sh.size) else none
  else none

/-- The name of a section. -/
def nameAt (buf : Bytes) (tab : Option (UInt64 × UInt64)) (name : UInt32) : CString :=
  match tab with
  | some (off, sz) =>
    if name.toUInt64 < sz then CString.ofBytes (buf.drop (off.toNat + name.toNat)) else .empty
  | none => .empty

/-- The bytes of a section. -/
def dataAt (buf : Bytes) (sh : Shdr) : Option Bytes :=
  if sh.type ≠ shtNobits ∧ 0 < sh.size ∧ sh.offset + sh.size ≤ UInt64.ofNat buf.length then
    some ((buf.drop sh.offset.toNat).take sh.size.toNat)
  else none

/-- A section as its header says. -/
def sectionAt (buf : Bytes) (tab : Option (UInt64 × UInt64)) (sh : Shdr) : Section where
  name := nameAt buf tab sh.name
  type := sh.type
  flags := sh.flags
  addr := sh.addr
  offset := sh.offset
  size := sh.size
  link := sh.link
  info := sh.info
  addralign := sh.addralign
  entsize := sh.entsize
  data := dataAt buf sh
  kind := .normal
  loadedAlloc := sh.type ≠ shtNull ∧ sh.flags &&& shfAlloc ≠ 0
  dirty := false
  relaDynamic := 0
  relaTarget := none

/-- The sections of a file, with their kinds. -/
def fileSections (buf : Bytes) (e : Ehdr) : List Section :=
  classify e ((List.range e.shnum.toNat).map fun i =>
    sectionAt buf (nameTab buf e) (shdrAt buf e.shoff i))

/-! ## Safe files -/

/-- The name of a section ends, and its offset and size do not overflow to a small sum. -/
structure SectionSafe (buf : Bytes) (tab : Option (UInt64 × UInt64)) (sh : Shdr) : Prop where
  name : ∀ off sz, tab = some (off, sz) → sh.name.toUInt64 < sz →
    0 ∈ buf.drop (off.toNat + sh.name.toNat)
  data : sh.type ≠ shtNobits → 0 < sh.size → sh.offset + sh.size ≤ UInt64.ofNat buf.length →
    sh.offset.toNat + sh.size.toNat < 2 ^ 64

/-- The symbol `j` of a table. -/
def rawSymAt (data : Bytes) (j : Nat) : RawSym :=
  RawSym.ofBytes ((data.drop (j * symSize)).take symSize)

/-- The dynamic entry `j` of a table. -/
def rawDynAt (data : Bytes) (j : Nat) : RawDyn :=
  RawDyn.ofBytes ((data.drop (j * dynSize)).take dynSize)

/-- The entries a table section counts are in its bytes: `entsize` is the size of an entry, or at
least not too small for the count, and the name of a symbol ends in the string section. -/
structure EntriesSafe (secs : List Section) (s : Section) : Prop where
  syms : s.kind = .symtab ∨ s.kind = .dynsym → ∀ data, s.data = some data →
    entryCount s 0 * symSize ≤ data.length ∧
    ∀ j < entryCount s 0, ∀ t strtab, secs[s.link.toNat]? = some t → t.data = some strtab →
      (rawSymAt data j).name.toUInt64 < t.size → 0 ∈ strtab.drop (rawSymAt data j).name.toNat
  relas : s.kind = .rela → ∀ data, s.data = some data →
    entryCount s (s.size / UInt64.ofNat relaSize).toNat * relaSize ≤ data.length
  dyns : s.kind = .dynamic → ∀ data, s.data = some data →
    ∀ j < entryCount s (s.size / UInt64.ofNat dynSize).toNat,
      (∀ i < j, (rawDynAt data i).tag ≠ dtNull) → (j + 1) * dynSize ≤ data.length

/-- The section headers are read. -/
def HeadersRead (buf : Bytes) (e : Ehdr) : Prop :=
  e.shnum ≠ 0 ∧ e.shoff + UInt64.ofNat (e.shnum.toNat * shdrSize) ≤ UInt64.ofNat buf.length

/-- The program headers are read. -/
def SegmentsRead (buf : Bytes) (e : Ehdr) : Prop :=
  e.phnum ≠ 0 ∧ e.phoff + UInt64.ofNat (e.phnum.toNat * phdrSize) ≤ UInt64.ofNat buf.length

/-- What a file has to say to be read without leaving it. -/
structure FileSafe (buf : Bytes) (e : Ehdr) : Prop where
  headers : HeadersRead buf e → e.shoff.toNat + e.shnum.toNat * shdrSize < 2 ^ 64
  sections : HeadersRead buf e → ∀ i < e.shnum.toNat,
    SectionSafe buf (nameTab buf e) (shdrAt buf e.shoff i)
  entries : HeadersRead buf e → ∀ s ∈ fileSections buf e, EntriesSafe (fileSections buf e) s
  segments : SegmentsRead buf e → e.phoff.toNat + e.phnum.toNat * phdrSize < 2 ^ 64

instance {buf : Bytes} {tab : Option (UInt64 × UInt64)} {sh : Shdr} :
    Decidable (SectionSafe buf tab sh) :=
  -- without it the search may run through every pair of 64-bit numbers
  letI : Decidable (∀ t ∈ tab, sh.name.toUInt64 < t.2 →
    0 ∈ buf.drop (t.1.toNat + sh.name.toNat)) := Option.decidableForallMem tab
  decidable_of_iff
    ((∀ t ∈ tab, sh.name.toUInt64 < t.2 → 0 ∈ buf.drop (t.1.toNat + sh.name.toNat)) ∧
      (sh.type ≠ shtNobits → 0 < sh.size → sh.offset + sh.size ≤ UInt64.ofNat buf.length →
        sh.offset.toNat + sh.size.toNat < 2 ^ 64))
    ⟨fun h => ⟨fun off sz => h.1 (off, sz), h.2⟩, fun h => ⟨fun t => h.name t.1 t.2, h.data⟩⟩

set_option synthInstance.maxSize 256 in
instance {secs : List Section} {s : Section} : Decidable (EntriesSafe secs s) :=
  decidable_of_iff
    ((s.kind = .symtab ∨ s.kind = .dynsym → ∀ data ∈ s.data,
      entryCount s 0 * symSize ≤ data.length ∧
      ∀ j < entryCount s 0, ∀ t ∈ secs[s.link.toNat]?, ∀ strtab ∈ t.data,
        (rawSymAt data j).name.toUInt64 < t.size → 0 ∈ strtab.drop (rawSymAt data j).name.toNat) ∧
    (s.kind = .rela → ∀ data ∈ s.data,
      entryCount s (s.size / UInt64.ofNat relaSize).toNat * relaSize ≤ data.length) ∧
    (s.kind = .dynamic → ∀ data ∈ s.data,
      ∀ j < entryCount s (s.size / UInt64.ofNat dynSize).toNat,
        (∀ i < j, (rawDynAt data i).tag ≠ dtNull) → (j + 1) * dynSize ≤ data.length))
    ⟨fun h => ⟨fun hk data hd => ⟨(h.1 hk data hd).1,
        fun j hj t strtab ht => (h.1 hk data hd).2 j hj t ht strtab⟩, h.2.1, h.2.2⟩,
      fun h => ⟨fun hk data hd => ⟨(h.syms hk data hd).1,
        fun j hj t ht strtab => (h.syms hk data hd).2 j hj t strtab ht⟩, h.relas, h.dyns⟩⟩

instance {buf : Bytes} {e : Ehdr} : Decidable (HeadersRead buf e) :=
  inferInstanceAs (Decidable (_ ∧ _))

instance {buf : Bytes} {e : Ehdr} : Decidable (SegmentsRead buf e) :=
  inferInstanceAs (Decidable (_ ∧ _))

instance {buf : Bytes} {e : Ehdr} : Decidable (FileSafe buf e) :=
  decidable_of_iff
    ((HeadersRead buf e → e.shoff.toNat + e.shnum.toNat * shdrSize < 2 ^ 64) ∧
      (HeadersRead buf e → ∀ i < e.shnum.toNat,
        SectionSafe buf (nameTab buf e) (shdrAt buf e.shoff i)) ∧
      (HeadersRead buf e → ∀ s ∈ fileSections buf e, EntriesSafe (fileSections buf e) s) ∧
      (SegmentsRead buf e → e.phoff.toNat + e.phnum.toNat * phdrSize < 2 ^ 64))
    ⟨fun h => ⟨h.1, h.2.1, h.2.2.1, h.2.2.2⟩,
      fun h => ⟨h.headers, h.sections, h.entries, h.segments⟩⟩

/-- The header of a file. -/
def ehdrOf (buf : Bytes) : Ehdr := Ehdr.ofBytes (buf.take ehdrSize)

/-! ## Sections -/

variable {buf : Bytes} {e : Ehdr}

/-- A sum that passes the check against the file size is inside the file, unless it overflows. -/
theorem sum_lt_iff (hlen : buf.length < 2 ^ 64) {off : UInt64} {n : Nat} (hn : n < 2 ^ 64)
    (h : off + UInt64.ofNat n ≤ UInt64.ofNat buf.length) :
    off.toNat + n < 2 ^ 64 ↔ off.toNat + n ≤ buf.length := by
  have hle := UInt64.le_iff_toNat_le.mp h
  rw [UInt64.toNat_add, UInt64.toNat_ofNat_of_lt' hn, UInt64.toNat_ofNat_of_lt' hlen] at hle
  constructor
  · intro hlt
    rwa [Nat.mod_eq_of_lt hlt] at hle
  · omega

theorem returns_fetchShdr {shoff : UInt64} {i : Nat} :
    Returns (fetchShdr buf shoff i) ↔ shoff.toNat + (i + 1) * shdrSize ≤ buf.length := by
  unfold fetchShdr
  rw [returns_map, returns_fetch, Nat.succ_mul, Nat.add_assoc]

theorem fetchShdr_eq {shoff : UInt64} {i : Nat}
    (h : shoff.toNat + (i + 1) * shdrSize ≤ buf.length) :
    fetchShdr buf shoff i = .ok (shdrAt buf shoff i) := by
  rw [Nat.succ_mul, ← Nat.add_assoc] at h
  rw [fetchShdr, fetch_eq h]
  rfl

variable {tab : Option (UInt64 × UInt64)} {sh : Shdr}

theorem loadName_eq {name : UInt32} (h : ∀ off sz, tab = some (off, sz) → name.toUInt64 < sz →
    0 ∈ buf.drop (off.toNat + name.toNat)) :
    loadName buf tab name = .ok (nameAt buf tab name) := by
  unfold loadName nameAt
  cases tab with
  | none => rfl
  | some t =>
    dsimp only
    split
    · rename_i hlt
      exact fetchString_eq (h t.1 t.2 rfl hlt)
    · rfl

theorem returns_loadName {name : UInt32} : Returns (loadName buf tab name) ↔
    ∀ off sz, tab = some (off, sz) → name.toUInt64 < sz →
      0 ∈ buf.drop (off.toNat + name.toNat) := by
  constructor
  · rintro h off sz rfl hlt
    unfold loadName at h
    dsimp only at h
    rw [if_pos hlt] at h
    exact returns_fetchString.mp h
  · exact fun h => ⟨_, loadName_eq h⟩

theorem loadData_eq (hlen : buf.length < 2 ^ 64)
    (h : sh.type ≠ shtNobits → 0 < sh.size → sh.offset + sh.size ≤ UInt64.ofNat buf.length →
      sh.offset.toNat + sh.size.toNat < 2 ^ 64) :
    loadData buf sh = .ok (dataAt buf sh) := by
  unfold loadData dataAt
  split
  · rename_i hc
    have hle : sh.offset + UInt64.ofNat sh.size.toNat ≤ UInt64.ofNat buf.length := by
      rw [UInt64.ofNat_toNat]
      exact hc.2.2
    rw [fetch_eq ((sum_lt_iff hlen sh.size.toNat_lt hle).mp (h hc.1 hc.2.1 hc.2.2))]
    rfl
  · rfl

theorem returns_loadData (hlen : buf.length < 2 ^ 64) : Returns (loadData buf sh) ↔
    (sh.type ≠ shtNobits → 0 < sh.size → sh.offset + sh.size ≤ UInt64.ofNat buf.length →
      sh.offset.toNat + sh.size.toNat < 2 ^ 64) := by
  constructor
  · intro h htype hsize hle
    unfold loadData at h
    rw [if_pos ⟨htype, hsize, hle⟩, returns_map, returns_fetch] at h
    exact Nat.lt_of_le_of_lt h hlen
  · exact fun h => ⟨_, loadData_eq hlen h⟩

theorem loadSection_eq (hlen : buf.length < 2 ^ 64) (h : SectionSafe buf tab sh) :
    loadSection buf tab sh = .ok (sectionAt buf tab sh) := by
  unfold loadSection
  rw [loadName_eq h.name, loadData_eq hlen h.data]
  rfl

theorem returns_loadSection (hlen : buf.length < 2 ^ 64) :
    Returns (loadSection buf tab sh) ↔ SectionSafe buf tab sh := by
  constructor
  · intro h
    unfold loadSection at h
    obtain ⟨name, hname, hrest⟩ := returns_bind.mp h
    obtain ⟨data, hdata, -⟩ := returns_bind.mp hrest
    exact ⟨returns_loadName.mp ⟨name, hname⟩, (returns_loadData hlen).mp ⟨data, hdata⟩⟩
  · exact fun h => ⟨_, loadSection_eq hlen h⟩

/-- The table of the section headers is in the file. -/
theorem nameTable_eq (h : e.shoff.toNat + e.shnum.toNat * shdrSize ≤ buf.length) :
    nameTable buf e = .ok (nameTab buf e) := by
  unfold nameTable nameTab
  split
  · rename_i hlt
    have hidx : (e.shstrndx.toNat + 1) * shdrSize ≤ e.shnum.toNat * shdrSize :=
      Nat.mul_le_mul_right _ (UInt16.lt_iff_toNat_lt.mp hlt)
    rw [fetchShdr_eq (Nat.le_trans (Nat.add_le_add_left hidx _) h)]
    rfl
  · rfl

theorem loadSections_eq (hlen : buf.length < 2 ^ 64)
    (hin : e.shoff.toNat + e.shnum.toNat * shdrSize ≤ buf.length)
    (h : ∀ i < e.shnum.toNat, SectionSafe buf (nameTab buf e) (shdrAt buf e.shoff i)) :
    loadSections buf e = .ok ((List.range e.shnum.toNat).map fun i =>
      sectionAt buf (nameTab buf e) (shdrAt buf e.shoff i)) := by
  unfold loadSections
  rw [nameTable_eq hin]
  refine mapM_eq_ok fun i hi => ?_
  have hlt := List.mem_range.mp hi
  have hidx : (i + 1) * shdrSize ≤ e.shnum.toNat * shdrSize := Nat.mul_le_mul_right _ hlt
  rw [fetchShdr_eq (Nat.le_trans (Nat.add_le_add_left hidx _) hin)]
  exact loadSection_eq hlen (h i hlt)

theorem returns_loadSections (hlen : buf.length < 2 ^ 64) (hne : e.shnum ≠ 0) :
    Returns (loadSections buf e) ↔ e.shoff.toNat + e.shnum.toNat * shdrSize ≤ buf.length ∧
      ∀ i < e.shnum.toNat, SectionSafe buf (nameTab buf e) (shdrAt buf e.shoff i) := by
  constructor
  · intro h
    obtain ⟨tab, htab, hmap⟩ := returns_bind.mp h
    have hall := returns_mapM.mp hmap
    have hpos : 0 < e.shnum.toNat := Nat.pos_of_ne_zero fun h0 => hne (UInt16.toNat_inj.mp h0)
    -- the last header is read, so the whole table is in the file
    have hin : e.shoff.toNat + e.shnum.toNat * shdrSize ≤ buf.length := by
      obtain ⟨sh, hsh, -⟩ := returns_bind.mp (hall (e.shnum.toNat - 1) (List.mem_range.mpr (by omega)))
      have hlast := returns_fetchShdr.mp ⟨sh, hsh⟩
      rwa [Nat.sub_add_cancel hpos] at hlast
    refine ⟨hin, fun i hi => ?_⟩
    obtain ⟨sh, hsh, hsec⟩ := returns_bind.mp (hall i (List.mem_range.mpr hi))
    have hidx : (i + 1) * shdrSize ≤ e.shnum.toNat * shdrSize := Nat.mul_le_mul_right _ hi
    rw [fetchShdr_eq (Nat.le_trans (Nat.add_le_add_left hidx _) hin)] at hsh
    rw [nameTable_eq hin] at htab
    cases hsh
    cases htab
    exact (returns_loadSection hlen).mp hsec
  · exact fun h => ⟨_, loadSections_eq hlen h.1 h.2⟩

theorem loadHeaders_of (h : HeadersRead buf e) :
    loadHeaders buf e = loadSections buf e >>= fun secs => .ok (classify e secs) := if_pos h

theorem loadHeaders_of_not (h : ¬ HeadersRead buf e) : loadHeaders buf e = .ok [] := if_neg h

theorem returns_loadHeaders (hlen : buf.length < 2 ^ 64) :
    Returns (loadHeaders buf e) ↔
      (HeadersRead buf e → e.shoff.toNat + e.shnum.toNat * shdrSize ≤ buf.length ∧
        ∀ i < e.shnum.toNat, SectionSafe buf (nameTab buf e) (shdrAt buf e.shoff i)) := by
  by_cases h : HeadersRead buf e
  · rw [loadHeaders_of h, returns_bind]
    constructor
    · rintro ⟨secs, hsecs, -⟩ -
      exact (returns_loadSections hlen h.1).mp ⟨secs, hsecs⟩
    · intro hsafe
      obtain ⟨secs, hsecs⟩ := (returns_loadSections hlen h.1).mpr (hsafe h)
      exact ⟨secs, hsecs, returns_ok _⟩
  · rw [loadHeaders_of_not h]
    exact ⟨fun _ h' => absurd h' h, fun _ => returns_ok _⟩

theorem loadHeaders_eq (hlen : buf.length < 2 ^ 64) (h : HeadersRead buf e)
    (hin : e.shoff.toNat + e.shnum.toNat * shdrSize ≤ buf.length)
    (hsafe : ∀ i < e.shnum.toNat, SectionSafe buf (nameTab buf e) (shdrAt buf e.shoff i)) :
    loadHeaders buf e = .ok (fileSections buf e) := by
  rw [loadHeaders_of h, loadSections_eq hlen hin hsafe]
  rfl

/-! ## Entries -/

variable {secs : List Section} {s : Section} {data : Bytes}

theorem returns_loadSymName {name : UInt32} : Returns (loadSymName secs s name) ↔
    ∀ t strtab, secs[s.link.toNat]? = some t → t.data = some strtab → name.toUInt64 < t.size →
      0 ∈ strtab.drop name.toNat := by
  unfold loadSymName
  cases ht : secs[s.link.toNat]? with
  | none => exact ⟨fun _ _ _ h => (by cases h), fun _ => returns_ok _⟩
  | some t =>
    dsimp only
    cases hd : t.data with
    | none =>
      refine ⟨fun _ t' strtab ht' hd' => ?_, fun _ => returns_ok _⟩
      obtain rfl := Option.some.inj ht'
      rw [hd] at hd'
      cases hd'
    | some strtab =>
      dsimp only
      constructor
      · intro h t' strtab' ht' hd' hlt
        obtain rfl := Option.some.inj ht'
        rw [hd] at hd'
        obtain rfl := Option.some.inj hd'
        rw [if_pos hlt] at h
        exact returns_fetchString.mp h
      · intro h
        split
        · rename_i hlt
          exact returns_fetchString.mpr (h t strtab rfl hd hlt)
        · exact returns_ok _

theorem returns_loadSymbol {j : Nat} : Returns (loadSymbol secs s data j) ↔
    (j + 1) * symSize ≤ data.length ∧ ∀ t strtab, secs[s.link.toNat]? = some t →
      t.data = some strtab → (rawSymAt data j).name.toUInt64 < t.size →
        0 ∈ strtab.drop (rawSymAt data j).name.toNat := by
  unfold loadSymbol
  rw [returns_bind, Nat.succ_mul]
  constructor
  · rintro ⟨bs, hbs, hrest⟩
    have hin := returns_fetch.mp ⟨bs, hbs⟩
    rw [fetch_eq hin] at hbs
    cases hbs
    obtain ⟨name, hname, -⟩ := returns_bind.mp hrest
    exact ⟨hin, returns_loadSymName.mp ⟨name, hname⟩⟩
  · rintro ⟨hin, hsafe⟩
    refine ⟨_, fetch_eq hin, returns_bind.mpr ?_⟩
    obtain ⟨name, hname⟩ := returns_loadSymName.mpr hsafe
    exact ⟨name, hname, returns_ok _⟩

/-- Entries of one size are all in the bytes if the last one is. -/
theorem entries_iff {n size len : Nat} :
    (∀ j < n, (j + 1) * size ≤ len) ↔ n * size ≤ len := by
  constructor
  · intro h
    cases n with
    | zero => rw [Nat.zero_mul]; exact Nat.zero_le _
    | succ n => exact h n (Nat.lt_succ_self n)
  · exact fun h j hj => Nat.le_trans (Nat.mul_le_mul_right size hj) h

theorem returns_loadSymbols : Returns (loadSymbols secs s) ↔ ∀ data, s.data = some data →
    entryCount s 0 * symSize ≤ data.length ∧
    ∀ j < entryCount s 0, ∀ t strtab, secs[s.link.toNat]? = some t → t.data = some strtab →
      (rawSymAt data j).name.toUInt64 < t.size →
        0 ∈ strtab.drop (rawSymAt data j).name.toNat := by
  unfold loadSymbols
  cases hd : s.data with
  | none => exact ⟨fun _ _ h => (by cases h), fun _ => returns_ok _⟩
  | some data =>
    dsimp only
    rw [returns_mapM]
    constructor
    · rintro h data' hdata'
      obtain rfl := Option.some.inj hdata'
      have hall : ∀ j < entryCount s 0, _ := fun j hj =>
        returns_loadSymbol.mp (h j (List.mem_range.mpr hj))
      exact ⟨entries_iff.mp fun j hj => (hall j hj).1, fun j hj => (hall j hj).2⟩
    · intro h j hj
      have hlt := List.mem_range.mp hj
      obtain ⟨hin, hnames⟩ := h data rfl
      exact returns_loadSymbol.mpr ⟨entries_iff.mpr hin j hlt, hnames j hlt⟩

theorem returns_loadReloc {j : Nat} :
    Returns (loadReloc s data j) ↔ (j + 1) * relaSize ≤ data.length := by
  unfold loadReloc
  rw [returns_bind, Nat.succ_mul, ← returns_fetch]
  exact ⟨fun ⟨bs, hbs, _⟩ => ⟨bs, hbs⟩, fun ⟨bs, hbs⟩ => ⟨bs, hbs, returns_ok _⟩⟩

theorem returns_loadRelocs : Returns (loadRelocs s) ↔ ∀ data, s.data = some data →
    entryCount s (s.size / UInt64.ofNat relaSize).toNat * relaSize ≤ data.length := by
  unfold loadRelocs
  cases hd : s.data with
  | none => exact ⟨fun _ _ h => (by cases h), fun _ => returns_ok _⟩
  | some data =>
    dsimp only
    rw [returns_mapM]
    constructor
    · rintro h data' hdata'
      obtain rfl := Option.some.inj hdata'
      exact entries_iff.mp fun j hj => returns_loadReloc.mp (h j (List.mem_range.mpr hj))
    · intro h j hj
      exact returns_loadReloc.mpr (entries_iff.mpr (h data rfl) j (List.mem_range.mp hj))

/-- The entries up to the first `DT_NULL` are in the bytes. -/
theorem returns_loadDynamic {k j : Nat} : Returns (loadDynamic data k j) ↔
    ∀ i < k, (∀ m < i, (rawDynAt data (j + m)).tag ≠ dtNull) →
      (j + i + 1) * dynSize ≤ data.length := by
  induction k generalizing j with
  | zero => exact ⟨fun _ i hi => absurd hi (Nat.not_lt_zero i), fun _ => returns_ok _⟩
  | succ k ih =>
    unfold loadDynamic
    rw [returns_bind]
    constructor
    · rintro ⟨bs, hbs, hrest⟩ i hi htags
      have hin := returns_fetch.mp ⟨bs, hbs⟩
      rw [fetch_eq hin] at hbs
      cases hbs
      cases i with
      | zero =>
        rw [Nat.succ_mul]
        exact hin
      | succ i =>
        have htag : (rawDynAt data j).tag ≠ dtNull := htags 0 (Nat.succ_pos i)
        have hnot : ¬ (RawDyn.ofBytes ((data.drop (j * dynSize)).take dynSize)).tag = dtNull := htag
        dsimp only at hrest
        rw [if_neg hnot] at hrest
        obtain ⟨rest, hload, -⟩ := returns_bind.mp hrest
        have hnext := ih.mp ⟨rest, hload⟩ i (Nat.lt_of_succ_lt_succ hi) fun m hm => by
          have h := htags (m + 1) (Nat.succ_lt_succ hm)
          rwa [← Nat.add_assoc, Nat.add_right_comm] at h
        rwa [Nat.add_right_comm j 1 i] at hnext
    · intro h
      have hfirst := h 0 (Nat.succ_pos k) fun m hm => absurd hm (Nat.not_lt_zero m)
      rw [Nat.add_zero, Nat.succ_mul] at hfirst
      refine ⟨_, fetch_eq hfirst, ?_⟩
      dsimp only
      split
      · exact returns_ok _
      · rename_i htag
        have htag' : (rawDynAt data j).tag ≠ dtNull := htag
        rw [returns_bind]
        obtain ⟨rest, hload⟩ := (ih (j := j + 1)).mpr fun i hi htags => by
          have hnext := h (i + 1) (Nat.succ_lt_succ hi) fun m hm => by
            cases m with
            | zero => exact htag'
            | succ m =>
              have htm := htags m (Nat.lt_of_succ_lt_succ hm)
              rwa [Nat.add_right_comm, Nat.add_assoc] at htm
          rwa [← Nat.add_assoc, Nat.add_right_comm j i 1] at hnext
        exact ⟨rest, hload, returns_ok _⟩

theorem returns_loadTable (b : Binary) :
    Returns (loadTable secs b s) ↔ EntriesSafe secs s := by
  unfold loadTable
  cases hk : s.kind with
  | symtab =>
    dsimp only
    rw [returns_bind]
    constructor
    · rintro ⟨syms, hsyms, -⟩
      have hsafe := returns_loadSymbols.mp ⟨syms, hsyms⟩
      exact ⟨fun _ => hsafe, fun h => (by rw [hk] at h; cases h),
        fun h => (by rw [hk] at h; cases h)⟩
    · intro h
      obtain ⟨syms, hsyms⟩ := returns_loadSymbols.mpr (h.syms (.inl hk))
      exact ⟨syms, hsyms, returns_ok _⟩
  | dynsym =>
    dsimp only
    rw [returns_bind]
    constructor
    · rintro ⟨syms, hsyms, -⟩
      have hsafe := returns_loadSymbols.mp ⟨syms, hsyms⟩
      exact ⟨fun _ => hsafe, fun h => (by rw [hk] at h; cases h),
        fun h => (by rw [hk] at h; cases h)⟩
    · intro h
      obtain ⟨syms, hsyms⟩ := returns_loadSymbols.mpr (h.syms (.inr hk))
      exact ⟨syms, hsyms, returns_ok _⟩
  | rela =>
    dsimp only
    rw [returns_bind]
    constructor
    · rintro ⟨relocs, hrelocs, -⟩
      have hsafe := returns_loadRelocs.mp ⟨relocs, hrelocs⟩
      exact ⟨fun h => (by rw [hk] at h; rcases h with h | h <;> cases h), fun _ => hsafe,
        fun h => (by rw [hk] at h; cases h)⟩
    · intro h
      obtain ⟨relocs, hrelocs⟩ := returns_loadRelocs.mpr (h.relas hk)
      exact ⟨relocs, hrelocs, returns_ok _⟩
  | dynamic =>
    dsimp only
    cases hd : s.data with
    | none =>
      refine ⟨fun _ => ⟨fun h => (by rw [hk] at h; rcases h with h | h <;> cases h),
        fun h => (by rw [hk] at h; cases h), fun _ data h => ?_⟩, fun _ => returns_ok _⟩
      rw [hd] at h
      cases h
    | some data =>
      dsimp only
      rw [returns_bind]
      constructor
      · rintro ⟨entries, hentries, -⟩
        refine ⟨fun h => (by rw [hk] at h; rcases h with h | h <;> cases h),
          fun h => (by rw [hk] at h; cases h), fun _ data' h j hj htags => ?_⟩
        rw [hd] at h
        obtain rfl := Option.some.inj h
        have hin := returns_loadDynamic.mp ⟨entries, hentries⟩ j hj fun m hm => by
          rw [Nat.zero_add]
          exact htags m hm
        rwa [Nat.zero_add] at hin
      · intro h
        obtain ⟨entries, hentries⟩ := (returns_loadDynamic (j := 0)).mpr fun j hj htags => by
          have hin := h.dyns hk data hd j hj fun m hm => by
            have htm := htags m hm
            rwa [Nat.zero_add] at htm
          rwa [Nat.zero_add]
        exact ⟨entries, hentries, returns_ok _⟩
  | normal | shstrtab | strtab | dynstr =>
    exact ⟨fun _ => ⟨fun h => (by rw [hk] at h; rcases h with h | h <;> cases h),
      fun h => (by rw [hk] at h; cases h), fun h => (by rw [hk] at h; cases h)⟩,
      fun _ => returns_ok _⟩

/-! ## Segments and the whole load -/

theorem loadSegments_of (h : SegmentsRead buf e) : loadSegments buf e =
    (List.range e.phnum.toNat).mapM fun i =>
      (fetch buf (e.phoff.toNat + i * phdrSize) phdrSize).map fun bs =>
        Segment.ofPhdr (Phdr.ofBytes bs) := if_pos h

theorem loadSegments_of_not (h : ¬ SegmentsRead buf e) : loadSegments buf e = .ok [] := if_neg h

theorem returns_loadSegments :
    Returns (loadSegments buf e) ↔
      (SegmentsRead buf e → e.phoff.toNat + e.phnum.toNat * phdrSize ≤ buf.length) := by
  by_cases h : SegmentsRead buf e
  · rw [loadSegments_of h, returns_mapM]
    have hpos : 0 < e.phnum.toNat := Nat.pos_of_ne_zero fun h0 => h.1 (UInt16.toNat_inj.mp h0)
    constructor
    · intro hall _
      have hlast := hall (e.phnum.toNat - 1) (List.mem_range.mpr (by omega))
      rw [returns_map, returns_fetch, Nat.add_assoc, ← Nat.succ_mul, Nat.succ_eq_add_one,
        Nat.sub_add_cancel hpos] at hlast
      exact hlast
    · intro hin i hi
      have hidx : (i + 1) * phdrSize ≤ e.phnum.toNat * phdrSize :=
        Nat.mul_le_mul_right _ (List.mem_range.mp hi)
      rw [returns_map, returns_fetch, Nat.add_assoc, ← Nat.succ_mul]
      exact Nat.le_trans (Nat.add_le_add_left hidx _) (hin h)
  · rw [loadSegments_of_not h]
    exact ⟨fun _ h' => absurd h' h, fun _ => returns_ok _⟩

/-- The loop over the sections that reads the tables. -/
theorem returns_loadTables (b : Binary) :
    Returns (secs.foldlM (loadTable secs) b) ↔ ∀ s ∈ secs, EntriesSafe secs s := by
  have hturn : ∀ b s, Returns (loadTable secs b s) ↔ EntriesSafe secs s := fun b s =>
    returns_loadTable b
  exact returns_foldlM hturn b

/-- The binary the tables are read into. -/
def emptyBinary (e : Ehdr) (secs : List Section) : Binary where
  ehdr := e
  sections := secs
  segments := []
  symbols := []
  dynsymbols := []
  relocs := []
  dynamic := []
  baseVaddr := if e.type = etExec then defaultBaseExec else defaultBaseDyn

/-- The load behind the first checks, step by step. -/
theorem loadMem_eq (h : headerOk buf = true) : loadMem buf =
    loadHeaders buf (ehdrOf buf) >>= fun secs =>
      secs.foldlM (loadTable secs) (emptyBinary (ehdrOf buf) secs) >>= fun b =>
        loadSegments buf (ehdrOf buf) >>= fun segments =>
          .ok (some { b with
            symbols := ensureNullSym b.symbols
            dynsymbols := ensureNullSym b.dynsymbols
            segments }) := if_pos h

theorem loadMem_of_not (h : headerOk buf = false) : loadMem buf = .ok none :=
  if_neg (by rw [h]; exact Bool.false_ne_true)

theorem returns_loadMem (hlen : buf.length < 2 ^ 64) (h : headerOk buf = true) :
    Returns (loadMem buf) ↔ FileSafe buf (ehdrOf buf) := by
  rw [loadMem_eq h, returns_bind]
  constructor
  · rintro ⟨secs, hsecs, hrest⟩
    obtain ⟨b, hb, hsegs⟩ := returns_bind.mp hrest
    obtain ⟨segs, hsegs, -⟩ := returns_bind.mp hsegs
    have hheaders := (returns_loadHeaders hlen).mp ⟨secs, hsecs⟩
    have htables := (returns_loadTables _).mp ⟨b, hb⟩
    refine ⟨fun hr => Nat.lt_of_le_of_lt (hheaders hr).1 hlen, fun hr => (hheaders hr).2,
      fun hr => ?_, fun hr => Nat.lt_of_le_of_lt (returns_loadSegments.mp ⟨segs, hsegs⟩ hr) hlen⟩
    rw [loadHeaders_eq hlen hr (hheaders hr).1 (hheaders hr).2] at hsecs
    cases hsecs
    exact htables
  · intro hsafe
    have hsegs : Returns (loadSegments buf (ehdrOf buf)) := returns_loadSegments.mpr fun hr =>
      (sum_lt_iff hlen (by have h := (ehdrOf buf).phnum.toNat_lt; unfold phdrSize; omega) hr.2).mp
        (hsafe.segments hr)
    obtain ⟨segs, hsegs⟩ := hsegs
    by_cases hr : HeadersRead buf (ehdrOf buf)
    · have hin := (sum_lt_iff hlen
        (by have h := (ehdrOf buf).shnum.toNat_lt; unfold shdrSize; omega) hr.2).mp
        (hsafe.headers hr)
      obtain ⟨b, hb⟩ := (returns_loadTables
        (emptyBinary (ehdrOf buf) (fileSections buf (ehdrOf buf)))).mpr (hsafe.entries hr)
      exact ⟨_, loadHeaders_eq hlen hr hin (hsafe.sections hr),
        returns_bind.mpr ⟨b, hb, returns_bind.mpr ⟨segs, hsegs, returns_ok _⟩⟩⟩
    · exact ⟨_, loadHeaders_of_not hr,
        returns_bind.mpr ⟨_, rfl, returns_bind.mpr ⟨segs, hsegs, returns_ok _⟩⟩⟩

/-- A load reads inside the file, and inside the bytes it copied, exactly if the file is refused
at once or is safe. -/
theorem load_inside (hlen : buf.length < 2 ^ 64) : loadMem buf ≠ .error .outOfBounds ↔
    (headerOk buf = true → FileSafe buf (ehdrOf buf)) := by
  cases h : headerOk buf with
  | false =>
    rw [loadMem_of_not h]
    exact ⟨fun _ h' => (by cases h'), fun _ h' => (by cases h')⟩
  | true =>
    rw [← returns_iff, returns_loadMem hlen h]
    exact ⟨fun hsafe _ => hsafe, fun hsafe => hsafe rfl⟩

/-- Code, a space of zeros and a relocation of the code, with a global symbol before a local. -/
def sampleLoaded : Binary :=
  let text := addSection (lielfNew etRel 62) (literal ['t']) shtProgbits 6
    (some fun i => UInt8.ofNat i) 12 16
  let bss := addSection text (literal ['b']) shtNobits 3 none 64 8
  let main := addSymbol bss (literal ['g']) 4 8 0x12 1 0
  let helper := addSymbol main (literal ['l']) 0 4 0x02 1 0
  addReloc (setEntry helper 4) (literal ['t']) 5 1 4 (-4) 0

/-- Its file. -/
def sampleFile : Bytes := ((lielfBuild sampleLoaded).map Prod.fst).getD []

theorem load_inside_sampleFile :
    headerOk sampleFile = true ∧ loadMem sampleFile ≠ .error .outOfBounds :=
  ⟨by decide +kernel, (load_inside (by decide +kernel)).mpr fun _ => by decide +kernel⟩

/-- An ELF header alone, with one section header that is said to be 64 bytes before the file. -/
def wrapFile : Bytes :=
  ({ (lielfNew etRel 62).ehdr with shoff := 0xffffffffffffffc0, shnum := 1 } : Ehdr).bytes

/-- The check against the file size overflows, and the header is read from before the file. -/
theorem load_outside : loadMem wrapFile = .error .outOfBounds := by decide +kernel

end Cup.Elf
