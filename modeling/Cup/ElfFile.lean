/-
  Reading a built file back (`lielf_load_mem` on the bytes of `lielf_build`, `include/lielf.h`).

  The parts of the file of a relocatable object are apart from each other, so each of them is
  read back as it was written: the header, the section headers, the names and the bytes of the
  sections. What is loaded is every section as its header describes it (`loadHeaders_built`).
-/
import Cup.ElfBounds
import Cup.ElfRebuild

namespace Cup.Elf

open Lib.StringTable (CString table offsets)
open Lib.Image (Region Piece read write writeAll)
open Lib.Image.Region (Apart)

/-! ## Objects -/

/-- A relocatable object whose tables are made: what its layout and the reader rely on. -/
structure ObjectFile (r : Binary) : Prop where
  rel : r.isRel = true
  ident : r.ehdr.ident = (lielfNew etRel 0).ehdr.ident
  segments : r.segments = []
  first : r.sections[0]? = some (.zero .empty)
  typed : ∀ s ∈ r.sections.tail, s.type ≠ shtNull
  bytes : ∀ s ∈ r.sections.tail, s.type ≠ shtNobits → 0 < s.size →
    ∃ d, s.data = some d ∧ d.length = s.size.toNat
  noBytes : ∀ s ∈ r.sections.tail, s.type = shtNobits ∨ s.size = 0 → s.data = none
  count : r.sections.length < 2 ^ 16
  names : ∃ k s, getSection r dotShstrtab = some k ∧ r.sections[k]? = some s ∧
    s.type = shtStrtab ∧ s.data = some (table (r.sections.map (·.name))) ∧
    s.size = UInt64.ofNat (table (r.sections.map (·.name))).length
  namesFit : (table (r.sections.map (·.name))).length < 2 ^ 32

/-- A section as the reader makes it from its header, before the classification. -/
def Section.loaded (s : Section) : Section :=
  { s with
    kind := .normal
    loadedAlloc := s.type ≠ shtNull ∧ s.flags &&& shfAlloc ≠ 0
    dirty := false
    relaDynamic := 0
    relaTarget := none }

variable {r : Binary} {s : Section} {file : Bytes}

theorem secClass_object (hrel : r.isRel = true) (htype : s.type ≠ shtNull) :
    secClass r s = .newAlloc ∨ secClass r s = .metadata := by
  unfold secClass
  rw [if_neg htype, hrel]
  split
  · exact .inr rfl
  · exact .inl rfl

/-- A section of the layout is one of the binary with another place. -/
theorem mem_tail_layout (hs : s ∈ (layout r).sections.tail) :
    ∃ t ∈ r.sections.tail, ∃ off addr, s = { t with offset := off, addr } := by
  obtain ⟨i, hi⟩ := List.mem_iff_getElem?.mp hs
  rw [List.getElem?_tail] at hi
  have hlt : i + 1 < r.sections.length := by
    rw [← layout_length r]
    exact (List.getElem?_eq_some_iff.mp hi).1
  have hget := List.getElem?_eq_getElem hlt
  obtain ⟨off, addr, hplaced⟩ := layout_get hget
  refine ⟨r.sections[i + 1], ?_, off, addr, Option.some.inj (hi.symm.trans hplaced)⟩
  exact List.mem_of_getElem? (List.getElem?_tail.trans hget)

namespace ObjectFile

/-- Nothing of an object stays in place. -/
theorem clear (h : ObjectFile r) : Clear r where
  phdrs hstay := absurd h.segments hstay.1
  kept s hs := by
    obtain ⟨hmem, hclass⟩ := List.mem_filter.mp hs
    have hclass := of_decide_eq_true hclass
    rcases secClass_object h.rel (h.typed s hmem) with hc | hc
    · rw [hc] at hclass
      cases hclass
    · rw [hc] at hclass
      cases hclass

theorem nullFree (h : ObjectFile r) : NullFree r := fun s hs hnull => absurd hnull (h.typed s hs)

theorem layoutSegments (h : ObjectFile r) : layoutSegments r = [] := by
  unfold Elf.layoutSegments
  rw [h.rel, h.segments]
  rfl

theorem phnum (h : ObjectFile r) : (layout r).ehdr.phnum = 0 := by
  show UInt16.ofNat (Elf.layoutSegments r).length = 0
  rw [h.layoutSegments]
  rfl

theorem shnum (h : ObjectFile r) : (layout r).ehdr.shnum.toNat = r.sections.length :=
  UInt16.toNat_ofNat_of_lt' h.count

theorem shstrndx (h : ObjectFile r) {k : Nat} (hget : getSection r dotShstrtab = some k) :
    (layout r).ehdr.shstrndx.toNat = k := by
  obtain ⟨s, hs, -⟩ := getSection_eq_some.mp hget
  have hk : k < r.sections.length := (List.getElem?_eq_some_iff.mp hs).1
  show (UInt16.ofNat (sectionIndex r dotShstrtab)).toNat = k
  rw [sectionIndex, hget]
  exact UInt16.toNat_ofNat_of_lt' (Nat.lt_trans hk h.count)

/-- Every section behind the first gets a place. -/
theorem perm_newlyPlaced (h : ObjectFile r) :
    (newlyPlaced r).Perm (layout r).sections.tail := by
  have hclass : ∀ s ∈ (layout r).sections.tail,
      secClass r s = .newAlloc ∨ secClass r s = .metadata := by
    intro s hs
    obtain ⟨t, ht, off, addr, rfl⟩ := mem_tail_layout hs
    exact secClass_object h.rel (h.typed t ht)
  have hother : ofClass r .metadata (layout r).sections.tail =
      (layout r).sections.tail.filter fun s => !decide (secClass r s = .newAlloc) := by
    refine List.filter_congr fun s hs => ?_
    rcases hclass s hs with hc | hc
    · rw [hc]
      rfl
    · rw [hc]
      rfl
  rw [newlyPlaced, hother]
  exact List.filter_append_perm _ _

/-- The parts of the file: the header, the sections and their headers. -/
theorem regions_pairwise (h : ObjectFile r) (hfit : LayoutFits r) :
    (ehdrRegion :: shdrRegion (layout r) ::
      (layout r).sections.tail.map Section.fileRegion).Pairwise Apart := by
  have hplaced := placedRegions_pairwise hfit h.clear
  unfold placedRegions at hplaced
  have hsub : List.Sublist (ehdrRegion :: shdrRegion (layout r) ::
      (newlyPlaced r).map Section.fileRegion) (ehdrRegion :: phdrRegion (layout r) ::
        shdrRegion (layout r) :: (newlyPlaced r).map Section.fileRegion) :=
    ((List.Sublist.refl _).cons (phdrRegion (layout r))).cons_cons ehdrRegion
  have hperm := ((h.perm_newlyPlaced.map Section.fileRegion).cons
    (shdrRegion (layout r))).cons ehdrRegion
  exact (hperm.pairwise_iff Apart.symm).mp (hplaced.sublist hsub)

/-! ## Copies -/

/-- An object has no program headers to copy. -/
theorem pieces_eq (h : ObjectFile r) : pieces (layout r) =
    ⟨0, (layout r).ehdr.bytes⟩ :: ((layout r).sections.tail.filterMap sectionPiece ++
      entryPieces (shdrOff r).toNat shdrSize ((shdrs (layout r).sections).map Shdr.bytes)) := by
  unfold pieces
  rw [h.phnum]
  rfl

/-- The copy of a section header goes to the table of them. -/
theorem shdr_region (hfit : LayoutFits r) {p : Piece UInt8}
    (hp : p ∈ entryPieces (shdrOff r).toNat shdrSize ((shdrs (layout r).sections).map Shdr.bytes)) :
    (shdrRegion (layout r)).off ≤ p.region.off ∧
      p.region.stop ≤ (shdrRegion (layout r)).stop := by
  obtain ⟨hoff, -⟩ := shdrRegion_layout hfit
  obtain ⟨hlo, hhi⟩ := entryPieces_region (fun e he => by
    obtain ⟨sh, -, rfl⟩ := List.mem_map.mp he
    exact Shdr.bytes_length sh) hp
  rw [List.length_map, shdrs_length] at hhi
  exact ⟨hoff ▸ hlo, hhi⟩

/-- No copy goes over another. -/
theorem pieces_pairwise (h : ObjectFile r) (hfit : LayoutFits r) :
    (pieces (layout r)).Pairwise fun p q => p.region.Apart q.region := by
  obtain ⟨hhead, hrest⟩ := List.pairwise_cons.mp (h.regions_pairwise hfit)
  obtain ⟨hshdr, hsecs⟩ := List.pairwise_cons.mp hrest
  rw [List.pairwise_map] at hsecs
  have hehdr : (⟨0, (layout r).ehdr.bytes⟩ : Piece UInt8).region = ehdrRegion :=
    congrArg (Region.mk 0) (Ehdr.bytes_length _)
  rw [h.pieces_eq]
  refine List.pairwise_cons.mpr ⟨fun p hp => ?_, List.pairwise_append.mpr ⟨?_, ?_, ?_⟩⟩
  · rw [hehdr]
    rcases List.mem_append.mp hp with hp | hp
    · obtain ⟨s, hs, hpiece⟩ := List.mem_filterMap.mp hp
      obtain ⟨hlo, hhi, -⟩ := sectionPiece_region hpiece
      have hapart := hhead _ (List.mem_cons_of_mem _ (List.mem_map_of_mem hs))
      exact (hapart.symm.part (Nat.le_of_eq hlo.symm) hhi).symm
    · obtain ⟨hlo, hhi⟩ := shdr_region hfit hp
      exact ((hhead _ List.mem_cons_self).symm.part hlo hhi).symm
  · refine List.pairwise_filterMap.mpr (hsecs.imp fun hapart p hp q hq => ?_)
    obtain ⟨hlo, hhi, -⟩ := sectionPiece_region hp
    obtain ⟨hlo', hhi', -⟩ := sectionPiece_region hq
    exact ((hapart.part (Nat.le_of_eq hlo.symm) hhi).symm.part
      (Nat.le_of_eq hlo'.symm) hhi').symm
  · refine entryPieces_pairwise fun e he => ?_
    obtain ⟨sh, -, rfl⟩ := List.mem_map.mp he
    exact Shdr.bytes_length sh
  · intro p hp q hq
    obtain ⟨s, hs, hpiece⟩ := List.mem_filterMap.mp hp
    obtain ⟨hlo, hhi, -⟩ := sectionPiece_region hpiece
    obtain ⟨hlo', hhi'⟩ := shdr_region hfit hq
    have hapart := hshdr _ (List.mem_map_of_mem hs)
    exact ((hapart.part hlo' hhi').symm.part (Nat.le_of_eq hlo.symm) hhi)

/-- The file of an object is made. -/
theorem exists_file (h : ObjectFile r) (hfit : LayoutFits r) :
    ∃ file, writeAll (List.replicate (totalSize r).toNat 0) (pieces (layout r)) = some file := by
  refine Lib.Image.exists_writeAll fun p hp => ?_
  rw [List.length_replicate]
  exact pieces_inside hfit h.nullFree hp

end ObjectFile

/-! ## What is read back -/

/-- The file of an object. -/
structure FileOf (r : Binary) (file : Bytes) : Prop where
  object : ObjectFile r
  fits : LayoutFits r
  written : writeAll (List.replicate (totalSize r).toNat 0) (pieces (layout r)) = some file

theorem fetch_of_read {buf bs : Bytes} {off n : Nat} (h : read buf off n = some bs) :
    fetch buf off n = .ok bs := by
  rw [fetch, h]

namespace FileOf

theorem length (h : FileOf r file) : file.length = (totalSize r).toNat := by
  rw [Lib.Image.writeAll_length h.written, List.length_replicate]

/-- What was copied is read. -/
theorem read_piece (h : FileOf r file) {p : Piece UInt8} (hp : p ∈ pieces (layout r)) :
    read file p.off p.data.length = some p.data :=
  Lib.Image.read_writeAll h.written (h.object.pieces_pairwise h.fits) hp

theorem read_ehdr (h : FileOf r file) :
    read file 0 ehdrSize = some (layout r).ehdr.bytes := by
  have hread := h.read_piece (p := ⟨0, (layout r).ehdr.bytes⟩) List.mem_cons_self
  dsimp only at hread
  rwa [Ehdr.bytes_length] at hread

/-- The bytes of a section that has some in the file. -/
theorem read_data (h : FileOf r file) (hs : s ∈ (layout r).sections.tail)
    (htype : s.type ≠ shtNobits) (hsize : 0 < s.size) :
    ∃ d, s.data = some d ∧ read file s.offset.toNat s.size.toNat = some d := by
  obtain ⟨t, ht, off, addr, rfl⟩ := mem_tail_layout hs
  obtain ⟨d, hd, hlen⟩ := h.object.bytes t ht htype hsize
  have hpiece : sectionPiece { t with offset := off, addr } = some ⟨off.toNat, d⟩ := by
    have hnot : ¬ (t.type = shtNobits ∨ t.size = 0) := by
      rintro (h | h)
      · exact htype h
      · rw [h] at hsize
        exact UInt64.lt_irrefl 0 hsize
    have htake : d.take t.size.toNat = d := List.take_of_length_le (Nat.le_of_eq hlen)
    have hif : sectionPiece { t with offset := off, addr } =
        t.data.map fun d => ⟨off.toNat, d.take t.size.toNat⟩ := if_neg hnot
    rw [hif, hd, Option.map_some, htake]
  have hmem : (⟨off.toNat, d⟩ : Piece UInt8) ∈ pieces (layout r) := by
    rw [h.object.pieces_eq]
    exact List.mem_cons_of_mem _
      (List.mem_append_left _ (List.mem_filterMap.mpr ⟨_, hs, hpiece⟩))
  have hread := h.read_piece hmem
  dsimp only at hread
  rw [hlen] at hread
  exact ⟨d, hd, hread⟩

theorem take_ehdr (h : FileOf r file) : file.take ehdrSize = (layout r).ehdr.bytes :=
  (Lib.Image.read_eq_some.mp h.read_ehdr).2

theorem ehdrOf_eq (h : FileOf r file) : ehdrOf file = (layout r).ehdr := by
  rw [ehdrOf, h.take_ehdr, Ehdr.ofBytes_bytes]

/-- The file starts as the reader wants it. -/
theorem headerOk_file (h : FileOf r file) : headerOk file = true := by
  have hlen : ehdrSize ≤ file.length := by
    have hfit := (Lib.Image.read_eq_some.mp h.read_ehdr).1
    rwa [Nat.zero_add] at hfit
  have hident : (layout r).ehdr.ident.toList =
      [0x7f, 0x45, 0x4c, 0x46, 2, 1, 1, 0, 0, 0, 0, 0, 0, 0, 0, 0] :=
    congrArg Vector.toList h.object.ident
  have hsplit : file = [0x7f, 0x45, 0x4c, 0x46, 2, 1] ++ file.drop 6 := by
    have htake : file.take 6 = (file.take ehdrSize).take 6 := by
      rw [List.take_take]
      rfl
    rw [h.take_ehdr, Ehdr.bytes_eq, hident] at htake
    rw [← List.take_append_drop 6 file, htake]
    rfl
  unfold headerOk
  rw [decide_eq_true hlen, hsplit]
  rfl

/-! ### Section headers -/

/-- The offset of each name in the table of the names. -/
theorem name_offset {k : Nat} (hs : r.sections[k]? = some s) :
    ∃ o rest, (offsets 1 ((layout r).sections.map (·.name)))[k]? = some o ∧
      (table (r.sections.map (·.name))).drop o = s.name.bytes ++ rest ∧
      o < (table (r.sections.map (·.name))).length := by
  have hname : (r.sections.map (·.name))[k]? = some s.name := by
    rw [List.getElem?_map, hs]
    rfl
  rw [map_name_placed (forall₂_layout r)]
  exact Lib.StringTable.drop_table hname

/-- The header of a section behind the first is read back. -/
theorem fetchShdr_eq (h : FileOf r file) {k o : Nat} (hk : 0 < k)
    (hs : (layout r).sections[k]? = some s)
    (ho : (offsets 1 ((layout r).sections.map (·.name)))[k]? = some o) :
    fetchShdr file (shdrOff r) k = .ok (s.shdr o) := by
  rw [fetchShdr, fetch_of_read (read_shdr h.written hk hs ho)]
  exact congrArg Except.ok (Shdr.ofBytes_bytes _)

/-- The first section header is all zero. -/
theorem fetchShdr_zero (h : FileOf r file) : fetchShdr file (shdrOff r) 0 = .ok .zero := by
  have hne : (layout r).sections.length ≠ 0 := by
    have hlt := (List.getElem?_eq_some_iff.mp h.object.first).1
    rw [layout_length]
    omega
  have hget : (shdrs (layout r).sections)[0]? = some .zero := by
    have hlen := shdrs_length (layout r).sections
    unfold shdrs at hlen ⊢
    split
    · rename_i hnil
      rw [hnil] at hlen
      exact absurd hlen.symm hne
    · rfl
  have hw := h.written
  unfold pieces at hw
  rw [← List.cons_append] at hw
  obtain ⟨mid, -, hlast⟩ := Lib.Image.writeAll_append.mp hw
  have hread : read file (shdrOff r).toNat shdrSize = some Shdr.zero.bytes := by
    have hentry := read_entry (i := 0) (fun e he => by
      obtain ⟨sh, -, rfl⟩ := List.mem_map.mp he
      exact Shdr.bytes_length sh) hlast (by rw [List.getElem?_map, hget]; rfl)
    rwa [Nat.zero_mul, Nat.add_zero] at hentry
  rw [fetchShdr, Nat.zero_mul, Nat.add_zero, fetch_of_read hread]
  exact congrArg Except.ok (Shdr.ofBytes_bytes _)

/-! ### Names and bytes -/

/-- What is read lies in the file, and its end is computed without overflow. -/
theorem end_le (h : FileOf r file) {off size : UInt64} {bs : Bytes}
    (hread : read file off.toNat size.toNat = some bs) :
    off + size ≤ UInt64.ofNat file.length := by
  have hin := (Lib.Image.read_eq_some.mp hread).1
  have hlt : file.length < 2 ^ 64 := by
    rw [h.length]
    exact UInt64.toNat_lt _
  refine UInt64.le_iff_toNat_le.mpr ?_
  rw [UInt64.toNat_add, UInt64.toNat_ofNat_of_lt' hlt, Nat.mod_eq_of_lt (by omega)]
  exact hin

/-- Where the reader finds the names. -/
structure NamesAt (r : Binary) (file : Bytes) (off size : UInt64) : Prop where
  size_eq : size.toNat = (table (r.sections.map (·.name))).length
  read : read file off.toNat size.toNat = some (table (r.sections.map (·.name)))

theorem nameTable_eq (h : FileOf r file) : ∃ off size,
    nameTable file (layout r).ehdr = .ok (some (off, size)) ∧ NamesAt r file off size := by
  obtain ⟨k, s, hget, hs, htype, hdata, hsize⟩ := h.object.names
  have hk : k < r.sections.length := (List.getElem?_eq_some_iff.mp hs).1
  have hpos : 0 < k := by
    refine Nat.pos_of_ne_zero fun hzero => ?_
    obtain ⟨t, ht, hname, -⟩ := getSection_eq_some.mp hget
    rw [hzero, h.object.first] at ht
    rw [← Option.some.inj ht] at hname
    revert hname
    decide
  have hidx := h.object.shstrndx hget
  have hlt : (layout r).ehdr.shstrndx < (layout r).ehdr.shnum := by
    rw [UInt16.lt_iff_toNat_lt, hidx, h.object.shnum]
    exact hk
  -- the section of the names and its bytes
  have hlen : s.size.toNat = (table (r.sections.map (·.name))).length := by
    rw [hsize]
    exact UInt64.toNat_ofNat_of_lt' (Nat.lt_trans h.object.namesFit (by decide))
  have hsizePos : 0 < s.size := by
    rw [UInt64.lt_iff_toNat_lt, hlen]
    exact Nat.succ_pos _
  obtain ⟨off, addr, hplaced⟩ := layout_get hs
  have htail : { s with offset := off, addr } ∈ (layout r).sections.tail := by
    obtain ⟨j, rfl⟩ : ∃ j, k = j + 1 := ⟨k - 1, by omega⟩
    exact List.mem_of_getElem? (List.getElem?_tail.trans hplaced)
  have hnobits : s.type ≠ shtNobits := by
    rw [htype]
    decide
  obtain ⟨d, hd, hread⟩ := h.read_data htail hnobits hsizePos
  obtain rfl : table (r.sections.map (·.name)) = d := Option.some.inj (hdata.symm.trans hd)
  obtain ⟨o, -, ho, -, -⟩ := name_offset hs
  refine ⟨off, s.size, ?_, hlen, hread⟩
  have hfetch : fetchShdr file (layout r).ehdr.shoff (layout r).ehdr.shstrndx.toNat =
      .ok (({ s with offset := off, addr } : Section).shdr o) := by
    rw [hidx]
    exact h.fetchShdr_eq hpos hplaced ho
  have hend := h.end_le hread
  unfold nameTable
  rw [if_pos hlt, hfetch]
  exact congrArg Except.ok (if_pos hend)

/-- A name is read from where its offset says. -/
theorem loadName_eq (h : FileOf r file) {off size : UInt64} (hnames : NamesAt r file off size)
    {o : Nat} {name : CString} {rest : Bytes}
    (hdrop : (table (r.sections.map (·.name))).drop o = name.bytes ++ rest)
    (ho : o < (table (r.sections.map (·.name))).length) :
    loadName file (some (off, size)) (UInt32.ofNat o) = .ok name := by
  have hnat : (UInt32.ofNat o).toNat = o :=
    UInt32.toNat_ofNat_of_lt' (Nat.lt_trans ho h.object.namesFit)
  have hlt : (UInt32.ofNat o).toUInt64 < size := by
    rw [UInt64.lt_iff_toNat_lt, UInt32.toNat_toUInt64, hnat, hnames.size_eq]
    exact ho
  obtain ⟨-, htake⟩ := Lib.Image.read_eq_some.mp hnames.read
  have hsplit : file.drop off.toNat =
      table (r.sections.map (·.name)) ++ (file.drop off.toNat).drop size.toNat := by
    rw [← htake, List.take_append_drop]
  have hread : CString.read (file.drop (off.toNat + o)) = some name := by
    refine CString.read_eq_some.mpr ⟨rest ++ (file.drop off.toNat).drop size.toNat, ?_⟩
    rw [← List.drop_drop, hsplit, List.drop_append_of_le_length (Nat.le_of_lt ho), hdrop,
      List.append_assoc, List.drop_left' (by rw [← hnames.size_eq]) ]
  unfold loadName
  dsimp only
  rw [if_pos hlt, hnat, fetchString, hread]

/-- The bytes of a section are the ones it had. -/
theorem loadData_eq (h : FileOf r file) (hs : s ∈ (layout r).sections.tail) (o : Nat) :
    loadData file (s.shdr o) = .ok s.data := by
  by_cases hbytes : s.type ≠ shtNobits ∧ 0 < s.size
  · obtain ⟨d, hd, hread⟩ := h.read_data hs hbytes.1 hbytes.2
    have hcond : (s.shdr o).type ≠ shtNobits ∧ 0 < (s.shdr o).size ∧
        (s.shdr o).offset + (s.shdr o).size ≤ UInt64.ofNat file.length :=
      ⟨hbytes.1, hbytes.2, h.end_le hread⟩
    have hfetch : fetch file (s.shdr o).offset.toNat (s.shdr o).size.toNat = .ok d :=
      fetch_of_read hread
    rw [loadData, if_pos hcond, hfetch, hd]
    rfl
  · have hnone : s.data = none := by
      obtain ⟨t, ht, off, addr, rfl⟩ := mem_tail_layout hs
      refine h.object.noBytes t ht ?_
      by_cases htype : t.type = shtNobits
      · exact .inl htype
      · refine .inr (by_contra fun hne => hbytes ⟨htype, ?_⟩)
        exact UInt64.pos_iff_ne_zero.mpr hne
    rw [loadData, if_neg fun h => hbytes ⟨h.1, h.2.1⟩, hnone]

theorem loadSection_eq (h : FileOf r file) {off size : UInt64} (hnames : NamesAt r file off size)
    {k o : Nat} (hk : 0 < k) (hs : (layout r).sections[k]? = some s)
    (ho : (offsets 1 ((layout r).sections.map (·.name)))[k]? = some o) :
    loadSection file (some (off, size)) (s.shdr o) = .ok s.loaded := by
  have htail : s ∈ (layout r).sections.tail := by
    obtain ⟨j, rfl⟩ : ∃ j, k = j + 1 := ⟨k - 1, by omega⟩
    exact List.mem_of_getElem? (List.getElem?_tail.trans hs)
  have hlt : k < r.sections.length := by
    rw [← layout_length r]
    exact (List.getElem?_eq_some_iff.mp hs).1
  obtain ⟨off', addr, hplaced⟩ := layout_get (List.getElem?_eq_getElem hlt)
  obtain rfl := Option.some.inj (hs.symm.trans hplaced)
  obtain ⟨o', rest, ho', hdrop, hin⟩ := name_offset (List.getElem?_eq_getElem hlt)
  obtain rfl : o' = o := Option.some.inj (ho'.symm.trans ho)
  have hname := h.loadName_eq hnames hdrop hin
  have hdata := h.loadData_eq htail o'
  unfold loadSection
  rw [hdata]
  show (loadName file (some (off, size)) (UInt32.ofNat o') >>= _) = _
  rw [hname]
  rfl

/-- The header of the first section gives an empty section. -/
theorem loadSection_zero (h : FileOf r file) {off size : UInt64}
    (hnames : NamesAt r file off size) :
    loadSection file (some (off, size)) .zero = .ok (Section.zero .empty) := by
  have hdrop : (table (r.sections.map (·.name))).drop 0 =
      CString.empty.bytes ++ (r.sections.map (·.name)).flatMap CString.bytes := rfl
  have hname : loadName file (some (off, size)) Shdr.zero.name = .ok .empty :=
    h.loadName_eq hnames hdrop (Nat.succ_pos _)
  have hdata : loadData file .zero = .ok none := if_neg fun hcond => by
    exact UInt64.lt_irrefl 0 hcond.2.1
  unfold loadSection
  rw [hname, hdata]
  rfl

theorem layout_first (r : Binary) : (layout r).sections[0]? = r.sections[0]? := by
  show (r.sections.take 1 ++ (placeMeta r).1)[0]? = _
  cases hsecs : r.sections with
  | nil =>
    have hlen : (placeMeta r).1.length = 0 := by
      rw [← layout_tail, List.length_tail, layout_length, hsecs]
      rfl
    rw [List.length_eq_zero_iff.mp hlen]
    rfl
  | cons s ss => rfl

/-- Every section is loaded as its header describes it. -/
theorem loadSections_eq (h : FileOf r file) :
    loadSections file (layout r).ehdr = .ok ((layout r).sections.map Section.loaded) := by
  obtain ⟨off, size, htable, hnames⟩ := h.nameTable_eq
  have hcount : (layout r).ehdr.shnum.toNat = (layout r).sections.length := by
    rw [h.object.shnum, layout_length]
  have hget : (List.range (layout r).ehdr.shnum.toNat).map
      (fun i => ((layout r).sections.getD i (.zero .empty)).loaded) =
        (layout r).sections.map Section.loaded := by
    rw [hcount]
    conv_rhs => rw [← Lib.Reorder.map_getD_range (layout r).sections (.zero .empty), List.map_map]
    rfl
  unfold loadSections
  rw [htable, ← hget]
  refine mapM_eq_ok fun i hi => ?_
  have hlt : i < (layout r).sections.length := hcount ▸ List.mem_range.mp hi
  show (fetchShdr file (shdrOff r) i >>= loadSection file (some (off, size))) = _
  by_cases hzero : i = 0
  · subst hzero
    have hfirst : (layout r).sections.getD 0 (.zero .empty) = .zero .empty := by
      rw [List.getD_eq_getElem?_getD, layout_first, h.object.first]
      rfl
    rw [h.fetchShdr_zero, hfirst]
    exact h.loadSection_zero hnames
  · have hpos := Nat.pos_of_ne_zero hzero
    have hs := List.getElem?_eq_getElem hlt
    have holt : i < (offsets 1 ((layout r).sections.map (·.name))).length := by
      rw [Lib.StringTable.offsets_length, List.length_map]
      exact hlt
    have ho := List.getElem?_eq_getElem holt
    rw [h.fetchShdr_eq hpos hs ho, List.getD_eq_getElem?_getD, hs]
    exact h.loadSection_eq hnames hpos hs ho

/-- The section headers are found and read, and the sections get their kinds. -/
theorem loadHeaders_built (h : FileOf r file) : loadHeaders file (layout r).ehdr =
    .ok (classify (layout r).ehdr ((layout r).sections.map Section.loaded)) := by
  have hlen : file.length < 2 ^ 64 := by
    rw [h.length]
    exact UInt64.toNat_lt _
  have hstop : (shdrOff r).toNat + r.sections.length * shdrSize ≤ file.length := by
    obtain ⟨hoff, hstop⟩ := shdrRegion_layout h.fits
    have hregion : (shdrRegion (layout r)).off + (layout r).sections.length * shdrSize =
        (totalSize r).toNat := hstop
    rw [hoff, layout_length] at hregion
    rw [h.length, hregion]
  have hcond : (layout r).ehdr.shnum ≠ 0 ∧ (layout r).ehdr.shoff +
      UInt64.ofNat ((layout r).ehdr.shnum.toNat * shdrSize) ≤ UInt64.ofNat file.length := by
    refine ⟨fun hzero => ?_, ?_⟩
    · have hcount := h.object.shnum
      rw [hzero] at hcount
      have hlt := (List.getElem?_eq_some_iff.mp h.object.first).1
      exact absurd hcount.symm (Nat.ne_of_gt hlt)
    · have hsize : r.sections.length * shdrSize < 2 ^ 64 := by omega
      have hoff : (layout r).ehdr.shoff = shdrOff r := rfl
      rw [h.object.shnum, hoff, UInt64.le_iff_toNat_le, UInt64.toNat_add,
        UInt64.toNat_ofNat_of_lt' hsize, UInt64.toNat_ofNat_of_lt' hlen,
        Nat.mod_eq_of_lt (by omega)]
      exact hstop
  rw [loadHeaders, if_pos hcond, h.loadSections_eq]
  rfl

theorem loadSegments_eq (h : FileOf r file) : loadSegments file (layout r).ehdr = .ok [] :=
  if_neg fun hcond => hcond.1 h.object.phnum

end FileOf

end Cup.Elf
