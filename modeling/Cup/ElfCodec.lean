/-
  The raw structures of an ELF file and their bytes: what is written is read back. A structure is
  its fields in order, so each field is found at its offset by computation. An entry of a header
  table is read back from where its table is.
-/
import Cup.ElfLayout

namespace Cup.Elf

open Lib.X64 (leBytes ofLe ofLe_leBytes)
open Lib.Image (Piece Region read write writeAll)

/-! ## Fields -/

theorem ofLe_le16 (v : UInt16) : UInt16.ofNat (ofLe (le16 v)) = v := by
  have hlt : v.toNat < 256 ^ 2 := v.toNat_lt
  rw [le16, ofLe_leBytes, Nat.mod_eq_of_lt hlt, UInt16.ofNat_toNat]

theorem ofLe_le32 (v : UInt32) : UInt32.ofNat (ofLe (le32 v)) = v := by
  have hlt : v.toNat < 256 ^ 4 := v.toNat_lt
  rw [le32, ofLe_leBytes, Nat.mod_eq_of_lt hlt, UInt32.ofNat_toNat]

theorem ofLe_le64 (v : UInt64) : UInt64.ofNat (ofLe (le64 v)) = v := by
  have hlt : v.toNat < 256 ^ 8 := v.toNat_lt
  rw [le64, ofLe_leBytes, Nat.mod_eq_of_lt hlt, UInt64.ofNat_toNat]

theorem ofLe_singleton (v : UInt8) : UInt8.ofNat (ofLe [v]) = v := by
  show UInt8.ofNat (v.toNat + 256 * 0) = v
  rw [Nat.mul_zero, Nat.add_zero, UInt8.ofNat_toNat]

/-! ## Structures -/

theorem Shdr.ofBytes_bytes (h : Shdr) : Shdr.ofBytes h.bytes = h := by
  have hname : u32At h.bytes 0 = h.name := ofLe_le32 h.name
  have htype : u32At h.bytes 4 = h.type := ofLe_le32 h.type
  have hflags : u64At h.bytes 8 = h.flags := ofLe_le64 h.flags
  have haddr : u64At h.bytes 16 = h.addr := ofLe_le64 h.addr
  have hoffset : u64At h.bytes 24 = h.offset := ofLe_le64 h.offset
  have hsize : u64At h.bytes 32 = h.size := ofLe_le64 h.size
  have hlink : u32At h.bytes 40 = h.link := ofLe_le32 h.link
  have hinfo : u32At h.bytes 44 = h.info := ofLe_le32 h.info
  have haddralign : u64At h.bytes 48 = h.addralign := ofLe_le64 h.addralign
  have hentsize : u64At h.bytes 56 = h.entsize := ofLe_le64 h.entsize
  rw [Shdr.ofBytes, hname, htype, hflags, haddr, hoffset, hsize, hlink, hinfo, haddralign,
    hentsize]

theorem Phdr.ofBytes_bytes (h : Phdr) : Phdr.ofBytes h.bytes = h := by
  have htype : u32At h.bytes 0 = h.type := ofLe_le32 h.type
  have hflags : u32At h.bytes 4 = h.flags := ofLe_le32 h.flags
  have hoffset : u64At h.bytes 8 = h.offset := ofLe_le64 h.offset
  have hvaddr : u64At h.bytes 16 = h.vaddr := ofLe_le64 h.vaddr
  have hpaddr : u64At h.bytes 24 = h.paddr := ofLe_le64 h.paddr
  have hfilesz : u64At h.bytes 32 = h.filesz := ofLe_le64 h.filesz
  have hmemsz : u64At h.bytes 40 = h.memsz := ofLe_le64 h.memsz
  have halign : u64At h.bytes 48 = h.align := ofLe_le64 h.align
  rw [Phdr.ofBytes, htype, hflags, hoffset, hvaddr, hpaddr, hfilesz, hmemsz, halign]

theorem RawSym.ofBytes_bytes (s : RawSym) : RawSym.ofBytes s.bytes = s := by
  have hname : u32At s.bytes 0 = s.name := ofLe_le32 s.name
  have hinfo : u8At s.bytes 4 = s.info := ofLe_singleton s.info
  have hother : u8At s.bytes 5 = s.other := ofLe_singleton s.other
  have hshndx : u16At s.bytes 6 = s.shndx := ofLe_le16 s.shndx
  have hvalue : u64At s.bytes 8 = s.value := ofLe_le64 s.value
  have hsize : u64At s.bytes 16 = s.size := ofLe_le64 s.size
  rw [RawSym.ofBytes, hname, hinfo, hother, hshndx, hvalue, hsize]

theorem RawRela.ofBytes_bytes (r : RawRela) : RawRela.ofBytes r.bytes = r := by
  have hoffset : u64At r.bytes 0 = r.offset := ofLe_le64 r.offset
  have hinfo : u64At r.bytes 8 = r.info := ofLe_le64 r.info
  have haddend : u64At r.bytes 16 = r.addend.toUInt64 := ofLe_le64 r.addend.toUInt64
  rw [RawRela.ofBytes, hoffset, hinfo, haddend, Int64.toInt64_toUInt64]

theorem RawDyn.ofBytes_bytes (d : RawDyn) : RawDyn.ofBytes d.bytes = d := by
  have htag : u64At d.bytes 0 = d.tag.toUInt64 := ofLe_le64 d.tag.toUInt64
  have hval : u64At d.bytes 8 = d.val := ofLe_le64 d.val
  rw [RawDyn.ofBytes, htag, hval, Int64.toInt64_toUInt64]

/-- The identification bytes come first. -/
theorem numAt_append {pre : Bytes} {n : Nat} (hpre : pre.length = n) (k : Nat) (bs : Bytes)
    (off : Nat) : numAt k (pre ++ bs) (n + off) = numAt k bs off := by
  subst hpre
  rw [numAt, numAt, ← List.drop_drop, List.drop_left]

theorem u8At_eq {bs : Bytes} {i : Nat} (hi : i < bs.length) : u8At bs i = bs[i] := by
  rw [u8At, numAt, List.drop_eq_getElem_cons hi]
  exact ofLe_singleton _

/-- The bytes of an ELF header from the type to the offset of the section headers. -/
def Ehdr.midBytes (h : Ehdr) : Bytes :=
  le16 h.type ++ le16 h.machine ++ le32 h.version ++ le64 h.entry ++ le64 h.phoff ++ le64 h.shoff

/-- The bytes of an ELF header from the flags on. -/
def Ehdr.endBytes (h : Ehdr) : Bytes :=
  le32 h.flags ++ le16 h.ehsize ++ le16 h.phentsize ++ le16 h.phnum ++ le16 h.shentsize ++
    le16 h.shnum ++ le16 h.shstrndx

theorem Ehdr.bytes_eq (h : Ehdr) : h.bytes = h.ident.toList ++ (h.midBytes ++ h.endBytes) := by
  simp only [Ehdr.bytes, Ehdr.midBytes, Ehdr.endBytes, List.append_assoc]

theorem Ehdr.numAt_mid (h : Ehdr) (k off : Nat) :
    numAt k h.bytes (16 + off) = numAt k (h.midBytes ++ h.endBytes) off := by
  rw [Ehdr.bytes_eq, numAt_append Vector.length_toList]

theorem Ehdr.numAt_end (h : Ehdr) (k off : Nat) :
    numAt k h.bytes (48 + off) = numAt k h.endBytes off := by
  have hmid : h.midBytes.length = 32 := rfl
  rw [show 48 + off = 16 + (32 + off) by omega, numAt_mid, numAt_append hmid]

theorem Ehdr.ident_bytes (h : Ehdr) :
    (Vector.ofFn fun i : Fin 16 => u8At h.bytes i) = h.ident := by
  have hlen : h.ident.toList.length = 16 := Vector.length_toList
  apply Vector.ext
  intro i hi
  have hlt : i < h.ident.toList.length := by
    rw [hlen]
    exact hi
  have happ : i < (h.ident.toList ++ (h.midBytes ++ h.endBytes)).length := by
    rw [List.length_append]
    omega
  rw [Vector.getElem_ofFn, Ehdr.bytes_eq, u8At_eq happ, List.getElem_append_left hlt,
    Vector.getElem_toList]

theorem Ehdr.ofBytes_bytes (h : Ehdr) : Ehdr.ofBytes h.bytes = h := by
  have htype : u16At h.bytes 16 = h.type :=
    (congrArg UInt16.ofNat (h.numAt_mid 2 0)).trans (ofLe_le16 h.type)
  have hmachine : u16At h.bytes 18 = h.machine :=
    (congrArg UInt16.ofNat (h.numAt_mid 2 2)).trans (ofLe_le16 h.machine)
  have hversion : u32At h.bytes 20 = h.version :=
    (congrArg UInt32.ofNat (h.numAt_mid 4 4)).trans (ofLe_le32 h.version)
  have hentry : u64At h.bytes 24 = h.entry :=
    (congrArg UInt64.ofNat (h.numAt_mid 8 8)).trans (ofLe_le64 h.entry)
  have hphoff : u64At h.bytes 32 = h.phoff :=
    (congrArg UInt64.ofNat (h.numAt_mid 8 16)).trans (ofLe_le64 h.phoff)
  have hshoff : u64At h.bytes 40 = h.shoff :=
    (congrArg UInt64.ofNat (h.numAt_mid 8 24)).trans (ofLe_le64 h.shoff)
  have hflags : u32At h.bytes 48 = h.flags :=
    (congrArg UInt32.ofNat (h.numAt_end 4 0)).trans (ofLe_le32 h.flags)
  have hehsize : u16At h.bytes 52 = h.ehsize :=
    (congrArg UInt16.ofNat (h.numAt_end 2 4)).trans (ofLe_le16 h.ehsize)
  have hphentsize : u16At h.bytes 54 = h.phentsize :=
    (congrArg UInt16.ofNat (h.numAt_end 2 6)).trans (ofLe_le16 h.phentsize)
  have hphnum : u16At h.bytes 56 = h.phnum :=
    (congrArg UInt16.ofNat (h.numAt_end 2 8)).trans (ofLe_le16 h.phnum)
  have hshentsize : u16At h.bytes 58 = h.shentsize :=
    (congrArg UInt16.ofNat (h.numAt_end 2 10)).trans (ofLe_le16 h.shentsize)
  have hshnum : u16At h.bytes 60 = h.shnum :=
    (congrArg UInt16.ofNat (h.numAt_end 2 12)).trans (ofLe_le16 h.shnum)
  have hshstrndx : u16At h.bytes 62 = h.shstrndx :=
    (congrArg UInt16.ofNat (h.numAt_end 2 14)).trans (ofLe_le16 h.shstrndx)
  rw [Ehdr.ofBytes, Ehdr.ident_bytes, htype, hmachine, hversion, hentry, hphoff, hshoff, hflags,
    hehsize, hphentsize, hphnum, hshentsize, hshnum, hshstrndx]

/-! ## Entries -/

variable {off size : Nat} {entries : List Bytes}

theorem entryPieces_get {i : Nat} {e : Bytes} (h : entries[i]? = some e) :
    (entryPieces off size entries)[i]? = some ⟨off + i * size, e⟩ := by
  rw [entryPieces, List.getElem?_map, List.getElem?_zipIdx, h]
  simp

/-- Entries of one size do not overlap. -/
theorem entryPieces_pairwise (hsize : ∀ e ∈ entries, e.length = size) :
    (entryPieces off size entries).Pairwise fun p q => p.region.Apart q.region := by
  rw [entryPieces, List.pairwise_map]
  refine List.pairwise_iff_getElem.mpr fun i j hi hj hij => ?_
  rw [List.length_zipIdx] at hi hj
  rw [List.getElem_zipIdx, List.getElem_zipIdx]
  refine Lib.Image.Region.apart_of_stop_le ?_
  have hlen : entries[i].length = size := hsize _ (List.getElem_mem hi)
  have hmul : (i + 1) * size ≤ j * size := Nat.mul_le_mul_right _ hij
  rw [Nat.succ_mul] at hmul
  show off + (0 + i) * size + entries[i].length ≤ off + (0 + j) * size
  rw [Nat.zero_add, Nat.zero_add]
  omega

/-- An entry that nothing is copied over is read back. -/
theorem read_entry {buf file : Bytes} (hsize : ∀ e ∈ entries, e.length = size)
    (hw : writeAll buf (entryPieces off size entries) = some file) {i : Nat} {e : Bytes}
    (h : entries[i]? = some e) : read file (off + i * size) size = some e := by
  have hread := Lib.Image.read_writeAll hw (entryPieces_pairwise hsize)
    (List.mem_of_getElem? (entryPieces_get h))
  have hlen := hsize e (List.mem_of_getElem? h)
  dsimp only at hread
  rwa [hlen] at hread

/-- The header of a section behind the first. -/
theorem shdrs_get {secs : List Section} {i n : Nat} {s : Section} (hi : 0 < i)
    (hs : secs[i]? = some s)
    (hn : (Lib.StringTable.offsets 1 (secs.map (·.name)))[i]? = some n) :
    (shdrs secs)[i]? = some (s.shdr n) := by
  have hzip : (List.zipWith Section.shdr (Lib.StringTable.offsets 1 (secs.map (·.name)))
      secs)[i]? = some (s.shdr n) := by
    rw [List.getElem?_zipWith, hn, hs]
  obtain ⟨j, rfl⟩ : ∃ j, i = j + 1 := ⟨i - 1, by omega⟩
  unfold shdrs
  split
  · rename_i hnil
    rw [hnil] at hzip
    cases hzip
  · rename_i hcons
    rw [hcons] at hzip
    exact hzip

variable {b : Binary} {file : Bytes}

/-- The section headers are copied last: each of them is read back. -/
theorem read_shdr (hw : writeAll (List.replicate (totalSize b).toNat 0) (pieces (layout b)) =
    some file) {i n : Nat} {s : Section} (hi : 0 < i) (hs : (layout b).sections[i]? = some s)
    (hn : (Lib.StringTable.offsets 1 ((layout b).sections.map (·.name)))[i]? = some n) :
    read file ((shdrOff b).toNat + i * shdrSize) shdrSize = some (s.shdr n).bytes := by
  unfold pieces at hw
  rw [← List.cons_append] at hw
  obtain ⟨mid, -, hlast⟩ := Lib.Image.writeAll_append.mp hw
  refine read_entry (fun e he => ?_) hlast ?_
  · obtain ⟨sh, -, rfl⟩ := List.mem_map.mp he
    exact Shdr.bytes_length sh
  · rw [List.getElem?_map, shdrs_get hi hs hn]
    rfl

end Cup.Elf
