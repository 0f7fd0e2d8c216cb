/-
  The symbol reader `sodump_parse` of `include/sodump.h`.

  The file is mapped whole. A read outside it ends the run with `outOfBounds`; `null` is the
  `NULL` that every refused file gives. The sections are read in two passes, `.dynsym` before
  `.symtab`, and a symbol of the second pass takes the place of the same symbol of the first.
  `Collected` says of a set of symbols that a table represents it; each call of `addSymbol` adds
  one symbol to the set (`Collected.add`), and the passes follow by `Sound.foldlM`.
-/
import Cup.Elf
import Cup.Lib.Image
import Mathlib.Data.List.Nodup

namespace Cup.Sodump

open Cup.Elf (RawSym Shdr Ehdr ehdrSize shdrSize symSize shtSymtab shtDynsym)
open Lib.StringTable (CString)

/-! ## The table -/

/-- `SoSymbolType`. -/
inductive SymbolType where
  | unknown
  | func
  | object
  | tls
  deriving DecidableEq

/-- `SoSymbol`. -/
structure SoSymbol where
  name : CString
  addr : UInt64
  size : UInt64
  sectionIndex : UInt16
  binding : UInt8
  visibility : UInt8
  type : SymbolType
  isFunc : Bool
  isObject : Bool
  isTls : Bool
  isLocal : Bool
  isWeak : Bool
  isDefined : Bool
  isDynamic : Bool
  deriving DecidableEq

/-- Why a run does not return a table. -/
inductive Stop where
  | null
  | outOfBounds
  deriving DecidableEq

abbrev Parse := Except Stop

/-- `sodump_range_valid`. -/
def rangeValid (fileSize : Nat) (offset size : UInt64) : Bool :=
  offset.toNat ≤ fileSize && size.toNat ≤ fileSize - offset.toNat

/-- `sodump_symbol_type`. -/
def symbolType (elfType : UInt8) : SymbolType :=
  if elfType = 2 ∨ elfType = 10 then .func
  else if elfType = 1 ∨ elfType = 5 then .object
  else if elfType = 6 then .tls
  else .unknown

/-- `ELF64_ST_TYPE`. -/
def elfType (sym : RawSym) : UInt8 := sym.info &&& 0xf

/-- The entry that `sodump_add_symbol` writes, to a new place or over a dynamic entry. -/
def entryOf (sym : RawSym) (name : CString) (isDynamic : Bool) : SoSymbol where
  name
  addr := sym.value
  size := sym.size
  sectionIndex := sym.shndx
  binding := sym.info >>> 4
  visibility := sym.other &&& 3
  type := symbolType (elfType sym)
  isFunc := symbolType (elfType sym) = .func
  isObject := symbolType (elfType sym) = .object
  isTls := symbolType (elfType sym) = .tls
  isLocal := sym.info >>> 4 = 0
  isWeak := sym.info >>> 4 = 2
  isDefined := sym.shndx ≠ 0
  isDynamic

/-- `sodump_find_duplicate`. -/
def findDuplicate (table : List SoSymbol) (name : CString) (addr : UInt64) (sectionIndex : UInt16)
    (type : SymbolType) : Option Nat :=
  table.findIdx? fun s =>
    s.addr = addr && s.sectionIndex = sectionIndex && s.type = type && s.name = name

/-- `sodump_add_symbol`. The entry `n` gets its memory when `alloc n`. -/
def addSymbol (alloc : Nat → Bool) (table : List SoSymbol) (sym : RawSym) (name : CString)
    (isDynamic : Bool) : Parse (List SoSymbol) :=
  if elfType sym = 3 ∨ elfType sym = 4 then .ok table
  else if name = .empty then .ok table
  else match findDuplicate table name sym.value sym.shndx (symbolType (elfType sym)) with
    | some i =>
      match table[i]? with
      | none => .error .outOfBounds
      | some old =>
        if old.isDynamic && !isDynamic then
          -- the name of the old entry stays
          .ok (table.set i { entryOf sym name false with name := old.name })
        else .ok table
    | none =>
      if alloc table.length then .ok (table ++ [entryOf sym name isDynamic]) else .error .null

/-! ## The file -/

/-- `n` bytes of the map at `off`. -/
def fetch (file : Bytes) (off n : Nat) : Parse Bytes :=
  match Lib.Image.read file off n with
  | some bs => .ok bs
  | none => .error .outOfBounds

/-- `section_headers[i]`. -/
def fetchShdr (file : Bytes) (ehdr : Ehdr) (i : Nat) : Parse Shdr :=
  (fetch file (ehdr.shoff.toNat + i * shdrSize) shdrSize).map Shdr.ofBytes

/-- One turn of the loop over the symbols; `string` is the section with their names. -/
def parseSymbol (alloc : Nat → Bool) (file : Bytes) (sh string : Shdr) (table : List SoSymbol)
    (i : Nat) : Parse (List SoSymbol) := do
  let symbolOffset := sh.offset + UInt64.ofNat i * sh.entsize
  if ¬ rangeValid file.length symbolOffset (UInt64.ofNat symSize) then .error .null
  else
    let bs ← fetch file symbolOffset.toNat symSize
    let sym := RawSym.ofBytes bs
    if string.size ≤ sym.name.toUInt64 then .ok table
    else
      let remaining := string.size - sym.name.toUInt64
      let names ← fetch file (string.offset.toNat + sym.name.toNat) remaining.toNat
      match CString.read names with
      | none => .ok table
      | some name => addSymbol alloc table sym name (sh.type = shtDynsym)

/-- `sodump_parse_symbol_section`. -/
def parseSymbolSection (alloc : Nat → Bool) (file : Bytes) (ehdr : Ehdr) (sh : Shdr)
    (table : List SoSymbol) : Parse (List SoSymbol) :=
  if ehdr.shnum.toNat ≤ sh.link.toNat then .error .null
  else do
    let string ← fetchShdr file ehdr sh.link.toNat
    if ¬ rangeValid file.length sh.offset sh.size then .error .null
    else if ¬ rangeValid file.length string.offset string.size then .error .null
    else if sh.entsize = 0 then .error .null
    else if sh.entsize.toNat < symSize then .error .null
    else (List.range (sh.size / sh.entsize).toNat).foldlM (parseSymbol alloc file sh string) table

/-- One turn of the loop over the sections. -/
def parseSection (alloc : Nat → Bool) (file : Bytes) (ehdr : Ehdr) (wanted : UInt32)
    (table : List SoSymbol) (i : Nat) : Parse (List SoSymbol) := do
  let sh ← fetchShdr file ehdr i
  if sh.type ≠ wanted then .ok table else parseSymbolSection alloc file ehdr sh table

/-- One pass. -/
def parsePass (alloc : Nat → Bool) (file : Bytes) (ehdr : Ehdr) (table : List SoSymbol)
    (wanted : UInt32) : Parse (List SoSymbol) :=
  (List.range ehdr.shnum.toNat).foldlM (parseSection alloc file ehdr wanted) table

/-- The header is one of an ELF64 file. -/
def identOk (ehdr : Ehdr) : Bool :=
  ehdr.ident.toList.take 4 == [0x7f, 0x45, 0x4c, 0x46] && ehdr.ident.toList[4]? == some 2 &&
    ehdr.ident.toList[5]? == some 1 && ehdr.version == 1 && shdrSize ≤ ehdr.shentsize.toNat

/-- The map with its header: the checks and the two passes of `sodump_parse`. -/
def parseMap (alloc : Nat → Bool) (file : Bytes) (ehdr : Ehdr) : Parse (List SoSymbol) :=
  if ¬ identOk ehdr then .error .null
  else if ehdr.shnum = 0 ∨ ehdr.shoff = 0 ∨ ¬ rangeValid file.length ehdr.shoff
      (ehdr.shnum.toUInt64 * ehdr.shentsize.toUInt64) then .error .null
  else if ehdr.shentsize.toNat ≠ shdrSize then .error .null
  else [shtDynsym, shtSymtab].foldlM (parsePass alloc file ehdr) []

/-- `sodump_parse` on a file that can be opened and mapped. `fstat` fails for a size that is no
    `off_t`. -/
def sodumpParse (alloc : Nat → Bool) (file : Bytes) : Parse (List SoSymbol) :=
  if 2 ^ 63 ≤ file.length then .error .null
  else if file.length < ehdrSize then .error .null
  else do
    let ehdr ← (fetch file 0 ehdrSize).map Ehdr.ofBytes
    parseMap alloc file ehdr

/-! ## Symbols of the file -/

/-- A symbol with its name, and whether a `.dynsym` section has it. -/
structure Item where
  sym : RawSym
  name : CString
  isDynamic : Bool

/-- The symbol is one the reader keeps. -/
def Item.Qualifies (it : Item) : Prop :=
  elfType it.sym ≠ 3 ∧ elfType it.sym ≠ 4 ∧ it.name ≠ .empty

/-- What a symbol is known by. -/
structure Key where
  name : CString
  addr : UInt64
  sectionIndex : UInt16
  type : SymbolType

def SoSymbol.key (s : SoSymbol) : Key := ⟨s.name, s.addr, s.sectionIndex, s.type⟩

def Item.key (it : Item) : Key := ⟨it.name, it.sym.value, it.sym.shndx, symbolType (elfType it.sym)⟩

def Item.entry (it : Item) : SoSymbol := entryOf it.sym it.name it.isDynamic

@[simp] theorem entry_key (it : Item) : it.entry.key = it.key := rfl

@[simp] theorem entry_isDynamic (it : Item) : it.entry.isDynamic = it.isDynamic := rfl

/-- The section header `i` of the file. -/
def HeaderAt (file : Bytes) (ehdr : Ehdr) (i : Nat) (sh : Shdr) : Prop :=
  i < ehdr.shnum.toNat ∧ ∃ bs, Lib.Image.read file (ehdr.shoff.toNat + i * shdrSize) shdrSize = some bs ∧
    sh = Shdr.ofBytes bs

/-- The symbol `j` of a section, with a name that ends inside the string table. -/
def SymbolAt (file : Bytes) (sh string : Shdr) (j : Nat) (it : Item) : Prop :=
  j < sh.size.toNat / sh.entsize.toNat ∧
  (∃ bs, Lib.Image.read file (sh.offset.toNat + j * sh.entsize.toNat) symSize = some bs ∧
    it.sym = RawSym.ofBytes bs) ∧
  it.sym.name.toNat < string.size.toNat ∧
  ∃ rest, Lib.Image.read file (string.offset.toNat + it.sym.name.toNat)
    (string.size.toNat - it.sym.name.toNat) = some (it.name.bytes ++ rest)

/-- A named symbol of a section of type `wanted`. -/
def SymbolOf (file : Bytes) (ehdr : Ehdr) (wanted : UInt32) (it : Item) : Prop :=
  it.isDynamic = decide (wanted = shtDynsym) ∧ ∃ i j sh string, HeaderAt file ehdr i sh ∧
    sh.type = wanted ∧ HeaderAt file ehdr sh.link.toNat string ∧ SymbolAt file sh string j it

/-! ## Tables -/

/-- The table represents the symbols of `P`, each once, and the dynamic ones only where there is
    no other. -/
structure Collected (P : Item → Prop) (table : List SoSymbol) : Prop where
  source : ∀ e ∈ table, ∃ it, P it ∧ it.Qualifies ∧ e = it.entry
  unique : (table.map SoSymbol.key).Nodup
  complete : ∀ it, P it → it.Qualifies → ∃ e ∈ table, e.key = it.key
  dynamic : ∀ e ∈ table, e.isDynamic → ∀ it, P it → it.Qualifies → it.isDynamic = false →
    it.key ≠ e.key

/-- Nothing outside the file is read, and a table represents the symbols of `P`. -/
def Sound (P : Item → Prop) (r : Parse (List SoSymbol)) : Prop :=
  r ≠ .error .outOfBounds ∧ ∀ table, r = .ok table → Collected P table

variable {P Q : Item → Prop} {table : List SoSymbol} {it : Item}

theorem Collected.congr (h : Collected P table) (hpq : ∀ it, P it ↔ Q it) : Collected Q table where
  source e he := by
    obtain ⟨it, hit, hrest⟩ := h.source e he
    exact ⟨it, (hpq it).mp hit, hrest⟩
  unique := h.unique
  complete it hit := h.complete it ((hpq it).mpr hit)
  dynamic e he hdyn it hit := h.dynamic e he hdyn it ((hpq it).mpr hit)

theorem sound_null (P : Item → Prop) : Sound P (.error .null) :=
  ⟨nofun, nofun⟩

theorem sound_ok (h : Collected P table) : Sound P (.ok table) :=
  ⟨nofun, fun _ ht => (Except.ok.inj ht) ▸ h⟩

theorem collected_nil : Collected (fun _ => False) [] :=
  ⟨nofun, .nil, nofun, nofun⟩

/-- Two entries of a table with one key are one. -/
theorem Collected.eq_of_key (h : Collected P table) {e e' : SoSymbol} (he : e ∈ table)
    (he' : e' ∈ table) (hkey : e.key = e'.key) : e = e' :=
  List.inj_on_of_nodup_map h.unique he he' hkey

/-- A symbol that is not kept. -/
theorem Collected.skip (h : Collected P table) (hit : ¬ it.Qualifies) :
    Collected (fun x => P x ∨ x = it) table where
  source e he := by
    obtain ⟨it', hit', hrest⟩ := h.source e he
    exact ⟨it', .inl hit', hrest⟩
  unique := h.unique
  complete x hx hq := by
    rcases hx with hx | rfl
    · exact h.complete x hx hq
    · exact absurd hq hit
  dynamic e he hdyn x hx hq := by
    rcases hx with hx | rfl
    · exact h.dynamic e he hdyn x hx hq
    · exact absurd hq hit

/-- A symbol that the table has already, unless its entry is dynamic and the symbol is not. -/
theorem Collected.again (h : Collected P table) {old : SoSymbol} (hold : old ∈ table)
    (hkey : old.key = it.key) (hdyn : old.isDynamic = false ∨ it.isDynamic = true) :
    Collected (fun x => P x ∨ x = it) table where
  source e he := by
    obtain ⟨it', hit', hrest⟩ := h.source e he
    exact ⟨it', .inl hit', hrest⟩
  unique := h.unique
  complete x hx hq := by
    rcases hx with hx | rfl
    · exact h.complete x hx hq
    · exact ⟨old, hold, hkey⟩
  dynamic e he hedyn x hx hq hxdyn := by
    rcases hx with hx | rfl
    · exact h.dynamic e he hedyn x hx hq hxdyn
    · intro heq
      obtain rfl := h.eq_of_key he hold (heq.symm.trans hkey.symm)
      rcases hdyn with hdyn | hdyn
      · exact absurd (hdyn.symm.trans hedyn) (by decide)
      · exact absurd (hxdyn.symm.trans hdyn) (by decide)

/-- A new symbol gets an entry. -/
theorem Collected.push (h : Collected P table) (hit : it.Qualifies)
    (hnew : ∀ e ∈ table, e.key ≠ it.key) :
    Collected (fun x => P x ∨ x = it) (table ++ [it.entry]) where
  source e he := by
    rcases List.mem_append.mp he with he | he
    · obtain ⟨it', hit', hrest⟩ := h.source e he
      exact ⟨it', .inl hit', hrest⟩
    · exact ⟨it, .inr rfl, hit, List.mem_singleton.mp he⟩
  unique := by
    rw [List.map_append, List.map_singleton, List.nodup_append]
    refine ⟨h.unique, List.nodup_singleton _, fun k hk k' hk' heq => ?_⟩
    obtain ⟨e, he, rfl⟩ := List.mem_map.mp hk
    exact hnew e he (heq.trans (List.mem_singleton.mp hk'))
  complete x hx hq := by
    rcases hx with hx | rfl
    · obtain ⟨e, he, hkey⟩ := h.complete x hx hq
      exact ⟨e, List.mem_append_left _ he, hkey⟩
    · exact ⟨x.entry, List.mem_append_right _ (List.mem_singleton_self _), rfl⟩
  dynamic e he hdyn x hx hq hxdyn := by
    rcases List.mem_append.mp he with hin | hin
    · rcases hx with hx | rfl
      · exact h.dynamic e hin hdyn x hx hq hxdyn
      · exact fun heq => hnew e hin heq.symm
    · obtain rfl := List.mem_singleton.mp hin
      rcases hx with hx | rfl
      · intro heq
        obtain ⟨e', he', hkey⟩ := h.complete x hx hq
        exact hnew e' he' (hkey.trans heq)
      · exact absurd (hxdyn.symm.trans hdyn) (by decide)

/-- The entry of a dynamic symbol is overwritten by that of the same symbol of `.symtab`. -/
theorem Collected.replace (h : Collected P table) (hit : it.Qualifies)
    (hdyn : it.isDynamic = false) {i : Nat} {old : SoSymbol} (hold : table[i]? = some old)
    (hkey : old.key = it.key) : Collected (fun x => P x ∨ x = it) (table.set i it.entry) := by
  obtain ⟨hi, hget⟩ := List.getElem?_eq_some_iff.mp hold
  have hkeys : (table.set i it.entry).map SoSymbol.key = table.map SoSymbol.key := by
    rw [List.map_set, entry_key, ← hkey, ← hget, ← List.getElem_map SoSymbol.key]
    · exact List.set_getElem_self _
    · rw [List.length_map]
      exact hi
  have hmem : it.entry ∈ table.set i it.entry := List.mem_set hi it.entry
  have hinj : ∀ e ∈ table.set i it.entry, e.key = it.key → e = it.entry := by
    intro e he heq
    exact List.inj_on_of_nodup_map (by rw [hkeys]; exact h.unique) he hmem heq
  constructor
  · intro e he
    rcases List.mem_or_eq_of_mem_set he with he | rfl
    · obtain ⟨it', hit', hrest⟩ := h.source e he
      exact ⟨it', .inl hit', hrest⟩
    · exact ⟨it, .inr rfl, hit, rfl⟩
  · rw [hkeys]
    exact h.unique
  · intro x hx hq
    rcases hx with hx | rfl
    · obtain ⟨e, he, hek⟩ := h.complete x hx hq
      have hk : x.key ∈ (table.set i it.entry).map SoSymbol.key := by
        rw [hkeys, ← hek]
        exact List.mem_map_of_mem he
      exact List.mem_map.mp hk
    · exact ⟨x.entry, hmem, rfl⟩
  · intro e he hedyn x hx hq hxdyn heq
    have hne : e ≠ it.entry := by
      rintro rfl
      exact absurd (hdyn.symm.trans hedyn) (by decide)
    have hin : e ∈ table := by
      rcases List.mem_or_eq_of_mem_set he with he | rfl
      · exact he
      · exact absurd rfl hne
    rcases hx with hx | rfl
    · exact h.dynamic e hin hedyn x hx hq hxdyn heq
    · exact hne (hinj e he heq.symm)

/-- `sodump_add_symbol` adds a symbol to the set that the table represents. -/
theorem addSymbol_sound (alloc : Nat → Bool) (h : Collected P table) (it : Item) :
    Sound (fun x => P x ∨ x = it) (addSymbol alloc table it.sym it.name it.isDynamic) := by
  unfold addSymbol
  by_cases htype : elfType it.sym = 3 ∨ elfType it.sym = 4
  · rw [if_pos htype]
    refine sound_ok (h.skip fun hq => ?_)
    rcases htype with h3 | h4
    · exact hq.1 h3
    · exact hq.2.1 h4
  · rw [if_neg htype]
    by_cases hname : it.name = .empty
    · rw [if_pos hname]
      exact sound_ok (h.skip fun hq => hq.2.2 hname)
    · rw [if_neg hname]
      have hit : it.Qualifies := ⟨fun h3 => htype (.inl h3), fun h4 => htype (.inr h4), hname⟩
      cases hfind : findDuplicate table it.name it.sym.value it.sym.shndx
          (symbolType (elfType it.sym)) with
      | none =>
        have hnew : ∀ e ∈ table, e.key ≠ it.key := by
          intro e he hkey
          have hall := List.findIdx?_eq_none_iff.mp hfind e he
          obtain ⟨hn, ha, hs, ht⟩ := Key.mk.inj hkey
          rw [hn, ha, hs, ht] at hall
          simp at hall
        dsimp only
        split
        · exact sound_ok (h.push hit hnew)
        · exact sound_null _
      | some i =>
        obtain ⟨hi, hdup, -⟩ := List.findIdx?_eq_some_iff_getElem.mp hfind
        have hget : table[i]? = some table[i] := List.getElem?_eq_getElem hi
        have hkey : table[i].key = it.key := by
          simp only [Bool.and_eq_true, decide_eq_true_eq] at hdup
          obtain ⟨⟨⟨ha, hs⟩, ht⟩, hn⟩ := hdup
          unfold SoSymbol.key Item.key
          rw [ha, hs, ht, hn]
        dsimp only
        rw [hget]
        dsimp only
        by_cases hover : (table[i].isDynamic && !it.isDynamic) = true
        · rw [if_pos hover]
          obtain ⟨-, hdyn⟩ := Bool.and_eq_true_iff.mp hover
          have hdyn : it.isDynamic = false := by simpa using hdyn
          have hentry : { entryOf it.sym it.name false with name := table[i].name } = it.entry := by
            have hn : table[i].name = it.name := (Key.mk.inj hkey).1
            rw [hn]
            unfold Item.entry
            rw [hdyn]
            rfl
          rw [hentry]
          exact sound_ok (h.replace hit hdyn hget hkey)
        · rw [if_neg hover]
          refine sound_ok (h.again (List.getElem_mem hi) hkey ?_)
          cases hold : table[i].isDynamic with
          | false => exact .inl rfl
          | true =>
            refine .inr ?_
            rw [hold] at hover
            simpa using hover

/-- A loop whose turn for `a` adds the symbols of `N a`. -/
theorem Sound.foldlM {α : Type} {f : List SoSymbol → α → Parse (List SoSymbol)}
    {N : α → Item → Prop} {l : List α}
    (hf : ∀ {P table a}, a ∈ l → Collected P table → Sound (fun x => P x ∨ N a x) (f table a))
    (h : Collected P table) : Sound (fun x => P x ∨ ∃ a ∈ l, N a x) (l.foldlM f table) := by
  induction l generalizing P table with
  | nil =>
    refine sound_ok (h.congr fun x => ⟨.inl, ?_⟩)
    rintro (hx | ⟨a, ha, -⟩)
    · exact hx
    · cases ha
  | cons a l ih =>
    rw [List.foldlM_cons]
    obtain ⟨hsafe, hok⟩ := hf List.mem_cons_self h
    cases hstep : f table a with
    | error e =>
      cases e with
      | null => exact sound_null _
      | outOfBounds => exact absurd hstep hsafe
    | ok t =>
      obtain ⟨hsafe', hok'⟩ := ih (fun ha hcol => hf (List.mem_cons_of_mem _ ha) hcol) (hok t hstep)
      refine ⟨hsafe', fun t' ht' => (hok' t' ht').congr fun x => ?_⟩
      simp only [or_assoc, List.mem_cons, exists_eq_or_imp]

/-! ## Reading the file -/

variable {file : Bytes} {ehdr : Ehdr} {sh string : Shdr}

theorem rangeValid_iff {n : Nat} {offset size : UInt64} :
    rangeValid n offset size = true ↔ offset.toNat + size.toNat ≤ n := by
  unfold rangeValid
  rw [Bool.and_eq_true, decide_eq_true_eq, decide_eq_true_eq]
  omega

/-- A read inside the file. -/
theorem fetch_inside {off n : Nat} (h : off + n ≤ file.length) :
    ∃ bs, Lib.Image.read file off n = some bs ∧ fetch file off n = .ok bs := by
  have hread : Lib.Image.read file off n = some ((file.drop off).take n) := if_pos h
  exact ⟨_, hread, by rw [fetch, hread]⟩

/-- The offset of the symbol `i` does not overflow. -/
theorem symbolOffset_toNat (hfile : file.length < 2 ^ 63)
    (hsh : sh.offset.toNat + sh.size.toNat ≤ file.length) {i : Nat}
    (hi : i < sh.size.toNat / sh.entsize.toNat) :
    (sh.offset + UInt64.ofNat i * sh.entsize).toNat = sh.offset.toNat + i * sh.entsize.toNat := by
  have hle : i * sh.entsize.toNat ≤ sh.size.toNat :=
    Nat.le_trans (Nat.mul_le_mul_right _ (Nat.le_of_lt hi)) (Nat.div_mul_le_self _ _)
  have hi64 : i < 2 ^ 64 := by
    have hdiv := Nat.div_le_self sh.size.toNat sh.entsize.toNat
    omega
  rw [UInt64.toNat_add, UInt64.toNat_mul, UInt64.toNat_ofNat', Nat.mod_eq_of_lt hi64,
    Nat.mod_eq_of_lt (by omega), Nat.mod_eq_of_lt (by omega)]

/-- The symbol `i` is read, if it is named. -/
theorem parseSymbol_sound (alloc : Nat → Bool) (hfile : file.length < 2 ^ 63)
    (hsh : sh.offset.toNat + sh.size.toNat ≤ file.length)
    (hstring : string.offset.toNat + string.size.toNat ≤ file.length) {i : Nat}
    (hi : i < sh.size.toNat / sh.entsize.toNat) (h : Collected P table) :
    Sound (fun x => P x ∨ x.isDynamic = decide (sh.type = shtDynsym) ∧ SymbolAt file sh string i x)
      (parseSymbol alloc file sh string table i) := by
  have hoff := symbolOffset_toNat hfile hsh hi
  unfold parseSymbol
  dsimp only
  by_cases hvalid : rangeValid file.length (sh.offset + UInt64.ofNat i * sh.entsize)
      (UInt64.ofNat symSize) = true
  · have hin := rangeValid_iff.mp hvalid
    rw [hoff] at hin
    obtain ⟨bs, hread, hfetch⟩ := fetch_inside hin
    have hsize : (UInt64.ofNat symSize).toNat = symSize := by decide
    rw [hsize] at hread hfetch
    rw [if_neg (not_not_intro hvalid), hoff, hfetch]
    show Sound _ (if string.size ≤ (RawSym.ofBytes bs).name.toUInt64 then .ok table else _)
    have hname : (RawSym.ofBytes bs).name.toUInt64.toNat = (RawSym.ofBytes bs).name.toNat :=
      UInt32.toNat_toUInt64 _
    -- the symbol of any named item at `i`
    have hsym : ∀ x, SymbolAt file sh string i x → x.sym = RawSym.ofBytes bs := by
      rintro x ⟨-, ⟨bs', hread', hx⟩, -⟩
      rw [hread] at hread'
      rw [hx, Option.some.inj hread']
    by_cases hlt : string.size ≤ (RawSym.ofBytes bs).name.toUInt64
    · rw [if_pos hlt]
      refine sound_ok (h.congr fun x => ⟨.inl, ?_⟩)
      rintro (hx | ⟨-, hx⟩)
      · exact hx
      · have hpos := hx.2.2.1
        rw [hsym x hx] at hpos
        rw [UInt64.le_iff_toNat_le, hname] at hlt
        omega
    · have hlt' : (RawSym.ofBytes bs).name.toNat < string.size.toNat := by
        rw [UInt64.le_iff_toNat_le, hname] at hlt
        omega
      have hremaining : (string.size - (RawSym.ofBytes bs).name.toUInt64).toNat =
          string.size.toNat - (RawSym.ofBytes bs).name.toNat := by
        rw [UInt64.toNat_sub_of_le _ _ (by rw [UInt64.le_iff_toNat_le, hname]; omega), hname]
      rw [if_neg hlt]
      obtain ⟨names, hnames, hfetch'⟩ : ∃ names, Lib.Image.read file
          (string.offset.toNat + (RawSym.ofBytes bs).name.toNat)
          (string.size.toNat - (RawSym.ofBytes bs).name.toNat) = some names ∧ fetch file
          (string.offset.toNat + (RawSym.ofBytes bs).name.toNat)
          (string.size.toNat - (RawSym.ofBytes bs).name.toNat) = .ok names := fetch_inside (by omega)
      rw [hremaining, hfetch']
      have hbytes : ∀ x, SymbolAt file sh string i x → CString.read names = some x.name := by
        intro x hx
        obtain ⟨-, -, -, rest, hrest⟩ := id hx
        rw [hsym x hx, hnames] at hrest
        exact CString.read_eq_some.mpr ⟨rest, Option.some.inj hrest⟩
      show Sound _ (match CString.read names with
        | none => .ok table
        | some name => addSymbol alloc table (RawSym.ofBytes bs) name (sh.type = shtDynsym))
      cases hname' : CString.read names with
      | none =>
        refine sound_ok (h.congr fun x => ⟨.inl, ?_⟩)
        rintro (hx | ⟨-, hx⟩)
        · exact hx
        · exact absurd (hname'.symm.trans (hbytes x hx)) nofun
      | some name =>
        obtain ⟨hsafe, hok⟩ := addSymbol_sound alloc h
          ⟨RawSym.ofBytes bs, name, decide (sh.type = shtDynsym)⟩
        refine ⟨hsafe, fun t ht => (hok t ht).congr fun x => or_congr_right ⟨?_, ?_⟩⟩
        · rintro rfl
          obtain ⟨rest, hrest⟩ := CString.read_eq_some.mp hname'
          exact ⟨rfl, hi, ⟨bs, hread, rfl⟩, hlt', rest, by rw [← hrest]; exact hnames⟩
        · rintro ⟨hdyn, hx⟩
          obtain ⟨sym, name', isDynamic⟩ := x
          obtain rfl : sym = _ := hsym _ hx
          obtain rfl : name = name' := Option.some.inj (hname'.symm.trans (hbytes _ hx))
          obtain rfl : isDynamic = _ := hdyn
          rfl
  · rw [if_pos hvalid]
    exact sound_null _

/-- The section headers are inside the file. -/
def HeadersInside (file : Bytes) (ehdr : Ehdr) : Prop :=
  ehdr.shoff.toNat + ehdr.shnum.toNat * shdrSize ≤ file.length

theorem fetchShdr_ok (h : HeadersInside file ehdr) {i : Nat} (hi : i < ehdr.shnum.toNat) :
    ∃ sh, fetchShdr file ehdr i = .ok sh ∧ ∀ sh', HeaderAt file ehdr i sh' ↔ sh' = sh := by
  have hle : (i + 1) * shdrSize ≤ ehdr.shnum.toNat * shdrSize := Nat.mul_le_mul_right _ hi
  rw [Nat.succ_mul] at hle
  unfold HeadersInside at h
  obtain ⟨bs, hread, hfetch⟩ : ∃ bs,
      Lib.Image.read file (ehdr.shoff.toNat + i * shdrSize) shdrSize = some bs ∧
        fetch file (ehdr.shoff.toNat + i * shdrSize) shdrSize = .ok bs := fetch_inside (by omega)
  refine ⟨Shdr.ofBytes bs, by rw [fetchShdr, hfetch]; rfl, fun sh' => ⟨?_, ?_⟩⟩
  · rintro ⟨-, bs', hread', rfl⟩
    rw [Option.some.inj (hread.symm.trans hread')]
  · rintro rfl
    exact ⟨hi, bs, hread, rfl⟩

/-- The symbols of a section. -/
def SymbolIn (file : Bytes) (ehdr : Ehdr) (sh : Shdr) (it : Item) : Prop :=
  it.isDynamic = decide (sh.type = shtDynsym) ∧
    ∃ j string, HeaderAt file ehdr sh.link.toNat string ∧ SymbolAt file sh string j it

theorem parseSymbolSection_sound (alloc : Nat → Bool) (sh : Shdr) (hfile : file.length < 2 ^ 63)
    (hheaders : HeadersInside file ehdr) (h : Collected P table) :
    Sound (fun x => P x ∨ SymbolIn file ehdr sh x)
      (parseSymbolSection alloc file ehdr sh table) := by
  unfold parseSymbolSection
  by_cases hlink : ehdr.shnum.toNat ≤ sh.link.toNat
  · rw [if_pos hlink]
    exact sound_null _
  · obtain ⟨string, hfetch, hat⟩ := fetchShdr_ok hheaders (Nat.lt_of_not_le hlink)
    rw [if_neg hlink, hfetch]
    show Sound _ (if ¬ rangeValid file.length sh.offset sh.size then .error .null else _)
    by_cases hsh : rangeValid file.length sh.offset sh.size = true
    · rw [if_neg (not_not_intro hsh)]
      by_cases hstring : rangeValid file.length string.offset string.size = true
      · rw [if_neg (not_not_intro hstring)]
        split
        · exact sound_null _
        · split
          · exact sound_null _
          · have hcount : (sh.size / sh.entsize).toNat = sh.size.toNat / sh.entsize.toNat :=
              UInt64.toNat_div _ _
            rw [hcount]
            obtain ⟨hsafe, hok⟩ := Sound.foldlM (f := parseSymbol alloc file sh string)
              (N := fun j x => x.isDynamic = decide (sh.type = shtDynsym) ∧ SymbolAt file sh string j x)
              (l := List.range (sh.size.toNat / sh.entsize.toNat)) (fun hj hcol =>
                parseSymbol_sound alloc hfile (rangeValid_iff.mp hsh) (rangeValid_iff.mp hstring)
                  (List.mem_range.mp hj) hcol) h
            refine ⟨hsafe, fun t ht => (hok t ht).congr fun x => or_congr_right ⟨?_, ?_⟩⟩
            · rintro ⟨j, -, hdyn, hx⟩
              exact ⟨hdyn, j, string, (hat string).mpr rfl, hx⟩
            · rintro ⟨hdyn, j, string', hstring', hx⟩
              obtain rfl := (hat string').mp hstring'
              exact ⟨j, List.mem_range.mpr hx.1, hdyn, hx⟩
      · rw [if_pos hstring]
        exact sound_null _
    · rw [if_pos hsh]
      exact sound_null _

/-- A pass adds the symbols of the sections of its type. -/
theorem parsePass_sound (alloc : Nat → Bool) (hfile : file.length < 2 ^ 63)
    (hheaders : HeadersInside file ehdr) (wanted : UInt32) (h : Collected P table) :
    Sound (fun x => P x ∨ SymbolOf file ehdr wanted x) (parsePass alloc file ehdr table wanted) := by
  have hsection : ∀ {Q : Item → Prop} {t : List SoSymbol} {i : Nat},
      i ∈ List.range ehdr.shnum.toNat → Collected Q t →
      Sound (fun x => Q x ∨ ∃ sh, HeaderAt file ehdr i sh ∧ sh.type = wanted ∧ SymbolIn file ehdr sh x)
        (parseSection alloc file ehdr wanted t i) := by
    intro Q t i hi hcol
    obtain ⟨sh, hfetch, hat⟩ := fetchShdr_ok hheaders (List.mem_range.mp hi)
    unfold parseSection
    rw [hfetch]
    show Sound _ (if sh.type ≠ wanted then .ok t else parseSymbolSection alloc file ehdr sh t)
    by_cases htype : sh.type ≠ wanted
    · rw [if_pos htype]
      refine sound_ok (hcol.congr fun x => ⟨.inl, ?_⟩)
      rintro (hx | ⟨sh', hsh', htype', -⟩)
      · exact hx
      · obtain rfl := (hat sh').mp hsh'
        exact absurd htype' htype
    · rw [if_neg htype]
      obtain ⟨hsafe, hok⟩ := parseSymbolSection_sound alloc sh hfile hheaders hcol
      refine ⟨hsafe, fun t' ht' => (hok t' ht').congr fun x => or_congr_right ⟨fun hx => ?_, ?_⟩⟩
      · exact ⟨sh, (hat sh).mpr rfl, not_not.mp htype, hx⟩
      · rintro ⟨sh', hsh', -, hx⟩
        obtain rfl := (hat sh').mp hsh'
        exact hx
  obtain ⟨hsafe, hok⟩ := Sound.foldlM hsection h
  refine ⟨hsafe, fun t ht => (hok t ht).congr fun x => or_congr_right ⟨?_, ?_⟩⟩
  · rintro ⟨i, -, sh, hsh, rfl, hdyn, j, string, hstring, hx⟩
    exact ⟨hdyn, i, j, sh, string, hsh, rfl, hstring, hx⟩
  · rintro ⟨hdyn, i, j, sh, string, hsh, rfl, hstring, hx⟩
    exact ⟨i, List.mem_range.mpr hsh.1, sh, hsh, rfl, hdyn, j, string, hstring, hx⟩

/-- The header of the file. -/
def fileHeader (file : Bytes) : Ehdr := Ehdr.ofBytes (file.take ehdrSize)

/-- What `sodump_parse` returns of a file: each entry is a symbol of a `.dynsym` or `.symtab`
    section that is kept, no two have one key, each symbol that is kept has an entry, and no entry
    is dynamic whose symbol a `.symtab` section has. -/
structure TableOf (file : Bytes) (table : List SoSymbol) : Prop where
  source : ∀ e ∈ table, ∃ it, (SymbolOf file (fileHeader file) shtDynsym it ∨
    SymbolOf file (fileHeader file) shtSymtab it) ∧ it.Qualifies ∧ e = it.entry
  unique : (table.map SoSymbol.key).Nodup
  complete : ∀ it, (SymbolOf file (fileHeader file) shtDynsym it ∨
    SymbolOf file (fileHeader file) shtSymtab it) → it.Qualifies → ∃ e ∈ table, e.key = it.key
  dynamic : ∀ e ∈ table, e.isDynamic → ∀ it, SymbolOf file (fileHeader file) shtSymtab it →
    it.Qualifies → it.key ≠ e.key

theorem identOk_shentsize (h : rangeValid file.length ehdr.shoff
    (ehdr.shnum.toUInt64 * ehdr.shentsize.toUInt64) = true) (hsize : ehdr.shentsize.toNat = shdrSize) :
    HeadersInside file ehdr := by
  have hin := rangeValid_iff.mp h
  have hnum := ehdr.shnum.toNat_lt
  rw [UInt64.toNat_mul, UInt16.toNat_toUInt64, UInt16.toNat_toUInt64, hsize,
    Nat.mod_eq_of_lt (by rw [shdrSize]; omega)] at hin
  exact hin

/-- The symbols of the two types of sections. -/
def FileSymbol (file : Bytes) (it : Item) : Prop :=
  SymbolOf file (fileHeader file) shtDynsym it ∨ SymbolOf file (fileHeader file) shtSymtab it

theorem parseMap_sound (alloc : Nat → Bool) (hfile : file.length < 2 ^ 63) :
    Sound (FileSymbol file) (parseMap alloc file (fileHeader file)) := by
  unfold parseMap
  split
  · exact sound_null _
  · split
    · exact sound_null _
    · split
      · exact sound_null _
      · rename_i hrange hsize
        have hheaders := identOk_shentsize (by_contra fun hnot => hrange (.inr (.inr hnot)))
          (not_not.mp hsize)
        obtain ⟨hsafe, hok⟩ := Sound.foldlM (l := [shtDynsym, shtSymtab])
          (fun _ hcol => parsePass_sound alloc hfile hheaders _ hcol) collected_nil
        refine ⟨hsafe, fun t ht => (hok t ht).congr fun x => ?_⟩
        simp only [false_or, List.mem_cons, List.not_mem_nil, or_false, exists_eq_or_imp,
          exists_eq_left]
        exact Iff.rfl

theorem sodumpParse_collects (alloc : Nat → Bool) (file : Bytes) :
    Sound (FileSymbol file) (sodumpParse alloc file) := by
  unfold sodumpParse
  by_cases hbig : 2 ^ 63 ≤ file.length
  · rw [if_pos hbig]
    exact sound_null _
  · rw [if_neg hbig]
    by_cases hshort : file.length < ehdrSize
    · rw [if_pos hshort]
      exact sound_null _
    · have hheader : (fetch file 0 ehdrSize).map Ehdr.ofBytes = .ok (fileHeader file) := by
        have hread : Lib.Image.read file 0 ehdrSize = some (file.take ehdrSize) :=
          Lib.Image.read_eq_some.mpr ⟨by omega, by rw [List.drop_zero]⟩
        rw [fetch, hread]
        rfl
      have hbind : ∀ ehdr, ((.ok ehdr : Parse Ehdr) >>= fun e => parseMap alloc file e) =
          parseMap alloc file ehdr := fun _ => rfl
      rw [if_neg hshort, hheader, hbind]
      exact parseMap_sound alloc (by omega)

/-- `sodump_parse` reads nothing outside the file, and a table that it returns is one of the file. -/
theorem sodumpParse_sound (alloc : Nat → Bool) (file : Bytes) :
    sodumpParse alloc file ≠ .error .outOfBounds ∧
      ∀ table, sodumpParse alloc file = .ok table → TableOf file table := by
  obtain ⟨hsafe, hok⟩ := sodumpParse_collects alloc file
  refine ⟨hsafe, fun table ht => ?_⟩
  obtain ⟨hsource, hunique, hcomplete, hdynamic⟩ := hok table ht
  refine ⟨hsource, hunique, hcomplete, fun e he hdyn it hit hq => ?_⟩
  exact hdynamic e he hdyn it (.inr hit) hq (by rw [hit.1]; decide)

/-- A `.dynsym` and a `.symtab` section with the function `f`, behind the header at 64. -/
def sampleFile : Bytes :=
  ({ (Elf.lielfNew 3 62).ehdr with shoff := 64, shnum := 3 } : Ehdr).bytes ++
    (Shdr.mk 0 shtDynsym 0 0 256 24 2 0 0 24).bytes ++
    (Shdr.mk 0 shtSymtab 0 0 256 24 2 0 0 24).bytes ++
    (Shdr.mk 0 3 0 0 280 3 0 0 0 0).bytes ++
    (RawSym.mk 1 0x12 0 7 0x1000 8).bytes ++ [0, 102, 0]

example : (sodumpParse (fun _ => true) sampleFile).toOption.map
    (·.map fun e => (e.name.chars, e.type, e.isDynamic)) = some [([102], .func, false)] := by
  decide +kernel

end Cup.Sodump
