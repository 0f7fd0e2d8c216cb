/-
  The order of symbol tables (`lielf__sort_symbols_local_first` and `lielf__rebuild_symtab` of
  `include/lielf.h`).

  The source makes an array `order` of indices and its inverse `remap`, and applies the first to
  the symbols and the second to the relocations. `localFirst` is the table that comes out; a
  relocation with its new index refers to the symbol it referred to before (`remap_get`).
-/
import Cup.ElfSections
import Cup.Lib.Reorder

namespace Cup.Elf

open Lib.Reorder (stable assign)

/-- Entry 0, then the local symbols, then the others, each in their order. -/
def localFirst : List Symbol → List Symbol
  | [] => []
  | s :: ss => s :: stable Symbol.isLocal ss

theorem localFirst_perm (syms : List Symbol) : (localFirst syms).Perm syms := by
  cases syms with
  | nil => exact .refl _
  | cons s ss => exact (Lib.Reorder.stable_perm _ ss).cons s

theorem localFirst_length (syms : List Symbol) : (localFirst syms).length = syms.length :=
  (localFirst_perm syms).length_eq

theorem localFirst_localFirst (syms : List Symbol) :
    localFirst (localFirst syms) = localFirst syms := by
  cases syms with
  | nil => rfl
  | cons s ss => exact congrArg (s :: ·) (Lib.Reorder.stable_stable _ ss)

theorem localFirst_of_length_le {syms : List Symbol} (h : syms.length ≤ 1) :
    localFirst syms = syms := by
  cases syms with
  | nil => rfl
  | cons s ss =>
    have hnil : ss = [] := List.length_eq_zero_iff.mp (Nat.le_zero.mp (Nat.le_of_succ_le_succ h))
    rw [hnil]
    rfl

/-! ## Order -/

/-- The indices behind the first. -/
def restIdx (syms : List Symbol) : List Nat := List.range' 1 (syms.length - 1)

/-- The indices of `symOrder`, as numbers. -/
def orderIdx (syms : List Symbol) : List Nat :=
  0 :: stable (fun i => (syms.getD i .undef).isLocal) (restIdx syms)

theorem zero_cons_restIdx {syms : List Symbol} (h : syms ≠ []) :
    0 :: restIdx syms = List.range syms.length := by
  have hpos : 0 < syms.length := List.length_pos_iff.mpr h
  have hsucc : syms.length = syms.length - 1 + 1 := by omega
  rw [List.range_eq_range', hsucc, List.range'_succ]
  rfl

theorem orderIdx_perm {syms : List Symbol} (h : syms ≠ []) :
    (orderIdx syms).Perm (List.range syms.length) := by
  rw [← zero_cons_restIdx h]
  exact (Lib.Reorder.stable_perm _ _).cons 0

theorem map_getD_restIdx (syms : List Symbol) :
    (restIdx syms).map (fun i => syms.getD i .undef) = syms.tail := by
  apply List.ext_getElem?
  intro i
  rw [List.getElem?_map, restIdx, List.getElem?_tail]
  by_cases hi : i < syms.length - 1
  · have hlt : i + 1 < syms.length := by omega
    rw [List.getElem?_range' hi, Option.map_some, Nat.one_mul, Nat.add_comm 1,
      List.getD_eq_getElem?_getD, List.getElem?_eq_getElem hlt]
    rfl
  · rw [List.getElem?_eq_none (by rw [List.length_range']; omega),
      List.getElem?_eq_none (by omega)]
    rfl

/-- The symbols at the indices in order. -/
theorem map_getD_orderIdx {syms : List Symbol} (h : syms ≠ []) :
    (orderIdx syms).map (fun i => syms.getD i .undef) = localFirst syms := by
  rw [orderIdx, List.map_cons, Lib.Reorder.map_stable, map_getD_restIdx]
  cases syms with
  | nil => exact absurd rfl h
  | cons s ss => rfl

/-- The indices of a table that 32 bits can count are not cut. -/
theorem symOrder_toNat {syms : List Symbol} (h : syms.length ≤ 2 ^ 32) :
    (symOrder syms).map UInt32.toNat = orderIdx syms := by
  show 0 :: ((stable _ (restIdx syms)).map UInt32.ofNat).map UInt32.toNat = _
  rw [List.map_map]
  refine congrArg (0 :: ·) ?_
  have hid : ∀ i ∈ stable (fun i => (syms.getD i .undef).isLocal) (restIdx syms),
      (UInt32.toNat ∘ UInt32.ofNat) i = id i := by
    intro i hi
    have hmem := (Lib.Reorder.stable_perm _ _).mem_iff.mp hi
    have hlt := List.mem_range'_1.mp hmem
    exact UInt32.toNat_ofNat_of_lt' (Nat.lt_of_lt_of_le hlt.2 (by unfold UInt32.size; omega))
  rw [List.map_congr_left hid, List.map_id]

variable {syms : List Symbol}

theorem map_symOrder (hne : syms ≠ []) (h : syms.length ≤ 2 ^ 32) :
    (symOrder syms).map (fun i => syms.getD i.toNat .undef) = localFirst syms := by
  have hmap : (symOrder syms).map (fun i => syms.getD i.toNat .undef) =
      ((symOrder syms).map UInt32.toNat).map fun i => syms.getD i .undef := by
    rw [List.map_map]
    rfl
  rw [hmap, symOrder_toNat h, map_getD_orderIdx hne]

/-! ## Inverse -/

theorem symRemap_eq (n : Nat) (order : List UInt32) :
    symRemap n order = assign UInt32.toNat UInt32.ofNat (List.replicate n 0) order 0 := rfl

@[simp] theorem symRemap_length (n : Nat) (order : List UInt32) :
    (symRemap n order).length = n := by
  rw [symRemap_eq, Lib.Reorder.assign_length, List.length_replicate]

/-- The position of an index in the order is what `remap` holds for it. -/
theorem symRemap_get (hne : syms ≠ []) (h : syms.length ≤ 2 ^ 32) {i j : Nat}
    (hi : (orderIdx syms)[i]? = some j) :
    (symRemap syms.length (symOrder syms))[j]? = some (UInt32.ofNat i) := by
  have hperm := orderIdx_perm hne
  rw [← symOrder_toNat h] at hi hperm
  have hnodup : ((symOrder syms).map UInt32.toNat).Nodup := hperm.nodup_iff.mpr List.nodup_range
  rw [List.getElem?_map] at hi
  obtain ⟨c, hc, rfl⟩ := Option.map_eq_some_iff.mp hi
  have hlt : ∀ d ∈ symOrder syms, d.toNat < (List.replicate syms.length (0 : UInt32)).length := by
    intro d hd
    rw [List.length_replicate]
    exact List.mem_range.mp (hperm.mem_iff.mp (List.mem_map_of_mem hd))
  have hget : (assign UInt32.toNat UInt32.ofNat _ (symOrder syms) 0)[c.toNat]? =
      some (UInt32.ofNat (0 + i)) := Lib.Reorder.assign_get hnodup hlt hc
  rwa [Nat.zero_add] at hget

/-- A symbol's new index, and the symbol there. -/
theorem remap_get (hne : syms ≠ []) (h : syms.length ≤ 2 ^ 32) {j : Nat} (hj : j < syms.length) :
    ∃ i, i < syms.length ∧
      (symRemap syms.length (symOrder syms))[j]? = some (UInt32.ofNat i) ∧
      (localFirst syms)[i]? = syms[j]? := by
  have hmem : j ∈ orderIdx syms := (orderIdx_perm hne).mem_iff.mpr (List.mem_range.mpr hj)
  obtain ⟨i, hi⟩ := List.mem_iff_getElem?.mp hmem
  have hlt : i < syms.length := by
    have hlen := (List.getElem?_eq_some_iff.mp hi).1
    rwa [(orderIdx_perm hne).length_eq, List.length_range] at hlen
  refine ⟨i, hlt, symRemap_get hne h hi, ?_⟩
  rw [← map_getD_orderIdx hne, List.getElem?_map, hi, Option.map_some,
    List.getD_eq_getElem?_getD, List.getElem?_eq_getElem hj]
  rfl

/-! ## Sorting -/

variable {b : Binary} {dynamic : Bool}

@[simp] theorem syms_setSyms (b : Binary) (dynamic : Bool) (syms : List Symbol) :
    (b.setSyms dynamic syms).syms dynamic = syms := by
  cases dynamic <;> rfl

@[simp] theorem setSyms_syms (b : Binary) (dynamic : Bool) :
    b.setSyms dynamic (b.syms dynamic) = b := by
  cases dynamic <;> rfl

@[simp] theorem setSyms_relocs (b : Binary) (dynamic : Bool) (syms : List Symbol) :
    (b.setSyms dynamic syms).relocs = b.relocs := by
  cases dynamic <;> rfl

@[simp] theorem setSyms_sections (b : Binary) (dynamic : Bool) (syms : List Symbol) :
    (b.setSyms dynamic syms).sections = b.sections := by
  cases dynamic <;> rfl

@[simp] theorem syms_relocs (b : Binary) (dynamic : Bool) (relocs : List Reloc) :
    ({ b with relocs := relocs } : Binary).syms dynamic = b.syms dynamic := by
  cases dynamic <;> rfl

/-- The new indices of a table's symbols. -/
def newIdx (syms : List Symbol) : List UInt32 := symRemap syms.length (symOrder syms)

theorem sort_of_length_le (h : (b.syms dynamic).length ≤ 1) :
    sortSymbolsLocalFirst b dynamic = b := if_pos h

/-- The symbols of a table of two or more, at the indices in order. -/
def reordered (syms : List Symbol) : List Symbol :=
  (symOrder syms).map fun i => syms.getD i.toNat .undef

theorem sort_of_lt (h : 1 < (b.syms dynamic).length) :
    sortSymbolsLocalFirst b dynamic =
      { b.setSyms dynamic (reordered (b.syms dynamic)) with
        relocs := b.relocs.map (remapReloc dynamic (newIdx (b.syms dynamic))) } := by
  have hif : sortSymbolsLocalFirst b dynamic =
      { b.setSyms dynamic (reordered (b.syms dynamic)) with
        relocs := (b.setSyms dynamic (reordered (b.syms dynamic))).relocs.map
          (remapReloc dynamic (newIdx (b.syms dynamic))) } := if_neg (Nat.not_le_of_lt h)
  rw [hif, setSyms_relocs]

/-- A table of two or more symbols: its symbols and the relocations afterwards. -/
theorem sort_eq (hlen : 1 < (b.syms dynamic).length) (h : (b.syms dynamic).length ≤ 2 ^ 32) :
    sortSymbolsLocalFirst b dynamic =
      { b.setSyms dynamic (localFirst (b.syms dynamic)) with
        relocs := b.relocs.map (remapReloc dynamic (newIdx (b.syms dynamic))) } := by
  have hne : b.syms dynamic ≠ [] := List.length_pos_iff.mp (Nat.lt_of_succ_lt hlen)
  have hsyms : reordered (b.syms dynamic) = localFirst (b.syms dynamic) := map_symOrder hne h
  rw [sort_of_lt hlen, hsyms]

theorem sort_syms (h : (b.syms dynamic).length ≤ 2 ^ 32) :
    (sortSymbolsLocalFirst b dynamic).syms dynamic = localFirst (b.syms dynamic) := by
  by_cases hlen : (b.syms dynamic).length ≤ 1
  · rw [sort_of_length_le hlen, localFirst_of_length_le hlen]
  · rw [sort_eq (Nat.lt_of_not_le hlen) h, syms_relocs, syms_setSyms]

theorem newIdx_length (syms : List Symbol) : (newIdx syms).length = syms.length :=
  symRemap_length _ _

/-- A relocation of the table refers to the symbol it referred to. -/
theorem remapReloc_sym (hne : syms ≠ []) (h : syms.length ≤ 2 ^ 32) {r : Reloc}
    (hr : r.sym.toNat < syms.length) (hd : r.dynamic = dynInt dynamic) :
    (localFirst syms)[(remapReloc dynamic (newIdx syms) r).sym.toNat]? = syms[r.sym.toNat]? := by
  obtain ⟨i, hi, hget, hsym⟩ := remap_get hne h hr
  have hcond : r.dynamic = dynInt dynamic ∧ r.sym.toNat < (newIdx syms).length := by
    rw [newIdx_length]
    exact ⟨hd, hr⟩
  have hnew : (remapReloc dynamic (newIdx syms) r).sym = UInt32.ofNat i := by
    rw [remapReloc, if_pos hcond, List.getD_eq_getElem?_getD, newIdx, hget]
    rfl
  rw [hnew, UInt32.toNat_ofNat_of_lt' (Nat.lt_of_lt_of_le hi h), hsym]

/-- Relocations change in their symbol only. -/
theorem remapReloc_other (remap : List UInt32) (r : Reloc) :
    remapReloc dynamic remap r = { r with sym := (remapReloc dynamic remap r).sym } := by
  unfold remapReloc
  split <;> rfl

theorem remapReloc_of_ne {remap : List UInt32} {r : Reloc} (h : r.dynamic ≠ dynInt dynamic) :
    remapReloc dynamic remap r = r := if_neg fun hc => h hc.1

/-- The order of a sorted table is that of its indices. -/
theorem orderIdx_localFirst (hne : syms ≠ []) :
    orderIdx (localFirst syms) = List.range syms.length := by
  have hne' : localFirst syms ≠ [] := by
    intro hnil
    have hlen := localFirst_length syms
    rw [hnil] at hlen
    exact hne (List.length_eq_zero_iff.mp hlen.symm)
  have htail : ((restIdx (localFirst syms)).map fun i =>
      (localFirst syms).getD i .undef).Pairwise fun s t => t.isLocal = true → s.isLocal = true := by
    rw [map_getD_restIdx]
    cases syms with
    | nil => exact .nil
    | cons s ss => exact Lib.Reorder.stable_pairwise _ ss
  rw [orderIdx, Lib.Reorder.stable_of_pairwise (List.pairwise_map.mp htail),
    zero_cons_restIdx hne', localFirst_length]

theorem remapReloc_localFirst (hne : syms ≠ []) (h : syms.length ≤ 2 ^ 32) (r : Reloc) :
    remapReloc dynamic (newIdx (localFirst syms)) r = r := by
  unfold remapReloc
  split
  · rename_i hc
    have hlt : r.sym.toNat < syms.length := by
      rw [← localFirst_length, ← newIdx_length]
      exact hc.2
    have hne' : localFirst syms ≠ [] := by
      intro hnil
      have hlen := localFirst_length syms
      rw [hnil] at hlen
      exact hne (List.length_eq_zero_iff.mp hlen.symm)
    have hidx : (orderIdx (localFirst syms))[r.sym.toNat]? = some r.sym.toNat := by
      rw [orderIdx_localFirst hne, List.getElem?_range hlt]
    have hget := symRemap_get hne' (localFirst_length syms ▸ h) hidx
    rw [List.getD_eq_getElem?_getD, newIdx, hget, Option.getD_some, UInt32.ofNat_toNat]
  · rfl

/-- Sorting a sorted table changes nothing. -/
theorem sort_of_sorted (hsyms : b.syms dynamic = localFirst syms) (h : syms.length ≤ 2 ^ 32) :
    sortSymbolsLocalFirst b dynamic = b := by
  have hlen : (b.syms dynamic).length = syms.length := by rw [hsyms, localFirst_length]
  by_cases hle : (b.syms dynamic).length ≤ 1
  · exact sort_of_length_le hle
  · have hgt := Nat.lt_of_not_le hle
    have hne : syms ≠ [] := List.length_pos_iff.mp (hlen ▸ Nat.lt_of_succ_lt hgt)
    have hid : remapReloc dynamic (newIdx (localFirst syms)) = id :=
      funext fun r => remapReloc_localFirst hne h r
    rw [sort_eq hgt (hlen ▸ h), hsyms, hid, List.map_id, localFirst_localFirst, ← hsyms,
      setSyms_syms]

theorem sort_sort (h : (b.syms dynamic).length ≤ 2 ^ 32) :
    sortSymbolsLocalFirst (sortSymbolsLocalFirst b dynamic) dynamic =
      sortSymbolsLocalFirst b dynamic := sort_of_sorted (sort_syms h) h

/-! ## The order as a whole -/

/-- A stable permutation: entry 0 stays first, behind it the local symbols come before the
others, and neither group changes its order. -/
structure LocalFirst (syms syms' : List Symbol) : Prop where
  perm : syms'.Perm syms
  first : syms'.head? = syms.head?
  locals : syms'.tail.Pairwise fun s t => t.isLocal = true → s.isLocal = true
  localOrder : syms'.tail.filter Symbol.isLocal = syms.tail.filter Symbol.isLocal
  otherOrder : (syms'.tail.filter fun s => !s.isLocal) = syms.tail.filter fun s => !s.isLocal

theorem localFirst_spec (syms : List Symbol) : LocalFirst syms (localFirst syms) := by
  have hperm := localFirst_perm syms
  cases syms with
  | nil => exact ⟨hperm, rfl, .nil, rfl, rfl⟩
  | cons s ss =>
    exact ⟨hperm, rfl, Lib.Reorder.stable_pairwise _ ss, Lib.Reorder.filter_stable _ ss,
      Lib.Reorder.filter_not_stable _ ss⟩

/-- A relocation before and after its table is sorted: it refers to the same symbol and is the
same otherwise; a relocation of the other table does not change. -/
structure Follows (dynamic : Bool) (syms syms' : List Symbol) (r r' : Reloc) : Prop where
  same : r' = { r with sym := r'.sym }
  symbol : r.dynamic = dynInt dynamic → r.sym.toNat < syms.length →
    syms'[r'.sym.toNat]? = syms[r.sym.toNat]?
  other : r.dynamic ≠ dynInt dynamic → r' = r

/-- The name of the symbol table. -/
def symtabName (dynamic : Bool) : Lib.StringTable.CString := if dynamic then dotDynsym else dotSymtab

theorem sort_follows (h : (b.syms dynamic).length ≤ 2 ^ 32) :
    List.Forall₂ (Follows dynamic (b.syms dynamic) (localFirst (b.syms dynamic))) b.relocs
      (sortSymbolsLocalFirst b dynamic).relocs := by
  by_cases hlen : (b.syms dynamic).length ≤ 1
  · rw [sort_of_length_le hlen, localFirst_of_length_le hlen, List.forall₂_same]
    exact fun r _ => ⟨rfl, fun _ _ => rfl, fun _ => rfl⟩
  · have hne : b.syms dynamic ≠ [] := by
      intro hnil
      rw [hnil] at hlen
      exact hlen (Nat.zero_le _)
    rw [sort_eq (Nat.lt_of_not_le hlen) h, List.forall₂_map_right_iff, List.forall₂_same]
    exact fun r _ => ⟨remapReloc_other _ r, fun hd hr => remapReloc_sym hne h hr hd,
      remapReloc_of_ne⟩

/-- `sh_info` of the symbol table is the index of the first symbol that is not local. -/
theorem rebuildSymtab_info (hlen : 1 < (b.syms dynamic).length)
    (h : (b.syms dynamic).length < 2 ^ 32) :
    ∃ i s, getSection (rebuildSymtab b dynamic) (symtabName dynamic) = some i ∧
      (rebuildSymtab b dynamic).sections[i]? = some s ∧
      s.info.toNat = firstGlobal (localFirst (b.syms dynamic)) := by
  have hsyms := sort_syms (Nat.le_of_lt h)
  have hlong : ¬ ((sortSymbolsLocalFirst b dynamic).syms dynamic).length ≤ 1 := by
    rw [hsyms, localFirst_length]
    exact Nat.not_le_of_lt hlen
  have hbuild : rebuildSymtab b dynamic = _ := if_neg hlong
  rw [hbuild]
  obtain ⟨i, s, hget, hsec, -⟩ := getSection_update (sortSymbolsLocalFirst b dynamic)
    (symtabName dynamic) _ _ 8
    (fun s => maybeUpdateData
      ((rawSyms ((sortSymbolsLocalFirst b dynamic).syms dynamic)).flatMap RawSym.bytes)
      { s with
        type := if dynamic then shtDynsym else shtSymtab
        entsize := UInt64.ofNat symSize
        kind := if dynamic then .dynsym else .symtab
        info := UInt32.ofNat (firstGlobal ((sortSymbolsLocalFirst b dynamic).syms dynamic)) })
    (fun s => maybeUpdateData_name _ _)
  refine ⟨i, _, hget, hsec, ?_⟩
  have hle : firstGlobal (localFirst (b.syms dynamic)) ≤ (b.syms dynamic).length := by
    rw [← localFirst_length]
    exact List.findIdx_le_length
  rw [maybeUpdateData_info, hsyms]
  exact UInt32.toNat_ofNat_of_lt' (Nat.lt_of_le_of_lt hle h)

/-- The index of the first symbol that is not local, or the number of symbols. -/
structure IsFirstGlobal (syms : List Symbol) (k : Nat) : Prop where
  le : k ≤ syms.length
  before : ∀ j < k, ∀ s, syms[j]? = some s → s.isLocal = true
  here : ∀ s, syms[k]? = some s → s.isLocal = false

theorem firstGlobal_spec (syms : List Symbol) : IsFirstGlobal syms (firstGlobal syms) where
  le := List.findIdx_le_length
  before j hj s hs := by
    obtain ⟨hlt, rfl⟩ := List.getElem?_eq_some_iff.mp hs
    have hnot := List.not_of_lt_findIdx hj
    simpa using hnot
  here s hs := by
    obtain ⟨hlt, rfl⟩ := List.getElem?_eq_some_iff.mp hs
    have hglobal := List.findIdx_getElem (p := fun s : Symbol => !s.isLocal) (w := hlt)
    exact Bool.not_eq_true' _ ▸ hglobal

/-- Sorting puts the local symbols first and keeps what relocations refer to; a second time it
changes nothing; and `sh_info` is the index of the first symbol that is not local. -/
theorem symbol_order (b : Binary) (dynamic : Bool) (h : (b.syms dynamic).length < 2 ^ 32) :
    LocalFirst (b.syms dynamic) ((sortSymbolsLocalFirst b dynamic).syms dynamic) ∧
      List.Forall₂ (Follows dynamic (b.syms dynamic)
        ((sortSymbolsLocalFirst b dynamic).syms dynamic)) b.relocs
        (sortSymbolsLocalFirst b dynamic).relocs ∧
      sortSymbolsLocalFirst (sortSymbolsLocalFirst b dynamic) dynamic =
        sortSymbolsLocalFirst b dynamic ∧
      (1 < (b.syms dynamic).length → ∃ i s,
        getSection (rebuildSymtab b dynamic) (symtabName dynamic) = some i ∧
        (rebuildSymtab b dynamic).sections[i]? = some s ∧
        IsFirstGlobal ((sortSymbolsLocalFirst b dynamic).syms dynamic) s.info.toNat) := by
  have hle := Nat.le_of_lt h
  rw [sort_syms hle]
  refine ⟨localFirst_spec _, sort_follows hle, sort_sort hle, fun hlen => ?_⟩
  obtain ⟨i, s, hget, hsec, hinfo⟩ := rebuildSymtab_info hlen h
  exact ⟨i, s, hget, hsec, hinfo ▸ firstGlobal_spec _⟩

/-- A symbol with a one-letter name. -/
def sampleSymbol (c : Char) (info : UInt8) : Symbol :=
  { Symbol.undef with name := literal [c], info }

/-- Three symbols, and relocations of both tables. -/
def sampleObject : Binary :=
  { lielfNew etRel 62 with
    symbols := [.undef, sampleSymbol 'g' 0x12, sampleSymbol 'l' 0x02, sampleSymbol 'h' 0x10]
    relocs := [⟨literal ['t'], 0, 1, 1, 0, 0⟩, ⟨literal ['t'], 8, 2, 1, 0, 0⟩,
      ⟨literal ['t'], 8, 2, 1, 0, 1⟩] }

theorem symbol_order_sampleObject :
    LocalFirst (sampleObject.syms false) ((sortSymbolsLocalFirst sampleObject false).syms false) ∧
      (sortSymbolsLocalFirst sampleObject false).relocs.map (·.sym) = [2, 1, 2] :=
  ⟨(symbol_order sampleObject false (by decide)).1, by decide⟩

/-- A table whose entry 0 is global. -/
def globalFirst : Binary :=
  { lielfNew etRel 62 with symbols := [sampleSymbol 'g' 0x10, sampleSymbol 'l' 0] }

/-- A table of 2^32 + 1 local symbols; only the last is named `z`. -/
def longTable : Binary :=
  { lielfNew etRel 62 with
    symbols := List.replicate (2 ^ 32) (sampleSymbol 'a' 0) ++ [sampleSymbol 'z' 0] }

theorem longTable_syms : longTable.syms false =
    List.replicate (2 ^ 32) (sampleSymbol 'a' 0) ++ [sampleSymbol 'z' 0] := rfl

theorem longTable_getD {j : Nat} (h : j < 2 ^ 32) :
    (longTable.syms false).getD j .undef = sampleSymbol 'a' 0 := by
  have hlen : j < (List.replicate (2 ^ 32) (sampleSymbol 'a' 0)).length := by
    rw [List.length_replicate]
    exact h
  rw [longTable_syms, List.getD_eq_getElem?_getD, List.getElem?_append_left hlen,
    List.getElem?_replicate, if_pos h]
  rfl

/-- A global entry 0 stays before the local symbols, and a table of more than 2^32 entries loses
those whose index 32 bits cannot hold. -/
theorem symbol_order_fails :
    (¬ ((sortSymbolsLocalFirst globalFirst false).syms false).Pairwise fun s t =>
        t.isLocal = true → s.isLocal = true) ∧
      ¬ ((sortSymbolsLocalFirst longTable false).syms false).Perm (longTable.syms false) := by
  constructor
  · decide
  · intro hperm
    have hlong : 1 < (longTable.syms false).length := by
      rw [longTable_syms, List.length_append, List.length_replicate]
      omega
    have hz : sampleSymbol 'z' 0 ∈ (sortSymbolsLocalFirst longTable false).syms false :=
      hperm.mem_iff.mpr (longTable_syms ▸ List.mem_append_right _ (List.mem_singleton_self _))
    rw [sort_of_lt hlong, syms_relocs, syms_setSyms] at hz
    obtain ⟨i, -, hi⟩ := List.mem_map.mp hz
    have ha : (longTable.syms false).getD i.toNat .undef = sampleSymbol 'a' 0 :=
      longTable_getD (UInt32.toNat_lt i)
    have hne : sampleSymbol 'a' 0 ≠ sampleSymbol 'z' 0 := by decide
    exact hne (ha.symm.trans hi)

end Cup.Elf
