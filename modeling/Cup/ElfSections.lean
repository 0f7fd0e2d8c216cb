/-
  Sections by name: what finding, adding and updating a section of a binary does.

  An update of a section keeps its name, so it keeps what every search finds; the section that is
  made sure of is the one a search for its name finds afterwards.
-/
import Cup.ElfBuild

namespace Cup.Elf

open Lib.StringTable (CString)

/-! ## Updates of the bytes -/

/-- `maybeUpdateData` changes nothing but the bytes, their number and the dirty mark. -/
theorem maybeUpdateData_eq (buf : Bytes) (s : Section) : maybeUpdateData buf s =
    { s with
      data := (maybeUpdateData buf s).data
      size := (maybeUpdateData buf s).size
      dirty := (maybeUpdateData buf s).dirty } := by
  unfold maybeUpdateData
  split <;> rfl

@[simp] theorem maybeUpdateData_name (buf : Bytes) (s : Section) :
    (maybeUpdateData buf s).name = s.name := by rw [maybeUpdateData_eq]

@[simp] theorem maybeUpdateData_type (buf : Bytes) (s : Section) :
    (maybeUpdateData buf s).type = s.type := by rw [maybeUpdateData_eq]

@[simp] theorem maybeUpdateData_flags (buf : Bytes) (s : Section) :
    (maybeUpdateData buf s).flags = s.flags := by rw [maybeUpdateData_eq]

@[simp] theorem maybeUpdateData_link (buf : Bytes) (s : Section) :
    (maybeUpdateData buf s).link = s.link := by rw [maybeUpdateData_eq]

@[simp] theorem maybeUpdateData_info (buf : Bytes) (s : Section) :
    (maybeUpdateData buf s).info = s.info := by rw [maybeUpdateData_eq]

@[simp] theorem maybeUpdateData_addralign (buf : Bytes) (s : Section) :
    (maybeUpdateData buf s).addralign = s.addralign := by rw [maybeUpdateData_eq]

@[simp] theorem maybeUpdateData_entsize (buf : Bytes) (s : Section) :
    (maybeUpdateData buf s).entsize = s.entsize := by rw [maybeUpdateData_eq]

@[simp] theorem maybeUpdateData_kind (buf : Bytes) (s : Section) :
    (maybeUpdateData buf s).kind = s.kind := by rw [maybeUpdateData_eq]

@[simp] theorem maybeUpdateData_relaDynamic (buf : Bytes) (s : Section) :
    (maybeUpdateData buf s).relaDynamic = s.relaDynamic := by rw [maybeUpdateData_eq]

@[simp] theorem maybeUpdateData_relaTarget (buf : Bytes) (s : Section) :
    (maybeUpdateData buf s).relaTarget = s.relaTarget := by rw [maybeUpdateData_eq]

/-- The bytes are the new ones. -/
theorem maybeUpdateData_data {buf : Bytes} (h : buf ≠ []) (s : Section) :
    (maybeUpdateData buf s).data = some buf := by
  unfold maybeUpdateData
  split
  · rename_i hsame
    exact hsame.1
  · rfl

theorem maybeUpdateData_size (buf : Bytes) (s : Section) :
    (maybeUpdateData buf s).size = UInt64.ofNat buf.length := by
  unfold maybeUpdateData
  split
  · rename_i hsame
    exact hsame.2
  · rfl

/-! ## Search -/

variable {b : Binary} {name : CString} {i : Nat}

theorem getSection_eq_some : getSection b name = some i ↔
    ∃ s, b.sections[i]? = some s ∧ s.name = name ∧ ∀ j < i, ∀ t, b.sections[j]? = some t →
      t.name ≠ name := by
  unfold getSection
  rw [List.findIdx?_eq_some_iff_getElem]
  constructor
  · rintro ⟨hlt, hname, hbefore⟩
    refine ⟨b.sections[i], List.getElem?_eq_getElem hlt, of_decide_eq_true hname,
      fun j hj t ht hname => ?_⟩
    obtain ⟨hjlt, rfl⟩ := List.getElem?_eq_some_iff.mp ht
    exact hbefore j hj (decide_eq_true hname)
  · rintro ⟨s, hs, hname, hbefore⟩
    obtain ⟨hlt, rfl⟩ := List.getElem?_eq_some_iff.mp hs
    refine ⟨hlt, decide_eq_true hname, fun j hj hname => ?_⟩
    exact hbefore j hj _ (List.getElem?_eq_getElem (Nat.lt_trans hj hlt)) (of_decide_eq_true hname)

theorem getSection_eq_none : getSection b name = none ↔ ∀ s ∈ b.sections, s.name ≠ name := by
  unfold getSection
  rw [List.findIdx?_eq_none_iff]
  constructor
  · intro h s hs
    exact of_decide_eq_false (h s hs)
  · intro h s hs
    exact decide_eq_false (h s hs)

/-- A search depends on the names only. -/
theorem getSection_congr {b' : Binary}
    (h : b'.sections.map (·.name) = b.sections.map (·.name)) (name : CString) :
    getSection b' name = getSection b name := by
  have hmap : ∀ l : List Section, l.findIdx? (fun s => decide (s.name = name)) =
      (l.map (·.name)).findIdx? fun n => decide (n = name) := by
    intro l
    rw [List.findIdx?_map]
    rfl
  rw [getSection, getSection, hmap, hmap, h]

theorem map_name_modify {f : Section → Section} (hf : ∀ s, (f s).name = s.name)
    (secs : List Section) (i : Nat) : (secs.modify i f).map (·.name) = secs.map (·.name) := by
  apply List.ext_getElem?
  intro j
  rw [List.getElem?_map, List.getElem?_map, List.getElem?_modify]
  cases secs[j]? with
  | none => rfl
  | some s =>
    show some (if i = j then f s else s).name = some s.name
    split
    · rw [hf]
    · rfl

@[simp] theorem getSection_modifySection {f : Section → Section} (hf : ∀ s, (f s).name = s.name)
    (b : Binary) (i : Nat) (name : CString) :
    getSection (b.modifySection i f) name = getSection b name :=
  getSection_congr (map_name_modify hf b.sections i) name

/-! ## Making sure of a section -/

variable {type : UInt32} {flags addralign : UInt64}

theorem ensureSection_of_some (h : getSection b name = some i) :
    ensureSection b name type flags addralign = (b, i) := by
  unfold ensureSection
  rw [h]

theorem ensureSection_of_none (h : getSection b name = none) :
    ensureSection b name type flags addralign =
      (addSection b name type flags none 0 addralign, b.sections.length) := by
  unfold ensureSection
  rw [h]

/-- The section that was made sure of is found. -/
theorem getSection_ensureSection :
    getSection (ensureSection b name type flags addralign).1 name =
      some (ensureSection b name type flags addralign).2 := by
  cases h : getSection b name with
  | some i =>
    rw [ensureSection_of_some h]
    exact h
  | none =>
    rw [ensureSection_of_none h]
    have hnone := getSection_eq_none.mp h
    refine getSection_eq_some.mpr ⟨newSection name type flags none 0 addralign, ?_, rfl,
      fun j hj t ht hname => ?_⟩
    · show (b.sections ++ [_])[b.sections.length]? = _
      rw [List.getElem?_append_right (Nat.le_refl _), Nat.sub_self]
      rfl
    · have hmem : b.sections[j]? = some t := by
        rw [← ht]
        exact (List.getElem?_append_left hj).symm
      exact hnone t (List.mem_of_getElem? hmem) hname

/-- A section of a binary after an update. -/
theorem sections_modifySection (b : Binary) (i : Nat) (f : Section → Section) (j : Nat) :
    (b.modifySection i f).sections[j]? = (b.sections[j]?).map fun s => if i = j then f s else s := by
  show (b.sections.modify i f)[j]? = _
  rw [List.getElem?_modify]
  rfl

/-- A section that is made sure of and updated is found, with the update. -/
theorem getSection_update (b : Binary) (name : CString) (type : UInt32) (flags addralign : UInt64)
    (f : Section → Section) (hf : ∀ s, (f s).name = s.name) :
    ∃ i s, getSection ((ensureSection b name type flags addralign).1.modifySection
        (ensureSection b name type flags addralign).2 f) name = some i ∧
      ((ensureSection b name type flags addralign).1.modifySection
        (ensureSection b name type flags addralign).2 f).sections[i]? = some (f s) ∧
      s.name = name := by
  have hget : getSection (ensureSection b name type flags addralign).1 name = _ :=
    getSection_ensureSection
  obtain ⟨s, hs, hname, -⟩ := getSection_eq_some.mp hget
  refine ⟨_, s, (getSection_modifySection hf _ _ _).trans hget, ?_, hname⟩
  rw [sections_modifySection, hs, Option.map_some, if_pos rfl]

end Cup.Elf
