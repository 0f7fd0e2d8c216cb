/-
  The tables of a build, made a second time (`lielf_build` of `include/lielf.h`).

  Behind a build a table has the bytes it is written with (`Table.Done`), or it is one without
  symbols whose section holds relocations: the build writes the table, and then the relocations over
  it (`Table.Spare`). A second build does the same, so it leaves what a build has gone through as
  it is (`Regenerated.again`), and wherever the layout has put the sections
  (`Regenerated.elsewhere`).

  Not so with a relocation section named `.dynamic` or `.shstrtab` (`Plain`): these tables are
  written behind the relocations, which find no section the next time.
-/
import Cup.ElfTables

namespace Cup.Elf

open Lib.StringTable (CString)

variable {s s' s'' : Section} {t t' : Table} {P : Section → Prop} {secs secs' : List Section}
  {b b' : Binary} {relocs : List Reloc}

/-! ## What a table finds -/

/-- The first section of the name has a property; it is there if the table is made. -/
def Table.Finds (t : Table) (P : Section → Prop) : List Section → Prop
  | [] => t.must = false
  | s :: ss => if s.name = t.new.name then P s else t.Finds P ss

/-- A table finds what it has written. -/
theorem Table.Ok.finds (h : t.Ok) (hnew : P (t.update t.new))
    (hP : ∀ s ∈ secs, s.name = t.new.name → P (t.update s)) : t.Finds P (t.apply secs) := by
  induction secs with
  | nil =>
    unfold Table.apply
    cases hmust : t.must with
    | false => exact hmust
    | true =>
      show if (t.update t.new).name = t.new.name then _ else _
      rw [if_pos (h.name _)]
      exact hnew
  | cons s ss ih =>
    unfold Table.apply
    by_cases hname : s.name = t.new.name
    · rw [if_pos hname]
      show if (t.update s).name = t.new.name then _ else _
      rw [if_pos ((h.name s).trans hname)]
      exact hP s List.mem_cons_self hname
    · rw [if_neg hname]
      show if s.name = t.new.name then _ else _
      rw [if_neg hname]
      exact ih fun s hs => hP s (List.mem_cons_of_mem _ hs)

/-- A table of another name is left alone. -/
theorem Table.Finds.other (h : t.Finds P secs) (ht : t'.Ok) (hne : t'.new.name ≠ t.new.name) :
    t.Finds P (t'.apply secs) := by
  induction secs with
  | nil =>
    unfold Table.apply
    split
    · show if (t'.update t'.new).name = t.new.name then _ else _
      rw [ht.name, if_neg hne]
      exact h
    · exact h
  | cons s ss ih =>
    unfold Table.Finds at h
    unfold Table.apply
    by_cases hname : s.name = t'.new.name
    · have hother : s.name ≠ t.new.name := fun heq => hne (hname.symm.trans heq)
      rw [if_neg hother] at h
      rw [if_pos hname]
      show if (t'.update s).name = t.new.name then _ else _
      rw [ht.name, if_neg hother]
      exact h
    · rw [if_neg hname]
      show if s.name = t.new.name then _ else _
      split at h
      · rename_i heq
        rw [if_pos heq]
        exact h
      · rename_i heq
        rw [if_neg heq]
        exact ih h

theorem Table.Finds.append (h : t.Finds P secs) {more : List Section}
    (hmore : ∀ s ∈ more, s.name ≠ t.new.name) : t.Finds P (secs ++ more) := by
  induction secs with
  | nil =>
    induction more with
    | nil => exact h
    | cons s ss ih =>
      show if s.name = t.new.name then _ else _
      rw [if_neg (hmore s List.mem_cons_self)]
      exact ih fun s hs => hmore s (List.mem_cons_of_mem _ hs)
  | cons s ss ih =>
    show if s.name = t.new.name then _ else _
    unfold Table.Finds at h
    split at h
    · rename_i heq
      rw [if_pos heq]
      exact h
    · rename_i heq
      rw [if_neg heq]
      exact ih h

/-- What is found is found in another form. -/
theorem Table.Finds.map (h : t.Finds P secs) {f : Section → Section}
    (hname : ∀ s, (f s).name = s.name) (hf : ∀ s, P s → P (f s)) : t.Finds P (secs.map f) := by
  induction secs with
  | nil => exact h
  | cons s ss ih =>
    unfold Table.Finds at h
    show if (f s).name = t.new.name then _ else _
    rw [hname]
    split at h
    · rename_i heq
      rw [if_pos heq]
      exact hf s h
    · rename_i heq
      rw [if_neg heq]
      exact ih h

/-- A section after a table was written: one from before, or an updated one. -/
theorem Table.mem_apply (h : s ∈ t.apply secs) :
    s ∈ secs ∨ ∃ s', s = t.update s' ∧ (s' = t.new ∨ s' ∈ secs ∧ s'.name = t.new.name) := by
  induction secs with
  | nil =>
    unfold Table.apply at h
    split at h
    · exact .inr ⟨_, List.mem_singleton.mp h, .inl rfl⟩
    · cases h
  | cons s₀ ss ih =>
    unfold Table.apply at h
    split at h
    · rename_i hname
      rcases List.mem_cons.mp h with rfl | h
      · exact .inr ⟨s₀, rfl, .inr ⟨List.mem_cons_self, hname⟩⟩
      · exact .inl (List.mem_cons_of_mem _ h)
    · rcases List.mem_cons.mp h with rfl | h
      · exact .inl List.mem_cons_self
      · rcases ih h with h | ⟨s', heq, hmem⟩
        · exact .inl (List.mem_cons_of_mem _ h)
        · exact .inr ⟨s', heq, hmem.imp_right fun hmem => ⟨List.mem_cons_of_mem _ hmem.1, hmem.2⟩⟩

/-- A section of another name is still there. -/
theorem Table.mem_apply_of_ne (h : s ∈ secs) (hne : s.name ≠ t.new.name) : s ∈ t.apply secs := by
  induction secs with
  | nil => cases h
  | cons s₀ ss ih =>
    unfold Table.apply
    rcases List.mem_cons.mp h with rfl | h
    · rw [if_neg hne]
      exact List.mem_cons_self
    · split
      · exact List.mem_cons_of_mem _ h
      · exact List.mem_cons_of_mem _ (ih h)

/-! ## Tables behind a build -/

/-- The section is as the update leaves it. -/
structure Table.Done (t : Table) (s : Section) : Prop where
  kind : s.kind ≠ .rela
  steady : Steady t.update s

/-- A relocation section that has the name of the table: the bytes of the table are written to it
and then those of its relocations. It is marked unless they are the same. -/
structure Table.Spare (t : Table) (s : Section) : Prop where
  kind : s.kind = .rela
  data : s.data ≠ some []
  writes : ∃ buf, buf ≠ [] ∧ t.update = maybeUpdateData buf ∧
    (s.dirty = true ∨ s.data = some buf ∧ s.size = UInt64.ofNat buf.length)

/-- A build has written the table. -/
def Table.Passed (t : Table) (s : Section) : Prop := t.Done s ∨ t.Spare s

/-- No relocation section has the name of a table that is written behind them. -/
def Plain (secs : List Section) : Prop := ∀ s ∈ secs, s.kind = .rela → s.name ∉ lateNames

/-- A table that is done does not change. -/
theorem Table.Finds.apply (h : t.Finds t.Done secs) : t.apply secs = secs := by
  induction secs with
  | nil =>
    unfold Table.apply
    rw [h]
    rfl
  | cons s ss ih =>
    unfold Table.Finds at h
    unfold Table.apply
    split at h
    · rename_i hname
      rw [if_pos hname, h.steady.self]
    · rename_i hname
      rw [if_neg hname, ih h]

theorem Table.Ok.plain (ht : t.Ok) (hplain : Plain secs) : Plain (t.apply secs) := by
  intro s hs hrela
  rcases Table.mem_apply hs with h | ⟨s', rfl, rfl | ⟨hmem, -⟩⟩
  · exact hplain s h hrela
  · exact absurd hrela (ht.kind _ ht.newKind)
  · rw [ht.name]
    exact hplain s' hmem (not_not.mp fun hkind => ht.kind s' hkind hrela)

/-- The relocation sections after a late table was written are those from before. -/
theorem Table.Late.mem_rela (ht : t.Late) (hplain : Plain secs) (hrela : s.kind = .rela) :
    s ∈ t.apply secs ↔ s ∈ secs := by
  constructor
  · intro h
    rcases Table.mem_apply h with h | ⟨s', rfl, rfl | ⟨hmem, hname⟩⟩
    · exact h
    · exact absurd hrela (ht.kind _ ht.newKind)
    · refine absurd hrela (ht.kind _ fun hkind => hplain s' hmem hkind ?_)
      rw [hname]
      exact ht.late
  · intro h
    refine Table.mem_apply_of_ne h fun hname => hplain s h hrela ?_
    rw [hname]
    exact ht.late

/-- A late table is done. -/
theorem Table.Late.done (ht : t.Late) (hplain : Plain secs) : t.Finds t.Done (t.apply secs) := by
  refine ht.finds ⟨ht.kind _ ht.newKind, ht.steady _⟩ fun s hs hname => ?_
  refine ⟨ht.kind s fun hkind => hplain s hs hkind ?_, ht.steady s⟩
  rw [hname]
  exact ht.late

/-- An early table is done, or the relocations are yet to be written over it. -/
theorem Table.Early.passed (ht : t.Early) (secs : List Section) :
    t.Finds t.Passed (t.apply secs) := by
  have hpassed : ∀ s, t.Passed (t.update s) := by
    intro s
    by_cases hkind : (t.update s).kind = .rela
    · obtain ⟨buf, hne, hupdate⟩ := ht.spare s hkind
      have hdata : (t.update s).data = some buf := by
        rw [hupdate]
        exact maybeUpdateData_data hne s
      have hsize : (t.update s).size = UInt64.ofNat buf.length := by
        rw [hupdate]
        exact maybeUpdateData_size buf s
      refine .inr ⟨hkind, fun hnil => hne ?_, buf, hne, hupdate, .inr ⟨hdata, hsize⟩⟩
      exact Option.some.inj (hdata.symm.trans hnil)
    · exact .inl ⟨hkind, ht.steady s⟩
  exact ht.finds (hpassed _) fun s _ _ => hpassed s

/-! ## Relocation sections behind a build -/

/-- A relocation section has the bytes of its relocations; where it has none it is marked. -/
structure RelaWritten (relocs : List Reloc) (s : Section) : Prop where
  entsize : s.entsize = UInt64.ofNat relaSize
  size : s.size = UInt64.ofNat (relaBytes relocs s).length
  data : s.data = some (relaBytes relocs s) ∨
    relaBytes relocs s = [] ∧ s.data = none ∧ s.dirty = true

/-- The section of a relocation is there, and every section has the bytes of its relocations. -/
structure RelasCurrent (relocs : List Reloc) (secs : List Section) : Prop where
  found : ∀ r ∈ relocs, ∃ s ∈ secs, s.isRelaOf r.targetSection r.dynamic = true
  written : ∀ s ∈ secs, s.kind = .rela → RelaWritten relocs s

theorem rebuildOneRela_cases (relocs : List Reloc) (s : Section) :
    s.data = some (relaBytes relocs s) ∧
        rebuildOneRela relocs s = { s with entsize := UInt64.ofNat relaSize } ∨
      rebuildOneRela relocs s = { s with
        entsize := UInt64.ofNat relaSize
        data := if relaBytes relocs s = [] then none else some (relaBytes relocs s)
        size := UInt64.ofNat (relaBytes relocs s).length
        dirty := true } :=
  (maybeUpdateData_cases (relaBytes relocs s) { s with entsize := UInt64.ofNat relaSize }).imp_left
    fun h => ⟨h.1.1, h.2⟩

/-- A relocation section that was written. -/
theorem rebuildOneRela_written (relocs : List Reloc) (s : Section) :
    RelaWritten relocs (rebuildOneRela relocs s) := by
  have hbytes : relaBytes relocs (rebuildOneRela relocs s) = relaBytes relocs s :=
    relaBytes_congr (maybeUpdateData_relaDynamic _ _) (maybeUpdateData_relaTarget _ _)
  refine ⟨maybeUpdateData_entsize _ _, ?_, ?_⟩
  · rw [hbytes]
    exact maybeUpdateData_size _ _
  · rw [hbytes]
    rcases rebuildOneRela_cases relocs s with ⟨hsame, heq⟩ | heq
    · rw [heq]
      exact .inl hsame
    · rw [heq]
      by_cases hnil : relaBytes relocs s = []
      · exact .inr ⟨hnil, if_pos hnil, rfl⟩
      · exact .inl (if_neg hnil)

theorem mem_createRela (h : s ∈ secs) (r : Reloc) : s ∈ createRela secs r := by
  unfold createRela
  split
  · exact h
  · exact List.mem_append_left _ h

theorem mem_foldl_createRela (h : s ∈ secs) (relocs : List Reloc) :
    s ∈ relocs.foldl createRela secs := by
  induction relocs generalizing secs with
  | nil => exact h
  | cons r relocs ih => exact ih (mem_createRela h r)

theorem createRela_found (secs : List Section) (r : Reloc) :
    ∃ s ∈ createRela secs r, s.isRelaOf r.targetSection r.dynamic = true := by
  unfold createRela
  by_cases h : secs.any (Section.isRelaOf r.targetSection r.dynamic) = true
  · rw [if_pos h]
    exact List.any_eq_true.mp h
  · rw [if_neg h]
    refine ⟨newRela r.targetSection r.dynamic, List.mem_append_right _ List.mem_cons_self, ?_⟩
    simp [Section.isRelaOf, newRela, Section.target]

theorem foldl_createRela_found (relocs : List Reloc) (secs : List Section) :
    ∀ r ∈ relocs, ∃ s ∈ relocs.foldl createRela secs,
      s.isRelaOf r.targetSection r.dynamic = true := by
  induction relocs generalizing secs with
  | nil => exact fun r hr => absurd hr List.not_mem_nil
  | cons r relocs ih =>
    intro r' hr'
    rcases List.mem_cons.mp hr' with rfl | hr'
    · obtain ⟨s, hs, hrela⟩ := createRela_found secs r'
      exact ⟨s, mem_foldl_createRela hs relocs, hrela⟩
    · exact ih _ r' hr'

theorem relaSecs_current (relocs : List Reloc) (secs : List Section) :
    RelasCurrent relocs (relaSecs relocs secs) where
  found r hr := by
    obtain ⟨s, hs, hrela⟩ := foldl_createRela_found relocs (eachRela relocs secs) r hr
    refine ⟨_, List.mem_map_of_mem hs, ?_⟩
    rw [if_pos (isRelaOf_kind hrela)]
    exact (isRelaOf_congr (maybeUpdateData_kind _ _) (maybeUpdateData_relaDynamic _ _)
      (maybeUpdateData_relaTarget _ _)).trans hrela
  written s hs hkind := by
    obtain ⟨s', -, rfl⟩ := List.mem_map.mp hs
    by_cases hrela : s'.kind = .rela
    · rw [if_pos hrela]
      exact rebuildOneRela_written relocs s'
    · rw [if_neg hrela] at hkind
      exact absurd hkind hrela

theorem Plain.eachRela (h : Plain secs) (relocs : List Reloc) : Plain (eachRela relocs secs) := by
  intro s hs hkind
  obtain ⟨s', hs', rfl⟩ := List.mem_map.mp hs
  by_cases hrela : s'.kind = .rela
  · rw [if_pos hrela]
    show (maybeUpdateData _ _).name ∉ _
    rw [maybeUpdateData_name]
    exact h s' hs' hrela
  · rw [if_neg hrela] at hkind
    exact absurd hkind hrela

theorem Plain.createRela (h : Plain secs) (r : Reloc) : Plain (createRela secs r) := by
  unfold Elf.createRela
  split
  · exact h
  · intro s hs hkind
    rcases List.mem_append.mp hs with hs | hs
    · exact h s hs hkind
    · obtain rfl := List.mem_singleton.mp hs
      exact relaName_not_late _ _

theorem Plain.foldl (h : Plain secs) (relocs : List Reloc) :
    Plain (relocs.foldl Elf.createRela secs) := by
  induction relocs generalizing secs with
  | nil => exact h
  | cons r relocs ih => exact ih (h.createRela r)

theorem Plain.relaSecs (h : Plain secs) (relocs : List Reloc) : Plain (relaSecs relocs secs) :=
  ((h.eachRela relocs).foldl relocs).eachRela relocs

/-- The relocations are written over a spare table. -/
theorem Table.Spare.rela (h : t.Spare s) (relocs : List Reloc) :
    t.Spare (rebuildOneRela relocs s) := by
  rcases rebuildOneRela_cases relocs s with ⟨-, heq⟩ | heq
  · rw [heq]
    exact ⟨h.kind, h.data, h.writes⟩
  · obtain ⟨buf, hne, hupdate, -⟩ := h.writes
    rw [heq]
    refine ⟨h.kind, fun hnil => ?_, buf, hne, hupdate, .inl rfl⟩
    dsimp only at hnil
    split at hnil
    · cases hnil
    · rename_i hbytes
      exact hbytes (Option.some.inj hnil)

/-- Writing the relocation sections leaves a table as it is, or is written over it. -/
theorem Table.Finds.eachRela (h : t.Finds t.Passed secs) (relocs : List Reloc) :
    t.Finds t.Passed (eachRela relocs secs) := by
  refine h.map (fun s => ?_) fun s hs => ?_
  · split
    · exact maybeUpdateData_name _ _
    · rfl
  · by_cases hrela : s.kind = .rela
    · rw [if_pos hrela]
      rcases hs with hdone | hspare
      · exact absurd hrela hdone.kind
      · exact .inr (hspare.rela relocs)
    · rw [if_neg hrela]
      exact hs

theorem Table.Finds.foldl (h : t.Finds P secs) (hok : t.Ok) (relocs : List Reloc) :
    t.Finds P (relocs.foldl createRela secs) := by
  induction relocs generalizing secs with
  | nil => exact h
  | cons r relocs ih =>
    refine ih ?_
    unfold createRela
    split
    · exact h
    · refine h.append fun s hs hname => ?_
      obtain rfl := List.mem_singleton.mp hs
      have hgen := hok.generated
      rw [← hname] at hgen
      exact relaName_not_generated r.targetSection r.dynamic hgen

theorem Table.Finds.relaSecs (h : t.Finds t.Passed secs) (hok : t.Ok) (relocs : List Reloc) :
    t.Finds t.Passed (relaSecs relocs secs) :=
  ((h.eachRela relocs).foldl hok relocs).eachRela relocs

/-- Writing a late table leaves the relocation sections alone. -/
theorem RelasCurrent.apply {relocs : List Reloc} (h : RelasCurrent relocs secs) (ht : t.Late)
    (hplain : Plain secs) : RelasCurrent relocs (t.apply secs) where
  found r hr := by
    obtain ⟨s, hs, hrela⟩ := h.found r hr
    exact ⟨s, (ht.mem_rela hplain (isRelaOf_kind hrela)).mpr hs, hrela⟩
  written s hs hkind := h.written s ((ht.mem_rela hplain hkind).mp hs) hkind

/-! ## Relocations over a table -/

/-- The bytes of a table over those of a marked relocation section. -/
def Covered (s s' : Section) : Prop :=
  s' = s ∨ s.kind = .rela ∧ s.dirty = true ∧ s.data ≠ some [] ∧
    ∃ buf, buf ≠ [] ∧ s' = { s with data := some buf, size := UInt64.ofNat buf.length }

theorem Covered.trans (h : Covered s s') (h' : Covered s' s'') : Covered s s'' := by
  rcases h with rfl | ⟨hkind, hdirty, hdata, buf, hne, rfl⟩
  · exact h'
  · rcases h' with rfl | ⟨-, -, -, buf', hne', rfl⟩
    · exact .inr ⟨hkind, hdirty, hdata, buf, hne, rfl⟩
    · exact .inr ⟨hkind, hdirty, hdata, buf', hne', rfl⟩

theorem covered_trans {secs'' : List Section} (h : List.Forall₂ Covered secs secs')
    (h' : List.Forall₂ Covered secs' secs'') : List.Forall₂ Covered secs secs'' := by
  induction h generalizing secs'' with
  | nil => exact h'
  | cons hs _ ih =>
    cases h' with
    | cons hs' hss' => exact .cons (hs.trans hs') (ih hss')

theorem covered_refl (secs : List Section) : List.Forall₂ Covered secs secs :=
  List.forall₂_same.mpr fun _ _ => .inl rfl

theorem Table.Spare.covered (h : t.Spare s) : Covered s (t.update s) := by
  obtain ⟨buf, hne, hupdate, hmarked⟩ := h.writes
  rw [hupdate]
  rcases maybeUpdateData_cases buf s with ⟨-, heq⟩ | heq
  · exact .inl heq
  · rcases hmarked with hdirty | hsame
    · rw [if_neg hne, ← hdirty] at heq
      exact .inr ⟨h.kind, hdirty, h.data, buf, hne, heq⟩
    · exact .inl (if_pos hsame)

/-- A table written again is done, or over relocations. -/
theorem Table.Finds.covered (h : t.Finds t.Passed secs) :
    List.Forall₂ Covered secs (t.apply secs) := by
  induction secs with
  | nil =>
    unfold Table.apply
    rw [h]
    exact .nil
  | cons s ss ih =>
    unfold Table.Finds at h
    unfold Table.apply
    split at h
    · rename_i hname
      rw [if_pos hname]
      refine .cons ?_ (covered_refl ss)
      rcases h with hdone | hspare
      · exact .inl hdone.steady.self
      · exact hspare.covered
    · rename_i hname
      rw [if_neg hname]
      exact .cons (.inl rfl) (ih h)

/-- The relocations are written again. -/
theorem RelaWritten.again {relocs : List Reloc} (h : RelaWritten relocs s) (hs : Covered s s') :
    rebuildOneRela relocs s' = s := by
  have hentsize : { s with entsize := UInt64.ofNat relaSize } = s := by rw [← h.entsize]
  -- what is written where the bytes are others
  have hwrite : s.dirty = true → s.data ≠ some [] ∨ relaBytes relocs s = [] ∧ s.data = none →
      ({ s with
        data := if relaBytes relocs s = [] then none else some (relaBytes relocs s)
        size := UInt64.ofNat (relaBytes relocs s).length
        dirty := true } : Section) = s := by
    intro hdirty hdata
    have hsame : (if relaBytes relocs s = [] then none else some (relaBytes relocs s)) =
        s.data := by
      rcases h.data with hsome | ⟨hnil, hnone, -⟩
      · rcases hdata with hne | ⟨-, hnone⟩
        · rw [if_neg fun hnil => hne (by rw [hsome, hnil]), hsome]
        · rw [hsome] at hnone
          cases hnone
      · rw [if_pos hnil, hnone]
    rw [hsame, ← h.size, ← hdirty]
  rcases hs with rfl | ⟨-, hdirty, hdata, buf, hne, rfl⟩
  · show maybeUpdateData (relaBytes relocs s') _ = s'
    rw [hentsize]
    rcases maybeUpdateData_cases (relaBytes relocs s') s' with ⟨-, heq⟩ | heq
    · exact heq
    · rcases h.data with hsome | ⟨hnil, hnone, hdirty⟩
      · exact if_pos ⟨hsome, h.size⟩
      · exact heq.trans (hwrite hdirty (.inr ⟨hnil, hnone⟩))
  · show maybeUpdateData (relaBytes relocs s) { s with
      data := some buf, size := UInt64.ofNat buf.length, entsize := UInt64.ofNat relaSize } = s
    rw [← h.entsize]
    rcases maybeUpdateData_cases (relaBytes relocs s)
      { s with data := some buf, size := UInt64.ofNat buf.length } with ⟨⟨hbuf, -⟩, heq⟩ | heq
    · -- the table has the bytes of the relocations
      obtain rfl := Option.some.inj hbuf
      rcases h.data with hsome | ⟨hnil, -⟩
      · rw [heq, ← hsome, ← h.size]
      · exact absurd hnil hne
    · exact heq.trans (hwrite hdirty (.inl hdata))

theorem RelasCurrent.eachRela {relocs : List Reloc} (h : RelasCurrent relocs secs)
    (hsecs : List.Forall₂ Covered secs secs') : eachRela relocs secs' = secs := by
  have hwritten := h.written
  clear h
  induction hsecs with
  | nil => rfl
  | cons hs _ ih =>
    rename_i s s' ss ss' _
    have htail := ih fun s hs => hwritten s (List.mem_cons_of_mem _ hs)
    have hkind : s'.kind = s.kind := by
      rcases hs with rfl | ⟨-, -, -, buf, -, rfl⟩
      · rfl
      · rfl
    unfold Elf.eachRela at htail ⊢
    rw [List.map_cons, htail, hkind]
    by_cases hrela : s.kind = .rela
    · rw [if_pos hrela, (hwritten s List.mem_cons_self hrela).again hs]
    · rw [if_neg hrela]
      rcases hs with rfl | ⟨hrela', -⟩
      · rfl
      · exact absurd hrela' hrela

theorem RelasCurrent.foldl {relocs : List Reloc} (h : RelasCurrent relocs secs) :
    relocs.foldl createRela secs = secs := by
  have hall : ∀ more : List Reloc, (∀ r ∈ more, r ∈ relocs) →
      more.foldl createRela secs = secs := by
    intro more
    induction more with
    | nil => exact fun _ => rfl
    | cons r more ih =>
      intro hmore
      have hany : secs.any (Section.isRelaOf r.targetSection r.dynamic) = true :=
        List.any_eq_true.mpr (h.found r (hmore r List.mem_cons_self))
      rw [List.foldl_cons, createRela, if_pos hany]
      exact ih fun r hr => hmore r (List.mem_cons_of_mem _ hr)
  exact hall relocs fun _ hr => hr

/-- Current relocation sections come out of the tables that were written over them. -/
theorem RelasCurrent.relaSecs {relocs : List Reloc} (h : RelasCurrent relocs secs)
    (hsecs : List.Forall₂ Covered secs secs') : relaSecs relocs secs' = secs := by
  unfold Elf.relaSecs
  rw [h.eachRela hsecs, h.foldl, h.eachRela (covered_refl secs)]

/-! ## The sections of a build, again -/

/-- A build has written every table of a binary with sorted symbols. -/
structure AllCurrent (b : Binary) (secs : List Section) : Prop where
  symtab : ∀ dynamic, (symtabTable dynamic (b.syms dynamic)).Finds
    (symtabTable dynamic (b.syms dynamic)).Passed secs
  strtab : ∀ dynamic, (strtabTable dynamic (b.syms dynamic)).Finds
    (strtabTable dynamic (b.syms dynamic)).Passed secs
  relas : RelasCurrent b.relocs secs
  dynamic : (dynamicTable b.dynamic).Finds (dynamicTable b.dynamic).Done secs
  shstrtab : (shstrtabTable (secs.map (·.name))).Finds
    (shstrtabTable (secs.map (·.name))).Done secs

theorem symbolTables_plain (b : Binary) (h : Plain secs) : Plain (symbolTables b secs) :=
  (strtabTable_early _ _).plain <| (symtabTable_early _ _).plain <|
    (strtabTable_early _ _).plain <| (symtabTable_early _ _).plain h

/-- The names of the symbol and string tables are different. -/
theorem symtab_ne (dynamic dynamic' : Bool) :
    (if dynamic' then dotDynstr else dotStrtab) ≠ symtabName dynamic := by
  cases dynamic <;> cases dynamic' <;> decide

/-- The tables of the dynamic symbols leave those of the others alone. -/
theorem Table.Finds.dynamics (h : t.Finds P secs) (b : Binary) (hsym : dotDynsym ≠ t.new.name)
    (hstr : dotDynstr ≠ t.new.name) :
    t.Finds P ((strtabTable true (b.syms true)).apply
      ((symtabTable true (b.syms true)).apply secs)) :=
  (h.other (symtabTable_early true _).toOk hsym).other (strtabTable_early true _).toOk hstr

/-- Each symbol table is passed after its own step and left alone by the later ones. -/
theorem symbolTables_symtab (b : Binary) (secs : List Section) (dynamic : Bool) :
    (symtabTable dynamic (b.syms dynamic)).Finds (symtabTable dynamic (b.syms dynamic)).Passed
      (symbolTables b secs) := by
  have hown := fun secs => ((symtabTable_early dynamic (b.syms dynamic)).passed secs).other
    (strtabTable_early dynamic (b.syms dynamic)).toOk (symtab_ne dynamic dynamic)
  cases dynamic with
  | false =>
    exact (hown secs).dynamics b (show dotDynsym ≠ dotSymtab by decide)
      (show dotDynstr ≠ dotSymtab by decide)
  | true => exact hown _

theorem symbolTables_strtab (b : Binary) (secs : List Section) (dynamic : Bool) :
    (strtabTable dynamic (b.syms dynamic)).Finds (strtabTable dynamic (b.syms dynamic)).Passed
      (symbolTables b secs) := by
  have hown := (strtabTable_early dynamic (b.syms dynamic)).passed
  cases dynamic with
  | false =>
    exact (hown _).dynamics b (show dotDynsym ≠ dotStrtab by decide)
      (show dotDynstr ≠ dotStrtab by decide)
  | true => exact hown _

theorem built_current (b : Binary) (hplain : Plain secs) : AllCurrent b (built b secs) := by
  have hdyn := dynamicTable_late b.dynamic
  have hplain₁ := symbolTables_plain b hplain
  have hplain₂ := hplain₁.relaSecs b.relocs
  have hplain₃ := hdyn.plain hplain₂
  refine ⟨fun d => ?_, fun d => ?_, ?_, ?_, ?_⟩
  · have h := (symbolTables_symtab b secs d).relaSecs (symtabTable_early d _).toOk b.relocs
    have hne : ∀ name ∈ lateNames, name ≠ symtabName d := by
      cases d <;> decide
    exact (h.other hdyn.toOk (hne dotDynamic (by decide))).other (shstrtabTable_late _).toOk
      (hne dotShstrtab (by decide))
  · have h := (symbolTables_strtab b secs d).relaSecs (strtabTable_early d _).toOk b.relocs
    have hne : ∀ name ∈ lateNames, name ≠ if d then dotDynstr else dotStrtab := by
      cases d <;> decide
    exact (h.other hdyn.toOk (hne dotDynamic (by decide))).other (shstrtabTable_late _).toOk
      (hne dotShstrtab (by decide))
  · exact ((relaSecs_current b.relocs (symbolTables b secs)).apply hdyn hplain₂).apply
      (shstrtabTable_late _) hplain₃
  · exact (hdyn.done hplain₂).other (shstrtabTable_late _).toOk
      (show dotShstrtab ≠ dotDynamic by decide)
  · have hnames : (built b secs).map (·.name) = shstrtabNames ((dynamicTable b.dynamic).apply
        (relaSecs b.relocs (symbolTables b secs))) :=
      map_name_shstrtab _ _
    rw [hnames]
    exact (shstrtabTable_late _).done hplain₃

/-- The tables of the symbols are written again, some of them over relocations. -/
theorem symbolTables_covered (h : AllCurrent b secs) :
    List.Forall₂ Covered secs (symbolTables b secs) := by
  have hsymtab := h.symtab false
  have hstrtab := (h.strtab false).other (symtabTable_early false (b.syms false)).toOk
    (show dotSymtab ≠ dotStrtab by decide)
  have hdynsym := ((h.symtab true).other (symtabTable_early false (b.syms false)).toOk
    (show dotSymtab ≠ dotDynsym by decide)).other (strtabTable_early false (b.syms false)).toOk
    (show dotStrtab ≠ dotDynsym by decide)
  have hdynstr := (((h.strtab true).other (symtabTable_early false (b.syms false)).toOk
    (show dotSymtab ≠ dotDynstr by decide)).other (strtabTable_early false (b.syms false)).toOk
    (show dotStrtab ≠ dotDynstr by decide)).other (symtabTable_early true (b.syms true)).toOk
    (show dotDynsym ≠ dotDynstr by decide)
  exact covered_trans (covered_trans (covered_trans hsymtab.covered hstrtab.covered)
    hdynsym.covered) hdynstr.covered

/-- What a build has written is built again as it is. -/
theorem built_again (h : AllCurrent b secs) : built b secs = secs := by
  have hnames : shstrtabNames secs = secs.map (·.name) := by
    have hsame := map_name_shstrtab (secs.map (·.name)) secs
    rw [h.shstrtab.apply] at hsame
    exact hsame.symm
  unfold built
  dsimp only
  rw [h.relas.relaSecs (symbolTables_covered h), h.dynamic.apply, hnames, h.shstrtab.apply]

theorem Table.Done.relinked (h : t.Done s) (hs : Relinked s s') : t.Done s' := by
  rw [hs.link h.kind]
  exact ⟨h.kind, fun link => h.steady link⟩

theorem Table.Passed.relinked (h : t.Passed s) (hs : Relinked s s') : t.Passed s' := by
  rcases h with hdone | hspare
  · exact .inl (hdone.relinked hs)
  · rw [hs.eq]
    exact .inr ⟨hspare.kind, hspare.data, hspare.writes⟩

theorem RelasCurrent.links {relocs : List Reloc} (h : RelasCurrent relocs secs) (b : Binary) :
    RelasCurrent relocs (secs.map (resolveLink b)) where
  found r hr := by
    obtain ⟨s, hs, hrela⟩ := h.found r hr
    have hrel := relinked_resolveLink b s
    refine ⟨resolveLink b s, List.mem_map_of_mem hs, ?_⟩
    exact (isRelaOf_congr (by rw [hrel.eq]) (by rw [hrel.eq]) (by rw [hrel.eq])).trans hrela
  written s' hs' hkind := by
    obtain ⟨s, hs, rfl⟩ := List.mem_map.mp hs'
    have hrel := relinked_resolveLink b s
    have hbytes : relaBytes relocs (resolveLink b s) = relaBytes relocs s :=
      relaBytes_congr (by rw [hrel.eq]) (by rw [hrel.eq])
    rw [hrel.eq] at hkind
    obtain ⟨hentsize, hsize, hdata⟩ := h.written s hs hkind
    refine ⟨?_, ?_, ?_⟩
    · rw [hrel.eq]
      exact hentsize
    · rw [hbytes, hrel.eq]
      exact hsize
    · rw [hbytes, hrel.eq]
      exact hdata

/-- Setting the links leaves the tables as they are. -/
theorem AllCurrent.links {c : Binary} (h : AllCurrent b c.sections) :
    AllCurrent b (resolveLinks c).sections := by
  have hname := fun s => (relinked_resolveLink c s).same_name
  have hpassed : ∀ (t : Table) (s : Section), t.Passed s → t.Passed (resolveLink c s) :=
    fun t s hs => hs.relinked (relinked_resolveLink c s)
  have hdone : ∀ (t : Table) (s : Section), t.Done s → t.Done (resolveLink c s) :=
    fun t s hs => hs.relinked (relinked_resolveLink c s)
  refine ⟨fun d => (h.symtab d).map hname (hpassed _), fun d => (h.strtab d).map hname (hpassed _),
    h.relas.links c, h.dynamic.map hname (hdone _), ?_⟩
  rw [map_name_resolveLink]
  exact h.shstrtab.map hname (hdone _)

/-! ## A second build -/

/-- A binary that a build has gone through: nothing is left to do. -/
structure Regenerated (b : Binary) : Prop where
  sorted : ∀ dynamic, ∃ syms, syms.length ≤ 2 ^ 32 ∧ b.syms dynamic = localFirst syms
  current : AllCurrent b b.sections
  links : ∀ s ∈ b.sections, resolveLink b s = s

theorem AllCurrent.congr (h : AllCurrent b secs) (hsyms : ∀ d, b'.syms d = b.syms d)
    (hrelocs : b'.relocs = b.relocs) (hdyn : b'.dynamic = b.dynamic) : AllCurrent b' secs := by
  refine ⟨fun d => ?_, fun d => ?_, ?_, ?_, h.shstrtab⟩
  · rw [hsyms]
    exact h.symtab d
  · rw [hsyms]
    exact h.strtab d
  · rw [hrelocs]
    exact h.relas
  · rw [hdyn]
    exact h.dynamic

theorem regenerated (hsyms : (b.syms false).length ≤ 2 ^ 32) (hdyn : (b.syms true).length ≤ 2 ^ 32)
    (hplain : Plain b.sections) : Regenerated (regenerate b) := by
  have hother := regenerate_other b
  have hsorted := regenerate_syms hsyms hdyn
  have hbuilt := built_current (sorted b) hplain
  rw [← withTables_sections] at hbuilt
  rw [regenerate_eq] at hother hsorted ⊢
  generalize withTables b = c at hother hsorted hbuilt ⊢
  refine ⟨fun d => ⟨b.syms d, ?_, hsorted d⟩,
    hbuilt.links.congr hother.syms hother.relocs hother.dynamic, fun s hs => ?_⟩
  · cases d with
    | false => exact hsyms
    | true => exact hdyn
  · obtain ⟨s₀, -, rfl⟩ := List.mem_map.mp hs
    rw [resolveLink_congr (map_name_resolveLink c), resolveLink_resolveLink]

theorem sorted_of_sorted
    (h : ∀ dynamic, ∃ syms, syms.length ≤ 2 ^ 32 ∧ b.syms dynamic = localFirst syms) :
    sorted b = b := by
  have hsort : ∀ d, sortSymbolsLocalFirst b d = b := fun d => by
    obtain ⟨syms, hlen, heq⟩ := h d
    exact sort_of_sorted heq hlen
  unfold sorted
  rw [hsort, hsort]

/-- The links are set. -/
theorem map_links (h : Regenerated b)
    (hnames : b'.sections.map (·.name) = b.sections.map (·.name)) :
    b.sections.map (resolveLink b') = b.sections := by
  have hsame : b.sections.map (resolveLink b') = b.sections.map id :=
    List.map_congr_left fun s hs => (resolveLink_congr hnames s).trans (h.links s hs)
  rw [hsame, List.map_id]

/-- A second build changes nothing. -/
theorem Regenerated.again (h : Regenerated b) : regenerate b = b := by
  have hsorted := sorted_of_sorted h.sorted
  have hother := regenerate_other b
  rw [hsorted] at hother
  have htables : (withTables b).sections = b.sections := by
    rw [withTables_sections, hsorted, built_again h.current]
  have hlinks : (resolveLinks (withTables b)).sections = b.sections := by
    have hnames : (withTables b).sections.map (·.name) = b.sections.map (·.name) := by rw [htables]
    generalize withTables b = c at htables hnames ⊢
    show c.sections.map (resolveLink c) = _
    rw [htables, map_links h hnames]
  rw [← regenerate_eq] at hlinks
  rw [hother, hlinks]

/-! ## A second build elsewhere -/

/-- A table makes the same of sections in other places. -/
theorem Table.Ok.apply_cleaner (ht : t.Ok) (h : List.Forall₂ Cleaner secs secs') :
    List.Forall₂ Cleaner (t.apply secs) (t.apply secs') := by
  induction h with
  | nil =>
    unfold Table.apply
    split
    · exact .cons (.refl _) .nil
    · exact .nil
  | cons hs hss ih =>
    unfold Table.apply
    rw [hs.placed.name]
    split
    · exact .cons (ht.cleaner _ _ hs) hss
    · exact .cons hs ih

/-- A table is written where its section is. -/
theorem Table.Ok.apply_position (ht : t.Ok) (secs : List Section) :
    secs.map Section.position <+: (t.apply secs).map Section.position := by
  induction secs with
  | nil => exact List.nil_prefix
  | cons s ss ih =>
    unfold Table.apply
    split
    · have hsame : (t.update s :: ss).map Section.position = (s :: ss).map Section.position := by
        rw [List.map_cons, List.map_cons, ht.position]
      exact hsame ▸ List.prefix_rfl
    · exact (List.prefix_cons_inj _).mpr ih

theorem rebuildOneRela_cleaner (relocs : List Reloc) (h : Cleaner s s') :
    Cleaner (rebuildOneRela relocs s) (rebuildOneRela relocs s') := by
  have hrelocs : relocsOf relocs s' = relocsOf relocs s := by
    rw [h.placed.eq]
    rfl
  have hcleaner : Cleaner { s with entsize := UInt64.ofNat relaSize }
      { s' with entsize := UInt64.ofNat relaSize } := ⟨⟨by rw [h.placed.eq]⟩, h.dirty⟩
  unfold rebuildOneRela
  rw [hrelocs]
  exact hcleaner.maybeUpdateData _

theorem eachRela_cleaner (relocs : List Reloc) (h : List.Forall₂ Cleaner secs secs') :
    List.Forall₂ Cleaner (eachRela relocs secs) (eachRela relocs secs') := by
  refine List.forall₂_map_left_iff.mpr (List.forall₂_map_right_iff.mpr (h.imp fun s s' hs => ?_))
  have hkind : s'.kind = s.kind := by rw [hs.placed.eq]
  rw [hkind]
  split
  · exact rebuildOneRela_cleaner relocs hs
  · exact hs

theorem any_isRelaOf_cleaner (h : List.Forall₂ Cleaner secs secs') (target : CString)
    (dynamic : Int) :
    secs'.any (Section.isRelaOf target dynamic) = secs.any (Section.isRelaOf target dynamic) := by
  induction h with
  | nil => rfl
  | cons hs _ ih =>
    rename_i s s' ss ss' _
    have hhead : s'.isRelaOf target dynamic = s.isRelaOf target dynamic :=
      isRelaOf_congr (by rw [hs.placed.eq]) (by rw [hs.placed.eq]) (by rw [hs.placed.eq])
    rw [List.any_cons, List.any_cons, ih, hhead]

theorem foldl_cleaner (relocs : List Reloc) (h : List.Forall₂ Cleaner secs secs') :
    List.Forall₂ Cleaner (relocs.foldl createRela secs) (relocs.foldl createRela secs') := by
  induction relocs generalizing secs secs' with
  | nil => exact h
  | cons r relocs ih =>
    refine ih ?_
    unfold createRela
    rw [any_isRelaOf_cleaner h]
    split
    · exact h
    · exact List.rel_append h (.cons (.refl _) .nil)

theorem relaSecs_cleaner (relocs : List Reloc) (h : List.Forall₂ Cleaner secs secs') :
    List.Forall₂ Cleaner (relaSecs relocs secs) (relaSecs relocs secs') :=
  eachRela_cleaner relocs (foldl_cleaner relocs (eachRela_cleaner relocs h))

theorem map_name_cleaner (h : List.Forall₂ Cleaner secs secs') :
    secs'.map (·.name) = secs.map (·.name) := by
  induction h with
  | nil => rfl
  | cons hs _ ih => rw [List.map_cons, List.map_cons, ih, hs.placed.name]

theorem symbolTables_cleaner (b : Binary) (h : List.Forall₂ Cleaner secs secs') :
    List.Forall₂ Cleaner (symbolTables b secs) (symbolTables b secs') :=
  (strtabTable_early _ _).apply_cleaner <| (symtabTable_early _ _).apply_cleaner <|
    (strtabTable_early _ _).apply_cleaner <| (symtabTable_early _ _).apply_cleaner h

/-- The tables do not depend on the places of the sections. -/
theorem built_cleaner (b : Binary) (h : List.Forall₂ Cleaner secs secs') :
    List.Forall₂ Cleaner (built b secs) (built b secs') := by
  have hdyn := (dynamicTable_late b.dynamic).apply_cleaner
    (relaSecs_cleaner b.relocs (symbolTables_cleaner b h))
  have hnames := map_name_cleaner ((shstrtabTable_late []).apply_cleaner hdyn)
  unfold built shstrtabNames
  dsimp only
  rw [hnames]
  exact (shstrtabTable_late _).apply_cleaner hdyn

theorem eachRela_position (relocs : List Reloc) (secs : List Section) :
    (eachRela relocs secs).map Section.position = secs.map Section.position := by
  unfold eachRela
  rw [List.map_map]
  refine List.map_congr_left fun s _ => ?_
  show (if s.kind = .rela then rebuildOneRela relocs s else s).position = s.position
  split
  · exact maybeUpdateData_position _ _
  · rfl

theorem foldl_position (relocs : List Reloc) (secs : List Section) :
    secs.map Section.position <+: (relocs.foldl createRela secs).map Section.position := by
  induction relocs generalizing secs with
  | nil => exact List.prefix_rfl
  | cons r relocs ih =>
    refine List.IsPrefix.trans ?_ (ih _)
    unfold createRela
    split
    · exact List.prefix_rfl
    · rw [List.map_append]
      exact List.prefix_append _ _

/-- The tables leave the sections where they are. -/
theorem built_position (b : Binary) (secs : List Section) :
    secs.map Section.position <+: (built b secs).map Section.position := by
  have hsyms : secs.map Section.position <+: (symbolTables b secs).map Section.position :=
    ((symtabTable_early _ _).apply_position _).trans <|
      ((strtabTable_early _ _).apply_position _).trans <|
        ((symtabTable_early _ _).apply_position _).trans ((strtabTable_early _ _).apply_position _)
  have hrelas : (symbolTables b secs).map Section.position <+:
      (relaSecs b.relocs (symbolTables b secs)).map Section.position := by
    have hfold := foldl_position b.relocs (eachRela b.relocs (symbolTables b secs))
    unfold relaSecs
    rw [eachRela_position] at hfold ⊢
    exact hfold
  exact hsyms.trans <| hrelas.trans <| ((dynamicTable_late _).apply_position _).trans
    ((shstrtabTable_late _).apply_position _)

theorem resolveLink_cleaner (b : Binary) (h : Cleaner s s') :
    Cleaner (resolveLink b s) (resolveLink b s') := by
  have hplace : ∀ (s : Section) offset addr loadedAlloc dirty,
      resolveLink b { s with offset, addr, loadedAlloc, dirty } =
        { resolveLink b s with offset, addr, loadedAlloc, dirty } := by
    intro s _ _ _ _
    rcases s with ⟨⟩
    rename_i kind _ _ _ _
    cases kind <;> rfl
  have hdirty : (resolveLink b s).dirty = s.dirty := by
    rw [(relinked_resolveLink b s).eq]
  refine ⟨⟨?_⟩, fun hmarked => ?_⟩
  · rw [h.placed.eq, hplace]
  · rw [(relinked_resolveLink b s').eq] at hmarked
    rw [hdirty]
    exact h.dirty hmarked

/-- A build of the same binary with its sections in other places leaves them there, and marks only
those that the first build has marked. -/
theorem Regenerated.elsewhere (h : Regenerated b) (hsyms : ∀ d, b'.syms d = b.syms d)
    (hrelocs : b'.relocs = b.relocs) (hdyn : b'.dynamic = b.dynamic)
    (hsecs : List.Forall₂ Cleaner b.sections b'.sections) :
    regenerate b' = { b' with sections := (regenerate b').sections } ∧
      List.Forall₂ Cleaner b.sections (regenerate b').sections ∧
      (regenerate b').sections.map Section.position = b'.sections.map Section.position := by
  have hsorted : Elf.sorted b' = b' := sorted_of_sorted fun d => hsyms d ▸ h.sorted d
  have hother := regenerate_other b'
  rw [hsorted] at hother
  have hbuilt : built b' b'.sections = built b b'.sections := by
    unfold built symbolTables
    dsimp only
    rw [hsyms, hsyms, hrelocs, hdyn]
  have htables : List.Forall₂ Cleaner b.sections (withTables b').sections := by
    have hcleaner := built_cleaner b hsecs
    rwa [built_again h.current, ← hbuilt, ← congrArg (built · b'.sections) hsorted,
      ← withTables_sections] at hcleaner
  have hposition : b'.sections.map Section.position <+:
      (withTables b').sections.map Section.position := by
    rw [withTables_sections]
    exact built_position _ _
  rw [regenerate_eq] at hother ⊢
  generalize withTables b' = c at htables hposition hother ⊢
  have hlinked : List.Forall₂ Cleaner b.sections (resolveLinks c).sections := by
    have hmap : List.Forall₂ Cleaner (b.sections.map (resolveLink c))
        (c.sections.map (resolveLink c)) :=
      List.forall₂_map_left_iff.mpr (List.forall₂_map_right_iff.mpr
        (htables.imp fun _ _ hs => resolveLink_cleaner c hs))
    rwa [map_links h (map_name_cleaner htables)] at hmap
  have hkept : (resolveLinks c).sections.map Section.position =
      c.sections.map Section.position := by
    show (c.sections.map (resolveLink c)).map Section.position = _
    rw [List.map_map]
    refine List.map_congr_left fun s _ => ?_
    show (resolveLink c s).position = s.position
    rw [(relinked_resolveLink c s).eq]
    rfl
  refine ⟨hother, hlinked, ?_⟩
  rw [hkept]
  refine (hposition.eq_of_length ?_).symm
  rw [List.length_map, List.length_map, ← hsecs.length_eq, htables.length_eq]

end Cup.Elf
